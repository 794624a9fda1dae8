import PeerDma.Platform

/-!
# Channels for experiments

A `Lane` is one of the two channels. It records what it takes, ends submissions at once or keeps
their tokens for later, and can be told to refuse one attempt.
-/

namespace PeerDma

namespace Bench

/-- When submissions end. -/
inductive Ending where
  /-- Before the channel answers. -/
  | immediate
  /-- When all are told to. -/
  | deferred
  /-- When each is told to. -/
  | manual
  deriving DecidableEq, Repr

/-- A scripted channel. -/
structure Lane where
  ending : Ending := .immediate
  /-- What it has taken, the last one first. -/
  requests : List Request := []
  /-- Tokens it keeps, with the instance they belong to, the last one first. -/
  pending : List (Nat × Token) := []
  attempts : Nat := 0
  /-- The attempt to refuse, counted from zero. -/
  refuseAt : Option Nat := none
  deriving DecidableEq, Repr

namespace Lane

/-- Takes or refuses a submission. A refused token is thrown away. -/
def submit (l : Lane) (inst : Nat) (token : Token) (request : Request) :
    Except Error Unit × List Token × Lane :=
  let attempt := l.attempts
  let l := { l with attempts := attempt + 1 }
  if l.refuseAt = some attempt then (.error (.driverError (-5)), [token], l)
  else
    let l := { l with requests := request :: l.requests }
    match l.ending with
    | .immediate => (.ok (), [token], l)
    | _ => (.ok (), [], { l with pending := (inst, token) :: l.pending })

/-- All tokens kept, the first one first, and the channel without them. -/
def takeAll (l : Lane) : List (Nat × Token) × Lane :=
  (l.pending.reverse, { l with pending := [] })

/-- One token kept by a channel whose submissions end one by one, counted from the first. -/
def takeOne? (l : Lane) (index : Nat) : Option ((Nat × Token) × Lane) :=
  if l.ending = .manual then
    let tokens := l.pending.reverse
    tokens[index]?.map fun kept => (kept, { l with pending := (tokens.eraseIdx index).reverse })
  else none

end Lane

end Bench

end PeerDma
