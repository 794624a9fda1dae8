import Mathlib.Data.List.Induction
import Mathlib.Data.List.Nodup
import Mathlib.Logic.Relation
import PeerDma.WaitSlot

/-!
# Waiters around a slot

Waiters are made, put into a slot, taken out of it, displaced from it and woken, by anybody and in
any order. None gets lost on the way: each is in one place. Nor is one stranded, if a call that
comes back always wakes the waiter which its own has displaced: waking the occupant of the slot then
wakes one waiter after the other, down to the first that came into the slot when it was empty.

* `WaitRoom.Act`, `WaitRecord`: what may be done with waiters, and a record of what has been done.
* `WaitRecord.Step`, `WaitRecord.Kept`: what an act does, and what every act keeps.
* `WaitRecord.Forwards`: the calls that come back wake the waiters that they have displaced.
* `WaitRecord.Linked`: chains of displaced waiters hang on the occupant of the slot.
* `WaitRecord.waiters_conserved`: no waiter is lost, and none is stranded.
-/

namespace PeerDma

namespace WaitRoom

/-! ## Acts -/

/-- Wakes one waiter that has been taken out of the slot or displaced from it. -/
def wakeHeld (r : WaitRoom) (w : Waiter) : WaitRoom :=
  if w ∈ r.taken then { r with taken := r.taken.erase w, woken := r.woken ++ [w] }
  else if w ∈ r.displaced then
    { r with displaced := r.displaced.erase w, woken := r.woken ++ [w] }
  else r

/-- The call of a woken waiter comes back and wakes the displaced waiter that it holds, if any. -/
def forward (r : WaitRoom) (w : Waiter) (held : Option Waiter) : WaitRoom :=
  if r.canReturn w ∧ ∀ d ∈ held, d ∈ r.displaced then
    { r with
      returned := w :: r.returned
      displaced := held.elim r.displaced r.displaced.erase
      woken := r.woken ++ held.toList }
  else r

theorem park_snd (r : WaitRoom) (w : Waiter) : (r.park w).2 = r.forward w none := by
  unfold park forward
  cases r.canReturn w <;> simp

theorem parkAndForward_snd (r : WaitRoom) (w : Waiter) :
    (r.parkAndForward w).2 = r.forward w r.displaced.head? := by
  unfold parkAndForward forward
  cases r.canReturn w with
  | false => simp
  | true => cases hd : r.displaced <;> simp

/-- What may be done with waiters. An act that names a waiter in the wrong place does nothing. -/
inductive Act where
  | make
  | install (w : Waiter)
  | take
  | wake (w : Waiter)
  | wakeTaken
  | wakeDisplaced
  | wakeHeld (w : Waiter)
  | park (w : Waiter)
  | parkAndForward (w : Waiter)
  | forward (w : Waiter) (held : Option Waiter)
  deriving DecidableEq, Repr

/-- The room after an act. -/
def perform (r : WaitRoom) : Act → WaitRoom
  | .make => r.make.2
  | .install w => (r.install w).2
  | .take => r.take.2
  | .wake w => (r.wake w).2
  | .wakeTaken => r.wakeTaken.2
  | .wakeDisplaced => r.wakeDisplaced.2
  | .wakeHeld w => r.wakeHeld w
  | .park w => (r.park w).2
  | .parkAndForward w => (r.parkAndForward w).2
  | .forward w held => r.forward w held

namespace Act

variable (r : WaitRoom)

/-- Who comes into the slot by an act, and whom that displaces. -/
def installs? : Act → Option (Waiter × Option Waiter)
  | .install w => if w ∈ r.idle then some (w, r.slot.occupant) else none
  | _ => none

/-- Whose call an act is to let come back, and which displaced waiter the call wakes. -/
def call? : Act → Option (Waiter × Option Waiter)
  | .park w => some (w, none)
  | .parkAndForward w => some (w, r.displaced.head?)
  | .forward w held => some (w, held)
  | _ => none

/-- Whose call comes back by an act, and which displaced waiter it wakes. -/
def returns? (a : Act) : Option (Waiter × Option Waiter) :=
  (a.call? r).filter fun c => r.canReturn c.1 ∧ ∀ d ∈ c.2, d ∈ r.displaced

/-- Who is woken by an act. -/
def wakes : Act → List Waiter
  | .wake w => if w ∈ r.idle then [w] else []
  | .wakeTaken => r.taken
  | .wakeDisplaced => r.displaced
  | .wakeHeld w => if w ∈ r.taken ∨ w ∈ r.displaced then [w] else []
  | a => ((a.returns? r).bind Prod.snd).toList

end Act

/-! ## What acts do -/

/-- Waiters outside the slot are woken, and calls of woken waiters come back. -/
structure Rouses (r r' : WaitRoom) (woken back : List Waiter) : Prop where
  count : r'.count = r.count
  slot : r'.slot = r.slot
  idle : r'.idle ⊆ r.idle
  displaced : r'.displaced ⊆ r.displaced
  left : ∀ d ∈ r.displaced, d ∈ r'.displaced ∨ d ∈ woken
  outside : (r'.idle ++ r'.taken ++ r'.displaced ++ woken).Perm (r.idle ++ r.taken ++ r.displaced)
  woken : r'.woken = r.woken ++ woken
  returned : r'.returned = back ++ r.returned
  back : ∀ w ∈ back, w ∈ r.woken

theorem Rouses.refl (r : WaitRoom) : Rouses r r [] [] where
  count := rfl
  slot := rfl
  idle := List.Subset.refl _
  displaced := List.Subset.refl _
  left _ hd := .inl hd
  outside := by rw [List.append_nil]
  woken := (List.append_nil _).symm
  returned := rfl
  back := nofun

/-- Taking a waiter out of a list takes one away. -/
theorem count_of_mem {waiters : List Waiter} {w : Waiter} (h : w ∈ waiters) (x : Waiter) :
    waiters.count x = (waiters.erase w).count x + [w].count x := by
  rw [(List.perm_cons_erase h).count_eq, ← List.singleton_append, List.count_append, Nat.add_comm]

theorem rouses_wake (r : WaitRoom) (w : Waiter) :
    Rouses r (r.wake w).2 (if w ∈ r.idle then [w] else []) [] := by
  unfold wake
  split
  · next hw =>
    refine { Rouses.refl r with
      idle := List.erase_subset
      left := fun _ => .inl
      outside := List.perm_iff_count.2 fun x => ?_
      woken := rfl }
    simp only [List.count_append, count_of_mem hw x]
    omega
  · exact .refl r

theorem rouses_wakeTaken (r : WaitRoom) : Rouses r r.wakeTaken.2 r.taken [] where
  __ := Rouses.refl r
  left _ := .inl
  outside := List.perm_iff_count.2 fun x => by
    simp only [wakeTaken, List.count_append, List.count_nil]
    omega
  woken := rfl

theorem rouses_wakeDisplaced (r : WaitRoom) : Rouses r r.wakeDisplaced.2 r.displaced [] where
  __ := Rouses.refl r
  displaced := List.nil_subset _
  left _ := .inr
  outside := by simp [wakeDisplaced]
  woken := rfl

/-- A displaced waiter that is not taken away stays. -/
theorem mem_erase_or {waiters : List Waiter} {w d : Waiter} (h : d ∈ waiters) :
    d ∈ waiters.erase w ∨ d ∈ [w] := by
  by_cases hd : d = w
  · exact .inr (List.mem_singleton.2 hd)
  · exact .inl ((List.mem_erase_of_ne hd).2 h)

theorem rouses_wakeHeld (r : WaitRoom) (w : Waiter) :
    Rouses r (r.wakeHeld w) (if w ∈ r.taken ∨ w ∈ r.displaced then [w] else []) [] := by
  unfold wakeHeld
  by_cases htaken : w ∈ r.taken
  · rw [if_pos htaken, if_pos (.inl htaken)]
    refine { Rouses.refl r with
      left := fun _ => .inl
      outside := List.perm_iff_count.2 fun x => ?_
      woken := rfl }
    simp only [List.count_append, count_of_mem htaken x]
    omega
  by_cases hdisplaced : w ∈ r.displaced
  · rw [if_neg htaken, if_pos hdisplaced, if_pos (.inr hdisplaced)]
    refine { Rouses.refl r with
      displaced := List.erase_subset
      left := fun _ => mem_erase_or
      outside := List.perm_iff_count.2 fun x => ?_
      woken := rfl }
    simp only [List.count_append, count_of_mem hdisplaced x]
    omega
  · rw [if_neg htaken, if_neg hdisplaced, if_neg (by simp [htaken, hdisplaced])]
    exact .refl r

theorem canReturn_iff {r : WaitRoom} {w : Waiter} :
    r.canReturn w ↔ w ∈ r.woken ∧ w ∉ r.returned := by
  simp [canReturn]

theorem rouses_forward (r : WaitRoom) (w : Waiter) (held : Option Waiter) :
    Rouses r (r.forward w held) (((Act.forward w held).returns? r).bind Prod.snd).toList
      (((Act.forward w held).returns? r).map Prod.fst).toList := by
  unfold forward Act.returns? Act.call?
  rw [Option.filter_some]
  by_cases h : r.canReturn w ∧ ∀ d ∈ held, d ∈ r.displaced
  case neg =>
    rw [if_neg h, if_neg (by simpa using h)]
    exact .refl r
  have hback : ∀ v ∈ [w], v ∈ r.woken := by simpa using (canReturn_iff.1 h.1).1
  rw [if_pos h, if_pos (decide_eq_true h)]
  cases held with
  | none =>
    exact { Rouses.refl r with woken := rfl, returned := rfl, back := hback }
  | some d =>
    refine { Rouses.refl r with
      displaced := List.erase_subset
      left := fun _ => mem_erase_or
      outside := List.perm_iff_count.2 fun x => ?_
      woken := rfl
      returned := rfl
      back := hback }
    simp only [Option.elim_some, Option.bind_some, Option.toList_some, List.count_append,
      count_of_mem (h.2 d rfl) x]
    omega

/-- The waiters in all five places: not in use yet, in the slot, taken, displaced, and woken. -/
def everyone (r : WaitRoom) : List Waiter :=
  r.idle ++ r.slot.occupant.toList ++ r.taken ++ r.displaced ++ r.woken

/-- All waiters that have been made. -/
def made (r : WaitRoom) : List Waiter := (List.range r.count).map Waiter.mk

theorem mem_made {r : WaitRoom} {w : Waiter} : w ∈ r.made ↔ w.id < r.count := by
  simp only [made, List.mem_map, List.mem_range]
  exact ⟨by rintro ⟨i, hi, rfl⟩; exact hi, fun h => ⟨w.id, h, rfl⟩⟩

theorem nodup_made (r : WaitRoom) : r.made.Nodup :=
  List.nodup_range.map fun _ _ => Waiter.mk.inj

end WaitRoom

/-! ## Records -/

/-- A room and what has happened in it. -/
structure WaitRecord where
  room : WaitRoom := {}
  /-- Who has come into the slot, and whom that has displaced. -/
  installs : List (Waiter × Option Waiter) := []
  /-- Who has come into the slot since it was last empty. -/
  recent : List Waiter := []
  /-- Who has been woken. -/
  wakes : List Waiter := []

namespace WaitRecord

open WaitRoom

/-- The record after an act. -/
def perform (s : WaitRecord) (a : Act) : WaitRecord where
  room := s.room.perform a
  installs := s.installs ++ (a.installs? s.room).toList
  recent := if (s.room.perform a).slot.isOccupied then
    s.recent ++ ((a.installs? s.room).map Prod.fst).toList else []
  wakes := s.wakes ++ a.wakes s.room

/-- The record after acts. -/
def run (s : WaitRecord) (acts : List Act) : WaitRecord := acts.foldl perform s

/-- The record of acts, from the first one on. -/
def after (acts : List Act) : WaitRecord := WaitRecord.run {} acts

theorem run_append (s : WaitRecord) (acts more : List Act) :
    s.run (acts ++ more) = (s.run acts).run more := List.foldl_append

theorem run_concat (s : WaitRecord) (acts : List Act) (a : Act) :
    s.run (acts ++ [a]) = (s.run acts).perform a := run_append s acts [a]

theorem after_append (acts more : List Act) : after (acts ++ more) = (after acts).run more :=
  run_append {} acts more

theorem after_concat (acts : List Act) (a : Act) : after (acts ++ [a]) = (after acts).perform a :=
  after_append acts [a]

/-- What an act may do. Those who have come into the slot lately can only be forgotten, but for the
one who comes in. -/
inductive Step (s : WaitRecord) : Act → WaitRecord → Prop where
  /-- There is one waiter more. -/
  | make {recent : List Waiter} (since : recent ⊆ s.recent) : Step s .make
      { s with
        recent
        room := { s.room with
          count := s.room.count + 1, idle := s.room.idle ++ [⟨s.room.count⟩] } }
  /-- A waiter comes into the slot and displaces the one that is there. -/
  | install {w : Waiter} (idle : w ∈ s.room.idle) : Step s (.install w)
      { s with
        recent := s.recent ++ [w]
        installs := s.installs ++ [(w, s.room.slot.occupant)]
        room := { s.room with
          slot := ⟨some w⟩
          idle := s.room.idle.erase w
          displaced := s.room.slot.occupant.toList ++ s.room.displaced } }
  /-- The slot is left empty. -/
  | take : Step s .take
      { s with
        recent := []
        room := { s.room with
          slot := .empty, taken := s.room.taken ++ s.room.slot.occupant.toList } }
  /-- Waiters are woken, and calls come back. -/
  | rouse {a : Act} {room : WaitRoom} {recent : List Waiter} (makes : a ≠ .make)
      (since : recent ⊆ s.recent)
      (h : Rouses s.room room (a.wakes s.room) ((a.returns? s.room).map Prod.fst).toList) :
      Step s a { s with room, recent, wakes := s.wakes ++ a.wakes s.room }

namespace Step

variable {s : WaitRecord}

theorem since {a : Act} (h : a.installs? s.room = none) : (s.perform a).recent ⊆ s.recent := by
  simp only [WaitRecord.perform, h]
  split <;> simp

theorem of_rouses {a : Act} (makes : a ≠ .make) (installs : a.installs? s.room = none)
    (h : Rouses s.room (s.room.perform a) (a.wakes s.room)
      ((a.returns? s.room).map Prod.fst).toList) : Step s a (s.perform a) := by
  have hperform : s.perform a = { s with
      room := s.room.perform a
      recent := (s.perform a).recent
      wakes := s.wakes ++ a.wakes s.room } := by
    simp [WaitRecord.perform, installs]
  rw [hperform]
  exact .rouse makes (since installs) h

end Step

theorem step_perform (s : WaitRecord) (a : Act) : Step s a (s.perform a) := by
  cases a with
  | make =>
    have hstep := Step.make (Step.since (s := s) (a := .make) rfl)
    simpa [perform, WaitRoom.perform, WaitRoom.make, Act.wakes, Act.returns?, Act.call?,
      Act.installs?] using hstep
  | install w =>
    by_cases hw : w ∈ s.room.idle
    · simpa [perform, WaitRoom.perform, WaitRoom.install, WaitSlot.install, WaitSlot.isOccupied,
        Act.wakes, Act.returns?, Act.call?, Act.installs?, hw] using Step.install hw
    · refine .of_rouses nofun (if_neg hw) ?_
      rw [WaitRoom.perform, WaitRoom.install, if_neg hw]
      exact .refl _
  | take =>
    have hstep := Step.take (s := s)
    simpa [perform, WaitRoom.perform, WaitRoom.take, WaitSlot.take, WaitSlot.empty,
      WaitSlot.isOccupied, Act.wakes, Act.returns?, Act.call?, Act.installs?] using hstep
  | wake w => exact .of_rouses nofun rfl (rouses_wake s.room w)
  | wakeTaken => exact .of_rouses nofun rfl (rouses_wakeTaken s.room)
  | wakeDisplaced => exact .of_rouses nofun rfl (rouses_wakeDisplaced s.room)
  | wakeHeld w => exact .of_rouses nofun rfl (rouses_wakeHeld s.room w)
  | park w =>
    refine .of_rouses nofun rfl ?_
    rw [WaitRoom.perform, park_snd]
    exact rouses_forward s.room w none
  | parkAndForward w =>
    refine .of_rouses nofun rfl ?_
    rw [WaitRoom.perform, parkAndForward_snd]
    exact rouses_forward s.room w s.room.displaced.head?
  | forward w held => exact .of_rouses nofun rfl (rouses_forward s.room w held)

/-- What every act keeps. -/
structure Kept (s : WaitRecord) : Prop where
  /-- Every waiter is in one place. -/
  places : s.room.everyone.Perm s.room.made
  woken : s.room.woken = s.wakes
  /-- Only calls of woken waiters have come back. -/
  returned : s.room.returned ⊆ s.room.woken
  /-- Who has come into the slot is not left to come again. -/
  used : ∀ i ∈ s.installs, i.1 ∉ s.room.idle ∧ i.1 ∈ s.room.made
  /-- Who has been displaced stays so until woken. -/
  displaced : ∀ w d, (w, some d) ∈ s.installs → d ∈ s.room.displaced ∨ d ∈ s.room.woken
  /-- Who is displaced has been displaced by somebody. -/
  holder : ∀ d ∈ s.room.displaced, ∃ w, (w, some d) ∈ s.installs
  /-- Nobody displaces twice or is displaced twice. -/
  once : ∀ i ∈ s.installs, ∀ j ∈ s.installs, i.1 = j.1 ∨ (∃ d, i.2 = some d ∧ j.2 = some d) → i = j

namespace Kept

variable {s : WaitRecord} {recent : List Waiter}

theorem nodup (h : s.Kept) : s.room.everyone.Nodup := h.places.nodup_iff.2 s.room.nodup_made

theorem mem_made (h : s.Kept) {w : Waiter} (hw : w ∈ s.room.everyone) : w ∈ s.room.made :=
  h.places.mem_iff.1 hw

/-- The occupant of the slot is nowhere else. -/
theorem occupant (h : s.Kept) {d : Waiter} (hd : s.room.slot.occupant = some d) :
    d ∉ s.room.displaced ∧ d ∉ s.room.woken := by
  have hcount := List.nodup_iff_count_le_one.1 h.nodup d
  simp only [everyone, hd, Option.toList_some, List.count_append,
    List.count_singleton_self] at hcount
  constructor <;> (rw [← List.count_eq_zero]; omega)

/-- An unused waiter has not been woken. -/
theorem idle (h : s.Kept) {w : Waiter} (hw : w ∈ s.room.idle) : w ∉ s.room.woken := by
  have hcount := List.nodup_iff_count_le_one.1 h.nodup w
  simp only [everyone, List.count_append, count_of_mem hw w, List.count_singleton_self] at hcount
  rw [← List.count_eq_zero]
  omega

theorem make (h : s.Kept) : Kept { s with recent, room := { s.room with
    count := s.room.count + 1, idle := s.room.idle ++ [⟨s.room.count⟩] } } := by
  have hmade : (List.range (s.room.count + 1)).map Waiter.mk =
      s.room.made ++ [⟨s.room.count⟩] := by
    simp [made, List.range_succ]
  refine { h with places := ?_, used := fun i hi => ?_ }
  · rw [made, hmade]
    refine .trans (List.perm_iff_count.2 fun x => ?_) (h.places.append_right _)
    simp only [everyone, List.count_append]
    omega
  · obtain ⟨hidle, hin⟩ := h.used i hi
    have hnew : i.1 ≠ ⟨s.room.count⟩ := by
      intro he
      have hlt := WaitRoom.mem_made.1 hin
      rw [he] at hlt
      exact Nat.lt_irrefl _ hlt
    rw [made, hmade]
    exact ⟨by simp [hidle, hnew], List.mem_append_left _ hin⟩

theorem take (h : s.Kept) : Kept { s with recent, room := { s.room with
    slot := .empty, taken := s.room.taken ++ s.room.slot.occupant.toList } } := by
  refine { h with places := .trans (List.perm_iff_count.2 fun x => ?_) h.places }
  simp only [everyone, WaitSlot.empty, Option.toList_none, List.count_append, List.count_nil]
  omega

theorem install (h : s.Kept) {w : Waiter} (hw : w ∈ s.room.idle) : Kept { s with
    room := { s.room with
      slot := ⟨some w⟩
      idle := s.room.idle.erase w
      displaced := s.room.slot.occupant.toList ++ s.room.displaced }
    installs := s.installs ++ [(w, s.room.slot.occupant)]
    recent } := by
  have hin : w ∈ s.room.everyone := by simp [everyone, hw]
  have hidle : s.room.idle.Nodup := h.nodup.sublist (by simp [everyone, List.append_assoc])
  -- Neither the newcomer nor the occupant has played its part before.
  have hnewcomer : ∀ i ∈ s.installs, i.1 ≠ w := fun i hi he => (h.used i hi).1 (he ▸ hw)
  have hoccupant : ∀ i ∈ s.installs, ∀ d, i.2 = some d → s.room.slot.occupant ≠ some d := by
    rintro ⟨v, x⟩ hi d rfl hd
    obtain ⟨hdisplaced, hwoken⟩ := h.occupant hd
    exact (h.displaced v d hi).elim hdisplaced hwoken
  constructor
  case places =>
    refine .trans (List.perm_iff_count.2 fun x => ?_) h.places
    simp only [everyone, Option.toList_some, List.count_append, count_of_mem hw x]
    omega
  case woken => exact h.woken
  case returned => exact h.returned
  case used =>
    intro i hi
    rcases List.mem_append.1 hi with hi | hi
    · obtain ⟨hnot, hmade⟩ := h.used i hi
      exact ⟨fun hmem => hnot (List.mem_of_mem_erase hmem), hmade⟩
    · obtain rfl := List.mem_singleton.1 hi
      exact ⟨hidle.not_mem_erase, h.mem_made hin⟩
  case displaced =>
    intro v d hi
    rcases List.mem_append.1 hi with hi | hi
    · exact (h.displaced v d hi).imp_left (List.mem_append_right _)
    · have hd : s.room.slot.occupant = some d := (Prod.mk.inj (List.mem_singleton.1 hi)).2.symm
      exact .inl (List.mem_append_left _ (Option.mem_toList.2 hd))
  case holder =>
    intro d hd
    rcases List.mem_append.1 hd with hd | hd
    · rw [Option.mem_toList.1 hd]
      exact ⟨w, List.mem_append_right _ (List.mem_singleton_self _)⟩
    · obtain ⟨v, hv⟩ := h.holder d hd
      exact ⟨v, List.mem_append_left _ hv⟩
  case once =>
    intro i hi j hj hij
    rcases List.mem_append.1 hi with hi | hi <;> rcases List.mem_append.1 hj with hj | hj
    · exact h.once i hi j hj hij
    · obtain rfl := List.mem_singleton.1 hj
      rcases hij with he | ⟨d, hd, hd'⟩
      · exact absurd he (hnewcomer i hi)
      · exact absurd hd' (hoccupant i hi d hd)
    · obtain rfl := List.mem_singleton.1 hi
      rcases hij with he | ⟨d, hd, hd'⟩
      · exact absurd he.symm (hnewcomer j hj)
      · exact absurd hd (hoccupant j hj d hd')
    · rw [List.mem_singleton.1 hi, List.mem_singleton.1 hj]

theorem rouse (h : s.Kept) {r' : WaitRoom} {woken back : List Waiter}
    (hrouses : Rouses s.room r' woken back) :
    Kept { s with room := r', recent, wakes := s.wakes ++ woken } := by
  have hmade : r'.made = s.room.made := by rw [made, made, hrouses.count]
  constructor
  case places =>
    rw [hmade]
    refine .trans (List.perm_iff_count.2 fun x => ?_) h.places
    have := hrouses.outside.count_eq x
    simp only [everyone, hrouses.slot, hrouses.woken, List.count_append] at this ⊢
    omega
  case woken => rw [hrouses.woken, h.woken]
  case returned =>
    rw [hrouses.returned, hrouses.woken]
    refine List.append_subset.2 ⟨fun w hw => ?_, fun w hw => ?_⟩
    · exact List.mem_append_left _ (hrouses.back w hw)
    · exact List.mem_append_left _ (h.returned hw)
  case used =>
    intro i hi
    obtain ⟨hnot, hin⟩ := h.used i hi
    rw [hmade]
    exact ⟨fun hmem => hnot (hrouses.idle hmem), hin⟩
  case displaced =>
    intro w d hi
    rw [hrouses.woken]
    rcases h.displaced w d hi with hd | hd
    · exact (hrouses.left d hd).imp_right (List.mem_append_right _)
    · exact .inr (List.mem_append_left _ hd)
  case holder => exact fun d hd => h.holder d (hrouses.displaced hd)
  case once => exact h.once

theorem perform (h : s.Kept) (a : Act) : (s.perform a).Kept := by
  have hstep := s.step_perform a
  generalize s.perform a = s' at hstep ⊢
  cases hstep with
  | make => exact h.make
  | install idle => exact h.install idle
  | take => exact h.take
  | rouse _ _ hrouses => exact h.rouse hrouses

theorem start : Kept {} := by
  constructor <;> simp [everyone, made]

theorem after (acts : List Act) : (WaitRecord.after acts).Kept := by
  induction acts using List.reverseRecOn with
  | nil => exact start
  | append_singleton acts a ih =>
    rw [after_concat]
    exact ih.perform a

/-- Who is displaced has been displaced by one waiter only. -/
theorem existsUnique_holder (h : s.Kept) {d : Waiter} (hd : d ∈ s.room.displaced) :
    ∃! w, (w, some d) ∈ s.installs := by
  obtain ⟨w, hw⟩ := h.holder d hd
  refine ⟨w, hw, fun v hv => ?_⟩
  exact congrArg Prod.fst (h.once (v, some d) hv (w, some d) hw (.inr ⟨d, rfl, rfl⟩))

end Kept

theorem count_after (acts : List Act) : (after acts).room.count = acts.count .make := by
  induction acts using List.reverseRecOn with
  | nil => rfl
  | append_singleton acts a ih =>
    have hstep := (after acts).step_perform a
    rw [after_concat, List.count_append, ← ih]
    generalize (after acts).perform a = s' at hstep ⊢
    cases hstep with
    | make => simp
    | install => simp
    | take => simp
    | rouse makes _ hrouses => simp [hrouses.count, makes]

/-! ## Chains of displaced waiters -/

/-- One waiter has displaced another from the slot. -/
def Displaces (s : WaitRecord) (w d : Waiter) : Prop := (w, some d) ∈ s.installs

/-- Whoever is back has woken the waiter that its own has displaced. -/
def Forwarded (s : WaitRecord) : Prop :=
  ∀ w d, s.Displaces w d → w ∈ s.room.returned → d ∈ s.wakes

/-- A call that comes back by an act wakes the waiter that its own has displaced, unless that one
has been woken before. -/
def ForwardsIn (s : WaitRecord) (a : Act) : Prop :=
  ∀ i ∈ s.installs, ∀ c ∈ a.returns? s.room, c.1 = i.1 → ∀ d ∈ i.2, d ∈ (s.perform a).wakes

/-- So does every call that comes back by one of these acts. -/
def Forwards : WaitRecord → List Act → Prop
  | _, [] => True
  | s, a :: acts => s.ForwardsIn a ∧ (s.perform a).Forwards acts

instance (s : WaitRecord) (a : Act) : Decidable (s.ForwardsIn a) :=
  inferInstanceAs (Decidable (∀ i ∈ s.installs, ∀ c ∈ a.returns? s.room, c.1 = i.1 →
    ∀ d ∈ i.2, d ∈ (s.perform a).wakes))

instance decidableForwards : ∀ (s : WaitRecord) (acts : List Act), Decidable (s.Forwards acts)
  | _, [] => inferInstanceAs (Decidable True)
  | s, a :: acts =>
    have := decidableForwards (s.perform a) acts
    inferInstanceAs (Decidable (s.ForwardsIn a ∧ (s.perform a).Forwards acts))

theorem forwards_append (s : WaitRecord) (acts more : List Act) :
    s.Forwards (acts ++ more) ↔ s.Forwards acts ∧ (s.run acts).Forwards more := by
  induction acts generalizing s with
  | nil => simp [Forwards, run]
  | cons a acts ih =>
    rw [List.cons_append, Forwards, Forwards, ih, and_assoc]
    rfl

theorem Forwarded.perform {s : WaitRecord} (hs : s.Forwarded) (h : s.Kept) {a : Act}
    (ha : s.ForwardsIn a) : (s.perform a).Forwarded := by
  have hstep := s.step_perform a
  unfold ForwardsIn at ha
  generalize s.perform a = s' at hstep ha ⊢
  cases hstep with
  | make => exact hs
  | take => exact hs
  | install idle =>
    intro v d hv hback
    rcases List.mem_append.1 hv with hv | hv
    · exact hs v d hv hback
    · obtain ⟨rfl, -⟩ := Prod.mk.inj (List.mem_singleton.1 hv)
      exact absurd (h.returned hback) (h.idle idle)
  | rouse makes _ hrouses =>
    intro v d hv hback
    rw [hrouses.returned] at hback
    rcases List.mem_append.1 hback with hback | hback
    · obtain ⟨c, hc, rfl⟩ := Option.map_eq_some_iff.1 (Option.mem_toList.1 hback)
      exact ha _ hv c hc rfl d rfl
    · exact List.mem_append_left _ (hs v d hv hback)

/-- What calls that wake the displaced ones keep. -/
theorem forwarded_after {acts : List Act} (h : Forwards {} acts) :
    (after acts).Forwarded := by
  induction acts using List.reverseRecOn with
  | nil => exact nofun
  | append_singleton acts a ih =>
    obtain ⟨hacts, ha, -⟩ := (forwards_append _ _ _).1 h
    rw [after_concat]
    exact (ih hacts).perform (Kept.after acts) ha

/-- Along a chain of displaced waiters. -/
def Reaches (s : WaitRecord) : Waiter → Waiter → Prop := Relation.ReflTransGen s.Displaces

/-- All who have come into the slot lately are reached from its occupant. -/
def Linked (s : WaitRecord) : Prop :=
  ∀ w ∈ s.recent, ∃ o ∈ s.room.slot.occupant, s.Reaches o w

theorem Reaches.mono {s s' : WaitRecord} (h : s.installs ⊆ s'.installs) {w d : Waiter}
    (hw : s.Reaches w d) : s'.Reaches w d := by
  have hdisplaces : s.Displaces ≤ s'.Displaces := fun _ _ hi => h hi
  exact Relation.ReflTransGen.mono hdisplaces w d hw

theorem Linked.perform {s : WaitRecord} (h : s.Linked) (a : Act) : (s.perform a).Linked := by
  have hstep := s.step_perform a
  generalize s.perform a = s' at hstep ⊢
  cases hstep with
  | make since => exact fun v hv => h v (since hv)
  | take => exact nofun
  | install idle =>
    intro v hv
    rename_i w
    refine ⟨w, rfl, ?_⟩
    rcases List.mem_append.1 hv with hv | hv
    · obtain ⟨o, ho, hreach⟩ := h v hv
      have hfirst : (w, some o) ∈ s.installs ++ [(w, s.room.slot.occupant)] := by
        rw [Option.mem_def.1 ho]
        exact List.mem_append_right _ (List.mem_singleton_self _)
      exact .head hfirst (hreach.mono (List.subset_append_left _ _))
    · rw [List.mem_singleton.1 hv]
      exact .refl
  | rouse makes since hrouses =>
    intro v hv
    rw [hrouses.slot]
    exact h v (since hv)

theorem linked_after (acts : List Act) : (after acts).Linked := by
  induction acts using List.reverseRecOn with
  | nil => exact nofun
  | append_singleton acts a ih =>
    rw [after_concat]
    exact ih.perform a

/-- Nothing is struck out of a record. -/
theorem grows_run (s : WaitRecord) (more : List Act) :
    s.installs ⊆ (s.run more).installs ∧ s.wakes ⊆ (s.run more).wakes := by
  induction more using List.reverseRecOn with
  | nil => exact ⟨List.Subset.refl _, List.Subset.refl _⟩
  | append_singleton more a ih =>
    rw [run_concat]
    exact ⟨List.subset_append_of_subset_left _ ih.1, List.subset_append_of_subset_left _ ih.2⟩

/-- No call that has been woken and is not back yet holds a displaced waiter. -/
def Settled (s : WaitRecord) : Prop :=
  ∀ w d, s.Displaces w d → s.room.canReturn w → d ∉ s.room.displaced

theorem Settled.wakes_of_reaches {s : WaitRecord} (hs : s.Settled) (h : s.Kept)
    (hforwarded : s.Forwarded) {w d : Waiter} (hw : w ∈ s.wakes) (hreach : s.Reaches w d) :
    d ∈ s.wakes := by
  induction hreach with
  | refl => exact hw
  | @tail v d _ hv ih =>
    by_cases hback : v ∈ s.room.returned
    · exact hforwarded v d hv hback
    · have hcan : s.room.canReturn v := canReturn_iff.2 ⟨h.woken ▸ ih, hback⟩
      exact h.woken ▸ (h.displaced v d hv).resolve_left (hs v d hv hcan)

/-- Calls that come back, each waking the waiter which its own has displaced, until none is left. -/
theorem exists_settled {s : WaitRecord} (h : s.Kept) : ∃ more : List Act,
    (∀ a ∈ more, ∃ w d, a = .forward w (some d) ∧ s.Displaces w d) ∧
      s.Forwards more ∧ (s.run more).Settled := by
  induction hn : s.room.displaced.length using Nat.strongRecOn generalizing s with
  | _ n ih =>
    by_cases hs : s.Settled
    · exact ⟨[], nofun, trivial, hs⟩
    simp only [Settled, not_forall, Decidable.not_not, exists_prop] at hs
    obtain ⟨w, d, hw, hcan, hd⟩ := hs
    have hreturns : (Act.forward w (some d)).returns? s.room = some (w, some d) := by
      simp [Act.returns?, Act.call?, hcan, hd]
    have hinstalls : (s.perform (.forward w (some d))).installs = s.installs := by
      simp [WaitRecord.perform, Act.installs?]
    have hforwards : s.ForwardsIn (.forward w (some d)) := by
      intro i hi c hc hci e he
      rw [hreturns] at hc
      obtain rfl := Option.some.inj hc
      obtain rfl := h.once _ hw i hi (.inl hci)
      obtain rfl := Option.some.inj he
      simp [WaitRecord.perform, Act.wakes, hreturns]
    have hfewer : (s.perform (.forward w (some d))).room.displaced.length < n := by
      have hdisplaced : (s.perform (.forward w (some d))).room.displaced =
          s.room.displaced.erase d := by
        simp [WaitRecord.perform, WaitRoom.perform, WaitRoom.forward, hcan, hd]
      have hpos := List.length_pos_of_mem hd
      rw [hdisplaced, List.length_erase_of_mem hd]
      omega
    obtain ⟨more, hmore, hfollow, hsettled⟩ := ih _ hfewer (h.perform _) rfl
    refine ⟨.forward w (some d) :: more, List.forall_mem_cons.2 ⟨⟨w, d, rfl, hw⟩, fun a ha => ?_⟩,
      ⟨hforwards, hfollow⟩, hsettled⟩
    obtain ⟨v, e, rfl, hv⟩ := hmore a ha
    unfold Displaces at hv
    rw [hinstalls] at hv
    exact ⟨v, e, rfl, hv⟩

theorem status_eq {s : WaitRecord} (h : s.Kept) {w : Waiter} (hw : w ∈ s.room.made) :
    s.room.status[w.id]? =
      some (if w ∈ s.room.returned then none else some (decide (w ∈ s.wakes))) := by
  have hid := WaitRoom.mem_made.1 hw
  simp [WaitRoom.status, hid, ← h.woken]

theorem wakes_take {s : WaitRecord} {o : Waiter} (h : s.room.slot.occupant = some o) :
    o ∈ (s.run [.take, .wakeHeld o]).wakes := by
  simp [run, WaitRecord.perform, WaitRoom.perform, WaitRoom.take, WaitSlot.take, Act.wakes, h]

/-- Once no call is left that has yet to wake another, all are awake who came before the occupant. -/
theorem recent_subset_wakes {acts more : List Act} {o : Waiter}
    (ho : (after acts).room.slot.occupant = some o) (hforwards : Forwards {} (acts ++ more))
    (hwoken : o ∈ (after (acts ++ more)).wakes) (hsettled : (after (acts ++ more)).Settled) :
    (after acts).recent ⊆ (after (acts ++ more)).wakes := by
  intro w hw
  obtain ⟨o', ho', hreach⟩ := linked_after acts w hw
  obtain rfl : o = o' := Option.some.inj (ho.symm.trans ho')
  have hgrows : (after acts).installs ⊆ (after (acts ++ more)).installs := by
    rw [after_append]
    exact (grows_run _ more).1
  exact hsettled.wakes_of_reaches (Kept.after _) (forwarded_after hforwards) hwoken
    (hreach.mono hgrows)

/-- Waiters are neither lost nor stranded, whatever is done with them. -/
theorem waiters_conserved (acts : List Act) :
    let s := after acts
    -- There are as many as have been made, and each is in one place. Who is displaced is held by
    -- the one that has displaced it.
    (s.room.everyone.Nodup ∧ (∀ w, w ∈ s.room.everyone ↔ w.id < acts.count .make) ∧
      ∀ d ∈ s.room.displaced, ∃! w, s.Displaces w d) ∧
    -- A token tells whether its own waiter has been woken, and with that its call comes back, once.
    ((∀ w ∈ s.room.everyone, s.room.status[w.id]? =
        some (if w ∈ s.room.returned then none else some (decide (w ∈ s.wakes)))) ∧
      s.room.returned ⊆ s.wakes ∧
      ∀ w, (s.room.park w).1 = some () ↔ w ∈ s.wakes ∧ w ∉ s.room.returned) ∧
    -- Once the occupant of the slot is woken, all who have come since the slot was last empty are
    -- woken when no call is left that has yet to wake another, and calls can always get there.
    ∀ o, s.room.slot.occupant = some o → o ∈ (s.run [.take, .wakeHeld o]).wakes ∧
      ∀ more, Forwards {} (acts ++ more) → o ∈ (after (acts ++ more)).wakes →
        ((after (acts ++ more)).Settled → s.recent ⊆ (after (acts ++ more)).wakes) ∧
        ∃ back : List Act,
          (∀ a ∈ back, ∃ w d, a = .forward w (some d) ∧ (after (acts ++ more)).Displaces w d) ∧
          Forwards {} (acts ++ (more ++ back)) ∧
          s.recent ⊆ (after (acts ++ (more ++ back))).wakes := by
  intro s
  have h : s.Kept := Kept.after acts
  have hmade : ∀ w, w ∈ s.room.everyone ↔ w ∈ s.room.made := fun w => h.places.mem_iff
  refine ⟨⟨h.nodup, fun w => ?_, fun d => h.existsUnique_holder⟩,
    ⟨fun w hw => status_eq h ((hmade w).1 hw), h.woken ▸ h.returned, fun w => ?_⟩,
    fun o ho => ⟨wakes_take ho, fun more hforwards hwoken =>
      ⟨recent_subset_wakes ho hforwards hwoken, ?_⟩⟩⟩
  · rw [hmade, WaitRoom.mem_made, count_after]
  · rw [← h.woken, ← canReturn_iff, WaitRoom.park]
    split <;> simp_all
  · obtain ⟨back, hback, hfollow, hsettled⟩ := exists_settled (Kept.after (acts ++ more))
    have hrun : after (acts ++ (more ++ back)) = (after (acts ++ more)).run back := by
      rw [← List.append_assoc, after_append]
    have hall : Forwards {} (acts ++ (more ++ back)) := by
      rw [← List.append_assoc]
      exact (forwards_append _ _ _).2 ⟨hforwards, hfollow⟩
    have hstill : o ∈ (after (acts ++ (more ++ back))).wakes := by
      rw [hrun]
      exact (grows_run _ back).2 hwoken
    exact ⟨back, hback, hall, recent_subset_wakes ho hall hstill (hrun ▸ hsettled)⟩

/-- Three waiters come, and the third one's wake-up goes down to the first. -/
theorem waiters_conserved_three :
    let come : List Act := [.make, .make, .make, .install ⟨0⟩, .install ⟨1⟩, .install ⟨2⟩]
    let wake : List Act := [.take, .wakeTaken, .parkAndForward ⟨2⟩, .parkAndForward ⟨1⟩]
    (after come).room.slot.occupant = some ⟨2⟩ ∧ (after come).recent = [⟨0⟩, ⟨1⟩, ⟨2⟩] ∧
      Forwards {} (come ++ wake) ∧ ⟨2⟩ ∈ (after (come ++ wake)).wakes ∧
      (after (come ++ wake)).Settled ∧ [⟨0⟩, ⟨1⟩, ⟨2⟩] ⊆ (after (come ++ wake)).wakes := by
  intro come wake
  have hoccupant : (after come).room.slot.occupant = some ⟨2⟩ := by decide
  have hrecent : (after come).recent = [⟨0⟩, ⟨1⟩, ⟨2⟩] := by decide
  have hforwards : Forwards {} (come ++ wake) := by decide
  have hwoken : ⟨2⟩ ∈ (after (come ++ wake)).wakes := by decide
  have hnobody : (after (come ++ wake)).room.displaced = [] := by decide
  have hsettled : (after (come ++ wake)).Settled := by
    intro _ _ _ _
    rw [hnobody]
    exact List.not_mem_nil
  have hall := (((waiters_conserved come).2.2 _ hoccupant).2 wake hforwards hwoken).1 hsettled
  exact ⟨hoccupant, hrecent, hforwards, hwoken, hsettled, hrecent ▸ hall⟩

end WaitRecord

end PeerDma
