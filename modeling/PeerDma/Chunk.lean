import PeerDma.Word

/-!
# Chunks

A copy reads a list of chunks, laid end to end in device memory. A chunk lies in host memory or
in the file of the request.

* `Chunk.ofWire` decodes a chunk as commands carry it, `Chunk.tag` gives its tag back.
* `Chunk.totalLength` checks a list of chunks and adds their lengths up.
-/

namespace PeerDma

/-- One source range of a copy. -/
inductive Chunk where
  /-- Host memory at an address. -/
  | host (address length : Nat)
  /-- File contents at an offset. -/
  | file (offset length : Nat)
  deriving DecidableEq, Repr

namespace Chunk

/-- The tag of host memory, the letter m. -/
def hostTag : Nat := 'm'.toNat

/-- The tag of file contents, the letter f. -/
def fileTag : Nat := 'f'.toNat

/-- The tag that a chunk has in a command. -/
def tag : Chunk → Nat
  | host .. => hostTag
  | file .. => fileTag

/-- Where the chunk starts in its source. -/
def start : Chunk → Nat
  | host address _ => address
  | file offset _ => offset

/-- Bytes the chunk contributes. -/
def length : Chunk → Nat
  | host _ length => length
  | file _ length => length

/-- Whether the chunk reads the file. -/
def isFile : Chunk → Bool
  | host .. => false
  | file .. => true

/-- Why chunks are refused. -/
inductive Fault where
  | unknownTag (tag : Nat)
  | noChunks
  | badRange (index start length : Nat)
  | totalTooLong
  deriving DecidableEq, Repr

/-- The chunk that a command carries as a tag, a location and a length. -/
def ofWire (tag location length : Nat) : Except Fault Chunk :=
  if tag = hostTag then .ok (host location length)
  else if tag = fileTag then .ok (file location length)
  else .error (.unknownTag tag)

theorem ofWire_tag (c : Chunk) : ofWire c.tag c.start c.length = .ok c := by
  cases c <;> rfl

/-- Whether the chunk holds a byte and ends within the address space. -/
def IsRange (c : Chunk) : Prop := c.length ≠ 0 ∧ c.start + c.length < Word.bound

instance (c : Chunk) : Decidable c.IsRange := inferInstanceAs (Decidable (_ ∧ _))

/-- Adds the lengths of the chunks, the first of which has number `index`, to `total`. -/
def addLengths (index total : Nat) : List Chunk → Except Fault Nat
  | [] => .ok total
  | c :: rest =>
    if c.IsRange then
      match Word.add? total c.length with
      | some total => addLengths (index + 1) total rest
      | none => .error .totalTooLong
    else .error (.badRange index c.start c.length)

/-- The total length of a list of chunks that can be copied. -/
def totalLength (chunks : List Chunk) : Except Fault Nat :=
  if chunks.isEmpty then .error .noChunks else addLengths 0 0 chunks

/-- Whether any chunk reads the file. -/
def needsFile (chunks : List Chunk) : Bool := chunks.any isFile

end Chunk

end PeerDma
