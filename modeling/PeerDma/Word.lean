/-!
# 64-bit quantities

Addresses, lengths and offsets are natural numbers below `Word.bound`. Where a sum or product
could leave that range, one of the functions below says what happens:

* `add?`, `mul?`: the exact result, or `none` when it does not fit;
* `addSat`, `mulSat`: the exact result, or the largest word;
* `addWrap`: the result modulo `2 ^ 64`;
* `alignDown`, `lowBits`: the high and the low bits of an address for a power-of-two alignment
  (`isPowerOfTwo`);
* `ceilDiv`: how many blocks of a size cover a length.
-/

namespace PeerDma

namespace Word

/-- How many values a word has. -/
def bound : Nat := 1 <<< 64

/-- The sum, if it is a word. -/
def add? (a b : Nat) : Option Nat := if a + b < bound then some (a + b) else none

/-- The product, if it is a word. -/
def mul? (a b : Nat) : Option Nat := if a * b < bound then some (a * b) else none

/-- The sum, or the largest word if the sum is none. -/
def addSat (a b : Nat) : Nat := min (a + b) (bound - 1)

/-- The product, or the largest word if the product is none. -/
def mulSat (a b : Nat) : Nat := min (a * b) (bound - 1)

/-- The sum modulo the number of words. -/
def addWrap (a b : Nat) : Nat := (a + b) % bound

/-- `a` with the bits below the power of two `align` cleared. -/
def alignDown (a align : Nat) : Nat := a &&& (bound - align)

/-- The bits of `a` below the power of two `align`. -/
def lowBits (a align : Nat) : Nat := a &&& (align - 1)

/-- How many blocks of `size` cover `length`. -/
def ceilDiv (length size : Nat) : Nat := (length + size - 1) / size

/-- Whether the number is a power of two: its highest bit alone makes it up. -/
def isPowerOfTwo (n : Nat) : Bool := 1 <<< n.log2 == n

theorem add?_eq_some_iff {a b c : Nat} : add? a b = some c ↔ a + b = c ∧ c < bound := by
  unfold add?
  split
  · simp only [Option.some.injEq]
    constructor
    · rintro rfl
      exact ⟨rfl, by assumption⟩
    · exact And.left
  · constructor
    · simp
    · rintro ⟨rfl, h⟩
      contradiction

end Word

end PeerDma
