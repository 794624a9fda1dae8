/-!
# Hexadecimal text

Identifiers and addresses are written in lower-case hexadecimal after `0x`, either with as many
digits as the number needs (`Hex.plain`) or with leading zeros up to a fixed count
(`Hex.padded`).
-/

namespace PeerDma

namespace Hex

/-- The digits of `n`, highest first, at least one. -/
def digits (n : Nat) : String := String.ofList (Nat.toDigits 16 n)

/-- `0x` and the digits of `n`. -/
def plain (n : Nat) : String := "0x" ++ digits n

/-- `0x` and the digits of `n`, with zeros in front up to `width` digits. -/
def padded (width n : Nat) : String :=
  let text := digits n
  "0x" ++ "".pushn '0' (width - text.length) ++ text

example : plain 0 = "0x0" := by decide
example : plain 255 = "0xff" := by decide
example : padded 4 255 = "0x00ff" := by decide
example : padded 1 255 = "0xff" := by decide

end Hex

end PeerDma
