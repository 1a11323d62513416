import Micro65.Text.Basic
/-!
# Hexadecimal numerals

Numbers are written in base sixteen with upper-case digits and a fixed number of places, padded
with zeros: two places for a byte, four for an address.
-/

namespace Micro65

namespace Text

/-- The upper-case hexadecimal digit of a number below sixteen. -/
def hexDigit (n : Nat) : Char :=
  if n < 10 then Char.ofNat ('0'.toNat + n) else Char.ofNat ('A'.toNat + (n - 10))

/-- The lowest `places` hexadecimal digits of `n`, most significant first. -/
def hex : (places : Nat) → (n : Nat) → Text
  | 0, _ => []
  | places + 1, n => hex places (n / 16) ++ [hexDigit (n % 16)]

/-- A byte as two digits. -/
def hexByte (b : UInt8) : Text :=
  hex 2 b.toNat

/-- An address as four digits. -/
def hexWord (w : UInt16) : Text :=
  hex 4 w.toNat

@[simp] theorem length_hex (places n : Nat) : (hex places n).length = places := by
  induction places generalizing n with
  | zero => rfl
  | succ places ih => simp [hex, ih]

end Text

end Micro65
