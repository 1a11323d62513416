import Micro65.Text.Basic
/-!
# Numeric literals

A literal is a string of digits after an optional sign of its base: `$` for sixteen, `%` for two,
none for ten. Two questions are asked of one. `Literal.value` is its number, for any count of
digits, as long as it fits thirty-two bits. `Literal.sized?` also asks whether the count of digits
is that of a byte or of a word, which is how an operand says which size it has: `$05` is a byte and
`$0005` a word.
-/

namespace Micro65

/-- The base in which a literal is written. -/
inductive Radix where
  | binary
  | decimal
  | hexadecimal
  deriving DecidableEq, Repr

namespace Radix

/-- The number of digits of the base. -/
def base : Radix → Nat
  | .binary => 2
  | .decimal => 10
  | .hexadecimal => 16

/-- The value of an ASCII digit or letter as a digit of some base, letters counting from ten. -/
def digitValue (c : Char) : Option Nat :=
  if c.isDigit then some (c.toNat - '0'.toNat)
  else if c.isLower then some (c.toNat - 'a'.toNat + 10)
  else if c.isUpper then some (c.toNat - 'A'.toNat + 10)
  else none

/-- The value of a character as a digit of this base, if it is one. -/
def digit? (r : Radix) (c : Char) : Option Nat :=
  (digitValue c).filter (· < r.base)

end Radix

/-- The size of an operand. -/
inductive Width where
  | byte
  | word
  deriving DecidableEq, Repr

namespace Width

/-- One more than the greatest number of this size. -/
def bound : Width → Nat
  | .byte => UInt8.size
  | .word => UInt16.size

/-- The size that a literal of this base and this many digits announces. -/
def ofDigits? : Radix → Nat → Option Width
  | .hexadecimal, 2 | .binary, 8 | .decimal, 3 => some .byte
  | .hexadecimal, 4 | .binary, 16 | .decimal, 5 => some .word
  | _, _ => none

end Width

/-- Why a token is not a number. -/
inductive LiteralError where
  /-- There is no digit after the sign of the base. -/
  | empty
  /-- The character is not a digit of the base. -/
  | invalidDigit (literal : Text) (digit : Char) (radix : Radix)
  /-- The number does not fit thirty-two bits. -/
  | tooLarge (literal : Text)
  deriving DecidableEq, Repr

/-- What is said of a token that is not a number. -/
def LiteralError.message : LiteralError → String
  | .empty => "empty numeric literal"
  | .invalidDigit literal digit radix =>
    s!"invalid digit '{digit}' in base-{radix.base} literal '{String.ofList literal}'"
  | .tooLarge literal => s!"numeric literal '{String.ofList literal}' is too large"

/-- A literal: its base, and the text that should hold its digits. -/
structure Literal where
  radix : Radix
  digits : Text
  deriving DecidableEq, Repr

namespace Literal

/-- Takes the sign of the base off a token. -/
def ofText : Text → Literal
  | '$' :: digits => ⟨.hexadecimal, digits⟩
  | '%' :: digits => ⟨.binary, digits⟩
  | digits => ⟨.decimal, digits⟩

/-- The first character that is not a digit of the base. -/
def badDigit? (l : Literal) : Option Char :=
  l.digits.find? fun c => (l.radix.digit? c).isNone

/-- The number that the digits denote by position. -/
def positional (l : Literal) : Nat :=
  l.digits.foldl (fun n c => n * l.radix.base + (l.radix.digit? c).getD 0) 0

/-- The number a token denotes. A wrong digit is reported before the size of the number. -/
def value (token : Text) : Except LiteralError Nat :=
  let l := ofText token
  if l.digits = [] then .error .empty
  else match l.badDigit? with
    | some c => .error (.invalidDigit token c l.radix)
    | none => if l.positional < UInt32.size then .ok l.positional else .error (.tooLarge token)

/-- The number of a token that has the digit count of a byte or of a word and fits that size. The
digits are counted in bytes. -/
def sized? (token : Text) : Option (Width × Nat) := do
  let l := ofText token
  let width ← Width.ofDigits? l.radix (Text.byteLength l.digits)
  let n ← (value token).toOption
  if n < width.bound then some (width, n) else none

end Literal

end Micro65
