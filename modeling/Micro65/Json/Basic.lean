import Micro65.Text.Basic
/-!
# JSON documents

A document as a tree. Numbers and strings are kept as they are written, because what a reader does
not look at need not have a value: a number may be too large for any type, and a string may spell
half of a surrogate pair. `Json.decode?` gives the text of a string that is looked at.
-/

namespace Micro65

/-- A JSON document. -/
inductive Json where
  | null
  | bool (value : Bool)
  /-- A number, as it is written. -/
  | number (written : Text)
  /-- A string, as it is written between its quotes. -/
  | string (written : Text)
  | array (items : List Json)
  /-- An object with its members in order; the keys are as they are written. -/
  | object (members : List (Text × Json))

namespace Json

/-! ## Numbers -/

/-- The value of a hexadecimal digit. -/
def hexValue? (c : Char) : Option Nat :=
  if c.isDigit then some (c.toNat - '0'.toNat)
  else if 'a' ≤ c && c ≤ 'f' then some (c.toNat - 'a'.toNat + 10)
  else if 'A' ≤ c && c ≤ 'F' then some (c.toNat - 'A'.toNat + 10)
  else none

/-- Whether the text is an exponent without its letter: digits after an optional sign. -/
def isExponent : Text → Bool
  | '+' :: digits | '-' :: digits => digits ≠ [] && digits.all Char.isDigit
  | digits => digits ≠ [] && digits.all Char.isDigit

/-- Whether the text can follow the digits of a number: nothing, or an exponent. -/
def isScale : Text → Bool
  | [] => true
  | 'e' :: exponent | 'E' :: exponent => isExponent exponent
  | _ => false

/-- Whether the text can follow the whole part of a number: a fraction, an exponent, both or
neither. -/
def isFractionScale : Text → Bool
  | '.' :: rest => rest.takeWhile Char.isDigit ≠ [] && isScale (rest.dropWhile Char.isDigit)
  | rest => isScale rest

/-- Whether the text is a number without a sign. The whole part has no zero in front of it. -/
def isUnsignedNumber : Text → Bool
  | '0' :: rest => isFractionScale rest
  | rest => rest.takeWhile Char.isDigit ≠ [] && isFractionScale (rest.dropWhile Char.isDigit)

/-- Whether the text is a JSON number. -/
def isNumber : Text → Bool
  | '-' :: rest => isUnsignedNumber rest
  | rest => isUnsignedNumber rest

/-- The value of a number that is written with digits only. -/
def natural? (written : Text) : Option Nat :=
  if written.all Char.isDigit then
    some (written.foldl (fun n c => 10 * n + (c.toNat - '0'.toNat)) 0)
  else none

/-! ## Strings -/

/-- The character that a one-letter escape stands for. -/
def escaped? : Char → Option Char
  | '"' => some '"'
  | '\\' => some '\\'
  | '/' => some '/'
  | 'b' => some '\x08'
  | 'f' => some '\x0c'
  | 'n' => some '\n'
  | 'r' => some '\r'
  | 't' => some '\t'
  | _ => none

/-- The number of four hexadecimal digits. -/
def codeUnit? (a b c d : Char) : Option Nat := do
  return ((← hexValue? a) * 16 + (← hexValue? b)) * 256 + (← hexValue? c) * 16 + (← hexValue? d)

/-- The text of a written string. A code unit of the first half of a surrogate pair must be followed
by one of the second half. -/
def decode? (written : Text) : Option Text :=
  go [] written
where
  /-- Decodes the rest of the string behind the characters found so far, which are held in
  reverse. -/
  go (found : Text) : Text → Option Text
    | [] => some found.reverse
    | '\\' :: 'u' :: a :: b :: c :: d :: rest =>
      match codeUnit? a b c d with
      | none => none
      | some high =>
        if high < 0xD800 || 0xE000 ≤ high then go (Char.ofNat high :: found) rest
        else if 0xDC00 ≤ high then none
        else match rest with
          | '\\' :: 'u' :: a :: b :: c :: d :: rest =>
            match codeUnit? a b c d with
            | none => none
            | some low =>
              if 0xDC00 ≤ low && low < 0xE000 then
                go (Char.ofNat (0x10000 + (high - 0xD800) * 0x400 + (low - 0xDC00)) :: found) rest
              else none
          | _ => none
    | '\\' :: c :: rest =>
      match escaped? c with
      | none => none
      | some c => go (c :: found) rest
    | c :: rest => if c = '\\' then none else go (c :: found) rest

end Json

end Micro65
