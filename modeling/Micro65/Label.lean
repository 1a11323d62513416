import Micro65.Text.Basic
/-!
# Label names

A label is an ASCII letter followed by at most thirty-one ASCII letters, digits and underscores, and
not the name of a register. `Label.check` says which of these rules a text breaks; where it breaks
several, the first in the order empty, too long, first character, later character, register wins.
-/

namespace Micro65

namespace Label

/-- The greatest length of a name in bytes. -/
def maxLength : Nat := 32

/-- Whether the character may stand in a name after its first character. -/
def isNameChar (c : Char) : Bool :=
  c.isAlphanum || c = '_'

/-- The registers that an operand can name. A label cannot have their names, in either case. -/
def registers : List Text :=
  [['A'], ['X'], ['Y']]

/-- Whether the text names a register, in either case. -/
def isRegister (name : Text) : Bool :=
  registers.contains (Text.upper name)

end Label

/-- Why a text is not a label name. -/
inductive LabelError where
  /-- There is no text. -/
  | empty
  /-- The text is longer than a name may be. -/
  | tooLong (name : Text)
  /-- The text does not start with a letter. -/
  | badStart (c : Char)
  /-- A later character is no letter, digit or underscore. -/
  | badChar (c : Char)
  /-- The text is the name of a register. -/
  | register (name : Text)
  deriving DecidableEq, Repr

/-- What is said of a text that is not a label name. -/
def LabelError.message : LabelError → String
  | .empty => "label name cannot be empty"
  | .tooLong name =>
    s!"label name too long (max {Label.maxLength} characters): {String.ofList name}"
  | .badStart c => s!"label must start with a letter, not '{c}'"
  | .badChar c =>
    s!"label contains invalid character '{c}' (only letters, digits, and underscores allowed)"
  | .register name => s!"'{String.ofList name}' is a register name"

namespace Label

/-- Accepts the texts that may name a label. -/
def check : Text → Except LabelError Unit
  | [] => .error .empty
  | first :: rest =>
    if maxLength < Text.byteLength (first :: rest) then .error (.tooLong (first :: rest))
    else if !first.isAlpha then .error (.badStart first)
    else match rest.find? fun c => !isNameChar c with
      | some c => .error (.badChar c)
      | none =>
        if isRegister (first :: rest) then .error (.register (first :: rest)) else .ok ()

end Label

end Micro65
