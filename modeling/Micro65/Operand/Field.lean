import Micro65.Text.Blank
/-!
# Operand fields

The text after a mnemonic is cut into tokens: at its commas if it has one, at its blanks
otherwise. A field whose first token opens a parenthesis is indirect. Its parentheses are taken
off, after a check that they stand where one of the indirect forms has them: the closing one
directly after the value or after the index, X before it and Y behind it.
-/

namespace Micro65

/-- An operand field cut into tokens. -/
structure Field where
  /-- Whether the operand was written in parentheses, which the tokens do not show. -/
  indirect : Bool
  tokens : List Text
  deriving DecidableEq, Repr

/-- What is wrong with the parentheses of an operand field. -/
inductive Misplacement where
  /-- A parenthesis is closed that the first token did not open. -/
  | unexpectedClose
  /-- The first token opens a parenthesis behind other text. -/
  | textBeforeOpen
  /-- No parenthesis is closed. -/
  | missingClose
  /-- The first token goes on behind its closing parenthesis. -/
  | textAfterClose
  /-- The index X stands behind the closing parenthesis. -/
  | outerX
  /-- The index Y stands before the closing parenthesis. -/
  | innerY
  deriving DecidableEq, Repr

/-- Why an operand field has no tokens. -/
structure FieldError where
  misplacement : Misplacement
  /-- The field without the blanks around it. -/
  field : Text
  deriving DecidableEq, Repr

/-- What is said of a field with misplaced parentheses. -/
def FieldError.message (e : FieldError) : String :=
  let field := String.ofList e.field
  match e.misplacement with
  | .unexpectedClose => s!"unexpected ')' in operand '{field}'"
  | .textBeforeOpen => s!"unexpected text before '(' in operand '{field}'"
  | .missingClose => s!"missing ')' in operand '{field}'"
  | .textAfterClose => s!"unexpected text after ')' in operand '{field}'"
  | .outerX => s!"X index must be inside the parentheses in '{field}'"
  | .innerY => s!"Y index must be outside the parentheses in '{field}'"

namespace Field

/-- The tokens of a trimmed field: between its commas if it has one, its words otherwise. -/
def cut (field : Text) : List Text :=
  if ',' ∈ field then (field.splitOn ',').map Text.trim else Text.words field

/-- Whether an index stands on the wrong side of the closing parenthesis. -/
def misplacedIndex? (closedBefore : Bool) : List Text → Option Misplacement
  | [_, index] =>
    if closedBefore && decide (Text.SameLetters index ['X']) then some .outerX
    else if !closedBefore && decide (Text.SameLetters index ['Y']) then some .innerY
    else none
  | _ => none

/-- The field whose first token is an opening parenthesis and `inner`. -/
def parenthesised (field inner : Text) (rest : List Text) : Except FieldError Field :=
  if ')' ∉ field then .error ⟨.missingClose, field⟩
  else
    let value := inner.takeWhile (· ≠ ')')
    let behind := inner.dropWhile (· ≠ ')')
    if 1 < behind.length then .error ⟨.textAfterClose, field⟩
    else
      let tokens := Text.trim value :: rest.map fun t => Text.trim (t.filter (· ≠ ')'))
      match misplacedIndex? (!behind.isEmpty) tokens with
      | some misplacement => .error ⟨misplacement, field⟩
      | none => .ok ⟨true, tokens⟩

/-- Cuts an operand field into tokens. -/
def ofText (text : Text) : Except FieldError Field :=
  let field := Text.trim text
  match cut field with
  | [] => .ok ⟨false, []⟩
  | first :: rest =>
    if '(' ∈ first then
      match first with
      | '(' :: inner => parenthesised field inner rest
      | _ => .error ⟨.textBeforeOpen, field⟩
    else if ')' ∈ field then .error ⟨.unexpectedClose, field⟩
    else .ok ⟨false, first :: rest⟩

end Field

end Micro65
