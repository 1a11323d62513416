import Micro65.Diagnostic
/-!
# Statements

The parts of a source line that holds more than blanks and a comment: a label, an instruction with
its operand, and the comment.
-/

namespace Micro65

/-- A line of source, cut into its parts. -/
structure Statement where
  /-- The number of the line, from one. -/
  line : Nat
  /-- The name before the colon. -/
  label : Option Text
  /-- The first word behind the label. -/
  mnemonic : Option Text
  /-- What follows the first word, without the blanks around it. -/
  operand : Option Text
  /-- What follows the semicolon, without the blanks around it. -/
  comment : Option Text
  /-- Where the instruction stands, or the label if there is no instruction. -/
  span : Span
  deriving DecidableEq, Repr

namespace Statement

/-- The diagnostic of a fault in this statement. -/
def diagnostic (s : Statement) (cause : Diagnostic.Cause) : Diagnostic :=
  ⟨s.line, s.span, cause⟩

end Statement

end Micro65
