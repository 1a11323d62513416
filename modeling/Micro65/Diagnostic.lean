import Micro65.Label
import Micro65.Literal
import Micro65.Mnemonic
import Micro65.Mode
import Micro65.Operand.Field
/-!
# Diagnostics

A diagnostic says what is wrong with a line of the source and where. The cause is kept as a value;
its kind and its wording are computed from it.
-/

namespace Micro65

/-- A stretch of a line, in bytes from its start. -/
structure Span where
  /-- The offset of the first byte. -/
  start : Nat
  /-- The offset behind the last byte. -/
  stop : Nat
  deriving DecidableEq, Repr

/-- The number of bytes in the span. -/
def Span.length (s : Span) : Nat :=
  s.stop - s.start

namespace Diagnostic

/-- The kinds of fault that a line can have. -/
inductive Kind where
  | invalidNumber
  | addressingModeMismatch
  | unsupportedCombination
  | invalidMnemonic
  | syntaxError
  | undefinedLabel
  | duplicateLabel
  | invalidLabel
  | rangeError
  deriving DecidableEq, Repr

/-- What is wrong with a line. -/
inductive Cause where
  /-- The text before the colon is not a label name. -/
  | badLabel (e : LabelError)
  /-- The first word names no instruction. -/
  | unknownMnemonic (text : Text)
  /-- The parentheses of the operand are misplaced. -/
  | badField (e : FieldError)
  /-- The operand names a label that is not defined. -/
  | undefinedLabel (name : Text)
  /-- The label is defined a second time. -/
  | duplicateLabel (name : Text) (firstLine : Nat)
  /-- The value of the label is no address. -/
  | labelPastEnd (name : Text)
  /-- The instruction would start behind the last address. -/
  | startPastEnd
  /-- The instruction would end behind the last address. -/
  | stopPastEnd
  /-- The label is out of the reach of a branch. -/
  | branchTooFar (name : Text) (distance : Int)
  /-- The operand has a number that cannot be read. -/
  | badNumber (e : LiteralError)
  /-- The operand has the form of no mode. -/
  | noMode (mnemonic : Mnemonic) (operand : Text)
  /-- The instruction lacks the mode that the operand has. -/
  | lacksMode (mnemonic : Mnemonic) (mode : Mode)
  deriving DecidableEq, Repr

/-- The kind of fault that a cause is. -/
def Cause.kind : Cause → Kind
  | .badLabel _ => .invalidLabel
  | .unknownMnemonic _ => .invalidMnemonic
  | .badField _ => .syntaxError
  | .undefinedLabel _ => .undefinedLabel
  | .duplicateLabel _ _ => .duplicateLabel
  | .labelPastEnd _ | .startPastEnd | .stopPastEnd | .branchTooFar _ _ => .rangeError
  | .badNumber _ => .invalidNumber
  | .noMode _ _ => .addressingModeMismatch
  | .lacksMode _ _ => .unsupportedCombination

/-- What is said of a text that names no instruction. -/
def unknownMnemonicMessage (text : Text) : String :=
  s!"unknown mnemonic '{String.ofList text}'"

/-- What is said of an instruction that lacks a mode. -/
def lacksModeMessage (mnemonic : Mnemonic) (mode : Mode) : String :=
  s!"{mnemonic.name} does not support {mode.shorthand} addressing"

/-- What is said of a line with this fault. -/
def Cause.message : Cause → String
  | .badLabel e => e.message
  | .unknownMnemonic text => unknownMnemonicMessage text
  | .badField e => e.message
  | .undefinedLabel name => s!"undefined label '{String.ofList name}'"
  | .duplicateLabel name firstLine =>
    s!"label '{String.ofList name}' already defined on line {firstLine}"
  | .labelPastEnd name => s!"label '{String.ofList name}' is past $FFFF"
  | .startPastEnd => "program extends past $FFFF"
  | .stopPastEnd => "instruction extends past $FFFF"
  | .branchTooFar name distance =>
    s!"branch to '{String.ofList name}' is {distance} bytes away (range is -128..127)"
  | .badNumber e => e.message
  | .noMode mnemonic operand =>
    s!"no addressing mode of {mnemonic.name} accepts operand '{String.ofList operand}'"
  | .lacksMode mnemonic mode => lacksModeMessage mnemonic mode

end Diagnostic

/-- A fault of a line, with its place. -/
structure Diagnostic where
  /-- The number of the line, from one. -/
  line : Nat
  /-- The part of the line that is at fault. -/
  span : Span
  cause : Diagnostic.Cause
  deriving DecidableEq, Repr

namespace Diagnostic

/-- The offset in the line, from zero, at which the fault is reported. -/
def column (d : Diagnostic) : Nat :=
  d.span.start

/-- The kind of fault. -/
def kind (d : Diagnostic) : Kind :=
  d.cause.kind

/-- What is said of the fault. -/
def message (d : Diagnostic) : String :=
  d.cause.message

/-- The fault with its place, as one line of text. -/
def display (d : Diagnostic) : String :=
  s!"line {d.line}, column {d.column}: {d.message}"

end Diagnostic

end Micro65
