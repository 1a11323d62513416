import Micro65.Literal
import Micro65.Opcode
/-!
# Choice of the addressing mode

Each mode has a pattern that the tokens of an operand must match: how many tokens there are, how
wide the literal is, and which register indexes it. The mode of an operand is the first in
`Mode.precedence` whose pattern accepts it.
-/

namespace Micro65

/-- What an operand field stands for. -/
structure ModeChoice where
  mode : Mode
  /-- The literal of the operand, for a mode that has operand bytes. -/
  operand : Option UInt16
  deriving DecidableEq, Repr

namespace ModeChoice

/-- The value of a literal of exactly this width. -/
def literal? (width : Width) (token : Text) : Option UInt16 := do
  let (found, n) ← Literal.sized? token
  if found = width then some (UInt16.ofNat n) else none

/-- The value of a literal of this width when the index is this register, in either case. -/
def indexed? (width : Width) (register : Char) (value index : Text) : Option UInt16 :=
  if Text.SameLetters index [register] then literal? width value else none

/-- The operand that the tokens give an instruction in this mode. The outer `none` says that they
are no operand of the mode, the inner one that the mode has no operand bytes. -/
def accept? (mnemonic : Mnemonic) (mode : Mode) (tokens : List Text) : Option (Option UInt16) :=
  match mode, tokens with
  | .accumulator, [] | .stack, [] | .implied, [] =>
    if mnemonic.hasMode mode then some none else none
  | .accumulator, [register] => if Text.SameLetters register ['A'] then some none else none
  | .immediate, ['#' :: value] => (literal? .byte value).map some
  | .relative, [value] => if mnemonic.isBranch then (literal? .byte value).map some else none
  | .zeroPage, [value] | .zeroPageIndirect, [value] => (literal? .byte value).map some
  | .absolute, [value] | .indirect, [value] => (literal? .word value).map some
  | .zeroPageX, [value, index] | .indirectX, [value, index] =>
    (indexed? .byte 'X' value index).map some
  | .zeroPageY, [value, index] | .indirectY, [value, index] =>
    (indexed? .byte 'Y' value index).map some
  | .absoluteX, [value, index] | .absoluteIndexedIndirect, [value, index] =>
    (indexed? .word 'X' value index).map some
  | .absoluteY, [value, index] => (indexed? .word 'Y' value index).map some
  | _, _ => none

/-- The first of some modes that accepts the tokens of a field, with the operand. -/
def first? (modes : List Mode) (indirect : Bool) (mnemonic : Mnemonic) (tokens : List Text) :
    Option ModeChoice :=
  modes.findSome? fun mode =>
    if mode.isIndirect = indirect then
      (accept? mnemonic mode tokens).map fun operand => ⟨mode, operand⟩
    else none

/-- The mode and the operand that the tokens of a field give an instruction. -/
def ofTokens? (indirect : Bool) (mnemonic : Mnemonic) (tokens : List Text) : Option ModeChoice :=
  first? Mode.precedence indirect mnemonic tokens

end ModeChoice

end Micro65
