/-!
# Addressing modes

The sixteen ways in which an instruction of the processor finds its operand. A mode fixes how many
bytes follow the opcode (`Mode.operandSize`), and whether its operand is written in parentheses
(`Mode.isIndirect`).
-/

namespace Micro65

/-- How an instruction finds its operand. -/
inductive Mode where
  /-- The instruction names its operand itself. -/
  | implied
  /-- The accumulator. -/
  | accumulator
  /-- The byte after the opcode. -/
  | immediate
  /-- The top of the stack. -/
  | stack
  /-- An address in the first page. -/
  | zeroPage
  /-- An address in the first page, plus X. -/
  | zeroPageX
  /-- An address in the first page, plus Y. -/
  | zeroPageY
  /-- A distance from the next instruction. -/
  | relative
  /-- An address. -/
  | absolute
  /-- An address, plus X. -/
  | absoluteX
  /-- An address, plus Y. -/
  | absoluteY
  /-- The address held at an address. -/
  | indirect
  /-- The address held at an address plus X. -/
  | absoluteIndexedIndirect
  /-- The address held at an address in the first page plus X. -/
  | indirectX
  /-- The address held at an address in the first page, plus Y. -/
  | indirectY
  /-- The address held at an address in the first page. -/
  | zeroPageIndirect
  deriving DecidableEq, Repr

namespace Mode

/-- The number of bytes that follow the opcode. -/
def operandSize : Mode → Nat
  | .implied | .accumulator | .stack => 0
  | .absolute | .absoluteX | .absoluteY | .indirect | .absoluteIndexedIndirect => 2
  | _ => 1

/-- Whether the operand is written in parentheses. -/
def isIndirect : Mode → Bool
  | .indirect | .absoluteIndexedIndirect | .indirectX | .indirectY | .zeroPageIndirect => true
  | _ => false

/-- The short form of the mode in the processor's data sheet. -/
def shorthand : Mode → String
  | .implied => "i"
  | .accumulator => "A"
  | .immediate => "#"
  | .stack => "s"
  | .zeroPage => "zp"
  | .zeroPageX => "zp,x"
  | .zeroPageY => "zp,y"
  | .relative => "r"
  | .absolute => "a"
  | .absoluteX => "a,x"
  | .absoluteY => "a,y"
  | .indirect => "(a)"
  | .absoluteIndexedIndirect => "(a,x)"
  | .indirectX => "(zp,x)"
  | .indirectY => "(zp),y"
  | .zeroPageIndirect => "(zp)"

/-- The modes in the order in which an operand is tried against them. The order decides one case
only: a branch takes a byte as a distance, before it could be an address in the first page, which
is written the same way. -/
def precedence : List Mode :=
  [.absoluteIndexedIndirect, .indirectY, .indirectX, .indirect, .zeroPageIndirect, .accumulator,
    .stack, .implied, .immediate, .relative, .absoluteX, .absoluteY, .zeroPageX, .zeroPageY,
    .absolute, .zeroPage]

theorem mem_precedence (mode : Mode) : mode ∈ precedence := by
  cases mode <;> decide

theorem operandSize_le_two (mode : Mode) : mode.operandSize ≤ 2 := by
  cases mode <;> decide

end Mode

end Micro65
