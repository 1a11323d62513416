import Micro65.Machine.Status
import Micro65.Mnemonic
/-!
# Operations

What the fifty instructions do, apart from where they find their operand. Instructions that do the
same to different registers, flags or bits are one operation with a parameter.
-/

namespace Micro65

/-- A register of one byte. -/
inductive Register where
  /-- The accumulator. -/
  | a
  /-- The first index. -/
  | x
  /-- The second index. -/
  | y
  /-- The stack pointer. -/
  | sp
  deriving DecidableEq, Repr

/-- A bitwise combination of two bytes. -/
inductive Logic where
  | conjunction
  | disjunction
  | exclusive
  deriving DecidableEq, Repr

/-- A shift of a byte by one bit. -/
inductive Shift where
  /-- To the left; a zero comes in. -/
  | left
  /-- To the right; a zero comes in. -/
  | right
  /-- To the left; the carry comes in. -/
  | rotateLeft
  /-- To the right; the carry comes in. -/
  | rotateRight
  deriving DecidableEq, Repr

/-- What an instruction does. -/
inductive Operation where
  /-- Fetches the operand into a register. -/
  | load (r : Register)
  /-- Writes a register to the operand. -/
  | store (r : Register)
  /-- Copies a register into another. -/
  | transfer (source target : Register)
  /-- Adds the operand and the carry to the accumulator. -/
  | add
  /-- Subtracts the operand and the missing carry from the accumulator. -/
  | subtract
  /-- Combines the accumulator with the operand. -/
  | combine (logic : Logic)
  /-- Compares a register with the operand. -/
  | compare (r : Register)
  /-- Shifts the operand. -/
  | shift (s : Shift)
  /-- Adds a constant to the operand. -/
  | adjust (delta : UInt8)
  /-- Adds a constant to a register. -/
  | adjustRegister (r : Register) (delta : UInt8)
  /-- Jumps if a flag has a value. -/
  | branch (flag : Flag) (value : Bool)
  /-- Puts the accumulator on the stack. -/
  | pushAccumulator
  /-- Puts the status register on the stack. -/
  | pushStatus
  /-- Takes the accumulator from the stack. -/
  | pullAccumulator
  /-- Takes the status register from the stack. -/
  | pullStatus
  /-- Gives a flag a value. -/
  | setFlag (flag : Flag) (value : Bool)
  /-- Does nothing. -/
  | idle
  deriving DecidableEq, Repr

/-- What an instruction does. -/
def Mnemonic.operation : Mnemonic → Operation
  | .adc => .add
  | .and => .combine .conjunction
  | .asl => .shift .left
  | .bcc => .branch .carry false
  | .bcs => .branch .carry true
  | .beq => .branch .zero true
  | .bmi => .branch .negative true
  | .bne => .branch .zero false
  | .bpl => .branch .negative false
  | .bvc => .branch .overflow false
  | .bvs => .branch .overflow true
  | .clc => .setFlag .carry false
  | .cld => .setFlag .decimal false
  | .cli => .setFlag .interruptDisable false
  | .clv => .setFlag .overflow false
  | .cmp => .compare .a
  | .cpx => .compare .x
  | .cpy => .compare .y
  | .dec => .adjust 0xFF
  | .dex => .adjustRegister .x 0xFF
  | .dey => .adjustRegister .y 0xFF
  | .eor => .combine .exclusive
  | .inc => .adjust 1
  | .inx => .adjustRegister .x 1
  | .iny => .adjustRegister .y 1
  | .lda => .load .a
  | .ldx => .load .x
  | .ldy => .load .y
  | .lsr => .shift .right
  | .nop => .idle
  | .ora => .combine .disjunction
  | .pha => .pushAccumulator
  | .php => .pushStatus
  | .pla => .pullAccumulator
  | .plp => .pullStatus
  | .rol => .shift .rotateLeft
  | .ror => .shift .rotateRight
  | .sbc => .subtract
  | .sec => .setFlag .carry true
  | .sed => .setFlag .decimal true
  | .sei => .setFlag .interruptDisable true
  | .sta => .store .a
  | .stx => .store .x
  | .sty => .store .y
  | .tax => .transfer .a .x
  | .tay => .transfer .a .y
  | .tsx => .transfer .sp .x
  | .txa => .transfer .x .a
  | .txs => .transfer .x .sp
  | .tya => .transfer .y .a

theorem Mnemonic.isBranch_iff (m : Mnemonic) :
    m.isBranch = true ↔ ∃ flag value, m.operation = .branch flag value := by
  cases m <;> simp [isBranch, operation]

end Micro65
