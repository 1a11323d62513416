import Micro65.Diagnostic
import Micro65.Encoding
import Micro65.Machine.Basic
import Micro65.Text.Hex
/-!
# Execution of one instruction

An instruction is executed from its parts (`Machine.execute`) or from its bytes
(`Machine.executeBytes`). Everything that can go wrong is found before the machine is changed, so a
fault leaves the machine as it was.
-/

namespace Micro65

/-- Why the machine cannot go on. -/
inductive Fault where
  /-- The opcode has no instruction that the machine carries out. -/
  | unknownOpcode (opcode : UInt8) (pc : UInt16)
  /-- The instruction lacks the mode. -/
  | lacksMode (mnemonic : Mnemonic) (mode : Mode)
  /-- The mode has operand bytes, and there is no operand. -/
  | missingOperand (mode : Mode)
  /-- There are fewer bytes behind the opcode than its instruction has. -/
  | truncated (opcode : UInt8) (expected found : Nat)
  /-- The run has had as many instructions as it may have. -/
  | limitReached (limit : Nat)
  /-- The program counter points into an instruction. -/
  | misaligned (pc : UInt16)
  deriving DecidableEq, Repr

/-- What is said of the fault. -/
def Fault.message : Fault → String
  | .unknownOpcode opcode pc =>
    let code := String.ofList (Text.hexByte opcode)
    let address := String.ofList (Text.hexWord pc)
    s!"opcode 0x{code} at PC 0x{address} is not emulated"
  | .lacksMode mnemonic mode => Diagnostic.lacksModeMessage mnemonic mode
  | .missingOperand mode => s!"{mode.shorthand} addressing requires an operand"
  | .truncated opcode expected found =>
    let code := String.ofList (Text.hexByte opcode)
    s!"opcode 0x{code} needs {expected} operand byte(s), found {found}"
  | .limitReached limit => s!"step limit of {limit} instructions exceeded"
  | .misaligned pc =>
    let address := String.ofList (Text.hexWord pc)
    s!"PC 0x{address} is not the start of an instruction"

/-- What came of an attempt to run something, and the machine behind it. -/
structure Outcome (μ α : Type) where
  result : Except Fault α
  machine : Machine μ

namespace Machine

variable {μ : Type} [Memory μ]

/-- The machine with the program counter moved on by the length of an instruction. -/
def advance (m : Machine μ) (size : Nat) : Machine μ :=
  { m with pc := m.pc + UInt16.ofNat size }

/-- Executes an instruction given by its parts. -/
def execute (m : Machine μ) (mnemonic : Mnemonic) (mode : Mode) (operand : Option UInt16) :
    Outcome μ Unit :=
  if mnemonic.hasMode mode then
    match m.place? mode operand with
    | none => ⟨.error (.missingOperand mode), m⟩
    | some p => ⟨.ok (), (m.advance (1 + mode.operandSize)).apply mnemonic.operation p⟩
  else ⟨.error (.lacksMode mnemonic mode), m⟩

/-- Executes the instruction of an opcode with the bytes that follow it; bytes behind the
instruction are ignored. Gives the instruction. -/
def executeBytes (m : Machine μ) (opcode : UInt8) (bytes : List UInt8) : Outcome μ Mnemonic :=
  let slot := Slot.ofOpcode opcode
  match slot.instruction? with
  | none => let pc := m.pc; ⟨.error (.unknownOpcode opcode pc), m⟩
  | some mnemonic =>
    match Encoding.readOperand? slot.operandSize bytes with
    | none => ⟨.error (.truncated opcode slot.operandSize bytes.length), m⟩
    | some operand =>
      match m.place? slot.mode operand with
      | none => ⟨.error (.missingOperand slot.mode), m⟩
      | some p => ⟨.ok mnemonic, (m.advance slot.size).apply mnemonic.operation p⟩

end Machine

end Micro65
