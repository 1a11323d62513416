/-!
# Settings

The points on which programs for the processor have been written to different rules: how comparisons
order bytes and when an addition overflows, for the machine; what value a label has and what becomes
of a line that does not assemble, for the assembler.
-/

namespace Micro65

/-- How the compare instructions order two bytes. -/
inductive CompareRule where
  /-- By their two's-complement readings; the sign shown is that of the register. -/
  | signed
  /-- As numbers from 0 to 255; the sign shown is that of the difference. -/
  | unsigned
  deriving DecidableEq, Repr

/-- When an addition or a subtraction sets the overflow flag. -/
inductive OverflowRule where
  /-- When both operands are strictly of one sign and the result is strictly of the other. -/
  | signHeuristic
  /-- When the two's-complement result is out of range. -/
  | twosComplement
  deriving DecidableEq, Repr

/-- What value a label has. -/
inductive LabelRule where
  /-- The address of the next instruction. -/
  | byteOffset
  /-- The number of lines before it, of those that hold something. -/
  | lineIndex
  deriving DecidableEq, Repr

/-- What becomes of a line that does not assemble. -/
inductive FaultRule where
  /-- Every such line is reported, and nothing is assembled. -/
  | halt
  /-- Such lines are left out, each with a warning. -/
  | skip
  deriving DecidableEq, Repr

/-- The settings of the machine. -/
structure MachineSettings where
  compare : CompareRule := .signed
  overflow : OverflowRule := .signHeuristic
  /-- The greatest number of instructions in a run. -/
  stepLimit : Option Nat := none
  deriving DecidableEq, Repr

/-- The settings under which the machine agrees with the processor. -/
def MachineSettings.hardware : MachineSettings where
  compare := .unsigned
  overflow := .twosComplement

/-- The settings of the assembler. -/
structure AssemblerSettings where
  labels : LabelRule := .byteOffset
  onFault : FaultRule := .halt
  deriving DecidableEq, Repr

/-- All settings. -/
structure Settings where
  machine : MachineSettings := {}
  assembler : AssemblerSettings := {}
  deriving DecidableEq, Repr

end Micro65
