import Std.Data.HashMap
import Micro65.Assembly.Instruction
/-!
# Programs for direct execution

The instructions of an assembled program, found by their addresses, so that they can be executed
without their bytes.
-/

namespace Micro65

/-- A list of instructions with an index by address. -/
structure Program where
  instructions : List Instruction
  /-- The instruction that starts at each address. -/
  starts : Std.HashMap UInt16 Instruction
  /-- The address behind the last instruction. -/
  stop : Nat

/-- What a program has at an address. -/
inductive ProgramPoint where
  /-- The address is behind the program. -/
  | outside
  /-- The address lies within an instruction. -/
  | inside
  /-- An instruction starts at the address. -/
  | start (i : Instruction)
  deriving DecidableEq, Repr

namespace Program

/-- The program of these instructions, in ascending order of their addresses. -/
def ofInstructions (instructions : List Instruction) : Program where
  instructions
  starts := instructions.foldl
    (fun (starts : Std.HashMap UInt16 Instruction) i => starts.insert i.address i) ∅
  stop := (instructions.getLast?.map Instruction.stop).getD 0

/-- What the program has at an address. -/
def point (p : Program) (address : UInt16) : ProgramPoint :=
  if p.stop ≤ address.toNat then .outside
  else match p.starts[address]? with
    | some i => .start i
    | none => .inside

end Program

end Micro65
