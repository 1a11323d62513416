import Micro65.Assembly.Instruction
import Micro65.Statement.Line
/-!
# Layout

The first reading of a program gives every instruction its address and every label its value. The
running address is a number: it may pass the last address of the machine, and whatever then has no
address is a fault of its line. A line that cannot be sized takes no room; the second reading says
what is wrong with it.
-/

namespace Micro65

/-- How much of a line takes part in the assembly. -/
inductive Retention where
  /-- All of it. -/
  | whole
  /-- Its label, but not its instruction. -/
  | labelOnly
  deriving DecidableEq, Repr

/-- A line that takes part in the assembly. -/
structure Entry where
  /-- The number of lines before it, of those that hold something. -/
  index : Nat
  line : Line
  retention : Retention := .whole

namespace Entry

/-- The lines of a source, all of them in full. -/
def ofLines (lines : List Line) : List Entry :=
  lines.zipIdx.map fun (line, index) => { index, line }

end Entry

/-- A fault of a line, with what it means for the label of the line. -/
structure Failure where
  diagnostic : Diagnostic
  /-- Whether the line has a label that is not at fault. -/
  labelStands : Bool
  deriving DecidableEq, Repr

namespace Failure

/-- A fault of the instruction of a statement, which leaves its label standing. -/
def ofInstruction (s : Statement) (cause : Diagnostic.Cause) : Failure :=
  ⟨s.diagnostic cause, s.label.isSome⟩

/-- A fault of the label of a statement. -/
def ofLabel (s : Statement) (cause : Diagnostic.Cause) : Failure :=
  ⟨s.diagnostic cause, false⟩

end Failure

/-- What the layout makes of a line. -/
inductive Placement where
  /-- The line has a fault. -/
  | failed (f : Failure)
  /-- The line takes part without an instruction. -/
  | bare
  /-- The instruction of the line starts at this address. -/
  | placed (address : UInt16)
  deriving DecidableEq, Repr

/-- The state of the layout behind some of the lines. -/
structure Layout where
  /-- The address behind the last instruction. -/
  address : Nat := 0
  /-- The labels defined so far. -/
  symbols : SymbolTable := ∅
  /-- What became of each line, in order. -/
  placements : Array Placement := #[]

namespace Layout

/-- One more than the last address. -/
def addressBound : Nat := UInt16.size

/-- The value of a label on this line. -/
def labelValue (rule : LabelRule) (address : Nat) (index : Nat) : Nat :=
  match rule with
  | .byteOffset => address
  | .lineIndex => index

/-- Defines the label of a statement, if it has one. -/
@[inline] def define (rule : LabelRule) (address index : Nat) (s : Statement)
    (symbols : SymbolTable) : Except Failure SymbolTable :=
  match s.label with
  | none => .ok symbols
  | some name =>
    let value := labelValue rule address index
    if addressBound ≤ value then .error (.ofLabel s (.labelPastEnd name))
    else match symbols.define ⟨name, UInt16.ofNat value, s.line⟩ with
      | .error first => .error (.ofLabel s (.duplicateLabel name first.line))
      | .ok symbols => .ok symbols

/-- Gives the instruction of a statement its place, and the address behind it. -/
def putInstruction (rule : LabelRule) (s : Statement) (address : Nat) : Nat × Placement :=
  if addressBound ≤ address then (address, .failed (.ofInstruction s .startPastEnd))
  else
    let stop := address + (s.size? rule).getD 0
    if addressBound < stop then (stop, .failed (.ofInstruction s .stopPastEnd))
    else (stop, .placed (UInt16.ofNat address))

/-- Whether the instruction of a statement takes part, if it has one. -/
def hasInstruction (s : Statement) (retention : Retention) : Bool :=
  s.mnemonic.isSome && retention = .whole

/-- Lays out one more line. -/
def put (rule : LabelRule) : Layout → Entry → Layout
  | ⟨address, symbols, placements⟩, ⟨index, line, retention⟩ =>
    match line with
    | .error d => ⟨address, symbols, placements.push (.failed ⟨d, false⟩)⟩
    | .ok s =>
      match define rule address index s symbols with
      | .error f => ⟨address, symbols, placements.push (.failed f)⟩
      | .ok symbols =>
        if hasInstruction s retention then
          let (stop, placement) := putInstruction rule s address
          ⟨stop, symbols, placements.push placement⟩
        else ⟨address, symbols, placements.push .bare⟩

end Layout

/-- Lays out the lines of a program in order. -/
def Layout.ofEntries (rule : LabelRule) (entries : List Entry) : Layout :=
  entries.foldl (Layout.put rule) {}

end Micro65
