import Micro65.Assembly.Pass
/-!
# Assembled programs

What an assembled program consists of, and how it is put together from a pass that finds no fault.
-/

namespace Micro65

/-- A note that part of a line was left out. -/
inductive Warning where
  /-- The instruction was left out and the label kept. -/
  | instructionSkipped (d : Diagnostic)
  /-- The line was left out. -/
  | lineSkipped (d : Diagnostic)
  deriving DecidableEq, Repr

namespace Warning

/-- The fault that led to the warning. -/
def diagnostic : Warning → Diagnostic
  | .instructionSkipped d | .lineSkipped d => d

/-- The number of the line. -/
def line (w : Warning) : Nat :=
  w.diagnostic.line

/-- What is said of the line. -/
def message : Warning → String
  | .instructionSkipped d => s!"instruction skipped, label kept: {d.message}"
  | .lineSkipped d => s!"line skipped: {d.message}"

end Warning

/-- An assembled program. -/
structure Assembly where
  /-- The machine code, from address 0. -/
  bytes : Array UInt8
  /-- The instructions by ascending address. -/
  instructions : List Instruction
  /-- The labels in the order of their definition. -/
  symbols : SymbolTable
  sourceMap : SourceMap
  /-- The notes on what was left out, in the order in which it was found. -/
  warnings : List Warning

/-- The value of a label of the program. -/
def Assembly.value? (a : Assembly) (name : Text) : Option UInt16 :=
  (a.symbols.find? name).map (·.address)

namespace SourceMap

/-- The source map of instructions with their places. -/
def ofInstructions (instructions : List (Instruction × Location)) : SourceMap :=
  (instructions.foldl (fun (m : SourceMap) (i, location) => m.add i.address i.size location) ∅).sort

end SourceMap

/-- The program of a pass without faults. -/
def Pass.assembly (p : Pass) (warnings : List Warning) : Assembly :=
  let instructions := p.instructions
  { bytes := (instructions.flatMap fun (i, _) => i.bytes).toArray
    instructions := instructions.map (·.1)
    symbols := p.symbols
    sourceMap := .ofInstructions instructions
    warnings }

end Micro65
