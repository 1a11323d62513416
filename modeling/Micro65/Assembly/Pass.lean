import Micro65.Assembly.Layout
import Micro65.SourceMap
/-!
# A pass over the program

A pass lays the lines out and then reads their instructions with the values of the labels. Each
line gets a verdict: its instruction, nothing, or the first fault found in it. A layout fault
comes before a fault of the second reading.
-/

namespace Micro65

/-- What a pass finds for a line: a fault, or the instruction of the line if it has one. -/
abbrev Verdict := Except Failure (Option Instruction)

/-- The verdict on a line, given its placement and the values of the labels. -/
def Entry.verdict (rule : LabelRule) (symbols : SymbolTable) (e : Entry) : Placement → Verdict
  | .failed f => .error f
  | .bare => .ok none
  | .placed address =>
    match e.line with
    | .error d => .error ⟨d, false⟩
    | .ok s =>
      match s.instruction rule symbols address with
      | .error cause => .error (.ofInstruction s cause)
      | .ok i => .ok (some i)

/-- The place of the statement in the source. -/
def Statement.location (s : Statement) : Location :=
  ⟨s.line, s.span.start, s.span.length⟩

/-- The outcome of a pass. -/
structure Pass where
  /-- The labels with their values. -/
  symbols : SymbolTable
  /-- The lines with the verdicts on them, in order. -/
  verdicts : List (Entry × Verdict)

namespace Pass

/-- Makes a pass over the lines of a program. -/
def ofEntries (rule : LabelRule) (entries : List Entry) : Pass :=
  let layout := Layout.ofEntries rule entries
  { symbols := layout.symbols
    verdicts := (entries.zip layout.placements.toList).map fun (e, placement) =>
      (e, e.verdict rule layout.symbols placement) }

/-- The faults found, each with its line, in order. -/
def failures (p : Pass) : List (Entry × Failure) :=
  p.verdicts.filterMap fun (e, verdict) =>
    match verdict with
    | .error f => some (e, f)
    | .ok _ => none

/-- The instructions found, each with its place in the source, in order. -/
def instructions (p : Pass) : List (Instruction × Location) :=
  p.verdicts.filterMap fun (e, verdict) =>
    match e.line, verdict with
    | .ok s, .ok (some i) => some (i, s.location)
    | _, _ => none

end Pass

end Micro65
