import Micro65.Assembly.Source
import Micro65.Machine.Run
/-!
# From source to run

A source can be run without its bytes: it is assembled under the default rules, and its instructions
are executed one by one.
-/

namespace Micro65

/-- Why a source was not run to its end. -/
inductive SourceRunError where
  /-- The source does not assemble. -/
  | assembly (faults : List Diagnostic)
  /-- The run ended with a fault. -/
  | fault (f : Fault)
  deriving DecidableEq, Repr

/-- What is said of the error. -/
def SourceRunError.message : SourceRunError → String
  | .assembly faults => s!"assembly failed with {faults.length} error(s)"
  | .fault f => f.message

/-- The program of an assembly, ready for direct execution. -/
def Program.ofAssembly (a : Assembly) : Program :=
  .ofInstructions a.instructions

namespace Machine

variable {μ : Type} [Memory μ]

/-- Assembles a source and runs it. A source that does not assemble leaves the machine as it was. -/
def runSource (source : Text) (fuel : Nat) (m : Machine μ) :
    Option (Except SourceRunError Summary × Machine μ) :=
  match assemble {} source with
  | .error faults => some (.error (.assembly faults), m)
  | .ok a =>
    (m.run (fetchProgram (.ofAssembly a)) fuel).map fun o =>
      (o.result.mapError .fault, o.machine)

end Machine

end Micro65
