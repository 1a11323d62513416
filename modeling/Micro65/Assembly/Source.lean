import Micro65.Assembly.Recovery
/-!
# Assembly of a source

A source assembles when a pass over its lines finds no fault. Otherwise the rule for faults decides:
either the faults are the answer, or the lines at fault are left out.
-/

namespace Micro65

/-- Assembles a source, or gives the faults of its lines in order. -/
def assemble (settings : AssemblerSettings) (source : Text) : Except (List Diagnostic) Assembly :=
  let entries := Entry.ofLines (Line.ofSource source)
  match settings.onFault with
  | .skip => .ok (Assembly.recover settings.labels entries [])
  | .halt =>
    let pass := Pass.ofEntries settings.labels entries
    match pass.failures with
    | [] => .ok (pass.assembly [])
    | failures => .error (failures.map fun (_, f) => f.diagnostic)

end Micro65