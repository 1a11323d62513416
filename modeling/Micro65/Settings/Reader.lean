import Micro65.Settings.Basic
import Micro65.Json.Parser
/-!
# Settings from a JSON document

A group of settings is an object with the settings as members, or an array of them in their order. A
setting that is missing has its default value, a member with another name is ignored, and a setting
that is given twice is an error. A choice is a string, or an object whose one key is the choice and
whose one value is null.
-/

namespace Micro65

namespace Json

/-- The settings among these names that a group gives, by name. -/
def settings? (names : List Text) : Json → Option (List (Text × Json))
  | .array items => if items.length ≤ names.length then some (names.zip items) else none
  | .object members => do
    let decoded ← members.mapM fun (key, value) => do return (← decode? key, value)
    let known := decoded.filter fun (key, _) => key ∈ names
    if (known.map (·.1)).Nodup then some known else none
  | _ => none

/-- The value of a setting, by its reader if it is given. -/
def setting? {α : Type} (settings : List (Text × Json)) (name : Text) (read? : Json → Option α)
    (default : α) : Option α :=
  match settings.lookup name with
  | none => some default
  | some value => read? value

/-- The choice that a document makes among named values. -/
def choice? {α : Type} (values : List (Text × α)) : Json → Option α
  | .string written | .object [(written, .null)] => do values.lookup (← decode? written)
  | _ => none

/-- A number below 2 ^ 64 that may be left open. -/
def limit? : Json → Option (Option Nat)
  | .null => some none
  | .number written => do
    let n ← natural? written
    if n < UInt64.size then some (some n) else none
  | _ => none

end Json

namespace CompareRule

/-- The names of the rules. -/
def names : List (Text × CompareRule) :=
  [("Signed".toList, .signed), ("Unsigned".toList, .unsigned)]

end CompareRule

namespace OverflowRule

/-- The names of the rules; the last one has two. -/
def names : List (Text × OverflowRule) :=
  [("SignHeuristic".toList, .signHeuristic), ("TwosComplement".toList, .twosComplement),
    ("Hardware".toList, .twosComplement)]

end OverflowRule

namespace LabelRule

/-- The names of the rules. -/
def names : List (Text × LabelRule) :=
  [("ByteOffset".toList, .byteOffset), ("LineIndex".toList, .lineIndex)]

end LabelRule

namespace FaultRule

/-- The names of the rules. -/
def names : List (Text × FaultRule) :=
  [("Halt".toList, .halt), ("Skip".toList, .skip)]

end FaultRule

namespace MachineSettings

/-- Reads the settings of the machine. -/
def ofJson? (j : Json) : Option MachineSettings := do
  let (compare, overflow, limit) := ("compare".toList, "overflow".toList, "max_steps".toList)
  let given ← j.settings? [compare, overflow, limit]
  return {
    compare := ← Json.setting? given compare (Json.choice? CompareRule.names) .signed
    overflow := ← Json.setting? given overflow (Json.choice? OverflowRule.names) .signHeuristic
    stepLimit := ← Json.setting? given limit Json.limit? none }

end MachineSettings

namespace AssemblerSettings

/-- Reads the settings of the assembler. -/
def ofJson? (j : Json) : Option AssemblerSettings := do
  let (labels, onFault) := ("labels".toList, "on_error".toList)
  let given ← j.settings? [labels, onFault]
  return {
    labels := ← Json.setting? given labels (Json.choice? LabelRule.names) .byteOffset
    onFault := ← Json.setting? given onFault (Json.choice? FaultRule.names) .halt }

end AssemblerSettings

namespace Settings

/-- Reads all settings. -/
def ofJson? (j : Json) : Option Settings := do
  let (machine, assembler) := ("cpu".toList, "assembler".toList)
  let given ← j.settings? [machine, assembler]
  return {
    machine := ← Json.setting? given machine MachineSettings.ofJson? {}
    assembler := ← Json.setting? given assembler AssemblerSettings.ofJson? {} }

/-- Reads all settings from the text of a document. -/
def parse? (document : Text) : Option Settings := do
  ofJson? (← Json.parse? document)

end Settings

end Micro65
