import Micro65.Assembly.Basic
/-!
# Recovery from faults

Where faults are skipped, each line at fault is cut back to its label, or left out where the label
cannot stay, and what is left is assembled again, until a pass finds no fault. Every such round
leaves less of the program (`Pass.weight_survivors_lt`), so there is a last one.
-/

namespace Micro65

namespace Entry

/-- What stays of a line at fault: its label, if that has not been at fault and more than it has
been kept so far. -/
def salvage (e : Entry) (f : Failure) : Option Entry :=
  if f.labelStands && e.retention = .whole then some { e with retention := .labelOnly } else none

/-- The note on a line at fault. -/
def warning (e : Entry) (f : Failure) : Warning :=
  match e.salvage f with
  | some _ => .instructionSkipped f.diagnostic
  | none => .lineSkipped f.diagnostic

/-- The line as it takes part in the next round, after a verdict on it. -/
def afterVerdict (e : Entry) : Verdict → Option Entry
  | .ok _ => some e
  | .error f => e.salvage f

/-- The number of faults that can still take something from the line. -/
def weight (e : Entry) : Nat :=
  match e.retention with
  | .whole => 2
  | .labelOnly => 1

theorem weight_pos (e : Entry) : 0 < e.weight := by
  simp only [weight]
  split <;> decide

theorem weight_lt_of_salvage {e e' : Entry} {f : Failure} (h : e.salvage f = some e') :
    e'.weight < e.weight := by
  simp only [salvage] at h
  split at h
  · rename_i hkept
    cases h
    simp only [Bool.and_eq_true, decide_eq_true_eq] at hkept
    simp [weight, hkept.2]
  · cases h

end Entry

namespace Assembly

/-- The number of faults that can still take something from a program. -/
def weight : List Entry → Nat
  | [] => 0
  | e :: entries => e.weight + weight entries

@[simp] theorem weight_nil : weight [] = 0 := rfl

@[simp] theorem weight_cons (e : Entry) (entries : List Entry) :
    weight (e :: entries) = e.weight + weight entries := rfl

end Assembly

namespace Entry

/-- What is left of a line after a verdict weighs no more than the line. -/
theorem weight_toList_afterVerdict_le (e : Entry) (v : Verdict) :
    Assembly.weight (e.afterVerdict v).toList ≤ e.weight := by
  cases v with
  | ok i => simp [afterVerdict]
  | error f =>
    cases hs : e.salvage f with
    | none => simp [afterVerdict, hs]
    | some e' =>
      have := weight_lt_of_salvage hs
      simp only [afterVerdict, hs, Option.toList_some, Assembly.weight_cons, Assembly.weight_nil]
      omega

/-- A fault takes something from a line. -/
theorem weight_toList_afterVerdict_lt (e : Entry) (f : Failure) :
    Assembly.weight (e.afterVerdict (.error f)).toList < e.weight := by
  cases hs : e.salvage f with
  | none => simpa [afterVerdict, hs] using e.weight_pos
  | some e' =>
    have := weight_lt_of_salvage hs
    simp only [afterVerdict, hs, Option.toList_some, Assembly.weight_cons, Assembly.weight_nil]
    omega

end Entry

namespace Pass

/-- The lines as they take part in the next round. -/
def survivors (p : Pass) : List Entry :=
  p.verdicts.filterMap fun (e, verdict) => e.afterVerdict verdict

/-- The notes on the lines at fault, in order. -/
def warnings (p : Pass) : List Warning :=
  p.failures.map fun (e, f) => e.warning f

open Assembly (weight weight_cons)

theorem weight_filterMap_cons {α : Type} (g : α → Option Entry) (a : α) (l : List α) :
    weight ((a :: l).filterMap g) = weight (g a).toList + weight (l.filterMap g) := by
  cases hg : g a with
  | none => simp [hg]
  | some e => simp [hg]

theorem weight_filterMap_afterVerdict_le (verdicts : List (Entry × Verdict)) :
    weight (verdicts.filterMap fun v => v.1.afterVerdict v.2) ≤ weight (verdicts.map (·.1)) := by
  induction verdicts with
  | nil => exact Nat.le_refl _
  | cons v verdicts ih =>
    have hv := v.1.weight_toList_afterVerdict_le v.2
    rw [weight_filterMap_cons]
    simp only [weight_cons, List.map_cons]
    omega

/-- If one verdict is a fault, less is left than there was. -/
theorem weight_filterMap_afterVerdict_lt {verdicts : List (Entry × Verdict)} {e : Entry}
    {f : Failure} (h : (e, .error f) ∈ verdicts) :
    weight (verdicts.filterMap fun v => v.1.afterVerdict v.2) < weight (verdicts.map (·.1)) := by
  induction verdicts with
  | nil => cases h
  | cons v verdicts ih =>
    have hle := weight_filterMap_afterVerdict_le verdicts
    have hv := v.1.weight_toList_afterVerdict_le v.2
    rw [weight_filterMap_cons]
    simp only [weight_cons, List.map_cons]
    cases h with
    | head =>
      have := e.weight_toList_afterVerdict_lt f
      simp only at hv ⊢
      omega
    | tail _ h =>
      have := ih h
      omega

theorem weight_map_fst_verdicts_le (rule : LabelRule) (entries : List Entry) :
    weight ((ofEntries rule entries).verdicts.map (·.1)) ≤ weight entries := by
  suffices h : ∀ (entries : List Entry) (placements : List Placement)
      (g : Entry → Placement → Verdict),
      weight (((entries.zip placements).map fun v => (v.1, g v.1 v.2)).map (·.1)) ≤
        weight entries from h _ _ _
  intro entries
  induction entries with
  | nil => intros; exact Nat.le_refl _
  | cons e entries ih =>
    intro placements g
    cases placements with
    | nil => exact Nat.zero_le _
    | cons placement placements =>
      have := ih placements g
      simp only [weight_cons, List.zip_cons_cons, List.map_cons] at this ⊢
      omega

/-- A round that finds a fault leaves less of the program. -/
theorem weight_survivors_lt {rule : LabelRule} {entries : List Entry}
    (h : (ofEntries rule entries).failures ≠ []) :
    weight (ofEntries rule entries).survivors < weight entries := by
  have hle := weight_map_fst_verdicts_le rule entries
  obtain ⟨x, hx⟩ : ∃ x, x ∈ (ofEntries rule entries).failures :=
    List.exists_mem_of_ne_nil _ h
  obtain ⟨⟨e, verdict⟩, hmem, hfault⟩ := List.mem_filterMap.1 hx
  cases verdict with
  | ok i => cases hfault
  | error f =>
    have := weight_filterMap_afterVerdict_lt hmem
    simp only [survivors]
    omega

end Pass

namespace Assembly

/-- Assembles lines, leaving out what is at fault, after rounds that gave these warnings. -/
def recover (rule : LabelRule) (entries : List Entry) (warnings : List Warning) : Assembly :=
  let pass := Pass.ofEntries rule entries
  if pass.failures.isEmpty then pass.assembly warnings
  else recover rule pass.survivors (warnings ++ pass.warnings)
termination_by weight entries
decreasing_by
  rename_i h
  exact Pass.weight_survivors_lt (by simpa using h)

end Assembly

end Micro65
