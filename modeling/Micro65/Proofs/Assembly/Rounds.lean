import Micro65.Proofs.Assembly.Beside
import Micro65.Proofs.Assembly.Exact
/-!
# The rounds of the recovery

The recovery goes on until a pass finds no fault, and the second pass is always such a pass
(`Pass.failures_survivors`): what the first one leaves can be laid out beside the whole program with
all names defined and nothing further away than it was, so an instruction that could be read can be
read again. There are therefore two rounds at most (`Assembly.exists_recovers`).
-/

namespace Micro65

open Layout (addressBound)

/-! ## References from another place -/

theorem exists_mem_of_forall₂ {α β : Type} {r : α → β → Prop} {xs : List α} {ys : List β}
    (h : List.Forall₂ r xs ys) {x : α} (hx : x ∈ xs) : ∃ y ∈ ys, r x y := by
  induction h with
  | nil => cases hx
  | cons hxy _ ih =>
    rcases List.mem_cons.mp hx with rfl | hx
    · exact ⟨_, List.mem_cons_self, hxy⟩
    · obtain ⟨y, hy, hr⟩ := ih hx
      exact ⟨y, List.mem_cons_of_mem _ hy, hr⟩

namespace LabelRule

variable {rule : LabelRule} {table table' : SymbolTable} {m : Mnemonic} {name : Text}

/-- **What can be reached is still reached** from a place from which no label is further away. -/
theorem exists_reference_of_centred {x x' : Nat}
    (htable : table.Indexed) (htable' : table'.Indexed)
    (hcentred : Beside.Centred rule table table' x x') (hx : x < addressBound)
    (hx' : x' < addressBound) (h : ∃ out, rule.reference table (UInt16.ofNat x) m name = .ok out) :
    ∃ out, rule.reference table' (UInt16.ofNat x') m name = .ok out := by
  obtain ⟨symbol, hfind, hreaches⟩ := exists_reference_iff.mp h
  obtain ⟨hmem, hname⟩ := htable.find?_eq_some_iff.mp hfind
  obtain ⟨symbol', hmem', htwins⟩ := exists_mem_of_forall₂ hcentred hmem
  refine exists_reference_iff.mpr ⟨symbol',
    htable'.find?_eq_some_iff.mpr ⟨hmem', htwins.name_eq.trans hname⟩, fun hrelative => ?_⟩
  obtain ⟨hlow, hhigh⟩ := hreaches hrelative
  have hnat : (UInt16.ofNat x).toNat = x := UInt16.toNat_ofNat_of_lt hx
  have hnat' : (UInt16.ofNat x').toNat = x' := UInt16.toNat_ofNat_of_lt hx'
  rw [hnat] at hlow hhigh
  unfold Reaches
  rw [hnat']
  rcases htwins.values (isRelative_iff.mp hrelative).2 with hnears | hnears
  · have := hnears.le'
    have := hnears.shorter
    omega
  · have := hnears.le'
    have := hnears.shorter
    omega

end LabelRule

namespace Pass

variable {rule : LabelRule}

theorem failures_eq_nil_iff {p : Pass} :
    p.failures = [] ↔ ∀ x ∈ p.verdicts, ∃ i, x.2 = .ok i := by
  unfold failures
  rw [List.filterMap_eq_nil_iff]
  refine forall₂_congr fun x _ => ?_
  obtain ⟨e, verdict⟩ := x
  cases verdict with
  | ok i => simp
  | error f => simp

/-- The pass that the verdicts on a layout make. -/
theorem ofEntries_of_runs {entries : List Entry} {placements : List Placement} {stop : Nat}
    {table : SymbolTable} (h : Layout.Runs rule 0 ∅ entries placements stop table) :
    ofEntries rule entries = judge rule table entries placements := by
  unfold ofEntries judge
  rw [Layout.ofEntries_of_runs h]

theorem judge_ofEntries (rule : LabelRule) (entries : List Entry) :
    ofEntries rule entries = judge rule (ofEntries rule entries).symbols entries
      (Layout.ofEntries rule entries).placements.toList := rfl

/-- **A second round finds no fault.** -/
theorem failures_survivors (rule : LabelRule) (entries : List Entry) :
    (ofEntries rule (ofEntries rule entries).survivors).failures = [] := by
  have hruns := Layout.runs_ofEntries rule entries
  have hplaces : Places rule (ofEntries rule entries).symbols (fun _ _ => True) 0 ∅ entries 0 :=
    fun _ _ _ _ _ _ _ _ => trivial
  obtain ⟨placements, ⟨stop, table⟩, hbeside, -⟩ :=
    exists_beside hruns Front.follows_start hplaces
  rw [judge_ofEntries rule entries, ofEntries_of_runs hbeside.runs, failures_eq_nil_iff]
  intro x hx
  obtain ⟨⟨e, p⟩, hmem, rfl⟩ := List.mem_map.mp hx
  rcases hbeside.placement_cases .nil hmem with
    rfl | ⟨s, i, x, x', hline, rfl, hx, hx', hreads, hcentred⟩
  · exact ⟨none, rfl⟩
  · simp only [Entry.verdict, hline]
    obtain ⟨i', hi'⟩ : ∃ i', s.instruction rule table (UInt16.ofNat x') = .ok i' := by
      refine Statement.exists_instruction_eq_ok (Statement.isSome_size?_of_instruction hreads) ?_
      intro m name hm hname
      exact LabelRule.exists_reference_of_centred (hruns.indexed SymbolTable.indexed_empty)
        (hbeside.runs.indexed SymbolTable.indexed_empty) hcentred hx hx'
        (Statement.reference_of_instruction_eq_ok hreads hm hname)
    rw [hi']
    exact ⟨some i', rfl⟩

end Pass

/-! ## The rounds -/

namespace Assembly

/-- The rounds of a recovery: so many passes lead from these lines, after these warnings, to the
assembly. Only the last of them finds no fault. -/
inductive Recovers (rule : LabelRule) : List Entry → List Warning → Nat → Assembly → Prop where
  | last {entries : List Entry} {warnings : List Warning}
      (faultless : (Pass.ofEntries rule entries).failures = []) :
      Recovers rule entries warnings 1 ((Pass.ofEntries rule entries).assembly warnings)
  | next {entries : List Entry} {warnings : List Warning} {passes : Nat} {a : Assembly}
      (fault : (Pass.ofEntries rule entries).failures ≠ [])
      (rest : Recovers rule (Pass.ofEntries rule entries).survivors
        (warnings ++ (Pass.ofEntries rule entries).warnings) passes a) :
      Recovers rule entries warnings (passes + 1) a

/-- The recovery goes through its rounds. -/
theorem Recovers.eq_recover {rule : LabelRule} {entries : List Entry} {warnings : List Warning}
    {passes : Nat} {a : Assembly} (h : Recovers rule entries warnings passes a) :
    a = recover rule entries warnings := by
  induction h with
  | last hfaultless =>
    rw [recover]
    simp [hfaultless]
  | next hfault _ ih =>
    rw [ih]
    conv => rhs; rw [recover]
    simp [hfault]

/-- **There are two rounds at most**, and one only if there is no fault. -/
theorem exists_recovers (rule : LabelRule) (entries : List Entry) (warnings : List Warning) :
    ∃ passes ≤ 2, passes ≤ entries.length + 1 ∧
      Recovers rule entries warnings passes (recover rule entries warnings) := by
  by_cases hfault : (Pass.ofEntries rule entries).failures = []
  · have hrecovers : Recovers rule entries warnings 1 _ := .last hfault
    rw [hrecovers.eq_recover] at hrecovers
    exact ⟨1, by omega, by omega, hrecovers⟩
  · have hrecovers : Recovers rule entries warnings 2 _ :=
      .next hfault (.last (Pass.failures_survivors rule entries))
    rw [hrecovers.eq_recover] at hrecovers
    have hne : entries ≠ [] := by
      rintro rfl
      exact hfault rfl
    have hpos := List.length_pos_of_ne_nil hne
    exact ⟨2, by omega, by omega, hrecovers⟩

end Assembly

end Micro65
