import Micro65.Proofs.Assembly.Beside
/-!
# When nothing is wrong with a line

What a pass finds wrong with a line is a matter of a few values: the address at which the line
stands, whether the name of its label is taken, and the values of the names in its operand.
`Statement.Fits` says of such values that nothing is wrong, and a line is not at fault exactly if it
fits where the layout has put it (`Entry.exists_verdict_iff_fits`).

These values are then followed through two layouts that stand side by side. A label that counts
bytes has the address of its line (`Layout.Defines.find?_label`, `Front.Follows.map_find?`), and
past the last address there are neither labels nor instructions (`Pass.runs_pastEnd`).
-/

namespace Micro65

open Layout (Defines Puts Runs define hasInstruction addressBound)

/-- Whether nothing is wrong with a statement at an address. Its label may have the names that are
`free`, and the names in its operand have the values that `value?` gives. -/
structure Statement.Fits (s : Statement) (address : Nat) (free : Text → Prop)
    (value? : Text → Option Nat) : Prop where
  /-- The label has an address of the machine, and a name that it may have. -/
  label : ∀ name, s.label = some name → address < addressBound ∧ free name
  /-- The instruction has a length, and ends inside the machine. -/
  size : s.mnemonic.isSome = true →
    ∃ size, s.size? .byteOffset = some size ∧ address + size ≤ addressBound
  /-- The names have values, and a branch reaches them. -/
  names : ∀ m, s.mnemonic.bind Mnemonic.ofText? = some m → ∀ name ∈ s.names,
    ∃ value, value? name = some value ∧ (m.isBranch = true →
      -128 ≤ (value - (address + 2) : Int) ∧ (value - (address + 2) : Int) ≤ 127)

namespace LabelRule

variable {table : SymbolTable} {m : Mnemonic} {name : Text} {x : Nat}

theorem exists_reference_iff_of_lt (hx : x < addressBound) :
    (∃ out, reference .byteOffset table (UInt16.ofNat x) m name = .ok out) ↔
      ∃ value, (table.find? name).map (·.address.toNat) = some value ∧ (m.isBranch = true →
        -128 ≤ (value - (x + 2) : Int) ∧ (value - (x + 2) : Int) ≤ 127) := by
  have hnat : (UInt16.ofNat x).toNat = x := UInt16.toNat_ofNat_of_lt hx
  rw [exists_reference_iff]
  simp only [isRelative_iff, and_true, Reaches, hnat]
  constructor
  · rintro ⟨symbol, hfind, hreaches⟩
    exact ⟨_, by rw [hfind]; rfl, hreaches⟩
  · rintro ⟨value, hvalue, hreaches⟩
    obtain ⟨symbol, hfind, rfl⟩ := Option.map_eq_some_iff.mp hvalue
    exact ⟨symbol, hfind, hreaches⟩

end LabelRule

namespace Statement

variable {s : Statement} {x index : Nat} {t : SymbolTable} {free free' : Text → Prop}
  {value? value?' : Text → Option Nat}

theorem bind_ofText?_eq_some_iff {m : Mnemonic} : s.mnemonic.bind Mnemonic.ofText? = some m ↔
    s.mnemonic.isSome = true ∧ Mnemonic.ofText? (s.mnemonic.getD []) = some m := by
  cases s.mnemonic <;> simp

/-- The values of the names matter only if the label is not at fault. -/
theorem fits_congr (hfree : ∀ name, s.label = some name → (free name ↔ free' name))
    (hvalue : (∀ name, s.label = some name → x < addressBound ∧ free name) →
      ∀ name, value? name = value?' name) : s.Fits x free value? ↔ s.Fits x free' value?' := by
  have hlabel : (∀ name, s.label = some name → x < addressBound ∧ free name) ↔
      ∀ name, s.label = some name → x < addressBound ∧ free' name :=
    forall₂_congr fun name hname => and_congr_right fun _ => hfree name hname
  constructor
  · rintro ⟨h, hsize, hnames⟩
    exact ⟨hlabel.mp h, hsize, by simpa only [← hvalue h] using hnames⟩
  · rintro ⟨h, hsize, hnames⟩
    exact ⟨hlabel.mpr h, hsize, by simpa only [hvalue (hlabel.mpr h)] using hnames⟩

end Statement

namespace Layout

variable {s : Statement} {x y index : Nat} {t u : SymbolTable} {p : Placement} {f : Failure}
  {retention : Retention}

/-- A label that cannot be defined has no address or a name that is taken. -/
theorem not_label_of_define (h : define .byteOffset x index s t = .error f) :
    ¬ ∀ name, s.label = some name → x < addressBound ∧ t.find? name = none := by
  intro hlabel
  have hdefines : ∃ u, Defines .byteOffset x index s t u := by
    cases hname : s.label with
    | none => exact ⟨t, .unlabelled hname⟩
    | some name => exact ⟨_, .labelled name hname (hlabel name hname).1 (hlabel name hname).2⟩
  obtain ⟨u, hu⟩ := hdefines
  rw [define_eq_ok_iff.mpr hu] at h
  cases h

theorem Defines.label (h : Defines .byteOffset x index s t u) {name : Text}
    (hlabel : s.label = some name) : x < addressBound ∧ t.find? name = none := by
  cases h with
  | unlabelled hnone => rw [hlabel] at hnone; cases hnone
  | labelled name' hlabel' hlt hnew =>
    rw [hlabel] at hlabel'
    cases hlabel'
    exact ⟨hlt, hnew⟩

theorem hasInstruction_whole_iff : hasInstruction s .whole = true ↔ s.mnemonic.isSome = true := by
  simp [hasInstruction]

theorem Puts.defines (h : Puts .byteOffset x t ⟨index, .ok s, retention⟩ p y u)
    (hlabel : ∀ name, s.label = some name → x < addressBound ∧ t.find? name = none) :
    Defines .byteOffset x index s t u := by
  cases h with
  | badLabel s f hfails => exact absurd hlabel (not_label_of_define hfails)
  | bare s _ hdefines _ => exact hdefines
  | startPastEnd s _ hdefines _ _ => exact hdefines
  | stopPastEnd s _ hdefines _ _ _ => exact hdefines
  | placed s _ hdefines _ _ _ => exact hdefines

end Layout

/-! ## The verdict on a line -/

/-- **A whole line is not at fault exactly if it fits** where it is put. -/
theorem Entry.exists_verdict_iff_fits {s : Statement} {x y index : Nat} {t u table : SymbolTable}
    {p : Placement} (hputs : Puts .byteOffset x t ⟨index, .ok s, .whole⟩ p y u) :
    (∃ i, verdict .byteOffset table ⟨index, .ok s, .whole⟩ p = .ok i) ↔
      s.Fits x (fun name => t.find? name = none)
        (fun name => (table.find? name).map (·.address.toNat)) := by
  cases hputs with
  | badLabel s f hfails =>
    exact iff_of_false (by simp [verdict]) fun hfits =>
      Layout.not_label_of_define hfails hfits.label
  | bare s _ hdefines hlacks =>
    refine iff_of_true ⟨none, rfl⟩ ?_
    have hnone : s.mnemonic = none := by simpa [hasInstruction] using hlacks
    exact ⟨fun _ => hdefines.label, by simp [hnone], by simp [hnone]⟩
  | startPastEnd s _ _ hhas hstart =>
    refine iff_of_false (by simp [verdict]) fun hfits => ?_
    obtain ⟨size, hsize, hle⟩ := hfits.size (Layout.hasInstruction_whole_iff.mp hhas)
    have := Statement.size?_pos hsize
    omega
  | stopPastEnd s _ _ hhas _ hstop =>
    refine iff_of_false (by simp [verdict]) fun hfits => ?_
    obtain ⟨size, hsize, hle⟩ := hfits.size (Layout.hasInstruction_whole_iff.mp hhas)
    rw [hsize] at hstop
    exact absurd hle (Nat.not_le_of_lt hstop)
  | placed s _ hdefines hhas hlt hle =>
    have hmnemonic := Layout.hasInstruction_whole_iff.mp hhas
    cases hread : s.instruction .byteOffset table (UInt16.ofNat x) with
    | ok i =>
      refine iff_of_true ⟨some i, by simp only [verdict, hread]⟩ ?_
      have hsize := Statement.size?_of_instruction hread
      rw [hsize] at hle
      refine ⟨fun _ => hdefines.label, fun _ => ⟨_, hsize, hle⟩, fun m hm name hname => ?_⟩
      exact (LabelRule.exists_reference_iff_of_lt hlt).mp
        (Statement.reference_of_instruction_eq_ok hread
          (Statement.bind_ofText?_eq_some_iff.mp hm).2 hname)
    | error kind =>
      refine iff_of_false (by simp [verdict, hread]) fun hfits => ?_
      obtain ⟨size, hsize, -⟩ := hfits.size hmnemonic
      obtain ⟨i, hi⟩ : ∃ i, s.instruction .byteOffset table (UInt16.ofNat x) = .ok i := by
        refine Statement.exists_instruction_eq_ok (by rw [hsize]; rfl) fun m name hm hname => ?_
        exact (LabelRule.exists_reference_iff_of_lt hlt).mpr
          (hfits.names m (Statement.bind_ofText?_eq_some_iff.mpr ⟨hmnemonic, hm⟩) name hname)
      rw [hread] at hi
      cases hi

/-! ## Labels -/

namespace Layout

variable {rule : LabelRule} {x y index : Nat} {s : Statement} {t u : SymbolTable} {name : Text}

theorem Defines.find?_label (h : Defines rule x index s t u) (ht : t.Indexed)
    (hlabel : s.label = some name) :
    u.find? name = some ⟨name, UInt16.ofNat (labelValue rule x index), s.line⟩ := by
  cases h with
  | unlabelled hnone => rw [hlabel] at hnone; cases hnone
  | labelled name' hlabel' _ hnew =>
    rw [hlabel] at hlabel'
    cases hlabel'
    rw [ht.find?_push hnew, if_pos rfl]

theorem Defines.find?_of_ne (h : Defines rule x index s t u) (ht : t.Indexed)
    (hne : s.label ≠ some name) : u.find? name = t.find? name := by
  cases h with
  | unlabelled _ => rfl
  | labelled name' hlabel' _ hnew =>
    rw [ht.find?_push hnew, if_neg]
    rintro rfl
    exact hne hlabel'

theorem Puts.find?_of_ne {retention : Retention} {p : Placement}
    (h : Puts rule x t ⟨index, .ok s, retention⟩ p y u) (ht : t.Indexed)
    (hne : s.label ≠ some name) : u.find? name = t.find? name := by
  cases h with
  | badLabel _ _ _ => rfl
  | bare _ _ hdefines _ => exact hdefines.find?_of_ne ht hne
  | startPastEnd _ _ hdefines _ _ => exact hdefines.find?_of_ne ht hne
  | stopPastEnd _ _ hdefines _ _ _ => exact hdefines.find?_of_ne ht hne
  | placed _ _ hdefines _ _ _ => exact hdefines.find?_of_ne ht hne

/-- No label is defined behind the last address. -/
theorem Defines.unlabelled_of_le (h : Defines .byteOffset x index s t u) (hx : addressBound ≤ x) :
    s.label = none ∧ u = t := by
  cases h with
  | unlabelled hlabel => exact ⟨hlabel, rfl⟩
  | labelled _ _ hlt _ => exact absurd hx (Nat.not_le_of_lt hlt)

end Layout

/-- A label has in the second layout the address that its line may have. -/
theorem Front.Follows.map_find? {clear : Nat → Nat} {f f' : Front}
    (h : Follows .byteOffset (fun number x => x = clear number) f f') (name : Text) :
    (f'.symbols.find? name).map (·.address.toNat) =
      (f.symbols.find? name).map fun symbol => clear symbol.line := by
  rcases h.exists_find? name with ⟨hnone, hnone'⟩ | ⟨symbol, symbol', hfind, hfind', hline⟩
  · rw [hnone, hnone']
    rfl
  · rw [hfind, hfind', Option.map_some, Option.map_some, ← hline,
      h.places rfl symbol' (h.indexed'.find?_eq_some_iff.mp hfind').1]

/-- **Behind the last address** a program defines no labels, and nothing that takes room or defines
a label is left of it. -/
theorem Pass.runs_pastEnd {x y : Nat} {t u : SymbolTable} {entries : List Entry}
    {placements : List Placement} (table : SymbolTable)
    (hruns : Runs .byteOffset x t entries placements y u) (hx : addressBound ≤ x) :
    u = t ∧ ∀ x' t', ∃ placements',
      Runs .byteOffset x' t'
        (judge .byteOffset table entries placements).survivors placements' x' t' := by
  induction hruns with
  | nil => exact ⟨rfl, fun x' t' => ⟨[], .nil⟩⟩
  | cons hputs _ ih =>
    simp only [survivors_judge_cons]
    cases hputs with
    | badLine d => exact ih hx
    | badLabel s f hfails =>
      simp only [Entry.verdict, Layout.afterVerdict_of_define hfails]
      exact ih hx
    | bare s _ hdefines hlacks =>
      obtain ⟨hlabel, rfl⟩ := hdefines.unlabelled_of_le hx
      refine ⟨(ih hx).1, fun x' t' => ?_⟩
      obtain ⟨placements', htail⟩ := (ih hx).2 x' t'
      exact ⟨_, .cons (.bare s t' (.unlabelled hlabel) hlacks) htail⟩
    | startPastEnd s _ hdefines _ _ =>
      obtain ⟨hlabel, rfl⟩ := hdefines.unlabelled_of_le hx
      simp only [Entry.verdict, Entry.afterVerdict, Entry.salvage_of_unlabelled hlabel]
      exact ih hx
    | stopPastEnd s _ _ _ hlt _ => exact absurd hx (Nat.not_le_of_lt hlt)
    | placed s _ _ _ hlt _ => exact absurd hx (Nat.not_le_of_lt hlt)

/-! ## Faults of the range -/

/-- Whether the fault is that something is too far away: a label from its branch, or a line from the
start of the machine. -/
def Diagnostic.Cause.isRange : Cause → Bool
  | .branchTooFar _ _ | .labelPastEnd _ | .startPastEnd | .stopPastEnd => true
  | _ => false

/-- What is wrong with a label whose name is not taken is its address. -/
theorem Layout.isRange_of_define {x index : Nat} {s : Statement} {t : SymbolTable} {f : Failure}
    (h : define .byteOffset x index s t = .error f)
    (hfree : ∀ name, s.label = some name → t.find? name = none) :
    f.diagnostic.cause.isRange = true := by
  unfold define at h
  split at h
  · cases h
  · rename_i name hname
    simp only at h
    split at h
    · cases h
      rfl
    · simp [SymbolTable.define, hfree name hname] at h

/-- What is wrong with an instruction that has a length, and whose names have
values, is a distance. -/
theorem Statement.isRange_of_instruction {s : Statement} {table : SymbolTable} {address : UInt16}
    {cause : Diagnostic.Cause} (hsize : (s.size? .byteOffset).isSome = true)
    (h : s.instruction .byteOffset table address = .error cause)
    (hnames : ∀ m, Mnemonic.ofText? (s.mnemonic.getD []) = some m → ∀ name ∈ s.names,
      table.find? name ≠ none) : cause.isRange = true := by
  obtain ⟨m, name, hm, hname, hreference⟩ := reference_of_instruction_eq_error hsize h
  rcases LabelRule.reference_error_cases hreference with ⟨hnone, -⟩ | ⟨_, -, -, -, rfl⟩
  · exact absurd hnone (hnames m hm name hname)
  · rfl

end Micro65
