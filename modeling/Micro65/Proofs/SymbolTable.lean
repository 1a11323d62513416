import Mathlib.Data.List.Induction
import Micro65.SymbolTable
/-!
# Symbol tables by their lists

The index of a symbol table agrees with its list of symbols (`SymbolTable.Indexed`), which is what
every definition preserves (`SymbolTable.Indexed.push`). A name is then found exactly if a symbol of
the list has it, and no two symbols have the same name.

When definitions are made one after the other, some are accepted and others refused. Either way the
index goes on agreeing with the list (`SymbolTable.Indexed.after`), so the first definition of every
name stands (`SymbolTable.firstStands`).
-/

namespace Micro65

namespace SymbolTable

/-- Every name has the place of the symbol with this name, and no other. -/
def Indexed (t : SymbolTable) : Prop :=
  ∀ (name : Text) (place : Nat),
    t.places[name]? = some place ↔ ∃ s : Symbol, t.symbols[place]? = some s ∧ s.name = name

variable {t : SymbolTable} {s : Symbol} {name : Text}

theorem indexed_empty : Indexed ∅ := by
  intro name place
  constructor
  · intro h
    rw [show (∅ : SymbolTable).places = ∅ from rfl, Std.HashMap.getElem?_empty] at h
    cases h
  · rintro ⟨s, h, -⟩
    cases h

theorem Indexed.find?_eq_some_iff (h : t.Indexed) :
    t.find? name = some s ↔ s ∈ t.toList ∧ s.name = name := by
  unfold find? toList
  rw [Option.bind_eq_some_iff, Array.mem_toList_iff]
  constructor
  · rintro ⟨place, hplace, hs⟩
    obtain ⟨s', hs', rfl⟩ := (h name place).mp hplace
    rw [hs] at hs'
    cases hs'
    exact ⟨Array.mem_of_getElem? hs, rfl⟩
  · rintro ⟨hmem, rfl⟩
    obtain ⟨place, hplace⟩ := Array.mem_iff_getElem?.mp hmem
    exact ⟨place, (h s.name place).mpr ⟨s, hplace, rfl⟩, hplace⟩

theorem Indexed.find?_eq_none_iff (h : t.Indexed) :
    t.find? name = none ↔ ∀ s ∈ t.toList, s.name ≠ name := by
  rw [Option.eq_none_iff_forall_not_mem]
  constructor
  · rintro hnone s hs rfl
    exact hnone s (h.find?_eq_some_iff.mpr ⟨hs, rfl⟩)
  · intro hnone s hs
    obtain ⟨hmem, hname⟩ := h.find?_eq_some_iff.mp hs
    exact hnone s hmem hname

/-- The second table gives for every name of the first what the first gives for it. -/
def Extends (t t' : SymbolTable) : Prop :=
  ∀ name s, t.find? name = some s → t'.find? name = some s

/-- A table is extended by one that has its symbols and perhaps others. -/
theorem Indexed.extends_of_subset {t' : SymbolTable} (h : t.Indexed) (h' : t'.Indexed)
    (hsubset : t.toList ⊆ t'.toList) : t.Extends t' := by
  intro name s hs
  obtain ⟨hmem, hname⟩ := h.find?_eq_some_iff.mp hs
  exact h'.find?_eq_some_iff.mpr ⟨hsubset hmem, hname⟩

theorem find?_empty (name : Text) : find? ∅ name = none :=
  indexed_empty.find?_eq_none_iff.mpr (by simp)

/-- A symbol with a new name can be put behind the others. -/
theorem Indexed.push (h : t.Indexed) (hnew : t.find? s.name = none) : (t.push s).Indexed := by
  intro name place
  have hfresh := h.find?_eq_none_iff.mp hnew
  unfold SymbolTable.push
  simp only [Std.HashMap.getElem?_insert, Array.getElem?_push, beq_iff_eq]
  by_cases hname : s.name = name
  · rw [if_pos hname]
    constructor
    · intro hplace
      cases hplace
      exact ⟨s, if_pos rfl, hname⟩
    · rintro ⟨s', hs', rfl⟩
      split at hs'
      · rename_i hsize
        rw [hsize]
      · exact absurd hname.symm (hfresh s' (Array.mem_toList_iff.mpr (Array.mem_of_getElem? hs')))
  · rw [if_neg hname, h name place]
    constructor
    · rintro ⟨s', hs', hname'⟩
      refine ⟨s', ?_, hname'⟩
      have hlt := (Array.getElem?_eq_some_iff.mp hs').1
      rw [if_neg (by omega)]
      exact hs'
    · rintro ⟨s', hs', hname'⟩
      split at hs'
      · cases hs'
        exact absurd hname' hname
      · exact ⟨s', hs', hname'⟩

/-- No two symbols have the same name. -/
theorem Indexed.nodup_names (h : t.Indexed) : (t.toList.map Symbol.name).Nodup := by
  unfold List.Nodup
  rw [List.pairwise_map, List.pairwise_iff_getElem]
  intro i j hi hj hij hname
  have hplace : ∀ k (hk : k < t.toList.length), t.places[t.toList[k].name]? = some k := by
    intro k hk
    refine (h _ _).mpr ⟨t.toList[k], ?_, rfl⟩
    rw [← Array.getElem?_toList]
    exact List.getElem?_eq_getElem hk
  have hplace' := hplace i hi
  rw [hname, hplace j hj] at hplace'
  cases hplace'
  exact Nat.lt_irrefl _ hij

theorem define_eq_ok_iff {t' : SymbolTable} :
    t.define s = .ok t' ↔ t.find? s.name = none ∧ t' = t.push s := by
  unfold define
  cases t.find? s.name with
  | some first => simp
  | none => simp [eq_comm]

theorem define_eq_error_iff {first : Symbol} :
    t.define s = .error first ↔ t.find? s.name = some first := by
  unfold define
  cases t.find? s.name with
  | some first' => simp
  | none => simp

/-! ## One definition after the other -/

/-- The table behind a definition. One that is refused leaves the table as it was. -/
def after (t : SymbolTable) (s : Symbol) : SymbolTable :=
  match t.define s with
  | .ok t' => t'
  | .error _ => t

/-- The table behind some definitions that are made one after the other. -/
def ofDefinitions (definitions : List Symbol) : SymbolTable :=
  definitions.foldl after ∅

/-- Those of the definitions that are accepted. -/
def accepted (definitions : List Symbol) : List Symbol :=
  (definitions.zipIdx.filter fun (s, i) =>
    ((ofDefinitions (definitions.take i)).define s).isOk).map Prod.fst

theorem after_of_error {first : Symbol} (h : t.define s = .error first) : t.after s = t := by
  unfold after
  rw [h]

/-- **What a definition does**: it is refused if its name has a symbol, and puts its symbol behind
the others if the name has none. -/
theorem after_cases (t : SymbolTable) (s : Symbol) :
    (∃ first, t.find? s.name = some first ∧ t.define s = .error first ∧ t.after s = t) ∨
      t.find? s.name = none ∧ t.define s = .ok (t.push s) ∧ t.after s = t.push s := by
  cases hfind : t.find? s.name with
  | some first =>
    have hdefine := define_eq_error_iff.mpr hfind
    exact .inl ⟨first, rfl, hdefine, after_of_error hdefine⟩
  | none =>
    have hdefine := define_eq_ok_iff.mpr ⟨hfind, rfl⟩
    refine .inr ⟨rfl, hdefine, ?_⟩
    unfold after
    rw [hdefine]

/-! ### What a definition preserves -/

theorem Indexed.find?_push (h : t.Indexed) (hnew : t.find? s.name = none) (name : Text) :
    (t.push s).find? name = if s.name = name then some s else t.find? name := by
  ext e
  rw [(h.push hnew).find?_eq_some_iff, toList_push, List.mem_append, List.mem_singleton]
  by_cases hname : s.name = name
  · rw [if_pos hname]
    have hfresh := h.find?_eq_none_iff.mp hnew
    constructor
    · rintro ⟨hmem | rfl, he⟩
      · exact absurd (he.trans hname.symm) (hfresh e hmem)
      · rfl
    · intro he
      cases he
      exact ⟨.inr rfl, hname⟩
  · rw [if_neg hname, h.find?_eq_some_iff]
    constructor
    · rintro ⟨hmem | rfl, he⟩
      · exact ⟨hmem, he⟩
      · exact absurd he hname
    · rintro ⟨hmem, he⟩
      exact ⟨.inl hmem, he⟩

theorem find?_push_empty (s : Symbol) (name : Text) :
    (push ∅ s).find? name = if s.name = name then some s else none := by
  rw [indexed_empty.find?_push (find?_empty _), find?_empty]

theorem Indexed.after (h : t.Indexed) (s : Symbol) : (t.after s).Indexed := by
  rcases after_cases t s with ⟨_, -, -, hafter⟩ | ⟨hnew, -, hafter⟩
  · rwa [hafter]
  · rw [hafter]
    exact h.push hnew

/-- A name that has a symbol keeps it. -/
theorem Indexed.find?_after (h : t.Indexed) (s : Symbol) (name : Text) :
    (t.after s).find? name = (t.find? name).or (if s.name = name then some s else none) := by
  rcases after_cases t s with ⟨first, hfirst, -, hafter⟩ | ⟨hnew, -, hafter⟩
  · rw [hafter]
    by_cases hname : s.name = name
    · rw [← hname, hfirst, Option.some_or]
    · rw [if_neg hname, Option.or_none]
  · rw [hafter, h.find?_push hnew]
    by_cases hname : s.name = name
    · rw [if_pos hname, if_pos hname, ← hname, hnew, Option.none_or]
    · rw [if_neg hname, if_neg hname, Option.or_none]

theorem toList_after (t : SymbolTable) (s : Symbol) :
    (t.after s).toList = t.toList ++ if (t.define s).isOk then [s] else [] := by
  rcases after_cases t s with ⟨_, -, hdefine, hafter⟩ | ⟨-, hdefine, hafter⟩
  · rw [hafter, hdefine]
    exact (List.append_nil _).symm
  · rw [hafter, hdefine, toList_push]
    rfl

/-! ### What a run of definitions preserves -/

theorem ofDefinitions_concat (definitions : List Symbol) (s : Symbol) :
    ofDefinitions (definitions ++ [s]) = (ofDefinitions definitions).after s := by
  simp [ofDefinitions]

theorem accepted_concat (definitions : List Symbol) (s : Symbol) :
    accepted (definitions ++ [s]) =
      accepted definitions ++ if ((ofDefinitions definitions).define s).isOk then [s] else [] := by
  unfold accepted
  rw [List.zipIdx_append, List.filter_append, List.map_append]
  congr 1
  · -- The earlier definitions meet the tables that they met before.
    refine congrArg _ (List.filter_congr fun (e, i) hmem => ?_)
    have hi : i < definitions.length := by
      simpa using List.snd_lt_of_mem_zipIdx hmem
    simp only [List.take_append_of_le_length (Nat.le_of_lt hi)]
  · simp only [List.zipIdx_singleton, List.filter_cons, List.filter_nil, Nat.zero_add,
      List.take_left']
    split <;> simp_all

theorem indexed_ofDefinitions (definitions : List Symbol) :
    (ofDefinitions definitions).Indexed := by
  induction definitions using List.reverseRecOn with
  | nil => exact indexed_empty
  | append_singleton definitions s ih =>
    rw [ofDefinitions_concat]
    exact ih.after s

theorem find?_ofDefinitions (definitions : List Symbol) (name : Text) :
    (ofDefinitions definitions).find? name = definitions.find? fun e => e.name = name := by
  induction definitions using List.reverseRecOn with
  | nil => exact find?_empty name
  | append_singleton definitions s ih =>
    rw [ofDefinitions_concat, (indexed_ofDefinitions definitions).find?_after, ih,
      List.find?_append, List.find?_singleton]
    simp only [decide_eq_true_eq]

theorem toList_ofDefinitions (definitions : List Symbol) :
    (ofDefinitions definitions).toList = accepted definitions := by
  induction definitions using List.reverseRecOn with
  | nil => rfl
  | append_singleton definitions s ih =>
    rw [ofDefinitions_concat, toList_after, ih, accepted_concat]

theorem accepted_sublist (definitions : List Symbol) :
    (accepted definitions).Sublist definitions := by
  have h := (List.filter_sublist (p := fun (s, i) =>
    ((ofDefinitions (definitions.take i)).define s).isOk) (l := definitions.zipIdx)).map Prod.fst
  rwa [List.zipIdx_map_fst] at h

/-- **What it is for the first definition of every name to stand**, behind some definitions. -/
structure FirstStands (definitions : List Symbol) : Prop where
  /-- The next definition is refused exactly if there is an earlier one of its name. -/
  refused_iff : ∀ s, (∃ first, (ofDefinitions definitions).define s = .error first) ↔
    ∃ e ∈ definitions, e.name = s.name
  /-- What is given then is the first of these. -/
  refused_eq : ∀ s first, (ofDefinitions definitions).define s = .error first →
    definitions.find? (fun e => e.name = s.name) = some first
  /-- A refused definition leaves the table as it was. -/
  after_refused : ∀ s first, (ofDefinitions definitions).define s = .error first →
    ofDefinitions (definitions ++ [s]) = ofDefinitions definitions
  /-- The symbols are those of the accepted definitions, in the order in which they were made. -/
  toList_eq : (ofDefinitions definitions).toList = accepted definitions
  sublist : (ofDefinitions definitions).toList.Sublist definitions
  nodup_names : ((ofDefinitions definitions).toList.map Symbol.name).Nodup
  /-- A name has the symbol of its first definition. -/
  find?_eq : ∀ name,
    (ofDefinitions definitions).find? name = definitions.find? fun e => e.name = name
  /-- The place of a name is the place of a symbol with this name. -/
  name_eq : ∀ name (i : Nat), (ofDefinitions definitions).places[name]? = some i →
    ∃ h : i < (ofDefinitions definitions).symbols.size,
      (ofDefinitions definitions).symbols[i].name = name

/-- **The first definition of a name stands**, whatever is defined before it and behind it. -/
theorem firstStands (definitions : List Symbol) : FirstStands definitions where
  refused_iff s := by
    simp only [define_eq_error_iff, find?_ofDefinitions]
    rw [← Option.isSome_iff_exists, List.find?_isSome]
    simp only [decide_eq_true_eq]
  refused_eq s first h := by rwa [define_eq_error_iff, find?_ofDefinitions] at h
  after_refused s first h := by rw [ofDefinitions_concat, after_of_error h]
  toList_eq := toList_ofDefinitions definitions
  sublist := by
    rw [toList_ofDefinitions]
    exact accepted_sublist definitions
  nodup_names := (indexed_ofDefinitions definitions).nodup_names
  find?_eq := find?_ofDefinitions definitions
  name_eq name i h := by
    obtain ⟨s, hs, hname⟩ := (indexed_ofDefinitions definitions name i).mp h
    obtain ⟨hi, heq⟩ := Array.getElem?_eq_some_iff.mp hs
    exact ⟨hi, by rw [heq, hname]⟩

end SymbolTable

end Micro65
