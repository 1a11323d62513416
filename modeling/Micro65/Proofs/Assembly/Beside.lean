import Micro65.Assembly.Recovery
import Micro65.Proofs.Assembly.Reading
/-!
# A program and what is left of it

The layout of a program and the layout of what a round leaves of it, line by line side by side
(`Beside`). Lines that are left out, and instructions that are cut off their labels, leave less room
between the lines that stay, so no label gets further away (`Nears`): neither from where a stretch
that is laid out starts (`Beside.exists_added`) nor from an instruction that stays
(`Beside.placement_cases`).

What a round leaves can therefore be laid out beside the whole (`Pass.exists_beside`): all
labels are defined again, and every instruction that had an address has one that is not above
it. The lines that stay have their instructions only, so where a line then stands is the number
of bytes of the instructions before it (`Pass.size`). A relation `place` between the number of a
line and an address that holds of these places (`Pass.Places`) holds of all labels of the second
layout (`Front.Follows`).
-/

namespace Micro65

open Layout (Defines Puts Runs hasInstruction addressBound labelValue)

/-! ## Distances -/

/-- The way from `x` to `y` becomes the way from `x'` to `y'`, which is not longer. -/
structure Nears (x y x' y' : Nat) : Prop where
  le : x ≤ y
  le' : x' ≤ y'
  shorter : y' + x ≤ y + x'

namespace Nears

variable {x y z x' y' z' : Nat}

theorem refl (x x' : Nat) : Nears x x x' x' :=
  ⟨Nat.le_refl x, Nat.le_refl x', Nat.le_of_eq (Nat.add_comm x' x)⟩

theorem trans (h : Nears x y x' y') (h' : Nears y z y' z') : Nears x z x' z' where
  le := Nat.le_trans h.le h'.le
  le' := Nat.le_trans h.le' h'.le'
  shorter := by
    have := h.shorter
    have := h'.shorter
    omega

/-- Room that is left out. -/
theorem of_le (hle : x ≤ y) : Nears x y x' x' where
  le := hle
  le' := Nat.le_refl x'
  shorter := by omega

/-- Room that is kept. -/
theorem add (x x' n : Nat) : Nears x (x + n) x' (x' + n) where
  le := Nat.le_add_right x n
  le' := Nat.le_add_right x' n
  shorter := by omega

end Nears

/-! ## Labels -/

/-- The names of the labels with the numbers of their lines, in the order of their definition. -/
def SymbolTable.origins (t : SymbolTable) : List (Text × Nat) :=
  t.toList.map fun s => (s.name, s.line)

theorem SymbolTable.mem_origins {t : SymbolTable} {origin : Text × Nat} :
    origin ∈ t.origins ↔ ∃ s ∈ t.toList, (s.name, s.line) = origin :=
  List.mem_map

/-- One label as two layouts define it, with what its two values have to do with each other. The
values are places in the layouts only if labels count bytes. -/
structure Symbol.Twins (rule : LabelRule) (values : Nat → Nat → Prop) (s s' : Symbol) : Prop where
  name_eq : s'.name = s.name
  values : rule = .byteOffset → values s.address.toNat s'.address.toNat

theorem Symbol.Twins.imp {rule : LabelRule} {p q : Nat → Nat → Prop} {s s' : Symbol}
    (hpq : ∀ v v', p v v' → q v v') (h : Twins rule p s s') : Twins rule q s s' :=
  ⟨h.name_eq, fun hrule => hpq _ _ (h.values hrule)⟩

namespace Layout

variable {rule : LabelRule} {address address' index : Nat} {s : Statement} {t t' u u' : SymbolTable}

theorem labelValue_le (h : address' ≤ address) :
    labelValue rule address' index ≤ labelValue rule address index := by
  cases rule with
  | byteOffset => exact h
  | lineIndex => exact Nat.le_refl index

/-- What the definitions of one line in two layouts add to the labels. -/
theorem Defines.exists_added (h : Defines rule address index s t u)
    (h' : Defines rule address' index s t' u') :
    ∃ added added', u.toList = t.toList ++ added ∧ u'.toList = t'.toList ++ added' ∧
      List.Forall₂ (Symbol.Twins rule fun v v' => v = address ∧ v' = address') added added' := by
  cases h with
  | unlabelled hlabel =>
    cases h' with
    | unlabelled _ => exact ⟨[], [], by simp, by simp, .nil⟩
    | labelled name hname _ _ => rw [hlabel] at hname; cases hname
  | labelled name hlabel hlt hnew =>
    cases h' with
    | unlabelled hnone => rw [hlabel] at hnone; cases hnone
    | labelled name' hlabel' hlt' hnew' =>
      rw [hlabel] at hlabel'
      cases hlabel'
      refine ⟨_, _, SymbolTable.toList_push _ _, SymbolTable.toList_push _ _,
        .cons ⟨rfl, ?_⟩ .nil⟩
      rintro rfl
      exact ⟨UInt16.toNat_ofNat_of_lt hlt, UInt16.toNat_ofNat_of_lt hlt'⟩

variable {x y x' y' : Nat}

/-- Labels that are defined on the way and before it. -/
theorem Defines.exists_added_trans (h : Defines rule x index s t u)
    (h' : Defines rule x' index s t' u') (hway : Nears x y x' y') {later later' : List Symbol}
    (hlater : List.Forall₂ (Symbol.Twins rule fun v v' => Nears y v y' v') later later') :
    ∃ added added', u.toList ++ later = t.toList ++ added ∧
      u'.toList ++ later' = t'.toList ++ added' ∧
      List.Forall₂ (Symbol.Twins rule fun v v' => Nears x v x' v') added added' := by
  obtain ⟨added, added', hadded, hadded', htwins⟩ := h.exists_added h'
  refine ⟨added ++ later, added' ++ later', by simp [hadded], by simp [hadded'],
    List.rel_append ?_ ?_⟩
  · exact htwins.imp fun _ _ hs => hs.imp fun _ _ hvalues => by
      rw [hvalues.1, hvalues.2]
      exact .refl ..
  · exact hlater.imp fun _ _ hs => hs.imp fun _ _ hv => hway.trans hv

/-- Labels that are left behind. -/
theorem Defines.twins_behind (h : Defines rule x index s t u) (h' : Defines rule x' index s t' u')
    (hway : Nears x y x' y')
    (hbehind : List.Forall₂ (Symbol.Twins rule fun v v' => Nears v x v' x')
      t.toList t'.toList) :
    List.Forall₂ (Symbol.Twins rule fun v v' => Nears v y v' y') u.toList u'.toList := by
  obtain ⟨added, added', hadded, hadded', htwins⟩ := h.exists_added h'
  rw [hadded, hadded']
  refine List.rel_append ?_ ?_
  · exact hbehind.imp fun _ _ hs => hs.imp fun _ _ hv => hv.trans hway
  · exact htwins.imp fun _ _ hs => hs.imp fun _ _ hvalues => by
      rw [hvalues.1, hvalues.2]; exact hway

end Layout

/-! ## Two layouts -/

/-- Where a layout stands: the running address and the labels so far. -/
structure Front where
  address : Nat
  symbols : SymbolTable

namespace Front

/-- A second layout that stands no further on than a first one and has the labels of the same lines,
where `place` says they may stand if labels count bytes. -/
structure Follows (rule : LabelRule) (place : Nat → Nat → Prop) (f f' : Front) : Prop where
  address_le : f'.address ≤ f.address
  indexed : f.symbols.Indexed
  indexed' : f'.symbols.Indexed
  origins_eq : f'.symbols.origins = f.symbols.origins
  places : rule = .byteOffset →
    ∀ symbol ∈ f'.symbols.toList, place symbol.line symbol.address.toNat

variable {rule : LabelRule} {place : Nat → Nat → Prop}

theorem follows_start : Follows rule place ⟨0, ∅⟩ ⟨0, ∅⟩ where
  address_le := Nat.le_refl 0
  indexed := SymbolTable.indexed_empty
  indexed' := SymbolTable.indexed_empty
  origins_eq := rfl
  places _ symbol hsymbol := by cases hsymbol

namespace Follows

variable {x y index : Nat} {t u : SymbolTable} {f f' : Front} {s : Statement}

theorem of_le (h : Follows rule place ⟨x, t⟩ f') (hle : x ≤ y) : Follows rule place ⟨y, t⟩ f' :=
  { h with address_le := Nat.le_trans h.address_le hle }

theorem add (h : Follows rule place ⟨x, t⟩ f') (n : Nat) :
    Follows rule place ⟨x + n, t⟩ ⟨f'.address + n, f'.symbols⟩ :=
  { h with address_le := Nat.add_le_add_right h.address_le n }

/-- A label of one of the layouts is a label of the other. -/
theorem exists_find? (h : Follows rule place f f') (name : Text) :
    f.symbols.find? name = none ∧ f'.symbols.find? name = none ∨
      ∃ symbol symbol', f.symbols.find? name = some symbol ∧
        f'.symbols.find? name = some symbol' ∧ symbol'.line = symbol.line := by
  cases hfind : f'.symbols.find? name with
  | none =>
    refine .inl ⟨h.indexed.find?_eq_none_iff.mpr fun symbol hsymbol hname => ?_, rfl⟩
    have horigin : (symbol.name, symbol.line) ∈ f'.symbols.origins := by
      rw [h.origins_eq]
      exact SymbolTable.mem_origins.mpr ⟨symbol, hsymbol, rfl⟩
    obtain ⟨symbol', hsymbol', heq⟩ := SymbolTable.mem_origins.mp horigin
    exact h.indexed'.find?_eq_none_iff.mp hfind symbol' hsymbol' ((Prod.mk.inj heq).1.trans hname)
  | some symbol' =>
    obtain ⟨hsymbol', hname⟩ := h.indexed'.find?_eq_some_iff.mp hfind
    have horigin : (symbol'.name, symbol'.line) ∈ f.symbols.origins := by
      rw [← h.origins_eq]
      exact SymbolTable.mem_origins.mpr ⟨symbol', hsymbol', rfl⟩
    obtain ⟨symbol, hsymbol, heq⟩ := SymbolTable.mem_origins.mp horigin
    obtain ⟨hname', hline⟩ := Prod.mk.inj heq
    exact .inr ⟨symbol, symbol',
      h.indexed.find?_eq_some_iff.mpr ⟨hsymbol, hname'.trans hname⟩, rfl, hline.symm⟩

theorem find?_eq_none_iff (h : Follows rule place f f') (name : Text) :
    f'.symbols.find? name = none ↔ f.symbols.find? name = none := by
  rcases h.exists_find? name with ⟨hnone, hnone'⟩ | ⟨symbol, symbol', hfind, hfind', -⟩
  · simp [hnone, hnone']
  · simp [hfind, hfind']

/-- A label that the first layout can define, the second can define too. -/
theorem define (h : Follows rule place ⟨x, t⟩ f') (hplace : place s.line f'.address)
    (hdefines : Defines rule x index s t u) :
    ∃ u', Defines rule f'.address index s f'.symbols u' ∧
      Follows rule place ⟨x, u⟩ ⟨f'.address, u'⟩ := by
  cases hdefines with
  | unlabelled hlabel => exact ⟨f'.symbols, .unlabelled hlabel, h⟩
  | labelled name hlabel hlt hnew =>
    have hnew' := (h.find?_eq_none_iff name).mpr hnew
    have hlt' := Nat.lt_of_le_of_lt (Layout.labelValue_le h.address_le) hlt
    refine ⟨_, .labelled name hlabel hlt' hnew', h.address_le, h.indexed.push hnew,
      h.indexed'.push hnew', ?_, ?_⟩
    · have horigins := h.origins_eq
      unfold SymbolTable.origins at horigins ⊢
      simp [horigins]
    · rintro rfl symbol hsymbol
      rw [SymbolTable.toList_push] at hsymbol
      rcases List.mem_append.mp hsymbol with hsymbol | hsymbol
      · exact h.places rfl symbol hsymbol
      · obtain rfl := List.mem_singleton.mp hsymbol
        have hnat : (UInt16.ofNat f'.address).toNat = f'.address := UInt16.toNat_ofNat_of_lt hlt'
        simp only [Layout.labelValue, hnat]
        exact hplace

end Follows

end Front

/-- Nothing is left of a line without a label whose instruction is at fault. -/
theorem Entry.salvage_of_unlabelled {index : Nat} {s : Statement} {retention : Retention}
    (hlabel : s.label = none) (cause : Diagnostic.Cause) :
    salvage ⟨index, .ok s, retention⟩ (.ofInstruction s cause) = none := by
  simp [salvage, Failure.ofInstruction, hlabel]

/-- Two layouts side by side, from two places on up to two others. The first is of a whole program,
whose labels have the values in `table`, and the second of what is left of it, with what becomes of
each line. A line may take part in the first only; it may take part in both without an instruction
in the second, though it may have one in the first; and it may have its instruction in both. -/
inductive Beside (rule : LabelRule) (table : SymbolTable) :
    Front → Front → List Entry → List Placement → Front → Front → Prop where
  | nil {f f' : Front} : Beside rule table f f' [] [] f f'
  | drop {x y : Nat} {t : SymbolTable} {f' g g' : Front} {entries : List Entry}
      {placements : List Placement} (le : x ≤ y)
      (tail : Beside rule table ⟨y, t⟩ f' entries placements g g') :
      Beside rule table ⟨x, t⟩ f' entries placements g g'
  | bare {x y x' index : Nat} {t u t' u' : SymbolTable} {s : Statement} {retention : Retention}
      {g g' : Front} {entries : List Entry} {placements : List Placement}
      (defines : Defines rule x index s t u) (defines' : Defines rule x' index s t' u')
      (lacks : hasInstruction s retention = false) (le : x ≤ y)
      (tail : Beside rule table ⟨y, u⟩ ⟨x', u'⟩ entries placements g g') :
      Beside rule table ⟨x, t⟩ ⟨x', t'⟩ (⟨index, .ok s, retention⟩ :: entries)
        (.bare :: placements) g g'
  | placed {x x' index : Nat} {t u t' u' : SymbolTable} {s : Statement} {retention : Retention}
      {i : Instruction} {g g' : Front} {entries : List Entry} {placements : List Placement}
      (defines : Defines rule x index s t u) (defines' : Defines rule x' index s t' u')
      (has : hasInstruction s retention = true) (lt_bound : x < addressBound)
      (reads : s.instruction rule table (UInt16.ofNat x) = .ok i)
      (lt_bound' : x' < addressBound)
      (le_bound' : x' + (s.size? rule).getD 0 ≤ addressBound)
      (tail : Beside rule table ⟨x + (s.size? rule).getD 0, u⟩
        ⟨x' + (s.size? rule).getD 0, u'⟩ entries placements g g') :
      Beside rule table ⟨x, t⟩ ⟨x', t'⟩ (⟨index, .ok s, retention⟩ :: entries)
        (.placed (UInt16.ofNat x') :: placements) g g'

namespace Beside

variable {rule : LabelRule} {table : SymbolTable} {f f' g g' : Front}
  {entries : List Entry} {placements : List Placement}

/-- The second layout is a layout. -/
theorem runs (h : Beside rule table f f' entries placements g g') :
    Runs rule f'.address f'.symbols entries placements g'.address g'.symbols := by
  induction h with
  | nil => exact .nil
  | drop _ _ ih => exact ih
  | bare _ hdefines' hlacks _ _ ih => exact .cons (.bare _ _ hdefines' hlacks) ih
  | placed _ hdefines' hhas _ _ hlt hle _ ih => exact .cons (.placed _ _ hdefines' hhas hlt hle) ih

/-- **What two layouts define** on their way does not get further away from where they started. -/
theorem exists_added (h : Beside rule table f f' entries placements g g') :
    ∃ added added', g.symbols.toList = f.symbols.toList ++ added ∧
      g'.symbols.toList = f'.symbols.toList ++ added' ∧
      List.Forall₂ (Symbol.Twins rule fun v v' => Nears f.address v f'.address v')
        added added' := by
  induction h with
  | nil => exact ⟨[], [], by simp, by simp, .nil⟩
  | drop hle _ ih =>
    obtain ⟨added, added', hadded, hadded', htwins⟩ := ih
    exact ⟨added, added', hadded, hadded',
      htwins.imp fun _ _ hs => hs.imp fun _ _ hv => (Nears.of_le hle).trans hv⟩
  | bare hdefines hdefines' _ hle _ ih =>
    obtain ⟨later, later', hlater, hlater', htwins⟩ := ih
    rw [hlater, hlater']
    exact hdefines.exists_added_trans hdefines' (Nears.of_le hle) htwins
  | placed hdefines hdefines' _ _ _ _ _ _ ih =>
    obtain ⟨later, later', hlater, hlater', htwins⟩ := ih
    rw [hlater, hlater']
    exact hdefines.exists_added_trans hdefines' (Nears.add ..) htwins

/-- A place in two layouts from which no label gets further away. -/
def Centred (rule : LabelRule) (t t' : SymbolTable) (x x' : Nat) : Prop :=
  List.Forall₂ (Symbol.Twins rule fun v v' => Nears v x v' x' ∨ Nears x v x' v')
    t.toList t'.toList

/-- **What becomes of a line in the second layout.** Its instruction is left out, or it is placed
where the first layout has an instruction too, with all labels no further away. -/
theorem placement_cases (h : Beside rule table f f' entries placements g g')
    (hbehind : List.Forall₂ (Symbol.Twins rule fun v v' => Nears v f.address v' f'.address)
      f.symbols.toList f'.symbols.toList)
    {e : Entry} {p : Placement} (hmem : (e, p) ∈ entries.zip placements) :
    p = .bare ∨ ∃ s i x x', e.line = .ok s ∧ p = .placed (UInt16.ofNat x') ∧ x < addressBound ∧
      x' < addressBound ∧ s.instruction rule table (UInt16.ofNat x) = .ok i ∧
      Centred rule g.symbols g'.symbols x x' := by
  induction h with
  | nil => cases hmem
  | drop hle _ ih =>
    exact ih (hbehind.imp fun _ _ hs => hs.imp fun _ _ hv => hv.trans (Nears.of_le hle)) hmem
  | bare hdefines hdefines' _ hle _ ih =>
    rcases List.mem_cons.mp hmem with hmem | hmem
    · cases hmem
      exact .inl rfl
    · exact ih (hdefines.twins_behind hdefines' (Nears.of_le hle) hbehind) hmem
  | placed hdefines hdefines' hhas hlt hreads hlt' hle' htail ih =>
    rcases List.mem_cons.mp hmem with hmem | hmem
    · cases hmem
      refine .inr ⟨_, _, _, _, rfl, rfl, hlt, hlt', hreads, ?_⟩
      obtain ⟨added, added', hadded, hadded', htwins⟩ :=
        (Beside.placed hdefines hdefines' hhas hlt hreads hlt' hle' htail).exists_added
      unfold Centred
      rw [hadded, hadded']
      exact List.rel_append (hbehind.imp fun _ _ hs => hs.imp fun _ _ => .inl)
        (htwins.imp fun _ _ hs => hs.imp fun _ _ => .inr)
    · exact ih (hdefines.twins_behind hdefines' (Nears.add ..) hbehind) hmem

/-- A line whose instruction is at fault keeps its label, if it has one. -/
theorem exists_of_salvage {x y x' index : Nat} {t u t' u' : SymbolTable} {s : Statement}
    {retention : Retention} (hdefines : Defines rule x index s t u)
    (hdefines' : Defines rule x' index s t' u') (hhas : hasInstruction s retention = true)
    (cause : Diagnostic.Cause) (hle : x ≤ y)
    (htail : Beside rule table ⟨y, u⟩ ⟨x', u'⟩ entries placements g g') :
    ∃ placements', Beside rule table ⟨x, t⟩ ⟨x', t'⟩
      ((Entry.salvage ⟨index, .ok s, retention⟩ (.ofInstruction s cause)).toList ++ entries)
      placements' g g' := by
  have hwhole : retention = .whole := by
    simpa [hasInstruction] using (Bool.and_eq_true_iff.mp hhas).2
  subst hwhole
  cases hlabel : s.label with
  | some name =>
    have hsalvage : Entry.salvage ⟨index, .ok s, .whole⟩ (.ofInstruction s cause) =
        some ⟨index, .ok s, .labelOnly⟩ := by
      simp [Entry.salvage, Failure.ofInstruction, hlabel]
    rw [hsalvage]
    exact ⟨_, .bare hdefines hdefines' (by simp [hasInstruction]) hle htail⟩
  | none =>
    rw [Entry.salvage_of_unlabelled hlabel]
    cases hdefines with
    | labelled name hname _ _ => rw [hlabel] at hname; cases hname
    | unlabelled _ =>
      cases hdefines' with
      | labelled name hname _ _ => rw [hlabel] at hname; cases hname
      | unlabelled _ => exact ⟨_, .drop hle htail⟩

end Beside

/-! ## What a round leaves -/

namespace Layout

variable {rule : LabelRule} {address index : Nat} {s : Statement} {t : SymbolTable} {f : Failure}

/-- A label that cannot be defined does not stand. -/
theorem labelStands_of_define (h : define rule address index s t = .error f) :
    f.labelStands = false := by
  unfold define at h
  split at h
  · cases h
  · simp only at h
    split at h
    · cases h
      rfl
    · split at h
      · cases h
        rfl
      · cases h

/-- Nothing is left of a line whose label cannot be defined. -/
theorem afterVerdict_of_define (h : define rule address index s t = .error f)
    (retention : Retention) : Entry.afterVerdict ⟨index, .ok s, retention⟩ (.error f) = none := by
  simp [Entry.afterVerdict, Entry.salvage, labelStands_of_define h]

end Layout

/-- The bytes of the instruction that a verdict gives. -/
def Verdict.size : Verdict → Nat
  | .ok (some i) => i.size
  | _ => 0

namespace Pass

variable {rule : LabelRule} {table t u : SymbolTable} {place : Nat → Nat → Prop} {x x' y : Nat}
  {entries entries' : List Entry} {placements placements' : List Placement}

theorem survivors_judge_cons (e : Entry) (p : Placement) :
    (judge rule table (e :: entries) (p :: placements)).survivors =
      (e.afterVerdict (e.verdict rule table p)).toList ++
        (judge rule table entries placements).survivors := by
  unfold judge survivors
  simp only [List.zip_cons_cons, List.map_cons, List.filterMap_cons]
  cases e.afterVerdict (e.verdict rule table p) <;> rfl

/-- The bytes of the instructions that a pass finds. -/
def size (p : Pass) : Nat :=
  (p.verdicts.map fun v => Verdict.size v.2).sum

theorem size_judge_cons (e : Entry) (p : Placement) :
    (judge rule table (e :: entries) (p :: placements)).size =
      Verdict.size (e.verdict rule table p) + (judge rule table entries placements).size := by
  simp [judge, size]

/-- Where lines stand if their instructions take room from `x'` on and those at fault take
none, they may stand. -/
def Places (rule : LabelRule) (table : SymbolTable) (place : Nat → Nat → Prop) (x : Nat)
    (t : SymbolTable) (entries : List Entry) (x' : Nat) : Prop :=
  ∀ before e after placements y u, entries = before ++ e :: after →
    Runs rule x t before placements y u →
      place e.line.number (x' + (judge rule table before placements).size)

theorem Places.head {e : Entry} (h : Places rule table place x t (e :: entries) x') :
    place e.line.number x' :=
  h [] e entries [] x t rfl .nil

theorem Places.tail {e : Entry} {p : Placement}
    (h : Places rule table place x t (e :: entries) x') (hputs : Puts rule x t e p y u) :
    Places rule table place y u entries (x' + Verdict.size (e.verdict rule table p)) := by
  rintro before e' after placements z v rfl hruns
  have hplace := h (e :: before) e' after (p :: placements) z v rfl (.cons hputs hruns)
  rwa [size_judge_cons, ← Nat.add_assoc] at hplace

/-- **What a round leaves can be laid out beside the whole**, from a front that follows on. -/
theorem exists_beside {f' : Front} (hruns : Runs rule x t entries placements y u)
    (hf : Front.Follows rule place ⟨x, t⟩ f')
    (hplaces : Places rule table place x t entries f'.address) :
    ∃ placements' g', Beside rule table ⟨x, t⟩ f'
      (judge rule table entries placements).survivors placements' ⟨y, u⟩ g' ∧
        Front.Follows rule place ⟨y, u⟩ g' ∧
          g'.address = f'.address + (judge rule table entries placements).size := by
  induction hruns generalizing f' with
  | nil => exact ⟨[], f', .nil, hf, rfl⟩
  | @cons x₁ x₂ _ t₁ t₂ _ e p entries placements hputs htail ih =>
    have hplace := hplaces.head
    replace hplaces := hplaces.tail hputs
    rw [survivors_judge_cons, size_judge_cons, ← Nat.add_assoc]
    -- A line is left out if its label is at fault, and cut back to its label if its instruction is.
    cases hputs with
    | badLine d => exact ih hf hplaces
    | badLabel s f hfails =>
      rw [show Entry.verdict rule table _ (.failed f) = .error f from rfl,
        Layout.afterVerdict_of_define hfails]
      exact ih hf hplaces
    | bare s _ hdefines hlacks =>
      obtain ⟨u', hdefines', hf'⟩ := hf.define hplace hdefines
      obtain ⟨placements', g', htail', hg⟩ := ih hf' hplaces
      exact ⟨_, g', .bare hdefines hdefines' hlacks (Nat.le_refl _) htail', hg⟩
    | startPastEnd s _ hdefines hhas hstart =>
      obtain ⟨u', hdefines', hf'⟩ := hf.define hplace hdefines
      obtain ⟨placements', g', htail', hg⟩ := ih hf' hplaces
      obtain ⟨placements'', hbeside⟩ :=
        Beside.exists_of_salvage hdefines hdefines' hhas .startPastEnd
        (Nat.le_refl _) htail'
      exact ⟨placements'', g', hbeside, hg⟩
    | stopPastEnd s _ hdefines hhas hlt hstop =>
      obtain ⟨u', hdefines', hf'⟩ := hf.define hplace hdefines
      obtain ⟨placements', g', htail', hg⟩ := ih (hf'.of_le (Nat.le_add_right _ _)) hplaces
      obtain ⟨placements'', hbeside⟩ :=
        Beside.exists_of_salvage hdefines hdefines' hhas .stopPastEnd
        (Nat.le_add_right _ _) htail'
      exact ⟨placements'', g', hbeside, hg⟩
    | @placed index retention s _ hdefines hhas hlt hstop =>
      obtain ⟨u', hdefines', hf'⟩ := hf.define hplace hdefines
      have hle := hf.address_le
      cases hreads : s.instruction rule table (UInt16.ofNat x₁) with
      | ok i =>
        have hverdict : Entry.verdict rule table ⟨index, .ok s, retention⟩
            (.placed (UInt16.ofNat x₁)) = .ok (some i) := by
          simp only [Entry.verdict, hreads]
        have hsize : Verdict.size (.ok (some i)) = (s.size? rule).getD 0 := by
          rw [Statement.size?_of_instruction hreads]
          rfl
        rw [hverdict, hsize] at hplaces ⊢
        obtain ⟨placements', g', htail', hg⟩ := ih (hf'.add _) hplaces
        exact ⟨_, g', .placed hdefines hdefines' hhas hlt hreads (Nat.lt_of_le_of_lt hle hlt)
          (Nat.le_trans (Nat.add_le_add_right hle _) hstop) htail', hg⟩
      | error cause =>
        have hverdict : Entry.verdict rule table ⟨index, .ok s, retention⟩
            (.placed (UInt16.ofNat x₁)) = .error (.ofInstruction s cause) := by
          simp only [Entry.verdict, hreads]
        rw [hverdict] at hplaces ⊢
        obtain ⟨placements', g', htail', hg⟩ := ih (hf'.of_le (Nat.le_add_right _ _)) hplaces
        obtain ⟨placements'', hbeside⟩ := Beside.exists_of_salvage hdefines hdefines' hhas cause
          (Nat.le_add_right _ _) htail'
        exact ⟨placements'', g', hbeside, hg⟩

end Pass

end Micro65
