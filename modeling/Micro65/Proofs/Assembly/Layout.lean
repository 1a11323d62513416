import Micro65.Assembly.Layout
import Micro65.Proofs.SymbolTable
/-!
# What the layout does with a line

`Layout.Puts` lists everything that can become of a line, and `Layout.Runs` puts lines in a row;
everything about the layout is derived from these two, and `Layout.put` is opened once
(`Layout.puts_put`).

The running address may pass the last address of the machine, by the length of an instruction at
most and once (`Layout.address_ofEntries_le`). Wherever it becomes an address of the machine, as the
address of an instruction or as the value of a label, it is one, so nothing is lost
(`Layout.inRange`).
-/

namespace Micro65

/-- The number of a line among all lines of the source. -/
def Line.number : Line → Nat
  | .ok s => s.line
  | .error d => d.line

theorem Statement.size?_le (rule : LabelRule) (s : Statement) : (s.size? rule).getD 0 ≤ 3 := by
  unfold size?
  split
  · rename_i f _
    have := f.mode.operandSize_le_two
    simp only [Option.getD_some]
    omega
  · exact Nat.zero_le 3

theorem Statement.size?_pos {rule : LabelRule} {s : Statement} {size : Nat}
    (h : s.size? rule = some size) : 0 < size := by
  unfold size? at h
  split at h
  · cases h
    omega
  · cases h

namespace Layout

/-- What the definition of the label of a statement makes of the labels, if it does not fail. -/
inductive Defines (rule : LabelRule) (address index : Nat) (s : Statement) (t : SymbolTable) :
    SymbolTable → Prop where
  | unlabelled (label_eq : s.label = none) : Defines rule address index s t t
  | labelled (name : Text) (label_eq : s.label = some name)
      (value_lt : labelValue rule address index < addressBound) (isNew : t.find? name = none) :
      Defines rule address index s t
        (t.push ⟨name, UInt16.ofNat (labelValue rule address index), s.line⟩)

variable {rule : LabelRule} {address index : Nat} {s : Statement} {t t' : SymbolTable}

theorem define_eq_ok_iff :
    define rule address index s t = .ok t' ↔ Defines rule address index s t t' := by
  constructor
  · intro h
    unfold define at h
    split at h
    · rename_i hlabel
      cases h
      exact .unlabelled hlabel
    · rename_i name hlabel
      simp only at h
      split at h
      · cases h
      · rename_i hvalue
        split at h
        · cases h
        · rename_i hdefine
          cases h
          obtain ⟨hnew, rfl⟩ := SymbolTable.define_eq_ok_iff.mp hdefine
          exact .labelled name hlabel (Nat.lt_of_not_le hvalue) hnew
  · rintro (hlabel | ⟨name, hlabel, hvalue, hnew⟩)
    · simp [define, hlabel]
    · have hdefine := SymbolTable.define_eq_ok_iff
        (s := ⟨name, UInt16.ofNat (labelValue rule address index), s.line⟩).mpr ⟨hnew, rfl⟩
      simp only [define, hlabel, if_neg (Nat.not_le_of_lt hvalue), hdefine]

theorem Defines.indexed (h : Defines rule address index s t t') (ht : t.Indexed) :
    t'.Indexed := by
  cases h with
  | unlabelled _ => exact ht
  | labelled name _ _ hnew => exact ht.push hnew

/-- A definition adds one label at most, which has the value of its place. -/
theorem Defines.symbols (h : Defines rule address index s t t') :
    t'.toList = t.toList ∨ ∃ symbol : Symbol, t'.toList = t.toList ++ [symbol] ∧
      symbol.line = s.line ∧ symbol.address.toNat = labelValue rule address index := by
  cases h with
  | unlabelled _ => exact .inl rfl
  | labelled name _ hlt _ =>
    exact .inr ⟨_, SymbolTable.toList_push _ _, rfl, UInt16.toNat_ofNat_of_lt hlt⟩

/-- A label that was not there before is the label of this statement. -/
theorem Defines.mem_symbols (h : Defines rule address index s t t') {symbol : Symbol}
    (hmem : symbol ∈ t'.toList) : symbol ∈ t.toList ∨
      symbol.line = s.line ∧ symbol.address.toNat = labelValue rule address index := by
  rcases h.symbols with hsame | ⟨new, hnew, hline, hvalue⟩
  · rw [hsame] at hmem
    exact .inl hmem
  · rw [hnew] at hmem
    rcases List.mem_append.mp hmem with hmem | hmem
    · exact .inl hmem
    · rw [List.mem_singleton.mp hmem]
      exact .inr ⟨hline, hvalue⟩

/-- What becomes of a line behind others: its placement, and the address and the labels behind
it. -/
inductive Puts (rule : LabelRule) (address : Nat) (t : SymbolTable) :
    Entry → Placement → Nat → SymbolTable → Prop where
  | badLine {index : Nat} {retention : Retention} (d : Diagnostic) :
      Puts rule address t ⟨index, .error d, retention⟩ (.failed ⟨d, false⟩) address t
  | badLabel {index : Nat} {retention : Retention} (s : Statement) (f : Failure)
      (fails : define rule address index s t = .error f) :
      Puts rule address t ⟨index, .ok s, retention⟩ (.failed f) address t
  | bare {index : Nat} {retention : Retention} (s : Statement) (t' : SymbolTable)
      (defines : Defines rule address index s t t')
      (lacks : hasInstruction s retention = false) :
      Puts rule address t ⟨index, .ok s, retention⟩ .bare address t'
  | startPastEnd {index : Nat} {retention : Retention} (s : Statement) (t' : SymbolTable)
      (defines : Defines rule address index s t t') (has : hasInstruction s retention = true)
      (bound_le : addressBound ≤ address) :
      Puts rule address t ⟨index, .ok s, retention⟩
        (.failed (.ofInstruction s .startPastEnd)) address t'
  | stopPastEnd {index : Nat} {retention : Retention} (s : Statement) (t' : SymbolTable)
      (defines : Defines rule address index s t t') (has : hasInstruction s retention = true)
      (lt_bound : address < addressBound)
      (bound_lt : addressBound < address + (s.size? rule).getD 0) :
      Puts rule address t ⟨index, .ok s, retention⟩
        (.failed (.ofInstruction s .stopPastEnd)) (address + (s.size? rule).getD 0) t'
  | placed {index : Nat} {retention : Retention} (s : Statement) (t' : SymbolTable)
      (defines : Defines rule address index s t t') (has : hasInstruction s retention = true)
      (lt_bound : address < addressBound)
      (le_bound : address + (s.size? rule).getD 0 ≤ addressBound) :
      Puts rule address t ⟨index, .ok s, retention⟩
        (.placed (UInt16.ofNat address)) (address + (s.size? rule).getD 0) t'

/-- The layout puts a line in one of these ways. -/
theorem puts_put (rule : LabelRule) (l : Layout) (e : Entry) :
    ∃ placement, (l.put rule e).placements = l.placements.push placement ∧
      Puts rule l.address l.symbols e placement (l.put rule e).address (l.put rule e).symbols := by
  obtain ⟨address, t, placements⟩ := l
  obtain ⟨index, line, retention⟩ := e
  unfold put
  cases line with
  | error d => exact ⟨_, rfl, .badLine d⟩
  | ok s =>
    simp only
    split
    · rename_i f hdefine
      exact ⟨_, rfl, .badLabel s f hdefine⟩
    · rename_i t' hdefine
      have hdefines := define_eq_ok_iff.mp hdefine
      split
      · rename_i hhas
        unfold putInstruction
        split
        · rename_i hstart
          exact ⟨_, rfl, .startPastEnd s t' hdefines hhas hstart⟩
        · rename_i hstart
          simp only
          split
          · rename_i hstop
            exact ⟨_, rfl, .stopPastEnd s t' hdefines hhas (Nat.lt_of_not_le hstart) hstop⟩
          · rename_i hstop
            exact ⟨_, rfl,
              .placed s t' hdefines hhas (Nat.lt_of_not_le hstart) (Nat.le_of_not_lt hstop)⟩
      · rename_i hhas
        exact ⟨_, rfl, .bare s t' hdefines (by simpa using hhas)⟩

/-- There is one way only to put a line. -/
theorem put_of_puts {e : Entry} {p : Placement} {stop : Nat}
    (h : Puts rule address t e p stop t') (placements : Array Placement) :
    put rule ⟨address, t, placements⟩ e = ⟨stop, t', placements.push p⟩ := by
  cases h with
  | badLine d => rfl
  | badLabel s f hfails => simp [put, hfails]
  | bare s t' hdefines hlacks => simp [put, define_eq_ok_iff.mpr hdefines, hlacks]
  | startPastEnd s t' hdefines hhas hstart =>
    simp [put, define_eq_ok_iff.mpr hdefines, hhas, putInstruction, hstart]
  | stopPastEnd s t' hdefines hhas hlt hstop =>
    simp [put, define_eq_ok_iff.mpr hdefines, hhas, putInstruction, Nat.not_le_of_lt hlt, hstop]
  | placed s t' hdefines hhas hlt hle =>
    simp [put, define_eq_ok_iff.mpr hdefines, hhas, putInstruction, Nat.not_le_of_lt hlt,
      Nat.not_lt_of_le hle]

/-- A statement that has an instruction and no label takes the room of its instruction. -/
theorem puts_of_size? {x size : Nat} (hlabel : s.label = none)
    (hhas : hasInstruction s .whole = true)
    (hsize : s.size? rule = some size) (hlt : x < addressBound) (hle : x + size ≤ addressBound) :
    Puts rule x t ⟨index, .ok s, .whole⟩ (.placed (UInt16.ofNat x)) (x + size) t := by
  have hputs : Puts rule x t ⟨index, .ok s, .whole⟩ (.placed (UInt16.ofNat x))
      (x + (s.size? rule).getD 0) t :=
    .placed s t (.unlabelled hlabel) hhas hlt (by rwa [hsize])
  rwa [hsize] at hputs

/-- Lines put one behind the other. -/
inductive Runs (rule : LabelRule) :
    Nat → SymbolTable → List Entry → List Placement → Nat → SymbolTable → Prop where
  | nil {address : Nat} {t : SymbolTable} : Runs rule address t [] [] address t
  | cons {address address' stop : Nat} {t t' t'' : SymbolTable} {e : Entry} {p : Placement}
      {entries : List Entry} {placements : List Placement}
      (head : Puts rule address t e p address' t')
      (tail : Runs rule address' t' entries placements stop t'') :
      Runs rule address t (e :: entries) (p :: placements) stop t''

theorem runs_foldl (rule : LabelRule) (entries : List Entry) (l : Layout) :
    ∃ placements,
      (entries.foldl (put rule) l).placements.toList = l.placements.toList ++ placements ∧
      Runs rule l.address l.symbols entries placements (entries.foldl (put rule) l).address
        (entries.foldl (put rule) l).symbols := by
  induction entries generalizing l with
  | nil => exact ⟨[], (List.append_nil _).symm, .nil⟩
  | cons e entries ih =>
    obtain ⟨p, hp, hputs⟩ := puts_put rule l e
    obtain ⟨placements, hplacements, hruns⟩ := ih (l.put rule e)
    refine ⟨p :: placements, ?_, .cons hputs hruns⟩
    rw [List.foldl_cons, hplacements, hp]
    simp

/-- **The layout of a program runs over its lines** from address 0. -/
theorem runs_ofEntries (rule : LabelRule) (entries : List Entry) :
    Runs rule 0 ∅ entries (ofEntries rule entries).placements.toList
      (ofEntries rule entries).address (ofEntries rule entries).symbols := by
  obtain ⟨placements, hplacements, hruns⟩ := runs_foldl rule entries {}
  unfold ofEntries
  rw [hplacements]
  exact hruns

variable {stop : Nat} {e : Entry} {p : Placement} {entries : List Entry}
  {placements : List Placement}

theorem Puts.indexed (h : Puts rule address t e p stop t') (ht : t.Indexed) : t'.Indexed := by
  cases h with
  | badLine d => exact ht
  | badLabel s f hfails => exact ht
  | bare s _ hdefines _ => exact hdefines.indexed ht
  | startPastEnd s _ hdefines _ _ => exact hdefines.indexed ht
  | stopPastEnd s _ hdefines _ _ _ => exact hdefines.indexed ht
  | placed s _ hdefines _ _ _ => exact hdefines.indexed ht

theorem Runs.indexed (h : Runs rule address t entries placements stop t') (ht : t.Indexed) :
    t'.Indexed := by
  induction h with
  | nil => exact ht
  | cons hputs _ ih => exact ih (hputs.indexed ht)

theorem Runs.length_eq (h : Runs rule address t entries placements stop t') :
    placements.length = entries.length := by
  induction h with
  | nil => rfl
  | cons _ _ ih => rw [List.length_cons, List.length_cons, ih]

theorem Runs.foldl_put (h : Runs rule address t entries placements stop t')
    (placed : Array Placement) :
    entries.foldl (put rule) ⟨address, t, placed⟩ = ⟨stop, t', placed ++ placements.toArray⟩ := by
  induction h generalizing placed with
  | nil => simp
  | cons hputs _ ih => simp [put_of_puts hputs, ih]

/-- **There is one way only to lay out a program.** -/
theorem ofEntries_of_runs (h : Runs rule 0 ∅ entries placements stop t') :
    ofEntries rule entries = ⟨stop, t', placements.toArray⟩ := by
  unfold ofEntries
  rw [h.foldl_put, Array.empty_append]

variable {entries' : List Entry} {placements' : List Placement} {middle : Nat}
  {t'' : SymbolTable}

theorem Runs.append (h : Runs rule address t entries placements middle t')
    (h' : Runs rule middle t' entries' placements' stop t'') :
    Runs rule address t (entries ++ entries') (placements ++ placements') stop t'' := by
  induction h with
  | nil => exact h'
  | cons hputs _ ih => exact .cons hputs (ih h')

/-- Where a layout stands before a line, what it makes of the line, and what comes then. -/
theorem Runs.exists_of_mem_zip (h : Runs rule address t entries placements stop t')
    (hmem : (e, p) ∈ entries.zip placements) :
    ∃ before after upper lower x u y v, entries = before ++ e :: after ∧
      placements = upper ++ p :: lower ∧ Runs rule address t before upper x u ∧
      Puts rule x u e p y v ∧ Runs rule y v after lower stop t' := by
  induction h with
  | nil => cases hmem
  | cons hputs htail ih =>
    rcases List.mem_cons.mp hmem with hmem | hmem
    · cases hmem
      exact ⟨[], _, [], _, _, _, _, _, rfl, rfl, .nil, hputs, htail⟩
    · obtain ⟨before, after, upper, lower, x, u, y, v, rfl, rfl, hbefore, hline, hafter⟩ := ih hmem
      exact ⟨_ :: before, after, _ :: upper, lower, x, u, y, v, rfl, rfl, .cons hputs hbefore,
        hline, hafter⟩

/-- Every list of lines can be laid out. -/
theorem exists_runs (rule : LabelRule) (address : Nat) (t : SymbolTable) (entries : List Entry) :
    ∃ placements stop t', Runs rule address t entries placements stop t' := by
  obtain ⟨placements, -, hruns⟩ := runs_foldl rule entries ⟨address, t, #[]⟩
  exact ⟨placements, _, _, hruns⟩

/-- What becomes of a line does not depend on the lines behind it. -/
theorem Runs.mem_zip (h : Runs rule 0 ∅ entries placements address t)
    (hputs : Puts rule address t e p stop t') (after : List Entry) :
    (e, p) ∈ (entries ++ e :: after).zip
      (ofEntries rule (entries ++ e :: after)).placements.toList := by
  obtain ⟨lower, _, _, hafter⟩ := exists_runs rule stop t' after
  rw [ofEntries_of_runs (h.append (.cons hputs hafter)), List.toList_toArray,
    List.zip_append h.length_eq.symm]
  exact List.mem_append_right _ List.mem_cons_self

theorem Puts.symbols (h : Puts rule address t e p stop t') :
    t'.toList = t.toList ∨ ∃ symbol : Symbol, t'.toList = t.toList ++ [symbol] ∧
      symbol.line = e.line.number ∧ symbol.address.toNat = labelValue rule address e.index := by
  cases h with
  | badLine d => exact .inl rfl
  | badLabel s f h => exact .inl rfl
  | bare s _ h _ => exact h.symbols
  | startPastEnd s _ h _ _ => exact h.symbols
  | stopPastEnd s _ h _ _ _ => exact h.symbols
  | placed s _ h _ _ _ => exact h.symbols

/-- A layout keeps the labels that it has. -/
theorem Puts.exists_symbols (h : Puts rule address t e p stop t') :
    ∃ added, t'.toList = t.toList ++ added := by
  rcases h.symbols with hsame | ⟨symbol, hadded, -⟩
  · exact ⟨[], by simp [hsame]⟩
  · exact ⟨[symbol], hadded⟩

theorem Runs.exists_symbols (h : Runs rule address t entries placements stop t') :
    ∃ added, t'.toList = t.toList ++ added := by
  induction h with
  | nil => exact ⟨[], (List.append_nil _).symm⟩
  | cons hputs _ ih =>
    obtain ⟨symbols, hsymbols⟩ := hputs.exists_symbols
    obtain ⟨added, hadded⟩ := ih
    exact ⟨symbols ++ added, by rw [hadded, hsymbols, List.append_assoc]⟩

theorem Runs.extends (h : Runs rule address t entries placements stop t') (ht : t.Indexed) :
    t.Extends t' := by
  obtain ⟨added, hadded⟩ := h.exists_symbols
  refine ht.extends_of_subset (h.indexed ht) ?_
  rw [hadded]
  exact List.subset_append_left _ _

/-- Where a label was defined that was not there before. -/
theorem Runs.exists_definition (h : Runs rule address t entries placements stop t')
    {symbol : Symbol} (hmem : symbol ∈ t'.toList) : symbol ∈ t.toList ∨
      ∃ before e after upper lower x u added, entries = before ++ e :: after ∧
        placements = upper ++ lower ∧ Runs rule address t before upper x u ∧
        Runs rule x u (e :: after) lower stop t' ∧ symbol.line = e.line.number ∧
        symbol.address.toNat = labelValue rule x e.index ∧
        t'.toList = u.toList ++ symbol :: added := by
  induction h with
  | nil => exact .inl hmem
  | @cons x y _ t u t'' e p entries placements hputs htail ih =>
    rcases ih hmem with hmem | ⟨before, e', after, upper, lower, x', u', added, rfl, rfl, hbefore,
      hafter, hline, hvalue, hadded⟩
    · rcases hputs.symbols with hsame | ⟨symbol', hsymbol', hline, hvalue⟩
      · rw [hsame] at hmem
        exact .inl hmem
      · rw [hsymbol'] at hmem
        rcases List.mem_append.mp hmem with hmem | hmem
        · exact .inl hmem
        · obtain rfl := List.mem_singleton.mp hmem
          obtain ⟨added, hadded⟩ := htail.exists_symbols
          refine .inr ⟨[], e, entries, [], p :: placements, x, t, added, rfl, rfl, .nil,
            .cons hputs htail, hline, hvalue, ?_⟩
          rw [hadded, hsymbol', List.append_assoc]
          rfl
    · exact .inr ⟨e :: before, e', after, p :: upper, lower, x', u', added, rfl, rfl,
        .cons hputs hbefore, hafter, hline, hvalue, hadded⟩

/-! ## The running address -/

theorem Puts.start_le (h : Puts rule address t e p stop t') : address ≤ stop := by
  cases h with
  | stopPastEnd s _ _ _ _ _ => exact Nat.le_add_right _ _
  | placed s _ _ _ _ _ => exact Nat.le_add_right _ _
  | _ => exact Nat.le_refl _

/-- One instruction may reach over the end of the machine. -/
theorem Puts.address_le (h : Puts rule address t e p stop t') (ha : address ≤ addressBound + 2) :
    stop ≤ addressBound + 2 := by
  cases h with
  | stopPastEnd s _ _ _ hlt _ =>
    have := s.size?_le rule
    omega
  | placed _ _ _ _ _ hle => omega
  | _ => exact ha

theorem Runs.address_le (h : Runs rule address t entries placements stop t')
    (ha : address ≤ addressBound + 2) : stop ≤ addressBound + 2 := by
  induction h with
  | nil => exact ha
  | cons hputs _ ih => exact ih (hputs.address_le ha)

theorem address_ofEntries_le (rule : LabelRule) (entries : List Entry) :
    (ofEntries rule entries).address ≤ 0x10002 :=
  (runs_ofEntries rule entries).address_le (Nat.zero_le _)

/-! ## Numbers that become addresses -/

theorem Puts.toNat_of_placed {a : UInt16} (h : Puts rule address t e (.placed a) stop t') :
    a.toNat = address := by
  cases h with
  | placed _ _ _ _ hlt _ => exact UInt16.toNat_ofNat_of_lt hlt

/-- The running address before a line stays in its range, and no number loses anything when the
line makes it an address of the machine. -/
structure InRange (rule : LabelRule) (before : List Entry) (e : Entry) : Prop where
  address_le : (ofEntries rule before).address ≤ 0x10002
  placed : ∀ a, (ofEntries rule (before ++ [e])).placements.back? = some (.placed a) →
    (ofEntries rule before).address ≤ 0xFFFF ∧ a.toNat = (ofEntries rule before).address
  symbols : (ofEntries rule (before ++ [e])).symbols.toList =
      (ofEntries rule before).symbols.toList ∨
    ∃ symbol, (ofEntries rule (before ++ [e])).symbols.toList =
        (ofEntries rule before).symbols.toList ++ [symbol] ∧
      labelValue rule (ofEntries rule before).address e.index ≤ 0xFFFF ∧
      symbol.address.toNat = labelValue rule (ofEntries rule before).address e.index

/-- **The running address is in range before every line of every program.** -/
theorem inRange (rule : LabelRule) (before : List Entry) (e : Entry) : InRange rule before e := by
  have happend : ofEntries rule (before ++ [e]) = (ofEntries rule before).put rule e := by
    unfold ofEntries
    rw [List.foldl_append]
    rfl
  obtain ⟨placement, hplacement, hputs⟩ := puts_put rule (ofEntries rule before) e
  refine ⟨address_ofEntries_le rule before, ?_, ?_⟩
  · intro a ha
    rw [happend, hplacement, Array.back?_push] at ha
    cases ha
    have hnat := hputs.toNat_of_placed
    have hlt := a.toNat_lt
    exact ⟨by omega, hnat⟩
  · rw [happend]
    rcases hputs.symbols with h | ⟨symbol, h, -, hnat⟩
    · exact .inl h
    · have hlt := symbol.address.toNat_lt
      exact .inr ⟨symbol, h, by omega, hnat⟩

end Layout

end Micro65
