import Mathlib.Algebra.GroupWithZero.Nat
import Micro65.Assembly.Basic
import Micro65.Proofs.Assembly.Image
import Micro65.Proofs.Assembly.Layout
/-!
# Passes without faults

`Pass.Reads` says how the lines of a program become instructions and labels when no line has a
fault: a label gets the running address or the number of its line, and an instruction starts at the
running address and ends where the next one may start. A pass that finds no fault is such a reading
(`Pass.reads_ofEntries`). In the definition an instruction takes the room that it needs, not the
room that the first reading gave it; that the two are the same is
`Statement.size?_of_instruction`.

The instructions of a reading come from its statements one by one (`Pass.Reads.statements`) and
stand one behind the other (`Pass.Reads.contiguous`). Its labels are the labels of the lines
(`Pass.Reads.symbols`). If the lines ascend, a label that counts bytes has the address of the first
instruction that is not above it (`Pass.Reads.address_of_byteOffset`).

Where the only label of a program stands alone in its first line, a pass is known from this label
(`Pass.ofEntries_of_label`).
-/

namespace Micro65

open Layout (Defines Puts Runs hasInstruction addressBound)

/-- The label of a line, with the number of the line. -/
def Line.label? : Line → Option (Text × Nat)
  | .ok s => s.label.map fun name => (name, s.line)
  | .error _ => none

/-- The statement of a line that has an instruction. -/
def Line.statement? : Line → Option Statement
  | .ok s => if s.mnemonic.isSome then some s else none
  | .error _ => none

theorem Line.line_of_statement? {line : Line} {s : Statement} (h : line.statement? = some s) :
    s.line = line.number := by
  unfold statement? at h
  split at h
  · split at h
    · cases h
      rfl
    · cases h
  · cases h

namespace Entry

/-- The statement of a line whose instruction takes part. -/
def statement? (e : Entry) : Option Statement :=
  if e.retention = .whole then e.line.statement? else none

/-- The label of a line, with the number of the line. -/
def label? (e : Entry) : Option (Text × Nat) :=
  e.line.label?

theorem statement?_ok (index : Nat) (s : Statement) (retention : Retention) :
    statement? ⟨index, .ok s, retention⟩ =
      if hasInstruction s retention then some s else none := by
  cases retention <;> simp [statement?, Line.statement?, hasInstruction]

end Entry

namespace Pass

/-- A reading of lines without a fault from an address and some labels on, with the values of all
labels in `table`. It gives instructions with their places in the source, and ends at an address
with more labels. -/
inductive Reads (rule : LabelRule) (table : SymbolTable) :
    Nat → SymbolTable → List Entry → List (Instruction × Location) → Nat → SymbolTable → Prop where
  | nil {address : Nat} {t : SymbolTable} : Reads rule table address t [] [] address t
  | bare {address index stop : Nat} {t t' t'' : SymbolTable} {s : Statement} {retention : Retention}
      {entries : List Entry} {instructions : List (Instruction × Location)}
      (defines : Defines rule address index s t t') (lacks : hasInstruction s retention = false)
      (tail : Reads rule table address t' entries instructions stop t'') :
      Reads rule table address t (⟨index, .ok s, retention⟩ :: entries) instructions stop t''
  | instruction {address index stop : Nat} {t t' t'' : SymbolTable} {s : Statement}
      {retention : Retention} {i : Instruction} {entries : List Entry}
      {instructions : List (Instruction × Location)}
      (defines : Defines rule address index s t t') (has : hasInstruction s retention = true)
      (reads : s.instruction rule table i.address = .ok i) (address_eq : i.address.toNat = address)
      (stop_le : i.stop ≤ addressBound)
      (tail : Reads rule table i.stop t' entries instructions stop t'') :
      Reads rule table address t (⟨index, .ok s, retention⟩ :: entries)
        ((i, s.location) :: instructions) stop t''

variable {rule : LabelRule} {table t t' : SymbolTable} {address stop : Nat}
  {entries : List Entry} {placements : List Placement}

/-- The verdicts on lines, given their placements and the values of the labels. -/
def judge (rule : LabelRule) (table : SymbolTable) (entries : List Entry)
    (placements : List Placement) : Pass where
  symbols := table
  verdicts := (entries.zip placements).map fun (e, p) => (e, e.verdict rule table p)

theorem failures_cons {v : Entry × Verdict} {verdicts : List (Entry × Verdict)}
    (h : (Pass.mk table (v :: verdicts)).failures = []) :
    (∃ i, v.2 = .ok i) ∧ (Pass.mk table verdicts).failures = [] := by
  obtain ⟨e, verdict⟩ := v
  cases verdict with
  | error f => cases h
  | ok i => exact ⟨⟨i, rfl⟩, h⟩

section

variable {e : Entry} {p : Placement}

theorem failures_judge_of_error {f : Failure} (h : e.verdict rule table p = .error f) :
    (judge rule table (e :: entries) (p :: placements)).failures =
      (e, f) :: (judge rule table entries placements).failures := by
  simp [judge, failures, h]

theorem failures_judge_of_ok {i : Option Instruction} (h : e.verdict rule table p = .ok i) :
    (judge rule table (e :: entries) (p :: placements)).failures =
      (judge rule table entries placements).failures := by
  simp [judge, failures, h]

end

/-- Lines that are laid out and judged without a fault are read. -/
theorem reads_of_runs (hruns : Runs rule address t entries placements stop t')
    (hfaultless : (judge rule table entries placements).failures = []) :
    Reads rule table address t entries (judge rule table entries placements).instructions
      stop t' := by
  induction hruns with
  | nil => exact .nil
  | @cons address _ stop t _ t'' e p entries placements hputs _ ih =>
    obtain ⟨⟨i, hverdict⟩, hfaultless⟩ := failures_cons hfaultless
    have ih := ih hfaultless
    cases hputs with
    | badLine d => cases hverdict
    | badLabel s f hfails => cases hverdict
    | startPastEnd s t' _ _ _ => cases hverdict
    | stopPastEnd s t' _ _ _ _ => cases hverdict
    | bare s t' hdefines hlacks => exact .bare hdefines hlacks ih
    | @placed index retention s t' hdefines hhas hlt hle =>
      simp only [Entry.verdict] at hverdict
      cases hi : s.instruction rule table (UInt16.ofNat address) with
      | error cause =>
        rw [hi] at hverdict
        cases hverdict
      | ok i =>
        obtain ⟨-, haddress, -⟩ := Statement.instruction_eq_ok_iff.mp hi
        have hnat : i.address.toNat = address := by
          rw [haddress]
          exact UInt16.toNat_ofNat_of_lt hlt
        have hstop : address + (s.size? rule).getD 0 = i.stop := by
          rw [Statement.size?_of_instruction hi, Option.getD_some, ← hnat]
          rfl
        rw [hstop] at hle ih
        have hinstructions : (judge rule table (⟨index, .ok s, retention⟩ :: entries)
            (.placed (UInt16.ofNat address) :: placements)).instructions =
            (i, s.location) :: (judge rule table entries placements).instructions := by
          unfold judge instructions
          simp [Entry.verdict, hi]
        rw [hinstructions]
        rw [← haddress] at hi
        exact .instruction hdefines hhas hi hnat hle ih

/-- **A pass that finds no fault is a reading** of its lines from address 0, which ends with all
labels defined. -/
theorem reads_ofEntries (h : (ofEntries rule entries).failures = []) :
    ∃ stop, Reads rule (ofEntries rule entries).symbols 0 ∅ entries
      (ofEntries rule entries).instructions stop (ofEntries rule entries).symbols :=
  ⟨_, reads_of_runs (Layout.runs_ofEntries rule entries) h⟩

/-! ## Lines that stand alone -/

/-- A line without a label, whose instruction takes so many bytes and can be read at every address,
whatever labels there are. -/
inductive StandsAlone (rule : LabelRule) : Entry → Nat → Prop where
  | statement {index size : Nat} {s : Statement} (label_eq : s.label = none)
      (has : hasInstruction s .whole = true) (size_eq : s.size? rule = some size)
      (reads : ∀ table address, ∃ i, s.instruction rule table address = .ok i) :
      StandsAlone rule ⟨index, .ok s, .whole⟩ size

/-- **Lines that stand alone take their room and have no fault.** -/
theorem exists_runs_of_standsAlone {sizes : List Nat}
    (h : List.Forall₂ (StandsAlone rule) entries sizes) {x : Nat} (t : SymbolTable)
    (hle : x + sizes.sum ≤ addressBound) :
    ∃ placements, Runs rule x t entries placements (x + sizes.sum) t ∧
      ∀ table more lower, (judge rule table (entries ++ more) (placements ++ lower)).failures =
        (judge rule table more lower).failures := by
  induction h generalizing x with
  | nil => exact ⟨[], .nil, fun _ _ _ => rfl⟩
  | @cons e size entries sizes halone _ ih =>
    obtain ⟨hlabel, hhas, hsize, hreads⟩ := halone
    rename_i index s
    rw [List.sum_cons] at hle ⊢
    obtain ⟨placements, hruns, hjudge⟩ := @ih (x + size) (by omega)
    have hpos := Statement.size?_pos hsize
    have hputs : Puts rule x t ⟨index, .ok s, .whole⟩ (.placed (UInt16.ofNat x)) (x + size) t :=
      Layout.puts_of_size? hlabel hhas hsize (by omega) (by omega)
    refine ⟨.placed (UInt16.ofNat x) :: placements, ?_, fun table more lower => ?_⟩
    · rw [← Nat.add_assoc]
      exact .cons hputs hruns
    · obtain ⟨i, hi⟩ := hreads table (UInt16.ofNat x)
      have hverdict : Entry.verdict rule table ⟨index, .ok s, .whole⟩ (.placed (UInt16.ofNat x)) =
          .ok (some i) := by
        simp only [Entry.verdict, hi]
      rw [← hjudge table more lower]
      exact failures_judge_of_ok hverdict

namespace Reads

variable {instructions : List (Instruction × Location)}

theorem contiguous (h : Reads rule table address t entries instructions stop t') :
    Contiguous address (instructions.map Prod.fst) stop := by
  induction h with
  | nil => rfl
  | bare _ _ _ ih => exact ih
  | instruction _ _ _ haddress _ _ ih => exact ⟨haddress, ih⟩

theorem stop_le (h : Reads rule table address t entries instructions stop t')
    (ha : address ≤ addressBound) : stop ≤ addressBound := by
  induction h with
  | nil => exact ha
  | bare _ _ _ ih => exact ih ha
  | instruction _ _ _ _ hle _ ih => exact ih hle

/-- **Statements become instructions one by one.** -/
theorem statements (h : Reads rule table address t entries instructions stop t') :
    List.Forall₂ (fun s (x : Instruction × Location) =>
        s.instruction rule table x.1.address = .ok x.1 ∧ x.2 = s.location)
      (entries.filterMap Entry.statement?) instructions := by
  induction h with
  | nil => exact .nil
  | @bare _ index _ _ _ _ s retention _ _ _ hlacks _ ih =>
    rwa [List.filterMap_cons_none (by rw [Entry.statement?_ok, hlacks]; rfl)]
  | @instruction _ index _ _ _ _ s retention _ _ _ _ hhas hreads _ _ _ ih =>
    rw [List.filterMap_cons_some (b := s) (by rw [Entry.statement?_ok, if_pos hhas])]
    exact .cons ⟨hreads, rfl⟩ ih

theorem exists_statement (h : Reads rule table address t entries instructions stop t')
    {x : Instruction × Location} (hx : x ∈ instructions) :
    ∃ e ∈ entries, ∃ s, e.line = .ok s ∧ s.instruction rule table x.1.address = .ok x.1 := by
  induction h with
  | nil => cases hx
  | bare _ _ _ ih =>
    obtain ⟨e, he, hs⟩ := ih hx
    exact ⟨e, List.mem_cons_of_mem _ he, hs⟩
  | instruction _ _ hreads _ _ _ ih =>
    rcases List.mem_cons.mp hx with rfl | hx
    · exact ⟨_, List.mem_cons_self, _, rfl, hreads⟩
    · obtain ⟨e, he, hs⟩ := ih hx
      exact ⟨e, List.mem_cons_of_mem _ he, hs⟩

theorem wellFormed (h : Reads rule table address t entries instructions stop t') :
    ∀ i ∈ instructions.map Prod.fst, i.WellFormed := by
  intro i hi
  obtain ⟨x, hx, rfl⟩ := List.mem_map.mp hi
  obtain ⟨e, -, s, -, hs⟩ := h.exists_statement hx
  exact Statement.wellFormed_of_instruction hs

/-! ## Labels -/

variable {index : Nat} {s : Statement} {retention : Retention} {symbol : Symbol}

theorem labels_of_defines (h : Defines rule address index s t t') (entries : List Entry) :
    t'.toList.map (fun symbol => (symbol.name, symbol.line)) ++
        entries.filterMap Entry.label? =
      t.toList.map (fun symbol => (symbol.name, symbol.line)) ++
        (⟨index, .ok s, retention⟩ :: entries).filterMap Entry.label? := by
  cases h with
  | unlabelled hlabel =>
    rw [List.filterMap_cons_none (by simp [Entry.label?, Line.label?, hlabel])]
  | labelled name hlabel _ _ =>
    rw [List.filterMap_cons_some (b := (name, s.line))
      (by simp [Entry.label?, Line.label?, hlabel])]
    simp

/-- The labels of the lines are defined in order. -/
theorem symbols (h : Reads rule table address t entries instructions stop t') :
    t'.toList.map (fun symbol => (symbol.name, symbol.line)) =
      t.toList.map (fun symbol => (symbol.name, symbol.line)) ++
        entries.filterMap Entry.label? := by
  induction h with
  | nil => simp
  | bare hdefines _ _ ih => rw [ih, labels_of_defines hdefines]
  | instruction hdefines _ _ _ _ _ ih => rw [ih, labels_of_defines hdefines]

theorem indexed (h : Reads rule table address t entries instructions stop t')
    (ht : t.Indexed) : t'.Indexed := by
  induction h with
  | nil => exact ht
  | bare hdefines _ _ ih => exact ih (hdefines.indexed ht)
  | instruction hdefines _ _ _ _ _ ih => exact ih (hdefines.indexed ht)

/-- **Where a label is defined**, a reading falls into two, and the label has the value of this
place. -/
theorem exists_definition (h : Reads rule table address t entries instructions stop t')
    (hsymbol : symbol ∈ t'.toList) :
    symbol ∈ t.toList ∨ ∃ before e after upper lower middle t₁,
      entries = before ++ e :: after ∧ instructions = upper ++ lower ∧
      Reads rule table address t before upper middle t₁ ∧
      Reads rule table middle t₁ (e :: after) lower stop t' ∧
      symbol.line = e.line.number ∧
      symbol.address.toNat = Layout.labelValue rule middle e.index := by
  induction h with
  | nil => exact .inl hsymbol
  | bare hdefines hlacks htail ih =>
    rcases ih hsymbol with hmem | ⟨before, e, after, upper, lower, middle, t₁, rfl, rfl, hupper,
      hlower, hline, hvalue⟩
    · rcases hdefines.mem_symbols hmem with hmem | ⟨hline, hvalue⟩
      · exact .inl hmem
      · exact .inr ⟨[], _, _, [], _, _, _, rfl, rfl, .nil, .bare hdefines hlacks htail, hline,
          hvalue⟩
    · exact .inr ⟨_ :: before, e, after, upper, lower, middle, t₁, rfl, rfl,
        .bare hdefines hlacks hupper, hlower, hline, hvalue⟩
  | instruction hdefines hhas hreads haddress hle htail ih =>
    rcases ih hsymbol with hmem | ⟨before, e, after, upper, lower, middle, t₁, rfl, rfl, hupper,
      hlower, hline, hvalue⟩
    · rcases hdefines.mem_symbols hmem with hmem | ⟨hline, hvalue⟩
      · exact .inl hmem
      · exact .inr ⟨[], _, _, [], _, _, _, rfl, rfl, .nil,
          .instruction hdefines hhas hreads haddress hle htail, hline, hvalue⟩
    · exact .inr ⟨_ :: before, e, after, _ :: upper, lower, middle, t₁, rfl, rfl,
        .instruction hdefines hhas hreads haddress hle hupper, hlower, hline, hvalue⟩

theorem exists_line (h : Reads rule table address t entries instructions stop t')
    {i : Instruction} (hi : i ∈ instructions.map Prod.fst) :
    ∃ e ∈ entries, i.line = e.line.number := by
  obtain ⟨x, hx, rfl⟩ := List.mem_map.mp hi
  obtain ⟨e, he, s, hline, hs⟩ := h.exists_statement hx
  obtain ⟨-, -, hnumber⟩ := Statement.instruction_eq_ok_iff.mp hs
  exact ⟨e, he, by rw [hline]; exact hnumber⟩

/-- **A label that counts bytes** has the address of the first instruction that is not above it, or
the address behind all instructions. -/
theorem address_of_byteOffset
    (h : Reads .byteOffset table address t entries instructions stop t')
    (hlines : entries.Pairwise fun e e' => e.line.number < e'.line.number)
    (hsymbol : symbol ∈ t'.toList) (hnew : symbol ∉ t.toList) :
    symbol.address.toNat =
      (((instructions.map Prod.fst).find? fun i => symbol.line ≤ i.line).map
        (·.address.toNat)).getD stop := by
  rcases h.exists_definition hsymbol with hmem | ⟨before, e, after, upper, lower, middle, t₁, rfl,
    rfl, hupper, hlower, hline, hvalue⟩
  · exact absurd hmem hnew
  · obtain ⟨-, hafter, hbefore⟩ := List.pairwise_append.mp hlines
    have habove : (upper.map Prod.fst).find? (fun i => symbol.line ≤ i.line) = none := by
      refine List.find?_eq_none.mpr fun i hi => ?_
      obtain ⟨e', he', hnumber⟩ := hupper.exists_line hi
      have hlt := hbefore e' he' e List.mem_cons_self
      simp only [decide_eq_true_eq]
      omega
    rw [List.map_append, List.find?_append, habove, Option.none_or]
    rw [hlower.contiguous.address_find? fun i hi => ?_]
    · exact hvalue
    · obtain ⟨e', he', hnumber⟩ := hlower.exists_line hi
      rcases List.mem_cons.mp he' with rfl | he'
      · simp [hline, hnumber]
      · have hlt := List.rel_of_pairwise_cons hafter he'
        simp only [decide_eq_true_eq]
        omega

/-- A label that counts lines has the index of its line. -/
theorem address_of_lineIndex
    (h : Reads .lineIndex table address t entries instructions stop t')
    (hsymbol : symbol ∈ t'.toList) (hnew : symbol ∉ t.toList) :
    ∃ e ∈ entries, e.index = symbol.address.toNat ∧ e.line.number = symbol.line := by
  rcases h.exists_definition hsymbol with hmem | ⟨before, e, after, upper, lower, middle, t₁, rfl,
    rfl, -, -, hline, hvalue⟩
  · exact absurd hmem hnew
  · exact ⟨e, by simp, hvalue.symm, hline.symm⟩

end Reads

end Pass

/-! ## Programs with one label -/

namespace Layout

variable {rule : LabelRule}

theorem symbols_put {e : Entry} (h : e.label? = none) (l : Layout) :
    (put rule l e).symbols = l.symbols := by
  obtain ⟨index, line, retention⟩ := e
  cases line with
  | error d => rfl
  | ok s =>
    have hlabel : s.label = none := by simpa [Entry.label?, Line.label?] using h
    simp only [put, define, hlabel]
    split <;> rfl

/-- Lines without labels define none. -/
theorem symbols_foldl_put {entries : List Entry} (h : ∀ e ∈ entries, e.label? = none)
    (l : Layout) : (entries.foldl (put rule) l).symbols = l.symbols := by
  induction entries generalizing l with
  | nil => rfl
  | cons e entries ih =>
    rw [List.foldl_cons, ih (fun e' he' => h e' (List.mem_cons_of_mem _ he')),
      symbols_put (h e List.mem_cons_self)]

end Layout

/-- **A label that stands alone in the first line**, with no other label behind it, is all that a
pass needs to know of labels. -/
theorem Pass.ofEntries_of_label {rule : LabelRule} {source name : Text} {span : Span}
    {lines : List Line}
    (hlines : Line.ofSource source = .ok ⟨1, some name, none, none, none, span⟩ :: lines)
    (hnone : ∀ line ∈ lines, line.label? = none) :
    ofEntries rule (Entry.ofLines (Line.ofSource source)) =
      judge rule (.push ∅ ⟨name, 0, 1⟩) (Entry.ofLines (Line.ofSource source))
        ((Entry.ofLines (Line.ofSource source)).tail.foldl (Layout.put rule)
          ⟨0, .push ∅ ⟨name, 0, 1⟩, #[.bare]⟩).placements.toList := by
  have hput : Layout.put rule {} ⟨0, .ok ⟨1, some name, none, none, none, span⟩, .whole⟩ =
      ⟨0, .push ∅ ⟨name, 0, 1⟩, #[.bare]⟩ := by
    cases rule <;> simp [Layout.put, Layout.define, SymbolTable.define, SymbolTable.find?_empty,
      Layout.labelValue, addressBound, hasInstruction]
  have hentries : Entry.ofLines (Line.ofSource source) =
      ⟨0, .ok ⟨1, some name, none, none, none, span⟩, .whole⟩ ::
        (Entry.ofLines (Line.ofSource source)).tail := by
    rw [hlines]
    rfl
  have htail : ∀ e ∈ (Entry.ofLines (Line.ofSource source)).tail, e.label? = none := by
    rw [hlines]
    intro e he
    obtain ⟨x, hx, rfl⟩ := List.mem_map.mp he
    exact hnone x.1 (List.fst_mem_of_mem_zipIdx hx)
  unfold ofEntries judge Layout.ofEntries
  rw [hentries]
  simp only [List.tail_cons, List.foldl_cons, hput, Layout.symbols_foldl_put htail]

end Micro65
