import Mathlib.Data.List.Infix
import Micro65.Proofs.Assembly.Labels
import Micro65.Proofs.Assembly.SourceMap
import Micro65.Proofs.Statement.Joined
/-!
# Lines appended to a program

A program that assembles refers to its own labels only. Lines behind it add labels and
instructions, and no label of the program gets another value, because a second definition is
refused. So what has been assembled stays as it is (`Assembly.extends_append`): the longer source
has the same machine code, the same instructions and the same labels first, and its source map
gives the same answers for them.
-/

namespace Micro65

open Layout (Runs)

/-! ## A pass over more lines -/

/-- The lines behind others are laid out behind them. -/
theorem Layout.exists_runs_append (rule : LabelRule) (before after : List Entry) :
    ∃ lower, (ofEntries rule (before ++ after)).placements.toList =
        (ofEntries rule before).placements.toList ++ lower ∧
      Runs rule (ofEntries rule before).address (ofEntries rule before).symbols after lower
        (ofEntries rule (before ++ after)).address (ofEntries rule (before ++ after)).symbols := by
  have happend : ofEntries rule (before ++ after) =
      after.foldl (put rule) (ofEntries rule before) := by
    unfold ofEntries
    rw [List.foldl_append]
  rw [happend]
  exact runs_foldl rule after (ofEntries rule before)

namespace Pass

variable {rule : LabelRule} {table table' : SymbolTable} {entries before after : List Entry}

/-- The labels of the first lines are the first labels. -/
theorem symbols_prefix_append (rule : LabelRule) (before after : List Entry) :
    (ofEntries rule before).symbols.toList <+:
      (ofEntries rule (before ++ after)).symbols.toList := by
  obtain ⟨lower, -, hruns⟩ := Layout.exists_runs_append rule before after
  obtain ⟨added, hadded⟩ := hruns.exists_symbols
  exact ⟨added, hadded.symm⟩

theorem indexed_symbols (rule : LabelRule) (entries : List Entry) :
    (ofEntries rule entries).symbols.Indexed :=
  (Layout.runs_ofEntries rule entries).indexed SymbolTable.indexed_empty

theorem extends_symbols_append (rule : LabelRule) (before after : List Entry) :
    (ofEntries rule before).symbols.Extends (ofEntries rule (before ++ after)).symbols :=
  (indexed_symbols rule before).extends_of_subset (indexed_symbols rule (before ++ after))
    (symbols_prefix_append rule before after).subset

/-- A line without a fault is judged in the same way if labels are added. -/
theorem verdict_mono (h : table.Extends table') {e : Entry} {p : Placement} {i : Option Instruction}
    (hverdict : e.verdict rule table p = .ok i) : e.verdict rule table' p = .ok i := by
  cases p with
  | failed f => cases hverdict
  | bare => exact hverdict
  | placed address =>
    unfold Entry.verdict at hverdict ⊢
    cases hline : e.line with
    | error d =>
      rw [hline] at hverdict
      cases hverdict
    | ok s =>
      simp only [hline] at hverdict ⊢
      cases hi : s.instruction rule table address with
      | error cause =>
        rw [hi] at hverdict
        cases hverdict
      | ok i' =>
        rw [hi] at hverdict
        rw [Statement.instruction_mono h hi]
        exact hverdict

/-- Lines without faults have the same instructions if labels are added. -/
theorem instructions_judge (h : table.Extends table') {placements : List Placement}
    (hfaultless : (judge rule table entries placements).failures = []) :
    (judge rule table' entries placements).instructions =
      (judge rule table entries placements).instructions := by
  unfold judge failures at hfaultless
  unfold judge instructions
  rw [List.filterMap_map, List.filterMap_eq_nil_iff] at hfaultless
  rw [List.filterMap_map, List.filterMap_map]
  refine List.filterMap_congr ?_
  rintro ⟨e, p⟩ hmem
  have hverdict := hfaultless (e, p) hmem
  simp only [Function.comp_apply] at hverdict ⊢
  cases hi : e.verdict rule table p with
  | error f =>
    rw [hi] at hverdict
    cases hverdict
  | ok i => rw [verdict_mono h hi]

/-- **The first lines have the first instructions**, if they have no faults. -/
theorem instructions_prefix_append (h : (ofEntries rule before).failures = [])
    (after : List Entry) :
    (ofEntries rule before).instructions <+: (ofEntries rule (before ++ after)).instructions := by
  obtain ⟨lower, hlower, -⟩ := Layout.exists_runs_append rule before after
  have hlength := (Layout.runs_ofEntries rule before).length_eq
  have hextends := extends_symbols_append rule before after
  refine ⟨(judge rule (ofEntries rule (before ++ after)).symbols after lower).instructions, ?_⟩
  have hsame := instructions_judge hextends
    (show (judge rule _ before (Layout.ofEntries rule before).placements.toList).failures = []
      from h)
  calc (ofEntries rule before).instructions ++ _
    _ = (judge rule (ofEntries rule (before ++ after)).symbols before
          (Layout.ofEntries rule before).placements.toList).instructions ++ _ := by rw [hsame]; rfl
    _ = (judge rule (ofEntries rule (before ++ after)).symbols (before ++ after)
          ((Layout.ofEntries rule before).placements.toList ++ lower)).instructions := by
      unfold judge instructions
      rw [List.zip_append hlength.symm, List.map_append, List.filterMap_append]
    _ = (ofEntries rule (before ++ after)).instructions := by rw [← hlower]; rfl

end Pass

/-! ## A longer source -/

/-- The lines of the first source take part as before. -/
theorem Entry.exists_ofLines_append (lines more : List Line) :
    ∃ after, ofLines (lines ++ more) = ofLines lines ++ after := by
  unfold ofLines
  rw [List.zipIdx_append, List.map_append]
  exact ⟨_, rfl⟩

namespace Assembly

variable {rule : LabelRule} {source : Text} {a b : Assembly}

theorem located_halt (h : assemble ⟨rule, .halt⟩ source = .ok a) : Located source a
    (Pass.ofEntries rule (Entry.ofLines (Line.ofSource source))).instructions := by
  have hentries : a.entries source = Entry.ofLines (Line.ofSource source) := by
    rw [Entry.ofLines_eq_retained, entries, (assemble_halt_eq_ok_iff.mp h).2]
    rfl
  have hlocated := located h
  rwa [hentries] at hlocated

/-- **What it is for an assembly to extend another**: everything in the one is in the
other, first and unchanged. -/
structure Extends (a b : Assembly) : Prop where
  bytes : a.bytes.toList <+: b.bytes.toList
  /-- The same instructions, at the same addresses and from the same lines. -/
  instructions : a.instructions <+: b.instructions
  symbols : a.symbols.toList <+: b.symbols.toList
  location : ∀ address location, a.sourceMap.location? address = some location →
    b.sourceMap.location? address = some location
  range : ∀ line range, a.sourceMap.range? line = some range → b.sourceMap.range? line = some range

/-- **Appending lines never changes what is already assembled.** -/
theorem extends_append {more : Text} (h : assemble ⟨rule, .halt⟩ source = .ok a)
    (h' : assemble ⟨rule, .halt⟩ (source ++ '\n' :: more) = .ok b) : Extends a b := by
  obtain ⟨hfaultless, ha⟩ := assemble_halt_eq_ok_iff.mp h
  have hb := (assemble_halt_eq_ok_iff.mp h').2
  obtain ⟨hinstructions, hmap, -, -, haddresses, hlines⟩ := located_halt h
  obtain ⟨hinstructions', hmap', -, -, haddresses', hlines'⟩ := located_halt h'
  rw [Line.ofSource_append] at hb hinstructions' hmap' haddresses' hlines'
  obtain ⟨after, hafter⟩ := Entry.exists_ofLines_append (Line.ofSource source) _
  rw [hafter] at hb hinstructions' hmap' haddresses' hlines'
  have hprefix := Pass.instructions_prefix_append hfaultless after
  refine { bytes := ?_, instructions := ?_, symbols := ?_, location := ?_, range := ?_ }
  · rw [ha, hb]
    exact hprefix.flatMap fun x => x.1.bytes
  · rw [hinstructions, hinstructions']
    exact hprefix.map Prod.fst
  · rw [ha, hb]
    exact Pass.symbols_prefix_append rule _ after
  · intro address location hfound
    rw [hmap, SourceMap.location?_ofInstructions_eq_some_iff haddresses] at hfound
    rw [hmap', SourceMap.location?_ofInstructions_eq_some_iff haddresses']
    obtain ⟨x, hx, hplace⟩ := hfound
    exact ⟨x, hprefix.subset hx, hplace⟩
  · intro line range hfound
    rw [hmap, SourceMap.range?_ofInstructions_eq_some_iff hlines] at hfound
    rw [hmap', SourceMap.range?_ofInstructions_eq_some_iff hlines']
    obtain ⟨x, hx, hplace⟩ := hfound
    exact ⟨x, hprefix.subset hx, hplace⟩

/-- A loop, and behind it a load from its label. -/
theorem extends_append_of_loop :
    ∃ a b, assemble {} "lo:\nBNE lo".toList = .ok a ∧
      assemble {} ("lo:\nBNE lo".toList ++ '\n' :: "LDA lo".toList) = .ok b ∧
      b.bytes = #[0xD0, 0xFE, 0xAD, 0x00, 0x00] ∧ Extends a b := by
  obtain ⟨a, ha, -⟩ := exists_assemble_loop
  have hlines : Line.ofSource ("lo:\nBNE lo".toList ++ '\n' :: "LDA lo".toList) =
      [.ok ⟨1, some "lo".toList, none, none, none, ⟨0, 3⟩⟩,
        .ok ⟨2, none, some "BNE".toList, some "lo".toList, none, ⟨0, 6⟩⟩,
        .ok ⟨3, none, some "LDA".toList, some "lo".toList, none, ⟨0, 6⟩⟩] := by
    decide +kernel
  have hb : (assemble {} ("lo:\nBNE lo".toList ++ '\n' :: "LDA lo".toList)).toOption.map
      (·.bytes) = some #[0xD0, 0xFE, 0xAD, 0x00, 0x00] := by
    simp only [assemble, Pass.ofEntries_of_label hlines (by simp [Line.label?])]
    unfold Pass.judge Entry.verdict Statement.instruction LabelRule.reference
    simp only [SymbolTable.find?_push_empty]
    decide +kernel
  obtain ⟨b, hb, hbytes⟩ := exists_of_map_toOption hb
  exact ⟨a, b, ha, hb, hbytes, extends_append ha hb⟩

end Assembly

end Micro65
