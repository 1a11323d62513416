import Micro65.Proofs.Assembly.Cleaned
import Micro65.Proofs.Assembly.FirstFaults
import Micro65.Proofs.Assembly.Rounds
import Micro65.Proofs.Statement.Recased
/-!
# Letter case matters in labels only

A source with letters in another case, in the words of instructions, in numerals and in the names of
registers, is assembled alike (`Assembly.agrees_of_recased`). It assembles to the same program, or
it has faults of the same lines at the same places. The layout does not even notice the difference
(`Layout.ofEntries_of_respelled`), and the verdicts on the lines agree
(`Entry.Respelled.agrees_verdict`).

The faults are of the same kinds, except on a line in whose operand closing parentheses keep letters
apart that make another name without them. There the kind can depend on letter case
(`Assembly.faults_of_recased_stray`).
-/

namespace Micro65

open Diagnostic (Cause)

/-! ## Readings of a statement -/

namespace Statement

variable {s s' : Statement} {rule : LabelRule}

/-- The length of an instruction does not depend on its spelling. -/
theorem Respelled.size?_eq (h : s.Respelled s') : s.size? rule = s'.size? rule := by
  have hforms := h.form_cases rule.placeholderText fun _ => LabelRule.labelling_placeholderText
  unfold LabelRule.placeholderText at hforms
  unfold size?
  obtain ⟨f, hs, hs'⟩ | ⟨c, c', hs, hs', -⟩ := hforms
  · rw [hs, hs']
  · rw [hs, hs']

/-- The readings of an instruction come to the same, or to faults of the same kind. -/
theorem Respelled.instruction_cases (h : s.Respelled s') (rule : LabelRule) (table : SymbolTable)
    (address : UInt16) :
    (∃ i, s.instruction rule table address = .ok i ∧ s'.instruction rule table address = .ok i) ∨
      ∃ c c', s.instruction rule table address = .error c ∧
        s'.instruction rule table address = .error c' ∧
        (¬ Text.Joins (s.operand.getD []) → c.kind = c'.kind) := by
  have hforms := h.form_cases (rule.reference table address) fun _ => LabelRule.labelling_reference
  unfold instruction
  obtain ⟨f, hs, hs'⟩ | ⟨c, c', hs, hs', hkind⟩ := hforms
  · rw [hs, hs', h.line_eq]
    exact .inl ⟨_, rfl, rfl⟩
  · rw [hs, hs']
    exact .inr ⟨c, c', rfl, rfl, hkind⟩

end Statement

/-! ## Layout -/

/-- The same line with another spelling of its instruction, of which the same takes part. -/
structure Entry.Respelled (e e' : Entry) : Prop where
  index_eq : e.index = e'.index
  line : e.line.Respelled e'.line
  retention_eq : e.retention = e'.retention

namespace Layout

variable {rule : LabelRule} {e e' : Entry} {entries entries' : List Entry}

theorem define_of_respelled {s s' : Statement} (h : s.Respelled s') (address index : Nat)
    (table : SymbolTable) :
    define rule address index s table = define rule address index s' table := by
  unfold define Failure.ofLabel Statement.diagnostic
  rw [h.label_eq, h.line_eq, h.span_eq]

theorem putInstruction_of_respelled {s s' : Statement} (h : s.Respelled s') (address : Nat) :
    putInstruction rule s address = putInstruction rule s' address := by
  unfold putInstruction Failure.ofInstruction Statement.diagnostic
  rw [h.label_eq, h.line_eq, h.span_eq, h.size?_eq]

theorem put_of_respelled (h : e.Respelled e') (l : Layout) : put rule l e = put rule l e' := by
  obtain ⟨index, line, retention⟩ := e
  obtain ⟨index', line', retention'⟩ := e'
  obtain ⟨rfl, hline, rfl⟩ := h
  cases hline with
  | fault d => rfl
  | statement hs =>
    unfold put hasInstruction
    simp only [define_of_respelled hs, putInstruction_of_respelled hs, hs.isSome_eq]

/-- **The layout does not depend on the spelling of instructions.** -/
theorem ofEntries_of_respelled (rule : LabelRule)
    (h : List.Forall₂ Entry.Respelled entries entries') :
    ofEntries rule entries = ofEntries rule entries' := by
  unfold ofEntries
  generalize ({} : Layout) = l
  induction h generalizing l with
  | nil => rfl
  | cons he _ ih => rw [List.foldl_cons, List.foldl_cons, put_of_respelled he, ih]

end Layout

/-! ## Verdicts -/

/-- Two faults are of the same line and at the same place, and of the same kind unless the operand
of the line joins what closing parentheses keep apart. -/
structure Failure.Agrees (line : Line) (f f' : Failure) : Prop where
  labelStands_eq : f.labelStands = f'.labelStands
  line_eq : f.diagnostic.line = f'.diagnostic.line
  span_eq : f.diagnostic.span = f'.diagnostic.span
  kind_eq : (∀ s, line = .ok s → ¬ Text.Joins (s.operand.getD [])) →
    f.diagnostic.kind = f'.diagnostic.kind

theorem Failure.Agrees.refl (line : Line) (f : Failure) : Failure.Agrees line f f :=
  ⟨rfl, rfl, rfl, fun _ => rfl⟩

/-- The verdicts on a line in two spellings: the same instruction, or faults that agree. -/
inductive Verdict.Agrees (line : Line) : Verdict → Verdict → Prop
  | ok (i : Option Instruction) : Agrees line (.ok i) (.ok i)
  | error {f f' : Failure} (h : Failure.Agrees line f f') : Agrees line (.error f) (.error f')

/-- **The verdicts on a line in two spellings agree.** -/
theorem Entry.Respelled.agrees_verdict {e e' : Entry} (h : e.Respelled e') (rule : LabelRule)
    (table : SymbolTable) (p : Placement) :
    Verdict.Agrees e.line (e.verdict rule table p) (e'.verdict rule table p) := by
  obtain ⟨index, line, retention⟩ := e
  obtain ⟨index', line', retention'⟩ := e'
  obtain ⟨-, hline, -⟩ := h
  cases p with
  | failed f => exact .error (.refl _ f)
  | bare => exact .ok none
  | placed address =>
    cases hline with
    | fault d => exact .error (.refl _ _)
    | @statement s s' hs =>
      simp only [verdict]
      obtain ⟨i, hi, hi'⟩ | ⟨c, c', hc, hc', hkind⟩ := hs.instruction_cases rule table address
      · rw [hi, hi']
        exact .ok (some i)
      · rw [hc, hc']
        refine .error ⟨?_, hs.line_eq, hs.span_eq, fun hjoins => hkind (hjoins s rfl)⟩
        exact congrArg Option.isSome hs.label_eq

namespace Pass

/-- Two passes over lines in two spellings have found the same. -/
structure Agrees (p p' : Pass) : Prop where
  symbols_eq : p.symbols = p'.symbols
  verdicts : List.Forall₂ (fun x x' => x.1.Respelled x'.1 ∧ Verdict.Agrees x.1.line x.2 x'.2)
    p.verdicts p'.verdicts

/-- **Passes over lines in two spellings find the same.** -/
theorem agrees_ofEntries (rule : LabelRule) {entries entries' : List Entry}
    (h : List.Forall₂ Entry.Respelled entries entries') :
    Agrees (ofEntries rule entries) (ofEntries rule entries') := by
  have hlayout := Layout.ofEntries_of_respelled rule h
  refine ⟨congrArg Layout.symbols hlayout, ?_⟩
  unfold ofEntries
  simp only [← hlayout]
  clear hlayout
  generalize Layout.ofEntries rule entries = layout
  rw [List.forall₂_map_left_iff, List.forall₂_map_right_iff]
  generalize layout.placements.toList = placements
  induction h generalizing placements with
  | nil => exact .nil
  | cons he _ ih =>
    cases placements with
    | nil => exact .nil
    | cons p placements => exact .cons ⟨he, he.agrees_verdict rule _ p⟩ (ih placements)

variable {p p' : Pass}

theorem Agrees.instructions_eq (h : Agrees p p') : p.instructions = p'.instructions := by
  refine filterMap_eq_of_forall₂ h.verdicts ?_
  rintro ⟨e, v⟩ ⟨e', v'⟩ ⟨⟨-, hline, -⟩, hverdict⟩
  simp only at hline hverdict ⊢
  generalize e.line = line at hline hverdict
  generalize e'.line = line' at hline
  cases hline with
  | fault d => rfl
  | @statement s s' hs =>
    have hlocation : s.location = s'.location := by
      unfold Statement.location
      rw [hs.line_eq, hs.span_eq]
    cases hverdict with
    | ok i => cases i <;> simp [hlocation]
    | error _ => rfl

/-- The faults agree one by one. -/
theorem Agrees.failures (h : Agrees p p') :
    List.Forall₂ (fun x x' => x.1.Respelled x'.1 ∧ Failure.Agrees x.1.line x.2 x'.2)
      p.failures p'.failures := by
  refine List.rel_filterMap ?_ h.verdicts
  rintro ⟨e, v⟩ ⟨e', v'⟩ ⟨he, hverdict⟩
  cases hverdict with
  | ok i => exact .none
  | error hf => exact .some ⟨he, hf⟩

/-- Both passes find faults, or neither does. -/
theorem Agrees.failures_eq_nil_iff (h : Agrees p p') : p.failures = [] ↔ p'.failures = [] := by
  rw [← List.length_eq_zero_iff, ← List.length_eq_zero_iff, h.failures.length_eq]

theorem Agrees.map_line_warnings (h : Agrees p p') :
    p.warnings.map Warning.line = p'.warnings.map Warning.line := by
  have hline : ∀ p : Pass, p.warnings.map Warning.line =
      p.failures.map fun x => x.2.diagnostic.line := by
    intro p
    have hdiagnostics := congrArg (List.map Diagnostic.line) p.map_diagnostic_warnings
    rwa [List.map_map, List.map_map] at hdiagnostics
  rw [hline, hline, ← List.forall₂_eq_eq_eq, List.forall₂_map_left_iff, List.forall₂_map_right_iff]
  exact h.failures.imp fun _ _ hf => hf.2.line_eq

/-- The lines that are left of both are the same lines in two spellings. -/
theorem Agrees.survivors (h : Agrees p p') :
    List.Forall₂ Entry.Respelled p.survivors p'.survivors := by
  refine List.rel_filterMap ?_ h.verdicts
  rintro ⟨e, v⟩ ⟨e', v'⟩ ⟨he, hverdict⟩
  cases hverdict with
  | ok i => exact .some he
  | @error f f' hf =>
    simp only [Entry.afterVerdict]
    unfold Entry.salvage
    rw [hf.labelStands_eq, he.retention_eq]
    split
    · exact .some ⟨he.index_eq, he.line, rfl⟩
    · exact .none

end Pass

/-! ## Assemblies -/

/-- Whether taking the closing parentheses out of the operand of a line puts letters together
that they keep apart. -/
def Line.Joins (source : Text) (number : Nat) : Prop :=
  ∃ s, .ok s ∈ Line.ofSource source ∧ s.line = number ∧ Text.Joins (s.operand.getD [])

/-- Two faults are of the same line and at the same place, and of the same kind unless the operand
of the line joins what closing parentheses keep apart. -/
structure Diagnostic.Agrees (source : Text) (d d' : Diagnostic) : Prop where
  line_eq : d.line = d'.line
  span_eq : d.span = d'.span
  kind_eq : ¬ Line.Joins source d.line → d.kind = d'.kind

namespace Assembly

/-- The same program, with warnings about the same lines. -/
structure SameProgram (a b : Assembly) : Prop where
  bytes_eq : a.bytes = b.bytes
  instructions_eq : a.instructions = b.instructions
  symbols_eq : a.symbols = b.symbols
  sourceMap_eq : a.sourceMap = b.sourceMap
  warnings_eq : a.warnings.map Warning.line = b.warnings.map Warning.line

/-- What two answers have in common that differ in letter case only: the same program, or faults
that agree one by one. -/
inductive AgreesOn (source : Text) :
    Except (List Diagnostic) Assembly → Except (List Diagnostic) Assembly → Prop
  | ok {a b : Assembly} (same : SameProgram a b) : AgreesOn source (.ok a) (.ok b)
  | error {faults faults' : List Diagnostic}
      (agree : List.Forall₂ (Diagnostic.Agrees source) faults faults') :
      AgreesOn source (.error faults) (.error faults')

variable {p p' : Pass} {warnings warnings' : List Warning}

theorem sameProgram_assembly (h : Pass.Agrees p p')
    (hwarnings : warnings.map Warning.line = warnings'.map Warning.line) :
    SameProgram (p.assembly warnings) (p'.assembly warnings') := by
  unfold Pass.assembly
  rw [h.instructions_eq, h.symbols_eq]
  exact ⟨rfl, rfl, rfl, rfl, hwarnings⟩

/-- **Rounds over lines in two spellings** go side by side. -/
theorem Recovers.exists_respelled {rule : LabelRule} {entries entries' : List Entry} {passes : Nat}
    {a : Assembly} (h : Recovers rule entries warnings passes a)
    (hentries : List.Forall₂ Entry.Respelled entries entries')
    (hwarnings : warnings.map Warning.line = warnings'.map Warning.line) :
    ∃ b, Recovers rule entries' warnings' passes b ∧ SameProgram a b := by
  induction h generalizing entries' warnings' with
  | last hfaultless =>
    have hpass := Pass.agrees_ofEntries rule hentries
    exact ⟨_, .last (hpass.failures_eq_nil_iff.mp hfaultless), sameProgram_assembly hpass hwarnings⟩
  | @next entries warnings _ _ hfault _ ih =>
    have hpass := Pass.agrees_ofEntries rule hentries
    have hmore : (warnings ++ (Pass.ofEntries rule entries).warnings).map Warning.line =
        (warnings' ++ (Pass.ofEntries rule entries').warnings).map Warning.line := by
      rw [List.map_append, List.map_append, hwarnings, hpass.map_line_warnings]
    obtain ⟨b, hb, hsame⟩ := ih hpass.survivors hmore
    exact ⟨b, .next (mt hpass.failures_eq_nil_iff.mpr hfault) hb, hsame⟩

theorem forall₂_ofLines {lines lines' : List Line} (h : List.Forall₂ Line.Respelled lines lines') :
    List.Forall₂ Entry.Respelled (Entry.ofLines lines) (Entry.ofLines lines') := by
  unfold Entry.ofLines
  rw [List.forall₂_map_left_iff, List.forall₂_map_right_iff]
  generalize 0 = index
  induction h generalizing index with
  | nil => exact .nil
  | cons hline _ ih => exact .cons ⟨rfl, hline, rfl⟩ (ih (index + 1))

/-- The faults of the first passes over two sources agree one by one if the passes agree. -/
theorem forall₂_faults {rule : LabelRule} {source : Text} {p' : Pass}
    (h : Pass.Agrees (firstPass rule source) p') :
    List.Forall₂ (Diagnostic.Agrees source)
      ((firstPass rule source).failures.map fun x => x.2.diagnostic)
      (p'.failures.map fun x => x.2.diagnostic) := by
  rw [List.forall₂_map_left_iff, List.forall₂_map_right_iff]
  have hlines : ∀ x ∈ (firstPass rule source).failures, x.1.line ∈ Line.ofSource source ∧
      x.2.diagnostic.line = x.1.line.number := by
    rintro ⟨e, f⟩ hx
    have hverdict := Pass.mem_failures.mp hx
    exact ⟨mem_ofSource_of_mem_verdicts hverdict, Pass.line_of_mem_verdicts hverdict⟩
  refine ((List.forall₂_and_left _ _).mpr ⟨hlines, h.failures⟩).imp ?_
  rintro ⟨e, f⟩ ⟨e', f'⟩ ⟨⟨hmem, hnumber⟩, -, hagrees⟩
  refine ⟨hagrees.line_eq, hagrees.span_eq, fun hjoins => hagrees.kind_eq fun s hs hoperand => ?_⟩
  simp only at hmem hnumber hs
  rw [hs] at hmem hnumber
  exact hjoins ⟨s, hmem, hnumber.symm, hoperand⟩

/-- **Letter case matters in labels only**, under every rule for labels and for faults. -/
theorem agrees_of_recased (settings : AssemblerSettings) {source source' : Text}
    (h : Text.Recased source source') :
    AgreesOn source (assemble settings source) (assemble settings source') := by
  have hentries := forall₂_ofLines (Line.forall₂_ofSource h)
  obtain ⟨rule, onFault⟩ := settings
  cases onFault with
  | skip =>
    obtain ⟨passes, -, -, hrecovers⟩ :=
      exists_recovers rule (Entry.ofLines (Line.ofSource source)) []
    obtain ⟨b, hb, hsame⟩ : ∃ b, Recovers rule (Entry.ofLines (Line.ofSource source')) [] passes b ∧
        SameProgram _ b := hrecovers.exists_respelled hentries rfl
    rw [hb.eq_recover] at hsame
    exact .ok hsame
  | halt =>
    have hpass := Pass.agrees_ofEntries rule hentries
    have hfaults := hpass.failures_eq_nil_iff
    by_cases hnone : (Pass.ofEntries rule (Entry.ofLines (Line.ofSource source))).failures = []
    · rw [assemble_halt_eq_ok_iff.mpr ⟨hnone, rfl⟩,
        assemble_halt_eq_ok_iff.mpr ⟨hfaults.mp hnone, rfl⟩]
      exact .ok (sameProgram_assembly hpass rfl)
    · rw [assemble_halt_eq_error_iff.mpr ⟨hnone, rfl⟩,
        assemble_halt_eq_error_iff.mpr ⟨mt hfaults.mpr hnone, rfl⟩]
      exact .error (forall₂_faults hpass)

/-- A program with an index and a numeral in another case. -/
theorem agrees_of_recased_of_index :
    Text.Recased "go:\nlda ($2a,x)\nBNE go".toList "go:\nLDA ($2A,X)\nBNE go".toList ∧
      AgreesOn "go:\nlda ($2a,x)\nBNE go".toList
        (assemble {} "go:\nlda ($2a,x)\nBNE go".toList)
        (assemble {} "go:\nLDA ($2A,X)\nBNE go".toList) := by
  have hoperand : Field.Recased "($2a,x)".toList "($2A,X)".toList := by
    have hpieces : Piece.pieces "($2a,x)".toList =
        [.other '(', .numeral "$2a".toList, .other ',', .identifier ['x'], .other ')'] := by
      decide +kernel
    refine ⟨[.other '(', .numeral "$2A".toList, .other ',', .identifier ['X'], .other ')'], ?_,
      by decide⟩
    rw [hpieces]
    exact .cons (.same _) (.cons (.numeral (by decide)) (.cons (.same _)
      (.cons (.register (by decide) (by decide)) (.cons (.same _) .nil))))
  have hword : Text.SameLetters "lda".toList "LDA".toList := by decide
  have hline := Line.Recased.instruction (by decide) (by decide) hword hoperand
  have h : Text.Recased "go:\nlda ($2a,x)\nBNE go".toList "go:\nLDA ($2A,X)\nBNE go".toList :=
    .of_lines (.cons (.same "go:".toList) (.cons hline (.cons (.same "BNE go".toList) .nil)))
      (by decide) (by decide)
  exact ⟨h, agrees_of_recased {} h⟩

/-- What two lines with letters behind a parenthesis are rejected for, in two spellings each. -/
theorem faults_of_stray :
    assemble {} "xb:\nLDA ($10,x)b)".toList =
      .error [⟨2, ⟨0, 13⟩, .noMode .lda "($10,x)b)".toList⟩] ∧
    assemble {} "xb:\nLDA ($10,X)b)".toList = .error [⟨2, ⟨0, 13⟩, .undefinedLabel "Xb".toList⟩] ∧
    assemble {} "b1a:\nLDA ($10,b)1a)".toList =
      .error [⟨2, ⟨0, 14⟩, .noMode .lda "($10,b)1a)".toList⟩] ∧
    assemble {} "b1a:\nLDA ($10,b)1A)".toList =
      .error [⟨2, ⟨0, 14⟩, .undefinedLabel "b1A".toList⟩] := by
  have hx : Line.ofSource "xb:\nLDA ($10,x)b)".toList =
      [.ok ⟨1, some "xb".toList, none, none, none, ⟨0, 3⟩⟩,
        .ok ⟨2, none, some "LDA".toList, some "($10,x)b)".toList, none, ⟨0, 13⟩⟩] := by
    decide +kernel
  have hx' : Line.ofSource "xb:\nLDA ($10,X)b)".toList =
      [.ok ⟨1, some "xb".toList, none, none, none, ⟨0, 3⟩⟩,
        .ok ⟨2, none, some "LDA".toList, some "($10,X)b)".toList, none, ⟨0, 13⟩⟩] := by
    decide +kernel
  have ha : Line.ofSource "b1a:\nLDA ($10,b)1a)".toList =
      [.ok ⟨1, some "b1a".toList, none, none, none, ⟨0, 4⟩⟩,
        .ok ⟨2, none, some "LDA".toList, some "($10,b)1a)".toList, none, ⟨0, 14⟩⟩] := by
    decide +kernel
  have ha' : Line.ofSource "b1a:\nLDA ($10,b)1A)".toList =
      [.ok ⟨1, some "b1a".toList, none, none, none, ⟨0, 4⟩⟩,
        .ok ⟨2, none, some "LDA".toList, some "($10,b)1A)".toList, none, ⟨0, 14⟩⟩] := by
    decide +kernel
  refine ⟨?_, ?_, ?_, ?_⟩
  all_goals
    refine assemble_halt_eq_error_iff.mpr ?_
    simp only [Pass.ofEntries_of_label hx (by simp [Line.label?]),
      Pass.ofEntries_of_label hx' (by simp [Line.label?]),
      Pass.ofEntries_of_label ha (by simp [Line.label?]),
      Pass.ofEntries_of_label ha' (by simp [Line.label?])]
    unfold Pass.judge Entry.verdict Statement.instruction LabelRule.reference
    simp only [SymbolTable.find?_push_empty]
    decide +kernel

/-- Without the stray parenthesis behind them, an index and a numeral become letters of a name, and
whether this is the name of a label depends on their case. -/
theorem faults_of_recased_stray :
    Text.Recased "xb:\nLDA ($10,x)b)".toList "xb:\nLDA ($10,X)b)".toList ∧
    assemble {} "xb:\nLDA ($10,x)b)".toList =
      .error [⟨2, ⟨0, 13⟩, .noMode .lda "($10,x)b)".toList⟩] ∧
    assemble {} "xb:\nLDA ($10,X)b)".toList = .error [⟨2, ⟨0, 13⟩, .undefinedLabel "Xb".toList⟩] ∧
    Text.Recased "b1a:\nLDA ($10,b)1a)".toList "b1a:\nLDA ($10,b)1A)".toList ∧
    assemble {} "b1a:\nLDA ($10,b)1a)".toList =
      .error [⟨2, ⟨0, 14⟩, .noMode .lda "($10,b)1a)".toList⟩] ∧
    assemble {} "b1a:\nLDA ($10,b)1A)".toList =
      .error [⟨2, ⟨0, 14⟩, .undefinedLabel "b1A".toList⟩] := by
  have hindex : Field.Recased "($10,x)b)".toList "($10,X)b)".toList := by
    have hpieces : Piece.pieces "($10,x)b)".toList = [.other '(', .numeral "$10".toList, .other ',',
        .identifier ['x'], .other ')', .identifier ['b'], .other ')'] := by
      decide +kernel
    refine ⟨[.other '(', .numeral "$10".toList, .other ',', .identifier ['X'], .other ')',
      .identifier ['b'], .other ')'], ?_, by decide⟩
    rw [hpieces]
    exact .cons (.same _) (.cons (.same _) (.cons (.same _)
      (.cons (.register (by decide) (by decide))
        (.cons (.same _) (.cons (.same _) (.cons (.same _) .nil))))))
  have hnumeral : Field.Recased "($10,b)1a)".toList "($10,b)1A)".toList := by
    have hpieces : Piece.pieces "($10,b)1a)".toList =
        [.other '(', .numeral "$10".toList, .other ',', .identifier ['b'], .other ')',
          .numeral "1a".toList, .other ')'] := by
      decide +kernel
    refine ⟨[.other '(', .numeral "$10".toList, .other ',', .identifier ['b'], .other ')',
      .numeral "1A".toList, .other ')'], ?_, by decide⟩
    rw [hpieces]
    exact .cons (.same _) (.cons (.same _) (.cons (.same _) (.cons (.same _) (.cons (.same _)
      (.cons (.numeral (by decide)) (.cons (.same _) .nil))))))
  have hword : Text.SameLetters "LDA".toList "LDA".toList := rfl
  have hline := Line.Recased.instruction (by decide) (by decide) hword hindex
  have hline' := Line.Recased.instruction (by decide) (by decide) hword hnumeral
  obtain ⟨hx, hx', ha, ha'⟩ := faults_of_stray
  exact ⟨.of_lines (.cons (.same "xb:".toList) (.cons hline .nil)) (by decide) (by decide), hx, hx',
    .of_lines (.cons (.same "b1a:".toList) (.cons hline' .nil)) (by decide) (by decide), ha, ha'⟩

end Assembly

end Micro65
