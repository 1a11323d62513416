import Micro65.Assembly.Source
import Micro65.Proofs.Assembly.Reading
/-!
# The lines that an assembly keeps

The warnings of an assembly say how much of each line took part in it: all of a line without a
warning, the label of a line whose instruction was skipped, and nothing of a line that was skipped
(`Line.retention?`). A round of the recovery leaves exactly what its warnings say it leaves
(`Pass.survivors_eq_retained`), so by induction over the rounds an assembly is always what a single
pass without faults makes of the lines that its warnings leave (`Assembly.of_assemble`), whichever
rule for faults was in force.
-/

namespace Micro65

/-- Whether the warning is about a whole line. -/
def Warning.drops : Warning → Bool
  | .instructionSkipped _ => false
  | .lineSkipped _ => true

namespace Line

/-! ## The numbers of lines -/

theorem line_statement (number : Nat) (label comment : Option Text) (whole : Span) (start : Nat)
    (rest : Text) : (statement number label comment whole start rest).line = number := by
  unfold statement
  split <;> rfl

theorem number_ofCode (number : Nat) (comment : Option Text) (start : Nat) (code : Text) :
    (ofCode number comment start code).number = number := by
  unfold ofCode
  simp only
  split
  · exact line_statement ..
  · split
    · rfl
    · exact line_statement ..

theorem number_of_ofText? {number : Nat} {raw : Text} {line : Line}
    (h : ofText? number raw = some line) : line.number = number := by
  unfold ofText? at h
  simp only at h
  split at h
  · cases h
  · cases h
    exact number_ofCode ..

/-- **The lines of a source ascend.** -/
theorem pairwise_ofSource (source : Text) :
    (ofSource source).Pairwise fun l l' => l.number < l'.number := by
  unfold ofSource
  have hzip : ((Text.lines source).zipIdx 1).Pairwise fun x x' => x.2 < x'.2 := by
    refine List.pairwise_map.mp ?_
    rw [List.zipIdx_map_snd]
    exact List.pairwise_lt_range'
  refine List.Pairwise.filterMap _ ?_ hzip
  rintro ⟨raw, number⟩ ⟨raw', number'⟩ hlt line hline line' hline'
  rw [number_of_ofText? hline, number_of_ofText? hline']
  exact hlt

/-! ## What warnings leave -/

/-- How much of a line the warnings leave. -/
def retention? (warnings : List Warning) (line : Line) : Option Retention :=
  if warnings.any fun w => w.line = line.number && w.drops then none
  else if warnings.any fun w => w.line = line.number then some .labelOnly
  else some .whole

variable {warnings more : List Warning} {line : Line}

theorem isNone_retention? :
    (line.retention? warnings).isNone =
      warnings.any fun w => w.line = line.number && w.drops := by
  unfold retention?
  split
  · rename_i hdrops
    exact hdrops.symm
  · rename_i hdrops
    rw [Bool.not_eq_true] at hdrops
    rw [hdrops]
    split <;> rfl

theorem retention?_eq_none (h : ∃ w ∈ warnings, w.line = line.number ∧ w.drops = true) :
    line.retention? warnings = none := by
  unfold retention?
  rw [if_pos]
  simpa using h

theorem retention?_eq_labelOnly (h : ∃ w ∈ warnings, w.line = line.number)
    (hkept : ∀ w ∈ warnings, w.line = line.number → w.drops = false) :
    line.retention? warnings = some .labelOnly := by
  unfold retention?
  rw [if_neg, if_pos]
  · simpa using h
  · simpa using hkept

theorem exists_of_retention?_eq_labelOnly (h : line.retention? warnings = some .labelOnly) :
    ∃ w ∈ warnings, w.line = line.number ∧ w.drops = false := by
  unfold retention? at h
  split at h
  · cases h
  · rename_i hkept
    split at h
    · rename_i hany
      obtain ⟨w, hw, hline⟩ := List.any_eq_true.mp hany
      refine ⟨w, hw, of_decide_eq_true hline, ?_⟩
      cases hdrops : w.drops with
      | false => rfl
      | true => exact absurd (List.any_eq_true.mpr ⟨w, hw, by simp [hline, hdrops]⟩) hkept
    · cases h

theorem retention?_eq_whole_iff :
    line.retention? warnings = some .whole ↔ ∀ w ∈ warnings, w.line ≠ line.number := by
  unfold retention?
  constructor
  · intro h
    split at h
    · cases h
    · split at h
      · cases h
      · rename_i hnone
        simpa using hnone
  · intro h
    rw [if_neg, if_neg]
    · simpa using h
    · simp only [List.any_eq_true, Bool.and_eq_true, decide_eq_true_eq]
      rintro ⟨w, hw, hline, -⟩
      exact h w hw hline

/-- Warnings about other lines change nothing. -/
theorem retention?_append (h : ∀ w ∈ more, w.line ≠ line.number) :
    line.retention? (warnings ++ more) = line.retention? warnings := by
  unfold retention?
  have hnone : ∀ p : Warning → Bool, (more.any fun w => w.line = line.number && p w) = false := by
    intro p
    simp only [List.any_eq_false, Bool.and_eq_true, decide_eq_true_eq, not_and]
    intro w hw hline
    exact absurd hline (h w hw)
  have hdrops := hnone Warning.drops
  have hany := hnone fun _ => true
  simp only [Bool.and_true] at hany
  simp only [List.any_append, hdrops, hany, Bool.or_false]

theorem retention?_append_eq_none (h : line.retention? warnings = none) :
    line.retention? (warnings ++ more) = none := by
  refine retention?_eq_none ?_
  unfold retention? at h
  split at h
  · rename_i hdrops
    simp only [List.any_eq_true, Bool.and_eq_true, decide_eq_true_eq] at hdrops
    obtain ⟨w, hw, hline⟩ := hdrops
    exact ⟨w, List.mem_append_left _ hw, hline⟩
  · split at h <;> cases h

end Line

/-- What the warnings leave of a line that takes part. -/
def Entry.cutBack? (warnings : List Warning) (e : Entry) : Option Entry :=
  (e.line.retention? warnings).map fun retention => { e with retention }

/-- The lines that take part after these warnings, as far as they do. -/
def Entry.retained (warnings : List Warning) (lines : List Line) : List Entry :=
  lines.zipIdx.filterMap fun (line, index) =>
    (line.retention? warnings).map fun retention => ⟨index, line, retention⟩

/-- Without warnings all lines take part in full. -/
theorem Entry.ofLines_eq_retained (lines : List Line) :
    Entry.ofLines lines = Entry.retained [] lines := by
  unfold Entry.ofLines Entry.retained
  rw [← List.filterMap_eq_map]
  rfl

/-! ## The faults of a pass -/

namespace Layout

variable {rule : LabelRule} {address stop : Nat} {t t' : SymbolTable} {e : Entry} {f : Failure}

theorem line_of_define {index : Nat} {s : Statement}
    (h : define rule address index s t = .error f) :
    f.diagnostic.line = s.line := by
  unfold define at h
  split at h
  · cases h
  · simp only at h
    split at h
    · cases h
      rfl
    · split at h
      · cases h
        rfl
      · cases h

/-- A fault found by the layout has the number of its line. -/
theorem Puts.line_of_failed (h : Puts rule address t e (.failed f) stop t') :
    f.diagnostic.line = e.line.number := by
  cases h with
  | badLine d => rfl
  | badLabel s _ hfails => exact line_of_define hfails
  | startPastEnd s _ _ _ _ => rfl
  | stopPastEnd s _ _ _ _ _ => rfl

end Layout

namespace Pass

variable {rule : LabelRule} {table : SymbolTable} {entries : List Entry}

/-- Every line has one verdict. -/
theorem map_fst_verdicts (rule : LabelRule) (entries : List Entry) :
    (ofEntries rule entries).verdicts.map Prod.fst = entries := by
  have hlength := (Layout.runs_ofEntries rule entries).length_eq
  unfold ofEntries
  simp only [List.map_map]
  exact List.map_fst_zip (Nat.le_of_eq hlength.symm)

/-- A verdict is the one on what the layout makes of the line. -/
theorem exists_puts_of_mem_verdicts {e : Entry} {verdict : Verdict}
    (h : (e, verdict) ∈ (ofEntries rule entries).verdicts) :
    ∃ address t p stop t', Layout.Puts rule address t e p stop t' ∧
      verdict = e.verdict rule (Layout.ofEntries rule entries).symbols p := by
  unfold ofEntries at h
  obtain ⟨⟨e', p⟩, hmem, hverdict⟩ := List.mem_map.mp h
  obtain ⟨rfl, rfl⟩ := Prod.mk.inj hverdict
  obtain ⟨_, _, _, _, address, t, stop, t', -, -, -, hputs, -⟩ :=
    (Layout.runs_ofEntries rule entries).exists_of_mem_zip hmem
  exact ⟨address, t, p, stop, t', hputs, rfl⟩

/-- A fault that is found where a line has been put has the number of the line. -/
theorem line_of_verdict {address stop : Nat} {t t' : SymbolTable} {e : Entry} {p : Placement}
    {f : Failure} (hputs : Layout.Puts rule address t e p stop t')
    (h : e.verdict rule table p = .error f) : f.diagnostic.line = e.line.number := by
  cases p with
  | failed f' =>
    cases h
    exact hputs.line_of_failed
  | bare => cases h
  | placed a =>
    cases hputs with
    | placed s _ _ _ _ _ =>
      simp only [Entry.verdict] at h
      split at h
      · cases h
        rfl
      · cases h

/-- A fault has the number of its line. -/
theorem line_of_mem_verdicts {e : Entry} {f : Failure}
    (h : (e, .error f) ∈ (ofEntries rule entries).verdicts) :
    f.diagnostic.line = e.line.number := by
  obtain ⟨_, _, p, _, _, hputs, hverdict⟩ := exists_puts_of_mem_verdicts h
  exact line_of_verdict hputs hverdict.symm

theorem mem_failures {p : Pass} {e : Entry} {f : Failure} :
    (e, f) ∈ p.failures ↔ (e, .error f) ∈ p.verdicts := by
  unfold failures
  rw [List.mem_filterMap]
  constructor
  · rintro ⟨⟨e', verdict⟩, hverdict, hfault⟩
    cases verdict with
    | ok i => cases hfault
    | error f' =>
      cases hfault
      exact hverdict
  · exact fun h => ⟨_, h, rfl⟩

theorem mem_warnings {p : Pass} {w : Warning} :
    w ∈ p.warnings ↔ ∃ e f, (e, .error f) ∈ p.verdicts ∧ w = e.warning f := by
  unfold warnings
  rw [List.mem_map]
  constructor
  · rintro ⟨⟨e, f⟩, hmem, rfl⟩
    exact ⟨e, f, mem_failures.mp hmem, rfl⟩
  · rintro ⟨e, f, hmem, rfl⟩
    exact ⟨(e, f), mem_failures.mpr hmem, rfl⟩

/-! ## What a round leaves -/

theorem diagnostic_warning (e : Entry) (f : Failure) : (e.warning f).diagnostic = f.diagnostic := by
  unfold Entry.warning
  cases e.salvage f <;> rfl

/-- A warning has the number of its line. -/
theorem line_warning {e : Entry} {f : Failure}
    (h : (e, .error f) ∈ (ofEntries rule entries).verdicts) :
    (e.warning f).line = e.line.number := by
  rw [Warning.line, diagnostic_warning, line_of_mem_verdicts h]

/-- The lines have different numbers, so the warnings about a line come from its own verdict. -/
theorem verdict_of_mem_warnings
    (hlines : entries.Pairwise fun e e' => e.line.number < e'.line.number) {e : Entry}
    {verdict : Verdict} (hmem : (e, verdict) ∈ (ofEntries rule entries).verdicts) {w : Warning}
    (hw : w ∈ (ofEntries rule entries).warnings) (hline : w.line = e.line.number) :
    ∃ f, verdict = .error f ∧ w = e.warning f := by
  obtain ⟨e', f, hmem', rfl⟩ := mem_warnings.mp hw
  rw [line_warning hmem'] at hline
  have hnodup : ((ofEntries rule entries).verdicts.map fun v => v.1.line.number).Nodup := by
    rw [show (fun v : Entry × Verdict => v.1.line.number) =
      (fun e : Entry => e.line.number) ∘ Prod.fst from rfl, ← List.map_map, map_fst_verdicts]
    exact List.pairwise_map.mpr (hlines.imp Nat.ne_of_lt)
  cases List.inj_on_of_nodup_map hnodup hmem hmem' hline.symm
  exact ⟨f, rfl, rfl⟩

/-- **What a round leaves of a line is what its warnings say.** -/
theorem afterVerdict_eq (hlines : entries.Pairwise fun e e' => e.line.number < e'.line.number)
    {warnings : List Warning} {e : Entry} {verdict : Verdict}
    (hmem : (e, verdict) ∈ (ofEntries rule entries).verdicts)
    (hretention : e.line.retention? warnings = some e.retention) :
    e.afterVerdict verdict =
      e.cutBack? (warnings ++ (ofEntries rule entries).warnings) := by
  unfold Entry.cutBack?
  cases verdict with
  | ok i =>
    rw [Line.retention?_append, hretention]
    · rfl
    · intro w hw hline
      obtain ⟨f, hverdict, -⟩ := verdict_of_mem_warnings hlines hmem hw hline
      cases hverdict
  | error f =>
    have hw := mem_warnings.mpr ⟨e, f, hmem, rfl⟩
    have hline := line_warning hmem
    unfold Entry.afterVerdict
    simp only
    cases hsalvage : e.salvage f with
    | none =>
      rw [Line.retention?_eq_none ⟨_, List.mem_append_right _ hw, hline, ?_⟩]
      · rfl
      · simp [Entry.warning, hsalvage, Warning.drops]
    | some e' =>
      have hkept : (e.warning f).drops = false := by
        simp [Entry.warning, hsalvage, Warning.drops]
      unfold Entry.salvage at hsalvage
      split at hsalvage
      · rename_i hstands
        simp only [Bool.and_eq_true, decide_eq_true_eq] at hstands
        rw [hstands.2] at hretention
        have hwhole := Line.retention?_eq_whole_iff.mp hretention
        cases hsalvage
        rw [Line.retention?_eq_labelOnly ⟨_, List.mem_append_right _ hw, hline⟩]
        · rfl
        · intro w hw hline
          rcases List.mem_append.mp hw with hw | hw
          · exact absurd hline (hwhole w hw)
          · obtain ⟨f', hverdict, rfl⟩ := verdict_of_mem_warnings hlines hmem hw hline
            cases hverdict
            exact hkept
      · cases hsalvage

theorem mem_retained {warnings : List Warning} {lines : List Line} {e : Entry} :
    e ∈ Entry.retained warnings lines ↔
      lines[e.index]? = some e.line ∧ e.line.retention? warnings = some e.retention := by
  unfold Entry.retained
  rw [List.mem_filterMap]
  constructor
  · rintro ⟨⟨line, index⟩, hmem, he⟩
    obtain ⟨retention, hretention, rfl⟩ := Option.map_eq_some_iff.mp he
    exact ⟨List.mk_mem_zipIdx_iff_getElem?.mp hmem, hretention⟩
  · rintro ⟨hline, hretention⟩
    exact ⟨(e.line, e.index), List.mk_mem_zipIdx_iff_getElem?.mpr hline,
      Option.map_eq_some_iff.mpr ⟨e.retention, hretention, rfl⟩⟩

theorem pairwise_retained {warnings : List Warning} {lines : List Line}
    (h : lines.Pairwise fun l l' => l.number < l'.number) :
    (Entry.retained warnings lines).Pairwise fun e e' => e.line.number < e'.line.number := by
  unfold Entry.retained
  have hzip : lines.zipIdx.Pairwise fun x x' => x.1.number < x'.1.number := by
    refine List.pairwise_map.mp ?_
    rw [← List.zipIdx_map_fst 0 lines, List.pairwise_map] at h
    exact List.pairwise_map.mpr h
  refine List.Pairwise.filterMap _ ?_ hzip
  rintro ⟨line, index⟩ ⟨line', index'⟩ hlt e he e' he'
  obtain ⟨retention, -, rfl⟩ := Option.map_eq_some_iff.mp he
  obtain ⟨retention', -, rfl⟩ := Option.map_eq_some_iff.mp he'
  exact hlt

/-- **A round leaves what the warnings leave, its own included.** -/
theorem survivors_eq_retained {warnings : List Warning} {lines : List Line}
    (h : lines.Pairwise fun l l' => l.number < l'.number) :
    (ofEntries rule (Entry.retained warnings lines)).survivors =
      Entry.retained
        (warnings ++ (ofEntries rule (Entry.retained warnings lines)).warnings) lines := by
  generalize hmore : (ofEntries rule (Entry.retained warnings lines)).warnings = more
  have hsurvivors : (ofEntries rule (Entry.retained warnings lines)).survivors =
      (ofEntries rule (Entry.retained warnings lines)).verdicts.filterMap
        (Entry.cutBack? (warnings ++ more) ∘ Prod.fst) := by
    refine List.filterMap_congr ?_
    rintro ⟨e, verdict⟩ hv
    have hmem : e ∈ Entry.retained warnings lines := by
      rw [← map_fst_verdicts rule (Entry.retained warnings lines)]
      exact List.mem_map_of_mem hv
    simp only [Function.comp_apply]
    rw [afterVerdict_eq (pairwise_retained h) hv (mem_retained.mp hmem).2, hmore]
  -- What is left of a line is read off the warnings, so the verdicts are not looked at any more.
  rw [hsurvivors, ← List.filterMap_map, map_fst_verdicts]
  unfold Entry.retained
  rw [List.filterMap_filterMap]
  refine List.filterMap_congr ?_
  rintro ⟨line, index⟩ -
  simp only
  cases hretention : line.retention? warnings with
  | none =>
    rw [Line.retention?_append_eq_none hretention]
    rfl
  | some retention => rfl

end Pass

/-! ## What an assembly keeps -/

namespace Assembly

/-- The lines of a source that take part in an assembly of it, as far as they do. -/
def entries (a : Assembly) (source : Text) : List Entry :=
  Entry.retained a.warnings (Line.ofSource source)

theorem recover_retained (rule : LabelRule) {lines : List Line}
    (h : lines.Pairwise fun l l' => l.number < l'.number) (entries : List Entry)
    (warnings : List Warning) (hentries : entries = Entry.retained warnings lines) :
    ∃ all, (Pass.ofEntries rule (Entry.retained all lines)).failures = [] ∧
      recover rule entries warnings =
        (Pass.ofEntries rule (Entry.retained all lines)).assembly all := by
  induction entries, warnings using @recover.induct rule with
  | case1 entries warnings pass hnone =>
    subst hentries
    refine ⟨warnings, List.isEmpty_iff.mp hnone, ?_⟩
    rw [recover, if_pos hnone]
  | case2 entries warnings pass hsome ih =>
    subst hentries
    obtain ⟨all, hfaultless, hrecover⟩ := ih (Pass.survivors_eq_retained h)
    refine ⟨all, hfaultless, ?_⟩
    rw [recover, if_neg hsome]
    exact hrecover

/-- Where the lines at fault are skipped, every source assembles. -/
theorem assemble_skip (rule : LabelRule) (source : Text) :
    assemble ⟨rule, .skip⟩ source = .ok (recover rule (Entry.ofLines (Line.ofSource source)) []) :=
  rfl

/-- Where faults end the assembly, a source assembles exactly if a pass over its lines finds
none. -/
theorem assemble_halt_eq_ok_iff {rule : LabelRule} {source : Text} {a : Assembly} :
    assemble ⟨rule, .halt⟩ source = .ok a ↔
      (Pass.ofEntries rule (Entry.ofLines (Line.ofSource source))).failures = [] ∧
        a = (Pass.ofEntries rule (Entry.ofLines (Line.ofSource source))).assembly [] := by
  unfold assemble
  simp only
  split
  · rename_i hnone
    rw [Except.ok.injEq, eq_comm, and_iff_right hnone]
  · rename_i hsome
    exact iff_of_false nofun fun h => hsome h.1

/-- The faults that end an assembly are all those that the pass finds. -/
theorem assemble_halt_eq_error_iff {rule : LabelRule} {source : Text} {faults : List Diagnostic} :
    assemble ⟨rule, .halt⟩ source = .error faults ↔
      (Pass.ofEntries rule (Entry.ofLines (Line.ofSource source))).failures ≠ [] ∧
        faults = (Pass.ofEntries rule (Entry.ofLines (Line.ofSource source))).failures.map
          fun x => x.2.diagnostic := by
  unfold assemble
  simp only
  split
  · rename_i hnone
    exact iff_of_false nofun fun h => h.1 hnone
  · rename_i hsome
    rw [Except.error.injEq, eq_comm, and_iff_right hsome]

/-- **An assembly is what one pass without faults makes of the lines that it keeps.** -/
theorem of_assemble {settings : AssemblerSettings} {source : Text} {a : Assembly}
    (h : assemble settings source = .ok a) :
    (Pass.ofEntries settings.labels (a.entries source)).failures = [] ∧
      a = (Pass.ofEntries settings.labels (a.entries source)).assembly a.warnings := by
  have hlines := Line.pairwise_ofSource source
  have hall := Entry.ofLines_eq_retained (Line.ofSource source)
  obtain ⟨rule, onFault⟩ := settings
  cases onFault with
  | skip =>
    rw [assemble_skip] at h
    cases h
    obtain ⟨all, hfaultless, hrecover⟩ := recover_retained rule hlines _ [] hall
    have hwarnings : (recover rule (Entry.ofLines (Line.ofSource source)) []).warnings = all := by
      rw [hrecover]
      rfl
    unfold entries
    rw [hwarnings]
    exact ⟨hfaultless, hrecover⟩
  | halt =>
    obtain ⟨hfaultless, rfl⟩ := assemble_halt_eq_ok_iff.mp h
    rw [hall] at hfaultless ⊢
    exact ⟨hfaultless, rfl⟩

/-- A source without faults assembles under every rule for faults, without warnings. -/
theorem assemble_of_failures_eq_nil {settings : AssemblerSettings} {source : Text}
    (h : (Pass.ofEntries settings.labels (Entry.ofLines (Line.ofSource source))).failures = []) :
    assemble settings source =
      .ok ((Pass.ofEntries settings.labels
        (Entry.ofLines (Line.ofSource source))).assembly []) := by
  obtain ⟨rule, onFault⟩ := settings
  cases onFault with
  | skip => rw [assemble_skip, recover, if_pos (List.isEmpty_iff.mpr h)]
  | halt => exact assemble_halt_eq_ok_iff.mpr ⟨h, rfl⟩

/-- The statements of a source that have an instruction and about which no warning is given. -/
def statements (a : Assembly) (source : Text) : List Statement :=
  (Line.ofSource source).filterMap fun line =>
    if a.warnings.any fun w => w.line = line.number then none else line.statement?

/-- The labels of the lines of a source that are not skipped, each with the number of its line. -/
def labels (a : Assembly) (source : Text) : List (Text × Nat) :=
  (Line.ofSource source).filterMap fun line =>
    if a.warnings.any fun w => w.line = line.number && w.drops then none else line.label?

variable (a : Assembly) (source : Text)

/-- What is taken from the lines that take part can be taken from all lines. -/
theorem filterMap_entries {α : Type} {f : Entry → Option α} {g : Line → Option α}
    (h : ∀ index line, ((line.retention? a.warnings).map fun retention =>
      (⟨index, line, retention⟩ : Entry)).bind f = g line) :
    (a.entries source).filterMap f = (Line.ofSource source).filterMap g := by
  unfold entries Entry.retained
  rw [List.filterMap_filterMap]
  conv => rhs; rw [← List.zipIdx_map_fst 0 (Line.ofSource source), List.filterMap_map]
  refine List.filterMap_congr ?_
  rintro ⟨line, index⟩ -
  exact h index line

theorem filterMap_statement?_entries :
    (a.entries source).filterMap Entry.statement? = a.statements source := by
  refine a.filterMap_entries source fun index line => ?_
  by_cases hany : (a.warnings.any fun w => w.line = line.number) = true
  · rw [if_pos hany]
    cases hretention : line.retention? a.warnings with
    | none => rfl
    | some retention =>
      cases retention with
      | labelOnly => rfl
      | whole =>
        obtain ⟨w, hw, hline⟩ := List.any_eq_true.mp hany
        exact absurd (of_decide_eq_true hline) (Line.retention?_eq_whole_iff.mp hretention w hw)
  · rw [if_neg hany, Line.retention?_eq_whole_iff.mpr (by simpa using hany)]
    rfl

theorem filterMap_label?_entries :
    (a.entries source).filterMap Entry.label? = a.labels source := by
  refine a.filterMap_entries source fun index line => ?_
  rw [← Line.isNone_retention?]
  cases line.retention? a.warnings <;> rfl

end Assembly

end Micro65
