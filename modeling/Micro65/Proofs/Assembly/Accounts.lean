import Micro65.Proofs.Assembly.Labels
import Micro65.Proofs.Assembly.Rounds
/-!
# Every line is accounted for

Where faults are skipped, an assembly is there after two passes at most, and what has become of a
line can be read off its warnings (`Assembly.AccountsFor`): a line without one is in the assembly as
a whole, and a line with one is there with its label only or not at all. No line has two warnings,
since only the first pass finds faults (`Assembly.warnings_skip`).
-/

namespace Micro65

namespace Warning

theorem message_instructionSkipped (d : Diagnostic) :
    (instructionSkipped d).message = "instruction skipped, label kept: " ++ d.message := by
  dsimp only [message]
  -- The text of the fault stays closed, or both sides are computed.
  generalize d.message = text
  rfl

theorem message_lineSkipped (d : Diagnostic) :
    (lineSkipped d).message = "line skipped: " ++ d.message := by
  dsimp only [message]
  generalize d.message = text
  rfl

end Warning

/-- In an ascending list an element is the only one with its key. -/
theorem filter_eq_singleton {α : Type} {key : α → Nat} {xs : List α}
    (h : xs.Pairwise fun x y => key x < key y) {x : α} (hx : x ∈ xs) :
    (xs.filter fun y => key y = key x) = [x] := by
  induction xs with
  | nil => cases hx
  | cons y xs ih =>
    obtain ⟨hy, hxs⟩ := List.pairwise_cons.mp h
    rcases List.mem_cons.mp hx with rfl | hx
    · rw [List.filter_cons_of_pos (by simp), List.filter_eq_nil_iff.mpr]
      intro z hz
      have := hy z hz
      simp only [decide_eq_true_eq]
      omega
    · have := hy x hx
      rw [List.filter_cons_of_neg (by simp only [decide_eq_true_eq]; omega)]
      exact ih hxs hx

namespace Pass

variable {rule : LabelRule} {entries : List Entry}

/-- The warnings of a pass are in the order of the lines, with one for a line at most. -/
theorem pairwise_warnings
    (h : entries.Pairwise fun e e' => e.line.number < e'.line.number) :
    (ofEntries rule entries).warnings.Pairwise fun w w' => w.line < w'.line := by
  have hverdicts : (ofEntries rule entries).verdicts.Pairwise
      fun v v' => v.1.line.number < v'.1.line.number := by
    rw [← map_fst_verdicts rule entries] at h
    exact (List.pairwise_map (R := fun e e' : Entry => e.line.number < e'.line.number)).mp h
  unfold warnings failures
  rw [List.map_filterMap]
  refine List.Pairwise.filterMap _ ?_ (List.Pairwise.and_mem.mp hverdicts)
  rintro ⟨e, verdict⟩ ⟨e', verdict'⟩ ⟨hmem, hmem', hlt⟩ w hw w' hw'
  cases verdict with
  | ok i => cases hw
  | error f =>
    cases verdict' with
    | ok i => cases hw'
    | error f' =>
      cases hw
      cases hw'
      rw [line_warning hmem, line_warning hmem']
      exact hlt

/-- Only a statement can go without a fault, and only a label that is there can stand. -/
theorem statement_of_mem_verdicts {e : Entry} {verdict : Verdict}
    (h : (e, verdict) ∈ (ofEntries rule entries).verdicts)
    (hstands : ∀ f, verdict = .error f → f.labelStands = true) :
    ∃ s, e.line = .ok s ∧ ∀ f, verdict = .error f → s.label.isSome = true := by
  obtain ⟨_, _, _, _, _, hputs, rfl⟩ := exists_puts_of_mem_verdicts h
  cases hputs with
  | badLine d => cases hstands _ rfl
  | badLabel s f hfails =>
    have := hstands f rfl
    rw [Layout.labelStands_of_define hfails] at this
    cases this
  | bare s _ _ _ => exact ⟨s, rfl, nofun⟩
  | startPastEnd s _ _ _ _ => exact ⟨s, rfl, fun _ _ => hstands _ rfl⟩
  | stopPastEnd s _ _ _ _ _ => exact ⟨s, rfl, fun _ _ => hstands _ rfl⟩
  | placed s _ _ _ _ _ =>
    refine ⟨s, rfl, fun f hf => ?_⟩
    have := hstands f hf
    simp only [Entry.verdict] at hf
    split at hf
    · cases hf
      exact this
    · cases hf

end Pass

namespace Assembly

variable {rule : LabelRule} {source : Text} {a : Assembly}

/-- The first pass over a source. -/
def firstPass (rule : LabelRule) (source : Text) : Pass :=
  Pass.ofEntries rule (Entry.ofLines (Line.ofSource source))

/-- **Only the first pass gives warnings**, and what it leaves is what the assembly keeps. -/
theorem warnings_skip (h : assemble ⟨rule, .skip⟩ source = .ok a) :
    a.warnings = (firstPass rule source).warnings ∧
      a.entries source = (firstPass rule source).survivors := by
  have hsurvivors : (firstPass rule source).survivors =
      Entry.retained (firstPass rule source).warnings (Line.ofSource source) := by
    unfold firstPass
    rw [Entry.ofLines_eq_retained, Pass.survivors_eq_retained (Line.pairwise_ofSource source),
      List.nil_append]
  have hwarnings : a.warnings = (firstPass rule source).warnings := by
    cases h
    rw [recover]
    split
    · rename_i hfaultless
      unfold Pass.warnings firstPass
      rw [List.isEmpty_iff.mp hfaultless]
      rfl
    · rw [recover, if_pos (by rw [Pass.failures_survivors]; rfl)]
      rfl
  refine ⟨hwarnings, ?_⟩
  unfold entries
  rw [hwarnings]
  exact hsurvivors.symm

/-- What becomes of a line is what the verdict of the first pass says. -/
theorem exists_verdict (rule : LabelRule) {line : Line} (hline : line ∈ Line.ofSource source) :
    ∃ index verdict, (⟨index, line, .whole⟩, verdict) ∈ (firstPass rule source).verdicts := by
  obtain ⟨index, hindex⟩ := List.mem_iff_getElem?.mp hline
  have hmem : (⟨index, line, .whole⟩ : Entry) ∈ Entry.ofLines (Line.ofSource source) :=
    List.mem_map.mpr ⟨(line, index), List.mk_mem_zipIdx_iff_getElem?.mpr hindex, rfl⟩
  rw [← Pass.map_fst_verdicts rule (Entry.ofLines (Line.ofSource source))] at hmem
  obtain ⟨⟨e, verdict⟩, hmem, rfl⟩ := List.mem_map.mp hmem
  exact ⟨index, verdict, hmem⟩

theorem pairwise_ofLines (source : Text) : (Entry.ofLines (Line.ofSource source)).Pairwise
    fun e e' => e.line.number < e'.line.number := by
  rw [Entry.ofLines_eq_retained]
  exact Pass.pairwise_retained (Line.pairwise_ofSource source)

/-- The lines of a source have different numbers. -/
theorem eq_of_number_eq {line line' : Line} (hline : line ∈ Line.ofSource source)
    (hline' : line' ∈ Line.ofSource source) (h : line.number = line'.number) : line = line' := by
  have hnodup : ((Line.ofSource source).map Line.number).Nodup :=
    List.pairwise_map.mpr ((Line.pairwise_ofSource source).imp Nat.ne_of_lt)
  exact List.inj_on_of_nodup_map hnodup hline hline' h

/-- The warnings about a line. -/
def warningsAbout (a : Assembly) (line : Line) : List Warning :=
  a.warnings.filter fun w => w.line = line.number

/-- **What an assembly owes a line**, by the warnings about it: all of it, its label, or nothing. -/
def AccountsFor (rule : LabelRule) (a : Assembly) (line : Line) : Prop :=
  match a.warningsAbout line with
  | [] => ∃ s, line = .ok s ∧
    (∀ name ∈ s.label, ∃ symbol ∈ a.symbols.toList, symbol.name = name ∧ symbol.line = s.line) ∧
    (s.mnemonic.isSome = true → ∃ i ∈ a.instructions, i.line = s.line ∧
      s.instruction rule a.symbols i.address = .ok i)
  | [.instructionSkipped d] =>
    (Warning.instructionSkipped d).message = "instruction skipped, label kept: " ++ d.message ∧
    (∃ s name, line = .ok s ∧ s.label = some name ∧
      ∃ symbol ∈ a.symbols.toList, symbol.name = name ∧ symbol.line = s.line) ∧
    ∀ i ∈ a.instructions, i.line ≠ line.number
  | [.lineSkipped d] =>
    (Warning.lineSkipped d).message = "line skipped: " ++ d.message ∧
    (∀ symbol ∈ a.symbols.toList, symbol.line ≠ line.number) ∧
    ∀ i ∈ a.instructions, i.line ≠ line.number
  | _ => False

section

variable (h : assemble ⟨rule, .skip⟩ source = .ok a)
include h

theorem pairwise_warnings_skip : a.warnings.Pairwise fun w w' => w.line < w'.line := by
  rw [(warnings_skip h).1]
  exact Pass.pairwise_warnings (pairwise_ofLines source)

theorem warningsAbout_of_ok {line : Line} {index : Nat} {i : Option Instruction}
    (hverdict : (⟨index, line, .whole⟩, .ok i) ∈ (firstPass rule source).verdicts) :
    a.warningsAbout line = [] := by
  unfold warningsAbout
  rw [List.filter_eq_nil_iff]
  intro w hw hline
  rw [(warnings_skip h).1] at hw
  obtain ⟨f, hf, -⟩ := Pass.verdict_of_mem_warnings (pairwise_ofLines source) hverdict hw
    (of_decide_eq_true hline)
  cases hf

theorem warningsAbout_of_error {line : Line} {index : Nat} {f : Failure}
    (hverdict : (⟨index, line, .whole⟩, .error f) ∈ (firstPass rule source).verdicts) :
    a.warningsAbout line = [Entry.warning ⟨index, line, .whole⟩ f] := by
  have hmem := Pass.mem_warnings.mpr ⟨_, f, hverdict, rfl⟩
  rw [← (warnings_skip h).1] at hmem
  have hline := Pass.line_warning hverdict
  unfold warningsAbout
  rw [← hline]
  exact filter_eq_singleton (pairwise_warnings_skip h) hmem

/-- The label of a line that is not dropped is defined. -/
theorem exists_symbol_of_not_dropped {line : Line} (hline : line ∈ Line.ofSource source)
    (hkept : ∀ w ∈ a.warningsAbout line, w.drops = false) {name : Text} {number : Nat}
    (hlabel : line.label? = some (name, number)) :
    ∃ symbol ∈ a.symbols.toList, symbol.name = name ∧ symbol.line = number := by
  have hmem : (name, number) ∈ a.labels source := by
    refine List.mem_filterMap.mpr ⟨line, hline, ?_⟩
    rw [if_neg, hlabel]
    simp only [List.any_eq_true, Bool.and_eq_true, decide_eq_true_eq, not_exists, not_and]
    intro w hw hnumber
    have := hkept w (List.mem_filter.mpr ⟨hw, decide_eq_true hnumber⟩)
    simp [this]
  rw [← map_symbols_eq_labels h] at hmem
  obtain ⟨symbol, hsymbol, hpair⟩ := List.mem_map.mp hmem
  cases hpair
  exact ⟨symbol, hsymbol, rfl, rfl⟩

/-- No label comes from a line that is dropped. -/
theorem line_ne_of_dropped {line : Line} (hline : line ∈ Line.ofSource source) {w : Warning}
    (hw : w ∈ a.warningsAbout line) (hdrops : w.drops = true) {symbol : Symbol}
    (hsymbol : symbol ∈ a.symbols.toList) : symbol.line ≠ line.number := by
  intro hnumber
  have hmem : (symbol.name, symbol.line) ∈ a.labels source := by
    rw [← map_symbols_eq_labels h]
    exact List.mem_map_of_mem hsymbol
  obtain ⟨line', hline', hlabel⟩ := List.mem_filterMap.mp hmem
  obtain ⟨hkept, hlabel⟩ := Option.ite_none_left_eq_some.mp hlabel
  have hsame : line'.number = line.number := by
    rw [← hnumber]
    cases line' with
    | error d => cases hlabel
    | ok s =>
      obtain ⟨name, -, hpair⟩ := Option.map_eq_some_iff.mp hlabel
      exact (Prod.mk.inj hpair).2
  rw [eq_of_number_eq hline' hline hsame] at hkept
  obtain ⟨hw, hwline⟩ := List.mem_filter.mp hw
  exact hkept (List.any_eq_true.mpr ⟨w, hw, by simpa [hdrops] using hwline⟩)

/-- The instruction of a line without a warning is in the assembly. -/
theorem exists_instruction_of_silent {line : Line} (hline : line ∈ Line.ofSource source)
    (hsilent : a.warningsAbout line = []) {s : Statement} (hs : line.statement? = some s) :
    ∃ i ∈ a.instructions, i.line = s.line ∧ s.instruction rule a.symbols i.address = .ok i := by
  have hmem : s ∈ a.statements source := by
    refine List.mem_filterMap.mpr ⟨line, hline, ?_⟩
    rw [if_neg, hs]
    rw [List.any_eq_true]
    rintro ⟨w, hw, hnumber⟩
    exact List.filter_eq_nil_iff.mp hsilent w hw hnumber
  obtain ⟨i, hi, hreads⟩ := exists_mem_of_forall₂ (forall₂_statements h) hmem
  exact ⟨i, hi, (Statement.instruction_eq_ok_iff.mp hreads).2.2, hreads⟩

/-- No instruction comes from a line with a warning. -/
theorem line_ne_of_warned {line : Line} (hline : line ∈ Line.ofSource source) {w : Warning}
    (hw : w ∈ a.warningsAbout line) {i : Instruction} (hi : i ∈ a.instructions) :
    i.line ≠ line.number := by
  intro hnumber
  have hmem : i.line ∈ (a.statements source).map Statement.line := by
    rw [← map_line_instructions h]
    exact List.mem_map_of_mem hi
  obtain ⟨s, hs, hsline⟩ := List.mem_map.mp hmem
  obtain ⟨line', hline', hs⟩ := List.mem_filterMap.mp hs
  obtain ⟨hsilent, hs⟩ := Option.ite_none_left_eq_some.mp hs
  have hsame : line'.number = line.number := by
    rw [← Line.line_of_statement? hs, hsline, hnumber]
  rw [eq_of_number_eq hline' hline hsame] at hsilent
  obtain ⟨hw, hwline⟩ := List.mem_filter.mp hw
  exact hsilent (List.any_eq_true.mpr ⟨w, hw, hwline⟩)

/-- **Every line is accounted for.** -/
theorem accountsFor {line : Line} (hline : line ∈ Line.ofSource source) :
    AccountsFor rule a line := by
  obtain ⟨index, verdict, hverdict⟩ := exists_verdict rule hline
  unfold AccountsFor
  cases verdict with
  | ok i =>
    have hnone := warningsAbout_of_ok h hverdict
    rw [hnone]
    obtain ⟨s, rfl, -⟩ := Pass.statement_of_mem_verdicts hverdict nofun
    refine ⟨s, rfl, fun name hname => ?_, fun hmnemonic => ?_⟩
    · exact exists_symbol_of_not_dropped h hline (by simp [hnone])
        (by rw [Line.label?, Option.mem_def.mp hname]; rfl)
    · exact exists_instruction_of_silent h hline hnone (by simp [Line.statement?, hmnemonic])
  | error f =>
    have hsome := warningsAbout_of_error h hverdict
    have hmem : Entry.warning ⟨index, line, .whole⟩ f ∈ a.warningsAbout line := by
      rw [hsome]
      exact List.mem_singleton_self _
    unfold Entry.warning at hsome hmem
    cases hsalvage : Entry.salvage ⟨index, line, .whole⟩ f with
    | none =>
      rw [hsalvage] at hsome hmem
      rw [hsome]
      exact ⟨Warning.message_lineSkipped _, fun symbol => line_ne_of_dropped h hline hmem rfl,
        fun i => line_ne_of_warned h hline hmem⟩
    | some e =>
      rw [hsalvage] at hsome hmem
      rw [hsome]
      obtain ⟨hstands, -⟩ := Bool.and_eq_true_iff.mp (Option.ite_none_right_eq_some.mp hsalvage).1
      obtain ⟨s, rfl, hlabel⟩ := Pass.statement_of_mem_verdicts hverdict fun _ hf => by
        cases hf
        exact hstands
      obtain ⟨name, hname⟩ := Option.isSome_iff_exists.mp (hlabel f rfl)
      refine ⟨Warning.message_instructionSkipped _, ⟨s, name, rfl, hname, ?_⟩,
        fun i => line_ne_of_warned h hline hmem⟩
      exact exists_symbol_of_not_dropped h hline (by simp [hsome, Warning.drops])
        (by rw [Line.label?, hname]; rfl)

end

/-- **What it is to finish and to account for every line.** -/
structure Finishes (rule : LabelRule) (source : Text) (a : Assembly) : Prop where
  assembles : assemble ⟨rule, .skip⟩ source = .ok a
  /-- The passes are one more than the lines at most. -/
  passes : ∃ passes ≤ (Line.ofSource source).length + 1,
    Recovers rule (Entry.ofLines (Line.ofSource source)) [] passes a
  /-- No line that is left after the first pass fails again. -/
  settled : (Pass.ofEntries rule (firstPass rule source).survivors).failures = []
  /-- No line has two warnings. -/
  nodup_warnings : (a.warnings.map Warning.line).Nodup
  /-- Every warning is about a line of the source. -/
  exists_line : ∀ w ∈ a.warnings, ∃ line ∈ Line.ofSource source, w.line = line.number
  accounts : ∀ line ∈ Line.ofSource source, AccountsFor rule a line

/-- **Skipping always finishes and accounts for every line.** -/
theorem exists_finishes (rule : LabelRule) (source : Text) : ∃ a, Finishes rule source a := by
  obtain ⟨passes, -, hpasses, hrecovers⟩ :=
    exists_recovers rule (Entry.ofLines (Line.ofSource source)) []
  have h := assemble_skip rule source
  refine ⟨_, h, ⟨passes, ?_, hrecovers⟩, Pass.failures_survivors .., ?_, ?_, fun _ => accountsFor h⟩
  · unfold Entry.ofLines at hpasses
    rwa [List.length_map, List.length_zipIdx] at hpasses
  · exact List.pairwise_map.mpr ((pairwise_warnings_skip h).imp Nat.ne_of_lt)
  · intro w hw
    rw [(warnings_skip h).1] at hw
    obtain ⟨e, f, hmem, rfl⟩ := Pass.mem_warnings.mp hw
    rw [Pass.line_warning hmem]
    refine ⟨e.line, ?_, rfl⟩
    have he := List.mem_map_of_mem (f := Prod.fst) hmem
    rw [firstPass, Pass.map_fst_verdicts, Entry.ofLines_eq_retained] at he
    exact List.mem_of_getElem? (Pass.mem_retained.mp he).1

end Assembly

end Micro65
