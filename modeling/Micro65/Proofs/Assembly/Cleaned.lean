import Micro65.Proofs.Assembly.Accounts
import Micro65.Proofs.Statement.Line
import Micro65.Proofs.Text.Lines
/-!
# The source without what was skipped

`Text.cleaned` takes out of a source what its warnings are about: a line that was skipped becomes an
empty line, and of a line whose instruction was skipped the label and its colon remain. Labels that
count bytes do not notice the difference (`Pass.ofEntries_of_similar`): what skipping makes of a
source is what the cleaned source gives without any skipping (`Assembly.skip_eq_halt_cleaned`).
-/

namespace Micro65

open Layout (Defines Puts Runs define hasInstruction)

/-! ## Lines that give the same -/

/-- Two lines of which the same takes part, wherever they stand: the same line, or what is left of a
line and a line that is its label only. -/
inductive Entry.Similar : Entry → Entry → Prop where
  | same {index index' : Nat} {line : Line} {retention : Retention} :
      Similar ⟨index, line, retention⟩ ⟨index', line, retention⟩
  | label {index index' : Nat} {s s' : Statement} {retention : Retention}
      (line_eq : s'.line = s.line) (label_eq : s'.label = s.label) (bare : s'.mnemonic = none) :
      Similar ⟨index, .ok s, .labelOnly⟩ ⟨index', .ok s', retention⟩

/-- What becomes of two similar lines: the same, or a fault of the same line. -/
inductive Placement.Agrees : Entry × Placement → Entry × Placement → Prop where
  | same {e e' : Entry} {p : Placement} (line_eq : e'.line = e.line) : Agrees (e, p) (e', p)
  | bare {e e' : Entry} : Agrees (e, .bare) (e', .bare)
  | failed {e e' : Entry} {f f' : Failure} (line_eq : f'.diagnostic.line = f.diagnostic.line) :
      Agrees (e, .failed f) (e', .failed f')

namespace Layout

variable {address index index' stop : Nat} {s s' : Statement} {t t' : SymbolTable} {e e' : Entry}
  {p : Placement} {entries entries' : List Entry} {placements : List Placement}

/-- A label that counts bytes depends on its name and on the number of its line. -/
theorem Defines.congr (h : Defines .byteOffset address index s t t') (hline : s'.line = s.line)
    (hlabel : s'.label = s.label) : Defines .byteOffset address index' s' t t' := by
  cases h with
  | unlabelled hnone => exact .unlabelled (hlabel.trans hnone)
  | labelled name hname hlt hnew =>
    rw [← hline]
    exact .labelled name (hlabel.trans hname) hlt hnew

theorem exists_define_eq_error {f : Failure}
    (h : define .byteOffset address index s t = .error f) (hline : s'.line = s.line)
    (hlabel : s'.label = s.label) :
    ∃ f', define .byteOffset address index' s' t = .error f' ∧
      f'.diagnostic.line = f.diagnostic.line := by
  cases hdefine : define .byteOffset address index' s' t with
  | error f' => exact ⟨f', rfl, by rw [line_of_define hdefine, line_of_define h, hline]⟩
  | ok t' =>
    have hdefines : Defines .byteOffset address index s t t' :=
      (define_eq_ok_iff.mp hdefine).congr hline.symm hlabel.symm
    rw [define_eq_ok_iff.mpr hdefines] at h
    cases h

theorem Puts.exists_of_similar (h : Puts .byteOffset address t e p stop t')
    (hsimilar : Entry.Similar e e') :
    ∃ p', Puts .byteOffset address t e' p' stop t' ∧ Placement.Agrees (e, p) (e', p') := by
  cases hsimilar with
  | @same index index' line retention =>
    obtain ⟨p', hp', hputs⟩ := puts_put .byteOffset ⟨address, t, #[]⟩ ⟨index', line, retention⟩
    have hput : put .byteOffset ⟨address, t, #[]⟩ ⟨index', line, retention⟩ = ⟨stop, t', #[p]⟩ := by
      cases line <;> exact put_of_puts h #[]
    rw [hput] at hp' hputs
    obtain rfl : p = p' := by simpa using hp'
    exact ⟨p, hputs, .same rfl⟩
  | label hline hlabel hbare =>
    cases h with
    | badLabel s f hfails =>
      obtain ⟨f', hfails', hf⟩ := exists_define_eq_error hfails hline hlabel
      exact ⟨_, .badLabel _ f' hfails', .failed hf⟩
    | bare s _ hdefines _ =>
      exact ⟨_, .bare _ _ (hdefines.congr hline hlabel) (by simp [hasInstruction, hbare]), .bare⟩
    | startPastEnd s _ _ hhas _ => simp [hasInstruction] at hhas
    | stopPastEnd s _ _ hhas _ _ => simp [hasInstruction] at hhas
    | placed s _ _ hhas _ _ => simp [hasInstruction] at hhas

theorem Runs.exists_of_similar (h : Runs .byteOffset address t entries placements stop t')
    (hsimilar : List.Forall₂ Entry.Similar entries entries') :
    ∃ placements', Runs .byteOffset address t entries' placements' stop t' ∧
      List.Forall₂ Placement.Agrees (entries.zip placements) (entries'.zip placements') := by
  induction h generalizing entries' with
  | nil =>
    cases hsimilar
    exact ⟨[], .nil, .nil⟩
  | cons hputs _ ih =>
    cases hsimilar with
    | cons he hentries =>
      obtain ⟨p', hputs', hagrees⟩ := hputs.exists_of_similar he
      obtain ⟨placements', hruns', hzip⟩ := ih hentries
      exact ⟨p' :: placements', .cons hputs' hruns', .cons hagrees hzip⟩

end Layout

theorem filterMap_eq_of_forall₂ {α β γ : Type} {r : α → β → Prop} {xs : List α} {ys : List β}
    (h : List.Forall₂ r xs ys) {f : α → Option γ} {g : β → Option γ}
    (heq : ∀ x y, r x y → f x = g y) : xs.filterMap f = ys.filterMap g := by
  induction h with
  | nil => rfl
  | cons hr _ ih => rw [List.filterMap_cons, List.filterMap_cons, heq _ _ hr, ih]

namespace Pass

/-- The numbers of the lines at fault. -/
def faultLines (p : Pass) : List Nat :=
  p.failures.map fun x => x.2.diagnostic.line

theorem faultLines_eq_nil_iff {p : Pass} : p.faultLines = [] ↔ p.failures = [] := by
  simp [faultLines]

/-- The lines have different numbers, so a line is at fault exactly if its own verdict is a
fault. -/
theorem mem_faultLines_iff {rule : LabelRule} {entries : List Entry} {e : Entry} {verdict : Verdict}
    (hlines : entries.Pairwise fun e e' => e.line.number < e'.line.number)
    (h : (e, verdict) ∈ (ofEntries rule entries).verdicts) :
    e.line.number ∈ (ofEntries rule entries).faultLines ↔ ∃ f, verdict = .error f := by
  constructor
  · intro hmem
    obtain ⟨⟨e', f'⟩, hfailure, hline⟩ := List.mem_map.mp hmem
    have hverdict := mem_failures.mp hfailure
    have hw := mem_warnings.mpr ⟨e', f', hverdict, rfl⟩
    have hnumber : (e'.warning f').line = e.line.number := by
      rw [line_warning hverdict, ← line_of_mem_verdicts hverdict]
      exact hline
    obtain ⟨f, hfault, -⟩ := verdict_of_mem_warnings hlines h hw hnumber
    exact ⟨f, hfault⟩
  · rintro ⟨f, rfl⟩
    rw [← line_of_mem_verdicts h]
    exact List.mem_map.mpr ⟨(e, f), mem_failures.mpr h, rfl⟩

/-- **Similar lines give the same**: the same labels, the same instructions, and faults of the same
lines. -/
theorem ofEntries_of_similar {entries entries' : List Entry}
    (h : List.Forall₂ Entry.Similar entries entries') :
    (ofEntries .byteOffset entries').symbols = (ofEntries .byteOffset entries).symbols ∧
      (ofEntries .byteOffset entries').instructions = (ofEntries .byteOffset entries).instructions ∧
      (ofEntries .byteOffset entries').faultLines = (ofEntries .byteOffset entries).faultLines := by
  have hruns := Layout.runs_ofEntries .byteOffset entries
  obtain ⟨placements', hruns', hagrees⟩ := hruns.exists_of_similar h
  rw [ofEntries_of_runs hruns, ofEntries_of_runs hruns']
  generalize (Layout.ofEntries .byteOffset entries).placements.toList = placements at hagrees
  generalize (Layout.ofEntries .byteOffset entries).symbols = table
  refine ⟨rfl, ?_, ?_⟩
  · unfold judge instructions
    simp only [List.filterMap_map]
    refine (filterMap_eq_of_forall₂ hagrees ?_).symm
    intro x x' hx
    cases hx with
    | same hline => simp [Entry.verdict, hline]
    | bare => simp [Entry.verdict]
    | failed hf => simp [Entry.verdict]
  · unfold judge faultLines failures
    simp only [List.map_filterMap, List.filterMap_map]
    refine (filterMap_eq_of_forall₂ hagrees ?_).symm
    intro x x' hx
    cases hx with
    | @same e e' p hline =>
      have hverdict : e'.verdict .byteOffset table p = e.verdict .byteOffset table p := by
        simp [Entry.verdict, hline]
      simp only [Function.comp_apply, hverdict]
      cases e.verdict .byteOffset table p <;> rfl
    | bare => rfl
    | failed hf => simp [Entry.verdict, hf]

end Pass

/-! ## Cleaning a source -/

namespace Line

/-- The text that is left of a line after these warnings: all of it, its label with the colon, or
nothing. -/
def cleaned (warnings : List Warning) (number : Nat) (raw : Text) : Text :=
  match ofText? number raw with
  | none => raw
  | some line =>
    match line.retention? warnings with
    | none => []
    | some .labelOnly => (line.label?.map fun (name, _) => name ++ [':']).getD []
    | some .whole => raw

end Line

/-- The source without what these warnings are about. -/
def Text.cleaned (warnings : List Warning) (source : Text) : Text :=
  mapLines (Line.cleaned warnings) source

namespace Line

variable {warnings : List Warning}

/-- What is left of a line, beside what is read from the text that is left of it. -/
inductive Cleans (warnings : List Warning) : Option Line → Option Line → Prop where
  | blank : Cleans warnings none none
  | dropped {line : Line} (retention_eq : line.retention? warnings = none) :
      Cleans warnings (some line) none
  | label {s s' : Statement} (retention_eq : retention? warnings (.ok s) = some .labelOnly)
      (line_eq : s'.line = s.line) (label_eq : s'.label = s.label) (bare : s'.mnemonic = none) :
      Cleans warnings (some (.ok s)) (some (.ok s'))
  | whole {line : Line} (retention_eq : line.retention? warnings = some .whole) :
      Cleans warnings (some line) (some line)

theorem exists_of_label? {line : Line} {x : Text × Nat} (h : line.label? = some x) :
    ∃ s, line = .ok s ∧ s.label = some x.1 := by
  cases line with
  | error d => cases h
  | ok s =>
    obtain ⟨name, hname, rfl⟩ := Option.map_eq_some_iff.mp h
    exact ⟨s, rfl, hname⟩

theorem ofText?_nil (number : Nat) : ofText? number [] = none := rfl

/-- The text that is left of a line reads as what is left of the line. -/
theorem cleans_cleaned {number : Nat} {raw : Text}
    (h : ∀ line, ofText? number raw = some line → line.retention? warnings = some .labelOnly →
      line.label?.isSome = true) :
    Cleans warnings (ofText? number raw) (ofText? number (cleaned warnings number raw)) := by
  unfold cleaned
  cases hline : ofText? number raw with
  | none =>
    simp only [hline]
    exact .blank
  | some line =>
    cases hretention : line.retention? warnings with
    | none =>
      simp only [hretention, ofText?_nil]
      exact .dropped hretention
    | some retention =>
      cases retention with
      | whole =>
        simp only [hretention, hline]
        exact .whole hretention
      | labelOnly =>
        obtain ⟨x, hx⟩ := Option.isSome_iff_exists.mp (h line hline hretention)
        obtain ⟨s, rfl, hlabel⟩ := exists_of_label? hx
        obtain ⟨s', hs', hnumber, hlabel', hbare⟩ :=
          ofText?_label (check_of_ofText? hline hlabel) number
        simp only [hretention, hx, Option.map_some, Option.getD_some, hs']
        exact .label hretention (hnumber.trans (number_of_ofText? hline).symm)
          (hlabel'.trans hlabel.symm) hbare

/-- A cleaned line is a line in the place of the old one. -/
theorem keepsLines_cleaned (warnings : List Warning) : Text.KeepsLines (cleaned warnings) := by
  have hcases : ∀ number raw, cleaned warnings number raw = raw ∨ cleaned warnings number raw = [] ∨
      ∃ name, Label.check name = .ok () ∧ cleaned warnings number raw = name ++ [':'] := by
    intro number raw
    unfold cleaned
    split
    · exact .inl rfl
    · rename_i line hline
      split
      · exact .inr (.inl rfl)
      · cases hlabel : line.label? with
        | none => exact .inr (.inl rfl)
        | some x =>
          obtain ⟨s, rfl, hs⟩ := exists_of_label? hlabel
          exact .inr (.inr ⟨x.1, check_of_ofText? hline hs, rfl⟩)
      · exact .inl rfl
  constructor
  · intro number raw hraw
    rcases hcases number raw with h | h | ⟨name, hname, h⟩
    · rwa [h]
    · simp [h]
    · rw [h]
      intro hmem
      rcases List.mem_append.mp hmem with hmem | hmem
      · exact Label.not_mem_of_check hname (by decide) hmem
      · simp at hmem
  · intro number raw
    rcases hcases number raw with h | h | ⟨name, -, h⟩
    · exact .inl h
    · simp [h]
    · simp [h]

theorem ofSource_cleaned (warnings : List Warning) (source : Text) :
    ofSource (Text.cleaned warnings source) = ((Text.lines source).zipIdx 1).filterMap fun x =>
      ofText? x.2 (cleaned warnings x.2 x.1) :=
  Text.filterMap_mapLines (keepsLines_cleaned warnings) ofText?_nil source

end Line

namespace Entry

/-- What is left of lines is similar to what is read from the text that is left of them. -/
theorem forall₂_similar {α : Type} {warnings : List Warning} {f g : α → Option Line} {xs : List α}
    (h : ∀ x ∈ xs, Line.Cleans warnings (f x) (g x)) (start start' : Nat) :
    List.Forall₂ Similar
      (((xs.filterMap f).zipIdx start).filterMap fun x =>
        (x.1.retention? warnings).map fun retention => ⟨x.2, x.1, retention⟩)
      (((xs.filterMap g).zipIdx start').map fun x => ⟨x.2, x.1, .whole⟩) := by
  induction xs generalizing start start' with
  | nil => exact .nil
  | cons x xs ih =>
    have hx := h x List.mem_cons_self
    have htail := ih fun y hy => h y (List.mem_cons_of_mem _ hy)
    generalize hf : f x = fx at hx
    generalize hg : g x = gx at hx
    cases hx with
    | blank => simpa [hf, hg] using htail start start'
    | dropped hretention => simpa [hf, hg, hretention] using htail (start + 1) start'
    | label hretention hline hlabel hbare =>
      simp only [List.filterMap_cons, hf, hg, List.zipIdx_cons, hretention, Option.map_some,
        List.map_cons]
      exact .cons (.label hline hlabel hbare) (htail (start + 1) (start' + 1))
    | whole hretention =>
      simp only [List.filterMap_cons, hf, hg, List.zipIdx_cons, hretention, Option.map_some,
        List.map_cons]
      exact .cons .same (htail (start + 1) (start' + 1))

/-- **What warnings leave of a source is similar to the cleaned source.** -/
theorem forall₂_similar_cleaned {warnings : List Warning} {source : Text}
    (h : ∀ line ∈ Line.ofSource source, line.retention? warnings = some .labelOnly →
      line.label?.isSome = true) :
    List.Forall₂ Similar (retained warnings (Line.ofSource source))
      (ofLines (Line.ofSource (source.cleaned warnings))) := by
  rw [Line.ofSource_cleaned]
  refine forall₂_similar (fun x hx => Line.cleans_cleaned fun line hline => ?_) 0 0
  exact h line (List.mem_filterMap.mpr ⟨x, hx, hline⟩)

end Entry

namespace Assembly

variable {rule : LabelRule} {source : Text} {a : Assembly}

/-- A line whose instruction is skipped has a label. -/
theorem isSome_label?_of_skip (h : assemble ⟨rule, .skip⟩ source = .ok a) {warnings : List Warning}
    (hsub : warnings ⊆ a.warnings) {line : Line} (hline : line ∈ Line.ofSource source)
    (hretention : line.retention? warnings = some .labelOnly) : line.label?.isSome = true := by
  obtain ⟨w, hw, hnumber, hkept⟩ := Line.exists_of_retention?_eq_labelOnly hretention
  have haccounts := accountsFor h hline
  have hmem : w ∈ a.warningsAbout line := List.mem_filter.mpr ⟨hsub hw, decide_eq_true hnumber⟩
  unfold AccountsFor at haccounts
  split at haccounts
  · rename_i hnone
    rw [hnone] at hmem
    cases hmem
  · obtain ⟨-, ⟨s, name, rfl, hlabel, -⟩, -⟩ := haccounts
    simp [Line.label?, hlabel]
  · rename_i d hdropped
    rw [hdropped, List.mem_singleton] at hmem
    subst hmem
    cases hkept
  · exact haccounts.elim

/-- **Skipping is halting on the cleaned source.** -/
theorem skip_eq_halt_cleaned (source : Text) :
    ∃ a, assemble ⟨.byteOffset, .skip⟩ source = .ok a ∧
      assemble ⟨.byteOffset, .halt⟩ (source.cleaned a.warnings) =
        .ok { a with warnings := [] } := by
  have h := assemble_skip .byteOffset source
  generalize recover .byteOffset (Entry.ofLines (Line.ofSource source)) [] = a at h
  obtain ⟨hfaultless, ha⟩ := of_assemble h
  refine ⟨a, h, ?_⟩
  obtain ⟨hsymbols, hinstructions, hfaults⟩ := Pass.ofEntries_of_similar
    (Entry.forall₂_similar_cleaned fun _ => isSome_label?_of_skip h (List.Subset.refl _))
  have hnone := Pass.faultLines_eq_nil_iff.mp
    (hfaults.trans (Pass.faultLines_eq_nil_iff.mpr hfaultless))
  refine assemble_halt_eq_ok_iff.mpr ⟨hnone, ?_⟩
  rw [ha]
  simp only [Pass.assembly, hsymbols, hinstructions]
  rfl

end Assembly

end Micro65
