import Micro65.Proofs.Assembly.Accounts
/-!
# The first faults under either rule

Both rules for faults make the same first pass over a source. Where it finds none, they give the
same assembly. Where it finds some, the one rule gives the faults themselves and the other a warning
for each of them (`Assembly.faults_eq_map_warnings`); the warnings are in the order of the lines and
no later pass adds to them, so what is known of them is known of the faults
(`Assembly.sameFirstFaults`).
-/

namespace Micro65

namespace Warning

/-- What is said of a line ends with what is said of its fault. -/
theorem message_eq (w : Warning) :
    w.message = "instruction skipped, label kept: " ++ w.diagnostic.message ∨
      w.message = "line skipped: " ++ w.diagnostic.message := by
  cases w with
  | instructionSkipped d => exact .inl (message_instructionSkipped d)
  | lineSkipped d => exact .inr (message_lineSkipped d)

end Warning

namespace Pass

/-- The warnings of a pass are about its faults, one by one. -/
theorem map_diagnostic_warnings (p : Pass) :
    p.warnings.map Warning.diagnostic = p.failures.map fun x => x.2.diagnostic := by
  unfold warnings
  rw [List.map_map]
  exact List.map_congr_left fun x _ => diagnostic_warning x.1 x.2

/-- The verdict on a line that cannot be read is what is wrong with the line. -/
theorem verdict_of_unreadable {rule : LabelRule} {entries : List Entry} {e : Entry}
    {verdict : Verdict} {d : Diagnostic} (h : (e, verdict) ∈ (ofEntries rule entries).verdicts)
    (hline : e.line = .error d) : verdict = .error ⟨d, false⟩ := by
  obtain ⟨_, _, _, _, _, hputs, rfl⟩ := exists_puts_of_mem_verdicts h
  cases hputs with
  | badLine d' =>
    cases hline
    rfl
  | badLabel | bare | startPastEnd | stopPastEnd | placed => cases hline

end Pass

namespace Assembly

variable {rule : LabelRule} {source : Text} {a : Assembly} {faults : List Diagnostic}

/-- Nothing is left out of what assembles where faults end the assembly. -/
theorem skip_of_halt (h : assemble ⟨rule, .halt⟩ source = .ok a) :
    assemble ⟨rule, .skip⟩ source = .ok a ∧ a.warnings = [] := by
  obtain ⟨hfaultless, rfl⟩ := assemble_halt_eq_ok_iff.mp h
  exact ⟨assemble_of_failures_eq_nil hfaultless, rfl⟩

/-- The faults that end an assembly are those of the first pass. -/
theorem faults_of_halt (h : assemble ⟨rule, .halt⟩ source = .error faults) :
    faults ≠ [] ∧ faults = (firstPass rule source).failures.map fun x => x.2.diagnostic := by
  obtain ⟨hfaulty, rfl⟩ := assemble_halt_eq_error_iff.mp h
  exact ⟨mt List.map_eq_nil_iff.mp hfaulty, rfl⟩

/-- **The faults under the one rule are what the warnings under the other are about**, in the same
order. -/
theorem faults_eq_map_warnings (hhalt : assemble ⟨rule, .halt⟩ source = .error faults)
    (hskip : assemble ⟨rule, .skip⟩ source = .ok a) :
    faults = a.warnings.map Warning.diagnostic := by
  rw [(faults_of_halt hhalt).2, (warnings_skip hskip).1, Pass.map_diagnostic_warnings]

/-- A verdict of the first pass is on a line of the source. -/
theorem mem_ofSource_of_mem_verdicts {e : Entry} {verdict : Verdict}
    (h : (e, verdict) ∈ (firstPass rule source).verdicts) : e.line ∈ Line.ofSource source := by
  have he := List.mem_map_of_mem (f := Prod.fst) h
  rw [firstPass, Pass.map_fst_verdicts, Entry.ofLines_eq_retained] at he
  exact List.mem_of_getElem? (Pass.mem_retained.mp he).1

/-- A fault that ends an assembly is the fault of a line. -/
theorem exists_line_of_mem_faults (h : assemble ⟨rule, .halt⟩ source = .error faults)
    {d : Diagnostic} (hd : d ∈ faults) : ∃ line ∈ Line.ofSource source, d.line = line.number := by
  rw [(faults_of_halt h).2] at hd
  obtain ⟨⟨e, f⟩, hfailure, rfl⟩ := List.mem_map.mp hd
  have hverdict := Pass.mem_failures.mp hfailure
  exact ⟨e.line, mem_ofSource_of_mem_verdicts hverdict, Pass.line_of_mem_verdicts hverdict⟩

/-- What is wrong with a line that cannot be read is among the faults. -/
theorem mem_faults_of_unreadable (h : assemble ⟨rule, .halt⟩ source = .error faults)
    {d : Diagnostic} (hline : .error d ∈ Line.ofSource source) : d ∈ faults := by
  obtain ⟨index, verdict, hverdict⟩ := exists_verdict rule hline
  obtain rfl := Pass.verdict_of_unreadable hverdict rfl
  rw [(faults_of_halt h).2]
  exact List.mem_map.mpr ⟨_, Pass.mem_failures.mpr hverdict, rfl⟩

/-- What the faults that end an assembly have to do with the lines of the source, and with the
warnings that are given where faults are skipped. -/
structure FirstFaults (rule : LabelRule) (source : Text) (faults : List Diagnostic) : Prop where
  ne_nil : faults ≠ []
  /-- The faults are in the order of the lines, with one for a line at most. -/
  pairwise_line : faults.Pairwise fun d d' => d.line < d'.line
  /-- Every fault is one of a line of the source. -/
  exists_line : ∀ d ∈ faults, ∃ line ∈ Line.ofSource source, d.line = line.number
  /-- No line that cannot be read is missing. -/
  mem_of_unreadable : ∀ d, .error d ∈ Line.ofSource source → d ∈ faults
  /-- Where faults are skipped, the first warnings are about the same lines and say the same of
  them. -/
  warned : ∃ a, assemble ⟨rule, .skip⟩ source = .ok a ∧
    List.Forall₂ (fun d w => w.line = d.line ∧
        (w.message = "instruction skipped, label kept: " ++ d.message ∨
          w.message = "line skipped: " ++ d.message))
      faults (a.warnings.take faults.length)

/-- **What it is for the two rules to see the same first faults.** -/
structure SameFirstFaults (rule : LabelRule) (source : Text) : Prop where
  of_ok : ∀ a, assemble ⟨rule, .halt⟩ source = .ok a →
    assemble ⟨rule, .skip⟩ source = .ok a ∧ a.warnings = []
  of_error : ∀ faults, assemble ⟨rule, .halt⟩ source = .error faults →
    FirstFaults rule source faults

theorem firstFaults (h : assemble ⟨rule, .halt⟩ source = .error faults) :
    FirstFaults rule source faults := by
  have hskip := assemble_skip rule source
  have hfaults := faults_eq_map_warnings h hskip
  refine ⟨(faults_of_halt h).1, ?_, fun d => exists_line_of_mem_faults h,
    fun d => mem_faults_of_unreadable h, _, hskip, ?_⟩
  · rw [hfaults]
    exact List.pairwise_map.mpr (pairwise_warnings_skip hskip)
  · rw [hfaults, List.length_map, List.take_length, List.forall₂_map_left_iff]
    exact List.forall₂_same.mpr fun w _ => ⟨rfl, w.message_eq⟩

/-- **Both rules see the same first faults.** -/
theorem sameFirstFaults (rule : LabelRule) (source : Text) : SameFirstFaults rule source where
  of_ok _ h := skip_of_halt h
  of_error _ h := firstFaults h

end Assembly

end Micro65
