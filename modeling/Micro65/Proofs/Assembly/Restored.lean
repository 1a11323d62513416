import Micro65.Proofs.Assembly.Crowding
import Micro65.Proofs.Assembly.FirstFaults
/-!
# Putting a skipped line back

One line that was skipped is put back, as a whole, among what is left of the others
(`Assembly.retained_around`). The line then stands where the whole program has it, less the bytes
that the others took, and so does every label (`Assembly.map_find?_restored`). Whether it is at
fault is a matter of these values only (`Entry.exists_verdict_iff_fits`), so it is at fault again
exactly if it is not `Assembly.Crowded` (`Assembly.mem_faultLines_restored_iff`).

A line whose label or instruction is past the end of the machine may take more room when it is back
than it took before, but this moves nothing: no line behind it has a label or an instruction that
stays (`Pass.runs_pastEnd`).
-/

namespace Micro65

open Layout (Defines Puts Runs addressBound)

/-! ## What is left around a line -/

theorem Entry.retained_eq_filterMap (warnings : List Warning) (lines : List Line) :
    retained warnings lines = (ofLines lines).filterMap (cutBack? warnings) := by
  unfold retained ofLines
  rw [List.filterMap_map]
  rfl

/-- Warnings about other lines can be taken away. -/
theorem Line.retention?_filter {warnings : List Warning} {line : Line} {p : Warning → Bool}
    (h : ∀ w ∈ warnings, w.line = line.number → p w = true) :
    line.retention? (warnings.filter p) = line.retention? warnings := by
  have hany : ∀ q : Warning → Bool, ((warnings.filter p).any fun w => w.line = line.number && q w) =
      warnings.any fun w => w.line = line.number && q w := by
    intro q
    rw [List.any_filter, Bool.eq_iff_iff, List.any_eq_true, List.any_eq_true]
    constructor
    · rintro ⟨w, hw, hq⟩
      exact ⟨w, hw, (Bool.and_eq_true_iff.mp hq).2⟩
    · rintro ⟨w, hw, hq⟩
      refine ⟨w, hw, Bool.and_eq_true_iff.mpr ⟨h w hw ?_, hq⟩⟩
      exact of_decide_eq_true (Bool.and_eq_true_iff.mp hq).1
  have hdrops := hany Warning.drops
  have hall := hany fun _ => true
  simp only [Bool.and_true] at hall
  unfold retention?
  rw [hdrops, hall]

namespace Assembly

variable {rule : LabelRule} {source : Text} {before after : List Entry} {e : Entry}
  {upper lower : List Placement} {p : Placement}

theorem retention_of_mem_ofLines (he : e ∈ Entry.ofLines (Line.ofSource source)) :
    e.retention = .whole ∧ e.line.retention? [] = some e.retention := by
  rw [Entry.ofLines_eq_retained] at he
  have hretention := (Pass.mem_retained.mp he).2
  refine ⟨?_, hretention⟩
  rw [Line.retention?_eq_whole_iff.mpr (by simp)] at hretention
  exact (Option.some.inj hretention).symm

/-- Without the warnings about one line, what is left of another is what its verdict says. -/
theorem cutBack?_of_ne {number : Nat} {v : Entry × Verdict}
    (hv : v ∈ (firstPass rule source).verdicts) (hne : v.1.line.number ≠ number) :
    v.1.cutBack? ((firstPass rule source).warnings.filter fun w => w.line ≠ number) =
      v.1.afterVerdict v.2 := by
  have hv' : v.1 ∈ Entry.ofLines (Line.ofSource source) := by
    rw [← Pass.map_fst_verdicts rule (Entry.ofLines (Line.ofSource source))]
    exact List.mem_map_of_mem hv
  rw [Pass.afterVerdict_eq (pairwise_ofLines source) hv (retention_of_mem_ofLines hv').2,
    List.nil_append]
  unfold Entry.cutBack?
  rw [Line.retention?_filter]
  · rfl
  · intro w _ hw
    simpa [hw] using hne

/-- Without the warnings about it, a line is left as it is. -/
theorem cutBack?_self (he : e ∈ Entry.ofLines (Line.ofSource source)) (warnings : List Warning) :
    e.cutBack? (warnings.filter fun w => w.line ≠ e.line.number) = some e := by
  unfold Entry.cutBack?
  rw [Line.retention?_eq_whole_iff.mpr (by simp), Option.map_some,
    ← (retention_of_mem_ofLines he).1]

/-- What the first pass leaves of the lines before a line and of the lines behind it, with all
of this line between. -/
def around (rule : LabelRule) (source : Text) (before : List Entry) (upper : List Placement)
    (e : Entry) (after : List Entry) (lower : List Placement) : List Entry :=
  (Pass.judge rule (firstPass rule source).symbols before upper).survivors ++
    e :: (Pass.judge rule (firstPass rule source).symbols after lower).survivors

/-- **Without the warnings about one line**, all of this line stays between what the first pass
leaves of the lines before it and of the lines behind it. -/
theorem retained_around (hentries : Entry.ofLines (Line.ofSource source) = before ++ e :: after)
    (hplacements :
      (Layout.ofEntries rule (Entry.ofLines (Line.ofSource source))).placements.toList =
        upper ++ p :: lower) (hlength : upper.length = before.length) :
    Entry.retained ((firstPass rule source).warnings.filter fun w => w.line ≠ e.line.number)
        (Line.ofSource source) = around rule source before upper e after lower := by
  have hruns := Layout.runs_ofEntries rule (Entry.ofLines (Line.ofSource source))
  rw [hplacements] at hruns
  have hverdicts : (firstPass rule source).verdicts =
      (Pass.judge rule (firstPass rule source).symbols before upper).verdicts ++
        (e, e.verdict rule (firstPass rule source).symbols p) ::
          (Pass.judge rule (firstPass rule source).symbols after lower).verdicts := by
    rw [firstPass_eq_judge rfl hruns]
    unfold Pass.judge
    rw [hentries, List.zip_append hlength.symm, List.map_append, List.zip_cons_cons, List.map_cons]
  have hself := cutBack?_self (show e ∈ Entry.ofLines (Line.ofSource source) by simp [hentries])
    (firstPass rule source).warnings
  have hbefore : ∀ v ∈ (Pass.judge rule (firstPass rule source).symbols before upper).verdicts,
      v.1.cutBack? ((firstPass rule source).warnings.filter fun w => w.line ≠ e.line.number) =
        v.1.afterVerdict v.2 := by
    intro v hv
    refine cutBack?_of_ne (by rw [hverdicts]; exact List.mem_append_left _ hv) ?_
    obtain ⟨x, hx, rfl⟩ := List.mem_map.mp hv
    exact Nat.ne_of_lt ((number_lt_of_mem hentries).1 _ (List.of_mem_zip hx).1)
  have hafter : ∀ v ∈ (Pass.judge rule (firstPass rule source).symbols after lower).verdicts,
      v.1.cutBack? ((firstPass rule source).warnings.filter fun w => w.line ≠ e.line.number) =
        v.1.afterVerdict v.2 := by
    intro v hv
    refine cutBack?_of_ne (by rw [hverdicts]; exact List.mem_append_right _ (.tail _ hv)) ?_
    obtain ⟨x, hx, rfl⟩ := List.mem_map.mp hv
    exact Nat.ne_of_gt ((number_lt_of_mem hentries).2 _ (List.of_mem_zip hx).1)
  rw [Entry.retained_eq_filterMap,
    ← Pass.map_fst_verdicts rule (Entry.ofLines (Line.ofSource source)), List.filterMap_map]
  change (firstPass rule source).verdicts.filterMap (fun v =>
    v.1.cutBack? ((firstPass rule source).warnings.filter fun w => w.line ≠ e.line.number)) = _
  rw [hverdicts, List.filterMap_append, List.filterMap_cons_some (by exact hself),
    List.filterMap_congr hbefore, List.filterMap_congr hafter]
  rfl

end Assembly

/-! ## The line among what is left -/

namespace Assembly

variable {source : Text} {a : Assembly} {w : Warning} {before after : List Entry}
  {upper lower : List Placement} {x y stop x' y' index : Nat} {u v u' v' : SymbolTable}
  {s : Statement} {p p' : Placement} {f : Failure} {name : Text}

/-- The addresses at which lines stand when the line of a warning is back. -/
def Clear (source : Text) (a : Assembly) (w : Warning) (number x : Nat) : Prop :=
  x = clearAddress source a w number

section

variable (h : assemble ⟨.byteOffset, .skip⟩ source = .ok a)
  (hentries : Entry.ofLines (Line.ofSource source) = before ++ ⟨index, .ok s, .whole⟩ :: after)
  (hline : w.line = s.line) (hbefore : Runs .byteOffset 0 ∅ before upper x u)

include h hentries hline hbefore in
/-- What is left of the lines before the line ends at its clear address. -/
theorem exists_runs_before : ∃ pb u',
    Runs .byteOffset 0 ∅
        (Pass.judge .byteOffset (firstPass .byteOffset source).symbols before upper).survivors pb
        (clearAddress source a w s.line) u' ∧
      Front.Follows .byteOffset (Clear source a w) ⟨x, u⟩
        ⟨clearAddress source a w s.line, u'⟩ := by
  have hplaces : Pass.Places .byteOffset (firstPass .byteOffset source).symbols (Clear source a w)
      0 ∅ before 0 := by
    rintro pre e' post placements z t rfl hruns
    have hlt := (number_lt_of_mem hentries).1 e' (by simp)
    have hsplit : Entry.ofLines (Line.ofSource source) =
        pre ++ e' :: (post ++ ⟨index, .ok s, .whole⟩ :: after) := by simp [hentries]
    rw [Nat.zero_add]
    exact (clearAddress_before h hruns (divides hsplit) (hline ▸ Nat.le_of_lt hlt)).symm
  obtain ⟨pb, ⟨x', u'⟩, hbeside, hfollows, hx'⟩ :=
    Pass.exists_beside hbefore Front.follows_start hplaces
  have hclear : clearAddress source a w s.line = _ :=
    clearAddress_before h hbefore (divides hentries) (Nat.le_of_eq hline.symm)
  obtain rfl : x' = clearAddress source a w s.line := by
    rw [hclear]
    simpa using hx'
  exact ⟨pb, u', hbeside.runs, hfollows⟩

variable (hputs : Puts .byteOffset x u ⟨index, .ok s, .whole⟩ p y v)
  (hafter : Runs .byteOffset y v after lower stop (firstPass .byteOffset source).symbols)

include hentries hbefore hputs hafter in
/-- The name of the label is free in front of the line exactly if no other line has it. -/
theorem find?_eq_none_iff_line (hlabel : s.label = some name) : u.find? name = none ↔
    ∀ symbol, (firstPass .byteOffset source).symbols.find? name = some symbol →
      symbol.line = s.line := by
  have hu := hbefore.indexed SymbolTable.indexed_empty
  have hv := hputs.indexed hu
  constructor
  · intro hnone symbol hfind
    rcases Nat.lt_or_ge x addressBound with hx | hx
    · have hdefines := hputs.defines fun name' hname' => by
        rw [hlabel] at hname'
        cases hname'
        exact ⟨hx, hnone⟩
      rw [hafter.extends hv _ _ (hdefines.find?_label hu hlabel)] at hfind
      cases hfind
      rfl
    · rw [(Pass.runs_pastEnd ∅ (.cons hputs hafter) hx).1, hnone] at hfind
      cases hfind
  · intro hown
    rw [Option.eq_none_iff_forall_ne_some]
    intro symbol hfind
    have hextends := (Runs.cons hputs hafter).extends hu
    have hnumber := hown symbol (hextends name symbol hfind)
    rcases hbefore.exists_definition (hu.find?_eq_some_iff.mp hfind).1 with hnil |
      ⟨pre, e', post, -, -, -, -, -, rfl, -, -, -, hline, -⟩
    · cases hnil
    · have hlt := (number_lt_of_mem hentries).1 e' (by simp)
      exact absurd (hline ▸ hnumber) (Nat.ne_of_lt hlt)

include hbefore hputs hafter in
/-- Where the line passes the end of the machine, no label is defined behind it. -/
theorem map_find?_of_pastEnd (hpast : addressBound ≤ y)
    (hfollows : Front.Follows .byteOffset (Clear source a w) ⟨x, u⟩
      ⟨clearAddress source a w s.line, u'⟩)
    (hdefines : Defines .byteOffset (clearAddress source a w s.line) index s u' v')
    (name : Text) : (v'.find? name).map (·.address.toNat) = clearValue? source a w s name := by
  have hu := hbefore.indexed SymbolTable.indexed_empty
  unfold clearValue?
  by_cases hname : s.label = some name
  · have hlt := (hdefines.label hname).1
    rw [if_pos hname, hdefines.find?_label hfollows.indexed' hname, Option.map_some]
    exact congrArg some (UInt16.toNat_ofNat_of_lt hlt)
  · rw [if_neg hname, hdefines.find?_of_ne hfollows.indexed' hname, hfollows.map_find? name,
      (Pass.runs_pastEnd ∅ hafter hpast).1, hputs.find?_of_ne hu hname]

include hbefore hafter in
/-- Where the labels are those of the whole program, each is at its clear address. -/
theorem map_find?_of_follows {stop' : Nat} {table' : SymbolTable}
    (hdefines : Defines .byteOffset x index s u v)
    (hfollows : Front.Follows .byteOffset (Clear source a w)
      ⟨stop, (firstPass .byteOffset source).symbols⟩ ⟨stop', table'⟩) (name : Text) :
    (table'.find? name).map (·.address.toNat) = clearValue? source a w s name := by
  have hu := hbefore.indexed SymbolTable.indexed_empty
  have hv := hdefines.indexed hu
  unfold clearValue?
  rw [hfollows.map_find? name]
  by_cases hname : s.label = some name
  · rw [if_pos hname, hafter.extends hv _ _ (hdefines.find?_label hu hname), Option.map_some]
  · rw [if_neg hname]

include h hentries hline hbefore in
/-- Where the instruction of the line has had its place, the lines behind it stand at their clear
addresses if it has its place again. -/
theorem places_behind {size : Nat}
    (hputs : Puts .byteOffset x u ⟨index, .ok s, .whole⟩ p (x + size) v) :
    Pass.Places .byteOffset (firstPass .byteOffset source).symbols (Clear source a w) (x + size) v
      after (clearAddress source a w s.line + size) := by
  rintro pre e' post placements z t rfl hruns
  have hsplit : Entry.ofLines (Line.ofSource source) =
      (before ++ ⟨index, .ok s, .whole⟩ :: pre) ++ e' :: post := by simp [hentries]
  have hclear := clearAddress_behind h hbefore (divides hsplit) hline hputs hruns
  rw [Nat.add_sub_cancel_left] at hclear
  exact hclear.symm

include h hentries hline hbefore hputs hafter in
/-- **The line at its clear address**, with what is left of the lines behind it. Unless its label is
at fault, all names have their clear values. -/
theorem map_find?_restored
    (hfollows : Front.Follows .byteOffset (Clear source a w) ⟨x, u⟩
      ⟨clearAddress source a w s.line, u'⟩)
    (hfault : Entry.verdict .byteOffset (firstPass .byteOffset source).symbols
      ⟨index, .ok s, .whole⟩ p = .error f) :
    ∃ p' y' v' pa stop' table',
      Puts .byteOffset (clearAddress source a w s.line) u' ⟨index, .ok s, .whole⟩ p' y' v' ∧
      Runs .byteOffset y' v'
        (Pass.judge .byteOffset (firstPass .byteOffset source).symbols after lower).survivors pa
        stop' table' ∧
      ((∀ name, s.label = some name →
          clearAddress source a w s.line < addressBound ∧ u'.find? name = none) →
        ∀ name, (table'.find? name).map (·.address.toNat) = clearValue? source a w s name) := by
  obtain ⟨p', -, hputs'⟩ := Layout.puts_put .byteOffset ⟨clearAddress source a w s.line, u', #[]⟩
    ⟨index, .ok s, .whole⟩
  by_cases hlabel : ∀ name, s.label = some name →
      clearAddress source a w s.line < addressBound ∧ u'.find? name = none
  · by_cases hpast : addressBound ≤ y
    · obtain ⟨pa, hafter'⟩ :=
        (Pass.runs_pastEnd (firstPass .byteOffset source).symbols hafter hpast).2 _ _
      exact ⟨p', _, _, pa, _, _, hputs', hafter', fun _ =>
        map_find?_of_pastEnd hbefore hputs hafter hpast hfollows (hputs'.defines hlabel)⟩
    · -- The layout finds no fault in the line, so it has placed its instruction.
      cases hputs with
      | badLabel _ _ hfails =>
        exact absurd (fun name hname => ⟨Nat.lt_of_not_le hpast,
          (hfollows.find?_eq_none_iff name).mp (hlabel name hname).2⟩)
          (Layout.not_label_of_define hfails)
      | bare _ _ _ _ => cases hfault
      | startPastEnd _ _ _ _ hstart => exact absurd hstart hpast
      | stopPastEnd _ _ _ _ _ hstop => exact absurd (Nat.le_of_lt hstop) hpast
      | placed _ _ hdefines hhas hlt hle =>
        have hplaces := places_behind h hentries hline hbefore (.placed s v hdefines hhas hlt hle)
        obtain ⟨v', hdefines', hfollows'⟩ := hfollows.define rfl hdefines
        obtain ⟨pa, ⟨stop', table'⟩, hbeside, hend, -⟩ :=
          Pass.exists_beside hafter (hfollows'.add _) hplaces
        refine ⟨_, _, _, pa, stop', table', .placed s v' hdefines' hhas
          (Nat.lt_of_le_of_lt hfollows.address_le hlt)
          (Nat.le_trans (Nat.add_le_add_right hfollows.address_le _) hle), hbeside.runs,
          fun _ => ?_⟩
        exact map_find?_of_follows hbefore hafter hdefines hend
  · obtain ⟨pa, stop', table', hafter'⟩ := Layout.exists_runs .byteOffset _ _
      (Pass.judge .byteOffset (firstPass .byteOffset source).symbols after lower).survivors
    exact ⟨p', _, _, pa, stop', table', hputs', hafter', fun hfree => absurd hfree hlabel⟩

include h hentries hline hbefore hputs hafter in
/-- **A line that is back is at fault exactly if it does not fit** at its clear address. -/
theorem mem_faultLines_around_iff
    (hplacements :
      (Layout.ofEntries .byteOffset (Entry.ofLines (Line.ofSource source))).placements.toList =
        upper ++ p :: lower)
    (hfault : Entry.verdict .byteOffset (firstPass .byteOffset source).symbols
      ⟨index, .ok s, .whole⟩ p = .error f) :
    s.line ∈ (Pass.ofEntries .byteOffset
        (around .byteOffset source before upper ⟨index, .ok s, .whole⟩ after lower)).faultLines ↔
      ¬ FitsClear source a w s := by
  obtain ⟨pb, u', hbefore', hfollows⟩ := exists_runs_before h hentries hline hbefore
  obtain ⟨p', y', v', pa, stop', table', hputs', hafter', hvalues⟩ :=
    map_find?_restored h hentries hline hbefore hputs hafter hfollows hfault
  have hsymbols : (Layout.ofEntries .byteOffset
      (around .byteOffset source before upper ⟨index, .ok s, .whole⟩ after lower)).symbols =
        table' := by
    rw [around, Layout.ofEntries_of_runs (hbefore'.append (.cons hputs' hafter'))]
  have hverdict : (⟨index, .ok s, .whole⟩, Entry.verdict .byteOffset table' _ p') ∈
      (Pass.ofEntries .byteOffset
        (around .byteOffset source before upper ⟨index, .ok s, .whole⟩ after lower)).verdicts :=
    List.mem_map.mpr ⟨_, hbefore'.mem_zip hputs' _, by rw [← hsymbols]⟩
  have hascend : (around .byteOffset source before upper ⟨index, .ok s, .whole⟩ after
      lower).Pairwise fun e e' => e.line.number < e'.line.number := by
    rw [← retained_around hentries hplacements hbefore.length_eq]
    exact Pass.pairwise_retained (Line.pairwise_ofSource source)
  have hfits : s.Fits (clearAddress source a w s.line) (fun name => u'.find? name = none)
      (fun name => (table'.find? name).map (·.address.toNat)) ↔ FitsClear source a w s :=
    Statement.fits_congr (fun name hname => (hfollows.find?_eq_none_iff name).trans
      (find?_eq_none_iff_line hentries hbefore hputs hafter hname)) hvalues
  rw [← hfits, ← Entry.exists_verdict_iff_fits hputs',
    show s.line = Line.number (.ok s) from rfl, Pass.mem_faultLines_iff hascend hverdict]
  cases Entry.verdict .byteOffset table' _ p' <;> simp

include hentries hbefore hputs hafter in
/-- A line that fits without the room of others has a fault of the range. -/
theorem isRange_of_fitsClear (hfits : FitsClear source a w s)
    (hfault : Entry.verdict .byteOffset (firstPass .byteOffset source).symbols
      ⟨index, .ok s, .whole⟩ p = .error f) : f.diagnostic.cause.isRange = true := by
  have hu := hbefore.indexed SymbolTable.indexed_empty
  have hfree : ∀ name, s.label = some name → u.find? name = none := fun name hname =>
    (find?_eq_none_iff_line hentries hbefore hputs hafter hname).mpr (hfits.label name hname).2
  cases hputs with
  | bare _ _ _ _ => cases hfault
  | startPastEnd _ _ _ _ _ =>
    cases hfault
    rfl
  | stopPastEnd _ _ _ _ _ _ =>
    cases hfault
    rfl
  | badLabel _ _ hfails =>
    cases hfault
    exact Layout.isRange_of_define hfails hfree
  | placed _ _ hdefines hhas _ _ =>
    have hmnemonic := Layout.hasInstruction_whole_iff.mp hhas
    obtain ⟨size, hsize, -⟩ := hfits.size hmnemonic
    simp only [Entry.verdict] at hfault
    split at hfault
    · rename_i cause hreads
      cases hfault
      refine Statement.isRange_of_instruction (by rw [hsize]; rfl) hreads fun m hm name hname => ?_
      -- A name that has no value in the first pass has none without the room of others.
      intro hnone
      obtain ⟨value, hvalue, -⟩ :=
        hfits.names m (Statement.bind_ofText?_eq_some_iff.mpr ⟨hmnemonic, hm⟩) name hname
      unfold clearValue? at hvalue
      by_cases hlabel : s.label = some name
      · rw [hafter.extends (hdefines.indexed hu) _ _ (hdefines.find?_label hu hlabel)] at hnone
        cases hnone
      · rw [if_neg hlabel, hnone] at hvalue
        cases hvalue
    · cases hfault

end

/-- The line of a warning in the first pass, with the lines around it. -/
theorem exists_fault_of_mem_warnings (h : assemble ⟨.byteOffset, .skip⟩ source = .ok a)
    (hw : w ∈ a.warnings) :
    ∃ before index line after upper p lower x u y v stop f,
      line ∈ Line.ofSource source ∧
      Entry.ofLines (Line.ofSource source) = before ++ ⟨index, line, .whole⟩ :: after ∧
      (Layout.ofEntries .byteOffset (Entry.ofLines (Line.ofSource source))).placements.toList =
        upper ++ p :: lower ∧
      Runs .byteOffset 0 ∅ before upper x u ∧
      Puts .byteOffset x u ⟨index, line, .whole⟩ p y v ∧
      Runs .byteOffset y v after lower stop (firstPass .byteOffset source).symbols ∧
      Entry.verdict .byteOffset (firstPass .byteOffset source).symbols ⟨index, line, .whole⟩ p =
        .error f ∧ w.diagnostic = f.diagnostic ∧ w.line = line.number := by
  rw [(warnings_skip h).1] at hw
  obtain ⟨e, f, hverdict, rfl⟩ := Pass.mem_warnings.mp hw
  obtain ⟨⟨e', p⟩, hmem, heq⟩ := List.mem_map.mp hverdict
  obtain ⟨rfl, hfault⟩ := Prod.mk.inj heq
  obtain ⟨before, after, upper, lower, x, u, y, v, hentries, hplacements, hbefore, hputs, hafter⟩ :=
    (Layout.runs_ofEntries .byteOffset
      (Entry.ofLines (Line.ofSource source))).exists_of_mem_zip hmem
  obtain ⟨index, line, retention⟩ := e'
  obtain rfl : retention = .whole := (retention_of_mem_ofLines (List.of_mem_zip hmem).1).1
  exact ⟨before, index, line, after, upper, p, lower, x, u, y, v, _, f,
    mem_ofSource_of_mem_verdicts hverdict, hentries, hplacements, hbefore, hputs, hafter, hfault,
    Pass.diagnostic_warning _ f, Pass.line_warning hverdict⟩

/-- A line of the source that stands in the place of another is this line. -/
theorem crowded_iff (hs : .ok s ∈ Line.ofSource source) (hline : w.line = s.line) :
    Crowded source a w ↔ FitsClear source a w s := by
  constructor
  · rintro ⟨s', hs', hline', hfits⟩
    cases eq_of_number_eq hs' hs (hline'.trans hline)
    exact hfits
  · exact fun hfits => ⟨s, hs, hline.symm, hfits⟩

theorem not_crowded_of_unreadable {d : Diagnostic} (hd : .error d ∈ Line.ofSource source)
    (hline : w.line = d.line) : ¬ Crowded source a w := by
  rintro ⟨s, hs, hline', -⟩
  cases eq_of_number_eq hs hd (hline'.trans hline)

/-- A line that cannot be read is at fault wherever it stands. -/
theorem mem_faultLines_of_unreadable {entries : List Entry} {e : Entry} {d : Diagnostic}
    (hascend : entries.Pairwise fun e e' => e.line.number < e'.line.number) (he : e ∈ entries)
    (hd : e.line = .error d) : e.line.number ∈ (Pass.ofEntries .byteOffset entries).faultLines := by
  rw [← Pass.map_fst_verdicts .byteOffset entries] at he
  obtain ⟨⟨e, verdict⟩, hverdict, rfl⟩ := List.mem_map.mp he
  exact (Pass.mem_faultLines_iff hascend hverdict).mpr ⟨_, Pass.verdict_of_unreadable hverdict hd⟩

/-- **A skipped line is at fault again when it is back**, unless its fault comes from the room of
others. -/
theorem mem_faultLines_restored_iff (h : assemble ⟨.byteOffset, .skip⟩ source = .ok a)
    (hw : w ∈ a.warnings) :
    w.line ∈ (Pass.ofEntries .byteOffset (Entry.retained
        (a.warnings.filter fun w' => w'.line ≠ w.line) (Line.ofSource source))).faultLines ↔
      ¬ Crowded source a w := by
  obtain ⟨before, index, line, after, upper, p, lower, x, u, y, v, stop, f, hmem, hentries,
    hplacements, hbefore, hputs, hafter, hfault, -, hline⟩ := exists_fault_of_mem_warnings h hw
  have haround := retained_around hentries hplacements hbefore.length_eq
  rw [← (warnings_skip h).1, ← hline] at haround
  cases line with
  | error d =>
    refine iff_of_true ?_ (not_crowded_of_unreadable hmem hline)
    have hascend : (Entry.retained (a.warnings.filter fun w' => w'.line ≠ w.line)
        (Line.ofSource source)).Pairwise fun e e' => e.line.number < e'.line.number :=
      Pass.pairwise_retained (Line.pairwise_ofSource source)
    have hback : (⟨index, .error d, .whole⟩ : Entry) ∈ Entry.retained
        (a.warnings.filter fun w' => w'.line ≠ w.line) (Line.ofSource source) := by
      rw [haround]
      exact List.mem_append_right _ List.mem_cons_self
    have hagain := mem_faultLines_of_unreadable hascend hback rfl
    rwa [show Entry.line ⟨index, .error d, .whole⟩ = .error d from rfl, ← hline] at hagain
  | ok s =>
    rw [crowded_iff hmem hline, haround, hline]
    exact mem_faultLines_around_iff h hentries hline hbefore hputs hafter hplacements hfault

/-- **Such a fault is one of the range.** -/
theorem isRange_of_crowded (h : assemble ⟨.byteOffset, .skip⟩ source = .ok a) (hw : w ∈ a.warnings)
    (hcrowded : Crowded source a w) : w.diagnostic.cause.isRange = true := by
  obtain ⟨before, index, line, after, upper, p, lower, x, u, y, v, stop, f, hmem, hentries, -,
    hbefore, hputs, hafter, hfault, hdiagnostic, hline⟩ := exists_fault_of_mem_warnings h hw
  cases line with
  | error d => exact absurd hcrowded (not_crowded_of_unreadable hmem hline)
  | ok s =>
    rw [hdiagnostic]
    exact isRange_of_fitsClear hentries hbefore hputs hafter
      ((crowded_iff hmem hline).mp hcrowded) hfault

end Assembly

end Micro65
