import Micro65.Proofs.Assembly.Cleaned
import Micro65.Proofs.Assembly.Fits
/-!
# Room that skipped lines take

The first pass finds all its faults in one layout, in which the lines at fault still take room.
`Assembly.crowding` counts the bytes that lines with a warning take there in front of a line, one of
these lines left aside, and `Assembly.clearAddress` subtracts them from the address of the line.
Every line takes the room of its instruction or is at fault (`Assembly.address_eq`), so what is left
are the bytes of the instructions that stay (`Assembly.clearAddress_before`,
`Assembly.clearAddress_behind`).

`Assembly.Crowded` says of a line with a warning that nothing is wrong with it any more once these
bytes are subtracted, from its address and from the values of the labels.
-/

namespace Micro65

open Layout (Puts Runs)

namespace Assembly

variable (source : Text) (a : Assembly) (w : Warning)

/-- The address in front of the line with this number, in the layout of the whole source. -/
def addressBefore (number : Nat) : Nat :=
  (Layout.ofEntries .byteOffset
    ((Entry.ofLines (Line.ofSource source)).filter fun e => e.line.number < number)).address

/-- The bytes that the line with this number takes in the layout of the whole source. -/
def room (number : Nat) : Nat :=
  addressBefore source (number + 1) - addressBefore source number

/-- The bytes that the other lines with a warning take there in front of the line with this
number. -/
def crowding (number : Nat) : Nat :=
  ((a.warnings.filter fun w' => w'.line ≠ w.line ∧ w'.line < number).map fun w' =>
    room source w'.line).sum

/-- The address in front of the line with this number, less these bytes. -/
def clearAddress (number : Nat) : Nat :=
  addressBefore source number - crowding source a w number

/-- What a name in the statement stands for, less these bytes: the address of the line that defines
it, which is the line of the statement for its own label. -/
def clearValue? (s : Statement) (name : Text) : Option Nat :=
  if s.label = some name then some (clearAddress source a w s.line)
  else ((firstPass .byteOffset source).symbols.find? name).map fun symbol =>
    clearAddress source a w symbol.line

/-- Whether nothing is wrong with a statement of the source without these bytes. Its label is then
one that no other line has. -/
def FitsClear (s : Statement) : Prop :=
  s.Fits (clearAddress source a w s.line)
    (fun name => ∀ symbol, (firstPass .byteOffset source).symbols.find? name = some symbol →
      symbol.line = s.line)
    (clearValue? source a w s)

/-- Whether nothing is wrong with the line of a warning without the bytes that the other
lines with a warning take. -/
def Crowded : Prop :=
  ∃ s, .ok s ∈ Line.ofSource source ∧ s.line = w.line ∧ FitsClear source a w s

end Assembly

/-! ## The warnings about some of the lines -/

namespace Pass

variable {rule : LabelRule} {table t u : SymbolTable} {x y : Nat} {e : Entry} {p : Placement}
  {f : Failure} {i : Option Instruction} {entries entries' : List Entry}
  {placements placements' : List Placement}

theorem warnings_judge_of_error (h : e.verdict rule table p = .error f) :
    (judge rule table (e :: entries) (p :: placements)).warnings =
      e.warning f :: (judge rule table entries placements).warnings := by
  unfold warnings
  rw [failures_judge_of_error h, List.map_cons]

theorem warnings_judge_of_ok (h : e.verdict rule table p = .ok i) :
    (judge rule table (e :: entries) (p :: placements)).warnings =
      (judge rule table entries placements).warnings := by
  unfold warnings
  rw [failures_judge_of_ok h]

theorem warnings_judge_append (h : placements.length = entries.length) :
    (judge rule table (entries ++ entries') (placements ++ placements')).warnings =
      (judge rule table entries placements).warnings ++
        (judge rule table entries' placements').warnings := by
  unfold judge warnings failures
  simp only [List.zip_append h.symm, List.map_append, List.filterMap_append]

theorem line_warning_of_puts (hputs : Puts rule x t e p y u)
    (h : e.verdict rule table p = .error f) : (e.warning f).line = e.line.number := by
  rw [Warning.line, diagnostic_warning, line_of_verdict hputs h]

theorem exists_of_mem_warnings (hruns : Runs rule x t entries placements y u) {w : Warning}
    (hw : w ∈ (judge rule table entries placements).warnings) :
    ∃ e ∈ entries, w.line = e.line.number := by
  induction hruns with
  | nil => cases hw
  | @cons _ _ _ _ _ _ e p _ _ hputs _ ih =>
    cases hverdict : e.verdict rule table p with
    | ok i =>
      rw [warnings_judge_of_ok hverdict] at hw
      obtain ⟨e', he', hline⟩ := ih hw
      exact ⟨e', List.mem_cons_of_mem _ he', hline⟩
    | error f =>
      rw [warnings_judge_of_error hverdict] at hw
      rcases List.mem_cons.mp hw with rfl | hw
      · exact ⟨e, List.mem_cons_self, line_warning_of_puts hputs hverdict⟩
      · obtain ⟨e', he', hline⟩ := ih hw
        exact ⟨e', List.mem_cons_of_mem _ he', hline⟩

/-- A line without a fault takes the room of its instruction. -/
theorem stop_eq_of_verdict (hputs : Puts rule x t e p y u) (h : e.verdict rule table p = .ok i) :
    y = x + Verdict.size (.ok i) := by
  cases hputs with
  | badLine d => cases h
  | badLabel s f' _ => cases h
  | startPastEnd s _ _ _ _ => cases h
  | stopPastEnd s _ _ _ _ _ => cases h
  | bare s _ _ _ =>
    cases h
    rfl
  | placed s _ _ _ _ _ =>
    simp only [Entry.verdict] at h
    split at h
    · cases h
    · rename_i hreads
      cases h
      rw [Statement.size?_of_instruction hreads]
      rfl

end Pass

namespace Assembly

variable {source : Text} {a : Assembly} {w : Warning} {before stretch after : List Entry}
  {upper middle lower : List Placement} {x y z number : Nat} {t u v : SymbolTable} {e : Entry}
  {p : Placement}

/-! ## The room of a line -/

/-- The lines before a line have lower numbers and those behind it higher ones. -/
theorem number_lt_of_mem (hentries : Entry.ofLines (Line.ofSource source) = before ++ e :: after) :
    (∀ e' ∈ before, e'.line.number < e.line.number) ∧
      ∀ e' ∈ after, e.line.number < e'.line.number := by
  have hascend := pairwise_ofLines source
  rw [hentries] at hascend
  obtain ⟨-, hafter, hcross⟩ := List.pairwise_append.mp hascend
  exact ⟨fun e' he' => hcross e' he' e List.mem_cons_self, (List.pairwise_cons.mp hafter).1⟩

/-- The lines of a source fall into those with a lower number and the others. -/
structure Divides (source : Text) (number : Nat) (before after : List Entry) : Prop where
  entries_eq : Entry.ofLines (Line.ofSource source) = before ++ after
  lt : ∀ e ∈ before, e.line.number < number
  le : ∀ e ∈ after, number ≤ e.line.number

theorem divides (hentries : Entry.ofLines (Line.ofSource source) = before ++ e :: after) :
    Divides source e.line.number before (e :: after) where
  entries_eq := hentries
  lt := (number_lt_of_mem hentries).1
  le e' he' := by
    rcases List.mem_cons.mp he' with rfl | he'
    · exact Nat.le_refl _
    · exact Nat.le_of_lt ((number_lt_of_mem hentries).2 e' he')

theorem divides_succ (hentries : Entry.ofLines (Line.ofSource source) = before ++ e :: after) :
    Divides source (e.line.number + 1) (before ++ [e]) after where
  entries_eq := by rw [hentries, List.append_assoc, List.singleton_append]
  lt e' he' := by
    rcases List.mem_append.mp he' with he' | he'
    · exact Nat.lt_succ_of_lt ((number_lt_of_mem hentries).1 e' he')
    · rw [List.mem_singleton.mp he']
      exact Nat.lt_succ_self _
  le := (number_lt_of_mem hentries).2

theorem addressBefore_eq (hdivides : Divides source number before after)
    (hbefore : Runs .byteOffset 0 ∅ before upper x t) : addressBefore source number = x := by
  have hlower : before.filter (fun e => decide (e.line.number < number)) = before :=
    List.filter_eq_self.mpr fun e he => decide_eq_true (hdivides.lt e he)
  have hhigher : after.filter (fun e => decide (e.line.number < number)) = [] :=
    List.filter_eq_nil_iff.mpr fun e he => by simpa using hdivides.le e he
  unfold addressBefore
  rw [hdivides.entries_eq, List.filter_append, hlower, hhigher, List.append_nil,
    Layout.ofEntries_of_runs hbefore]

theorem room_eq (hentries : Entry.ofLines (Line.ofSource source) = before ++ e :: after)
    (hbefore : Runs .byteOffset 0 ∅ before upper x t) (hputs : Puts .byteOffset x t e p y u) :
    room source e.line.number = y - x := by
  unfold room
  rw [addressBefore_eq (divides_succ hentries) (hbefore.append (.cons hputs .nil)),
    addressBefore_eq (divides hentries) hbefore]

/-- The bytes that the lines of some warnings take. -/
def totalRoom (source : Text) (warnings : List Warning) : Nat :=
  (warnings.map fun w => room source w.line).sum

/-- **Every line takes the room of its instruction or is at fault.** -/
theorem address_eq (hentries : Entry.ofLines (Line.ofSource source) = before ++ (stretch ++ after))
    (hbefore : Runs .byteOffset 0 ∅ before upper x t)
    (hruns : Runs .byteOffset x t stretch middle y u) (table : SymbolTable) :
    y = x + (Pass.judge .byteOffset table stretch middle).size +
      totalRoom source (Pass.judge .byteOffset table stretch middle).warnings := by
  induction hruns generalizing before upper with
  | nil => rfl
  | @cons _ _ _ _ _ _ e p _ _ hputs _ ih =>
    have htail := ih (by rw [hentries, List.append_assoc]; rfl) (hbefore.append (.cons hputs .nil))
    rw [Pass.size_judge_cons]
    cases hverdict : e.verdict .byteOffset table p with
    | ok i =>
      have hstop := Pass.stop_eq_of_verdict hputs hverdict
      rw [Pass.warnings_judge_of_ok hverdict]
      omega
    | error f =>
      have hle := hputs.start_le
      have hroom := room_eq hentries hbefore hputs
      rw [Pass.warnings_judge_of_error hverdict, totalRoom, List.map_cons, List.sum_cons,
        Pass.line_warning_of_puts hputs hverdict, hroom, ← totalRoom]
      simp only [Verdict.size]
      omega

/-! ## Addresses without the room of skipped lines -/

theorem firstPass_eq_judge {rule : LabelRule} {entries : List Entry} {placements : List Placement}
    (hentries : Entry.ofLines (Line.ofSource source) = entries)
    (hruns : Runs rule 0 ∅ entries placements y u) :
    firstPass rule source =
      Pass.judge rule (firstPass rule source).symbols entries placements := by
  unfold firstPass
  rw [hentries, Pass.ofEntries_of_runs hruns]
  rfl

/-- The crowding in front of a line comes from the lines before it. -/
theorem crowding_eq (h : assemble ⟨.byteOffset, .skip⟩ source = .ok a)
    (hdivides : Divides source number before after)
    (hbefore : Runs .byteOffset 0 ∅ before upper x t) :
    crowding source a w number = totalRoom source
      ((Pass.judge .byteOffset (firstPass .byteOffset source).symbols before upper).warnings.filter
        fun w' => w'.line ≠ w.line) := by
  obtain ⟨lower, _, _, hafter⟩ := Layout.exists_runs .byteOffset x t after
  have hwarnings : a.warnings =
      (Pass.judge .byteOffset (firstPass .byteOffset source).symbols before upper).warnings ++
        (Pass.judge .byteOffset (firstPass .byteOffset source).symbols after lower).warnings := by
    rw [← Pass.warnings_judge_append hbefore.length_eq,
      ← firstPass_eq_judge hdivides.entries_eq (hbefore.append hafter)]
    exact (warnings_skip h).1
  have hlower : ∀ w' ∈
      (Pass.judge .byteOffset (firstPass .byteOffset source).symbols before upper).warnings,
      decide (w'.line ≠ w.line ∧ w'.line < number) = decide (w'.line ≠ w.line) := by
    intro w' hw'
    obtain ⟨e, he, hline⟩ := Pass.exists_of_mem_warnings hbefore hw'
    have hlt := hdivides.lt e he
    simp only [hline, hlt, and_true]
  have hhigher : ∀ w' ∈
      (Pass.judge .byteOffset (firstPass .byteOffset source).symbols after lower).warnings,
      ¬ decide (w'.line ≠ w.line ∧ w'.line < number) = true := by
    intro w' hw'
    obtain ⟨e, he, hline⟩ := Pass.exists_of_mem_warnings hafter hw'
    have hle := hdivides.le e he
    rw [decide_eq_true_eq, hline]
    omega
  unfold crowding totalRoom
  rw [hwarnings, List.filter_append, List.filter_congr hlower,
    List.filter_eq_nil_iff.mpr hhigher, List.append_nil]

theorem filter_warnings_judge_self (hputs : Puts .byteOffset x t e p y u)
    (hline : w.line = e.line.number) (table : SymbolTable) :
    (Pass.judge .byteOffset table (e :: stretch) (p :: middle)).warnings.filter
        (fun w' => w'.line ≠ w.line) =
      (Pass.judge .byteOffset table stretch middle).warnings.filter fun w' => w'.line ≠ w.line := by
  cases hverdict : e.verdict .byteOffset table p with
  | ok i => rw [Pass.warnings_judge_of_ok hverdict]
  | error f =>
    rw [Pass.warnings_judge_of_error hverdict, List.filter_cons_of_neg]
    simp [Pass.line_warning_of_puts hputs hverdict, hline]

/-- Warnings about some lines are about none of the others. -/
theorem filter_warnings_judge_of_ne (hruns : Runs .byteOffset x t stretch middle y u)
    (hne : ∀ e ∈ stretch, e.line.number ≠ w.line) (table : SymbolTable) :
    (Pass.judge .byteOffset table stretch middle).warnings.filter (fun w' => w'.line ≠ w.line) =
      (Pass.judge .byteOffset table stretch middle).warnings := by
  refine List.filter_eq_self.mpr fun w' hw' => ?_
  obtain ⟨e, he, hline⟩ := Pass.exists_of_mem_warnings hruns hw'
  exact decide_eq_true (hline ▸ hne e he)

section

variable (h : assemble ⟨.byteOffset, .skip⟩ source = .ok a)
  (hbefore : Runs .byteOffset 0 ∅ before upper x t)
include h hbefore

/-- **In front of a skipped line** there are the bytes of the instructions that stay. -/
theorem clearAddress_before (hdivides : Divides source number before after)
    (hle : number ≤ w.line) : clearAddress source a w number =
      (Pass.judge .byteOffset (firstPass .byteOffset source).symbols before upper).size := by
  have haddress := address_eq (List.nil_append _ ▸ hdivides.entries_eq) .nil hbefore
    (firstPass .byteOffset source).symbols
  have hne : ∀ e ∈ before, e.line.number ≠ w.line := fun e he =>
    Nat.ne_of_lt (Nat.lt_of_lt_of_le (hdivides.lt e he) hle)
  unfold clearAddress
  rw [addressBefore_eq hdivides hbefore, crowding_eq h hdivides hbefore,
    filter_warnings_judge_of_ne hbefore hne]
  omega

/-- **Behind a skipped line** there are the room of this line and the bytes of the instructions that
stay. -/
theorem clearAddress_behind
    (hdivides : Divides source number (before ++ e :: stretch) after)
    (hline : w.line = e.line.number) (hputs : Puts .byteOffset x t e p y u)
    (hstretch : Runs .byteOffset y u stretch middle z v) :
    clearAddress source a w number = clearAddress source a w e.line.number + (y - x) +
      (Pass.judge .byteOffset (firstPass .byteOffset source).symbols stretch middle).size := by
  have hentries := hdivides.entries_eq
  have hsplit : Entry.ofLines (Line.ofSource source) = before ++ [e] ++ (stretch ++ after) := by
    simp [hentries]
  rw [List.append_assoc, List.cons_append] at hentries
  have hne : ∀ e' ∈ stretch, e'.line.number ≠ w.line := fun e' he' => by
    have hlt := (number_lt_of_mem hentries).2 e' (List.mem_append_left _ he')
    omega
  have hne' : ∀ e' ∈ before, e'.line.number ≠ w.line := fun e' he' => by
    have hlt := (number_lt_of_mem hentries).1 e' he'
    omega
  have hruns := hbefore.append (.cons hputs hstretch)
  have haddress := address_eq (List.nil_append _ ▸ hentries) .nil hbefore
    (firstPass .byteOffset source).symbols
  have haddress' := address_eq hsplit (hbefore.append (.cons hputs .nil)) hstretch
    (firstPass .byteOffset source).symbols
  have hle := hputs.start_le
  rw [clearAddress_before h hbefore (divides hentries) (Nat.le_of_eq hline.symm)]
  unfold clearAddress
  rw [addressBefore_eq hdivides hruns, crowding_eq h hdivides hruns,
    Pass.warnings_judge_append hbefore.length_eq, List.filter_append,
    filter_warnings_judge_of_ne hbefore hne', filter_warnings_judge_self hputs hline,
    filter_warnings_judge_of_ne hstretch hne]
  simp only [totalRoom, List.map_append, List.sum_append] at haddress haddress' ⊢
  omega

end

end Assembly

end Micro65
