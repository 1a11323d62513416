import Micro65.Proofs.Machine.Executed
/-!
# The limit of a run

A machine under another limit does the same (`Machine.perform_limitedTo`), and what comes next does
not depend on the limit (`Machine.IgnoresLimit`). So a turn is the same under two limits, unless one
of them has been reached and there is a further instruction to execute (`Machine.turn_limitedTo`).
Under the lower of two limits a run is therefore the first part of the run under the higher one, or
all of it (`Machine.cutsShort`). The end of a program is seen before the limit, so a program that
ends after exactly as many instructions as it may have is not cut short.
-/

namespace Micro65

namespace Machine

variable {μ : Type}

/-- The machine with another limit for its runs, or without one. -/
def limitedTo (m : Machine μ) (limit : Option Nat) : Machine μ :=
  { m with settings := { m.settings with stepLimit := limit } }

end Machine

/-- The outcome with another limit for the machine. -/
def Outcome.limitedTo {μ α : Type} (o : Outcome μ α) (limit : Option Nat) : Outcome μ α :=
  ⟨o.result, o.machine.limitedTo limit⟩

namespace Machine

variable {μ : Type} {m m' : Machine μ} {limit limit' : Option Nat} {n : Nat}

/-- Under a limit, a further instruction may be executed if the limit is not reached. -/
theorem limitFault?_limitedTo_eq_none_iff :
    (m.limitedTo limit).limitFault? n = none ↔ ∀ l ∈ limit, n < l := by
  cases limit with
  | none => simp [limitFault?, limitedTo]
  | some l => simp [limitFault?, limitedTo]

/-- The fault of a limit names the limit. -/
theorem eq_some_of_limitFault?_limitedTo {f : Fault}
    (h : (m.limitedTo limit).limitFault? n = some f) :
    ∃ l, limit = some l ∧ f = .limitReached l ∧ l ≤ n := by
  obtain hnone | ⟨l, hsome, hlimit, hle⟩ := (m.limitedTo limit).limitFault?_cases n
  · rw [hnone] at h
    cases h
  · rw [hsome] at h
    cases h
    exact ⟨l, hlimit, rfl, hle⟩

/-! ## One command -/

theorem assign_limitedTo (m : Machine μ) (r : Register) (result : UInt8) (limit : Option Nat) :
    (m.limitedTo limit).assign r result = (m.assign r result).limitedTo limit := by
  cases r <;> rfl

theorem branch_limitedTo (m : Machine μ) (flag : Flag) (value : Bool) (p : Place)
    (limit : Option Nat) :
    (m.limitedTo limit).branch flag value p = (m.branch flag value p).limitedTo limit := by
  cases p with
  | distance bytes =>
    unfold branch
    simp only [show (m.limitedTo limit).status = m.status from rfl]
    split <;> rfl
  | nowhere | accumulator | literal value | memory address => rfl

variable [Memory μ]

theorem read_limitedTo (m : Machine μ) (p : Place) (limit : Option Nat) :
    (m.limitedTo limit).read p = m.read p := by
  cases p <;> rfl

omit [Memory μ] in
theorem register_limitedTo (m : Machine μ) (r : Register) (limit : Option Nat) :
    (m.limitedTo limit).register r = m.register r := by
  cases r <;> rfl

theorem write_limitedTo (m : Machine μ) (p : Place) (value : UInt8) (limit : Option Nat) :
    (m.limitedTo limit).write p value = (m.write p value).limitedTo limit := by
  cases p <;> rfl

/-- **No operation looks at the limit or changes it.** -/
theorem apply_limitedTo (m : Machine μ) (operation : Operation) (p : Place) (limit : Option Nat) :
    (m.limitedTo limit).apply operation p = (m.apply operation p).limitedTo limit := by
  cases operation with
  | load r => simp only [apply, read_limitedTo, assign_limitedTo]
  | store r => simp only [apply, register_limitedTo, write_limitedTo]
  | transfer source target => simp only [apply, register_limitedTo, assign_limitedTo]
  | add | subtract | combine logic => simp only [apply, read_limitedTo]; rfl
  | compare r => simp only [apply, read_limitedTo, register_limitedTo]; rfl
  | shift s | adjust delta => simp only [apply, read_limitedTo, write_limitedTo]; rfl
  | adjustRegister r delta => simp only [apply, register_limitedTo, assign_limitedTo]
  | branch flag value => exact branch_limitedTo m flag value p limit
  | pushAccumulator | pushStatus | pullAccumulator | pullStatus => rfl
  | setFlag flag value | idle => rfl

/-- **A command does the same under every limit.** -/
theorem perform_limitedTo (m : Machine μ) (c : Command) (limit : Option Nat) :
    (m.limitedTo limit).perform c = (m.perform c).limitedTo limit := by
  cases c with
  | encoded opcode bytes =>
    simp only [perform, executeBytes]
    split
    · rfl
    · split
      · rfl
      · simp only [show (m.limitedTo limit).place? = m.place? from rfl]
        split
        · rfl
        · rename_i p _
          exact congrArg (Outcome.mk _) (apply_limitedTo (m.advance _) _ p limit)
  | decoded i =>
    simp only [perform, execute, show (m.limitedTo limit).place? = m.place? from rfl]
    by_cases hmode : i.mnemonic.hasMode i.mode = true
    · simp only [if_pos hmode]
      cases m.place? i.mode i.operand with
      | none => rfl
      | some p =>
        have happly := apply_limitedTo (m.advance i.size) i.mnemonic.operation p limit
        exact congrArg (Outcome.mk (.ok i.mnemonic)) happly
    · simp only [if_neg hmode]
      rfl

/-- No command reaches a limit by itself. -/
theorem perform_ne_limitReached (m : Machine μ) (c : Command) (l : Nat) :
    (m.perform c).result ≠ .error (.limitReached l) := by
  cases c with
  | encoded opcode bytes =>
    simp only [perform, executeBytes]
    split
    · simp
    · split
      · simp
      · split <;> simp
  | decoded i =>
    simp only [perform, execute]
    by_cases hmode : i.mnemonic.hasMode i.mode = true
    · simp only [if_pos hmode]
      cases m.place? i.mode i.operand with
      | none => simp
      | some p => simp
    · simp [if_neg hmode]

/-! ## One turn -/

/-- What comes next does not depend on the limit, and is never the fault of having reached it. -/
structure IgnoresLimit (fetch : Machine μ → Fetch) : Prop where
  fetch_eq : ∀ m limit, fetch (m.limitedTo limit) = fetch m
  fetch_ne : ∀ m l, fetch m ≠ .fault (.limitReached l)

omit [Memory μ] in
theorem ignoresLimit_fetchRom (rom : Array UInt8) :
    IgnoresLimit (fetchRom rom : Machine μ → Fetch) where
  fetch_eq _ _ := rfl
  fetch_ne m l := by
    obtain ⟨-, hm⟩ | ⟨-, hm⟩ | ⟨opcode, -, -, hm⟩ := fetchRom_cases rom m <;> simp [hm]

omit [Memory μ] in
theorem ignoresLimit_fetchProgram (p : Program) :
    IgnoresLimit (fetchProgram p : Machine μ → Fetch) where
  fetch_eq _ _ := rfl
  fetch_ne m l := by
    unfold fetchProgram
    split <;> simp

variable {fetch : Machine μ → Fetch} {o : Outcome μ Summary} {k : Nat}

/-- **A turn is the same under two limits**, unless there is a further instruction,
which one of them forbids. -/
theorem turn_limitedTo (hfetch : IgnoresLimit fetch) (hallowed : ∀ c, fetch m = .command c →
      (∀ l ∈ limit, n < l) ∧ ∀ l ∈ limit', n < l) :
    turn fetch n (m.limitedTo limit') =
      ((turn fetch n (m.limitedTo limit)).map (·.limitedTo limit')).mapError
        (·.limitedTo limit') := by
  unfold turn
  rw [hfetch.fetch_eq, hfetch.fetch_eq]
  cases hm : fetch m with
  | stop ending => rfl
  | fault f => rfl
  | command c =>
    obtain ⟨hlimit, hlimit'⟩ := hallowed c hm
    simp only [limitFault?_limitedTo_eq_none_iff.mpr hlimit,
      limitFault?_limitedTo_eq_none_iff.mpr hlimit', perform_limitedTo]
    obtain ⟨result, m'⟩ := m.perform c
    cases result <;> rfl

/-- An instruction is executed below the limit only. -/
theorem lt_of_turn_limitedTo (h : turn fetch n (m.limitedTo limit) = .ok m') :
    ∀ l ∈ limit, n < l := by
  obtain ⟨c, mnemonic, -, hlimit, -⟩ := turn_eq_ok_iff.mp h
  exact limitFault?_limitedTo_eq_none_iff.mp hlimit

/-- **When a run exceeds its limit**: there is a further instruction, which the limit forbids. -/
theorem exists_command_of_limitReached (hfetch : IgnoresLimit fetch) {l : Nat}
    (h : turn fetch n (m.limitedTo limit) = .error o) (ho : o.result = .error (.limitReached l)) :
    limit = some l ∧ l ≤ n ∧ ∃ c, fetch m = .command c := by
  obtain ⟨ending, -, rfl⟩ | ⟨f, rfl, hfault | ⟨c, hcommand, hlimit | hperform⟩⟩ :=
    turn_eq_error_cases h
  · cases ho
  · cases ho
    exact absurd hfault (hfetch.fetch_ne _ _)
  · cases ho
    obtain ⟨l', hsome, hl', hle⟩ := eq_some_of_limitFault?_limitedTo hlimit
    cases hl'
    exact ⟨hsome, hle, c, (hfetch.fetch_eq m limit).symm.trans hcommand⟩
  · cases ho
    exact absurd (congrArg Outcome.result hperform) (perform_ne_limitReached _ _ _)

/-- **A run that ends before its limit ends the same way under another limit** that is not lower. -/
theorem turn_limitedTo_of_error (hfetch : IgnoresLimit fetch)
    (h : turn fetch n (m.limitedTo limit) = .error o)
    (ho : ∀ l, o.result ≠ .error (.limitReached l))
    (hle : ∀ c, fetch m = .command c → (∀ l ∈ limit, n < l) → ∀ l ∈ limit', n < l) :
    turn fetch n (m.limitedTo limit') = .error (o.limitedTo limit') := by
  have hallowed : ∀ c, fetch m = .command c → (∀ l ∈ limit, n < l) ∧ ∀ l ∈ limit', n < l := by
    intro c hcommand
    have hbelow : ∀ l ∈ limit, n < l := by
      rw [← limitFault?_limitedTo_eq_none_iff (m := m), Option.eq_none_iff_forall_not_mem]
      intro f hf
      obtain ⟨l, -, rfl, -⟩ := eq_some_of_limitFault?_limitedTo hf
      have hturn : turn fetch n (m.limitedTo limit) =
          .error ⟨.error (.limitReached l), m.limitedTo limit⟩ := by
        unfold turn
        simp only [hfetch.fetch_eq, hcommand, Option.mem_def.mp hf]
      rw [hturn] at h
      cases h
      exact ho l rfl
    exact ⟨hbelow, hle c hcommand hbelow⟩
  rw [turn_limitedTo hfetch hallowed, h]
  rfl

/-! ## Whole runs -/

/-- A run keeps its limit. -/
theorem limitedTo_of_after (h : after fetch k (m.limitedTo limit) = some m') :
    m'.limitedTo limit = m' := by
  refine invariant_of_after (P := fun m => m.limitedTo limit = m) rfl ?_ h
  intro j _ m₁ c mnemonic p _ _ hm₁
  rw [← apply_limitedTo]
  exact congrArg (fun m => Machine.apply (m.advance c.size) mnemonic.operation p) hm₁

/-- No run executes more instructions than its limit. -/
theorem le_of_after_limitedTo (h : after fetch k (m.limitedTo limit) = some m') :
    ∀ l ∈ limit, k ≤ l := by
  intro l hl
  cases k with
  | zero => exact Nat.zero_le l
  | succ k =>
    obtain ⟨m₁, hafter, hturn⟩ := after_succ.mp h
    rw [← limitedTo_of_after hafter] at hturn
    exact lt_of_turn_limitedTo hturn l hl

/-- **Under another limit a run passes through the same machines**, as far as the limit allows. -/
theorem after_limitedTo (hfetch : IgnoresLimit fetch)
    (h : after fetch k (m.limitedTo limit) = some m') (hle : ∀ l ∈ limit', k ≤ l) :
    after fetch k (m.limitedTo limit') = some (m'.limitedTo limit') := by
  induction k generalizing m' with
  | zero =>
    cases h
    rfl
  | succ k ih =>
    obtain ⟨m₁, hafter, hturn⟩ := after_succ.mp h
    have hm₁ := limitedTo_of_after hafter
    rw [← hm₁] at hturn
    have hafter' := ih hafter fun l hl => Nat.le_of_succ_le (hle l hl)
    refine after_succ.mpr ⟨_, hafter', ?_⟩
    rw [turn_limitedTo hfetch fun _ _ => ⟨lt_of_turn_limitedTo hturn, hle⟩, hturn]
    rfl

/-- **What a limit makes of a run**, beside a limit that is not lower, or none. -/
structure CutsShort (fetch : Machine μ → Fetch) (m : Machine μ) (low : Nat) (high : Option Nat) :
    Prop where
  /-- A run that does not exceed the lower limit is the same under the higher one. -/
  same : ∀ fuel o, run fetch fuel (m.limitedTo (some low)) = some o →
    (∀ l, o.result ≠ .error (.limitReached l)) →
    run fetch fuel (m.limitedTo high) = some (o.limitedTo high)
  /-- A run that exceeds the lower limit has executed so many instructions. It stands where the
  other run stands after as many, which does not end well before it has executed more. -/
  exceeded : ∀ fuel o l, run fetch fuel (m.limitedTo (some low)) = some o →
    o.result = .error (.limitReached l) →
    l = low ∧ after fetch low (m.limitedTo (some low)) = some o.machine ∧
      after fetch (low + 1) (m.limitedTo (some low)) = none ∧
      after fetch low (m.limitedTo high) = some (o.machine.limitedTo high) ∧
      ∀ fuel' summary m', run fetch fuel' (m.limitedTo high) = some ⟨.ok summary, m'⟩ →
        low < summary.instructions
  /-- A program that ends by itself within the lower limit does not exceed it. -/
  in_time : ∀ fuel summary m', run fetch fuel (m.limitedTo high) = some ⟨.ok summary, m'⟩ →
    summary.instructions ≤ low →
    run fetch fuel (m.limitedTo (some low)) = some ⟨.ok summary, m'.limitedTo (some low)⟩
  /-- A run under a limit ends. -/
  ends : ∃ o, run fetch (low + 1) (m.limitedTo (some low)) = some o
  at_most : ∀ k m', after fetch k (m.limitedTo (some low)) = some m' → k ≤ low

section

variable {low : Nat} {high : Option Nat}

/-- A program that ends by itself within a limit ends the same under this limit. -/
theorem run_limitedTo_of_ok (hfetch : IgnoresLimit fetch) {fuel : Nat} {summary : Summary}
    (h : run fetch fuel (m.limitedTo limit) = some ⟨.ok summary, m'⟩)
    (hle : ∀ l ∈ limit', summary.instructions ≤ l) :
    run fetch fuel (m.limitedTo limit') = some ⟨.ok summary, m'.limitedTo limit'⟩ := by
  obtain ⟨k, hk, hafter, hturn⟩ := exists_after_of_run h
  obtain ⟨ending, hstop, ho⟩ | ⟨f, ho, -⟩ := turn_eq_error_cases hturn
  · cases ho
    rw [← limitedTo_of_after hafter] at hturn
    refine run_eq_some_iff.mpr ⟨k, hk, _, after_limitedTo hfetch hafter hle, ?_⟩
    refine turn_limitedTo_of_error hfetch hturn (by simp) fun c hcommand => ?_
    rw [hcommand] at hstop
    cases hstop
  · cases ho

/-- **A limit does nothing but cut runs short.** -/
theorem cutsShort_of_ignoresLimit (hfetch : IgnoresLimit fetch) (m : Machine μ)
    (hle : ∀ l ∈ high, low ≤ l) : CutsShort fetch m low high where
  same fuel o hrun ho := by
    obtain ⟨k, hk, hafter, hturn⟩ := exists_after_of_run hrun
    have hlow : k ≤ low := le_of_after_limitedTo hafter low rfl
    rw [← limitedTo_of_after hafter] at hturn
    refine run_eq_some_iff.mpr ⟨k, hk, _,
      after_limitedTo hfetch hafter fun l hl => Nat.le_trans hlow (hle l hl), ?_⟩
    exact turn_limitedTo_of_error hfetch hturn ho fun c _ hbelow l hl =>
      Nat.lt_of_lt_of_le (hbelow low rfl) (hle l hl)
  exceeded fuel o l hrun ho := by
    obtain ⟨k, hk, hafter, hturn⟩ := exists_after_of_run hrun
    have hlow : k ≤ low := le_of_after_limitedTo hafter low rfl
    rw [← limitedTo_of_after hafter] at hturn
    obtain ⟨hl, hlk, -⟩ := exists_command_of_limitReached hfetch hturn ho
    cases hl
    obtain rfl : k = low := Nat.le_antisymm hlow hlk
    refine ⟨rfl, hafter, ?_, after_limitedTo hfetch hafter hle, ?_⟩
    · rw [Option.eq_none_iff_forall_not_mem]
      intro m' hm'
      exact Nat.not_succ_le_self k (le_of_after_limitedTo hm' k rfl)
    · intro fuel' summary m' hrun'
      refine Nat.lt_of_not_le fun hin => ?_
      have hallowed : ∀ l ∈ some k, summary.instructions ≤ l := by simpa using hin
      rw [eq_of_run hrun (run_limitedTo_of_ok hfetch hrun' hallowed)] at ho
      cases ho
  in_time fuel summary m' hrun hin := run_limitedTo_of_ok hfetch hrun (by simpa using hin)
  ends := by
    refine Option.ne_none_iff_exists'.mp fun hnone => ?_
    obtain ⟨m', hafter⟩ := run_eq_none_iff.mp hnone
    exact Nat.not_succ_le_self low (le_of_after_limitedTo hafter low rfl)
  at_most k m' hafter := le_of_after_limitedTo hafter low rfl

/-- **The limit of a run only cuts it short**, in runs of an image and in runs of an assembled
program. -/
theorem cutsShort (rom : Array UInt8) (p : Program) (m : Machine μ) (hle : ∀ l ∈ high, low ≤ l) :
    CutsShort (fetchRom rom) m low high ∧ CutsShort (fetchProgram p) m low high :=
  ⟨cutsShort_of_ignoresLimit (ignoresLimit_fetchRom rom) m hle,
    cutsShort_of_ignoresLimit (ignoresLimit_fetchProgram p) m hle⟩

/-- A branch to itself, which only a limit ends. -/
theorem cutsShort_of_branch :
    let m : Machine Ram := { memory := .zeroed }
    (∀ l ∈ some 5, 3 ≤ l) ∧ CutsShort (fetchRom #[0xD0, 0xFE]) m 3 (some 5) ∧
      CutsShort (fetchProgram (.ofInstructions [⟨.bne, .relative, some 0xFE, 0, 1⟩])) m 3
        (some 5) := by
  have hle : ∀ l ∈ some 5, 3 ≤ l := by simp
  exact ⟨hle, cutsShort _ _ _ hle⟩

end

end Machine

end Micro65
