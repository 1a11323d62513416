import Micro65.Machine.Run
/-!
# Runs, turn by turn

A run takes turns: it ends, or it executes one more instruction (`Machine.turn`). `Machine.after`
is the machine behind a number of instructions. A run ends with an outcome exactly if the turn after
some number of instructions does (`Machine.run_eq_some_iff`), so what is said of turns and of the
machines behind them is said of runs of any length, those without an end included.
-/

namespace Micro65

namespace Machine

variable {μ : Type} [Memory μ]

/-- The turn of a run after `n` instructions: the machine behind one more, or the outcome with which
the run ends. -/
def turn (fetch : Machine μ → Fetch) (n : Nat) (m : Machine μ) :
    Except (Outcome μ Summary) (Machine μ) :=
  match fetch m with
  | .stop ending => .error ⟨.ok ⟨n, ending⟩, m⟩
  | .fault f => .error ⟨.error f, m⟩
  | .command c =>
    match m.limitFault? n with
    | some f => .error ⟨.error f, m⟩
    | none =>
      match m.perform c with
      | ⟨.ok _, m⟩ => .ok m
      | ⟨.error f, m⟩ => .error ⟨.error f, m⟩

/-- The machine behind `k` further instructions of a run after `n`, if the run gets so far. -/
def reach (fetch : Machine μ → Fetch) : (n k : Nat) → Machine μ → Option (Machine μ)
  | _, 0, m => some m
  | n, k + 1, m =>
    match turn fetch n m with
    | .ok m => reach fetch (n + 1) k m
    | .error _ => none

/-- The machine behind the first `k` instructions of a run, if the run gets so far. -/
def after (fetch : Machine μ → Fetch) (k : Nat) (m : Machine μ) : Option (Machine μ) :=
  reach fetch 0 k { m with pc := 0 }

variable {fetch : Machine μ → Fetch} {fuel n k : Nat} {m m' : Machine μ} {o : Outcome μ Summary}

omit [Memory μ] in
/-- The only fault that a limit leads to is the limit. -/
theorem limitFault?_cases (m : Machine μ) (n : Nat) :
    m.limitFault? n = none ∨ ∃ limit, m.limitFault? n = some (.limitReached limit) ∧
      m.settings.stepLimit = some limit ∧ limit ≤ n := by
  unfold limitFault?
  split
  · exact .inl rfl
  · rename_i limit hlimit
    by_cases hle : limit ≤ n
    · exact .inr ⟨limit, if_pos hle, hlimit, hle⟩
    · exact .inl (if_neg hle)

theorem runFrom_succ :
    runFrom fetch (fuel + 1) n m =
      match turn fetch n m with
      | .error o => some o
      | .ok m => runFrom fetch fuel (n + 1) m := by
  rw [runFrom]
  unfold turn
  cases fetch m with
  | stop ending => rfl
  | fault f => rfl
  | command c =>
    simp only
    cases m.limitFault? n with
    | some f => rfl
    | none =>
      simp only
      obtain ⟨result, m'⟩ := m.perform c
      cases result <;> rfl

theorem reach_succ :
    reach fetch n (k + 1) m = some m' ↔
      ∃ m₁, turn fetch n m = .ok m₁ ∧ reach fetch (n + 1) k m₁ = some m' := by
  rw [reach]
  cases turn fetch n m with
  | error o => simp
  | ok m₁ =>
    constructor
    · intro h
      exact ⟨m₁, rfl, h⟩
    · rintro ⟨m₂, h, hreach⟩
      cases h
      exact hreach

/-- The last of some instructions is executed on the machine behind the others. -/
theorem reach_succ' :
    reach fetch n (k + 1) m = some m' ↔
      ∃ m₁, reach fetch n k m = some m₁ ∧ turn fetch (n + k) m₁ = .ok m' := by
  induction k generalizing n m with
  | zero =>
    rw [reach_succ]
    constructor
    · rintro ⟨m₁, hturn, h⟩
      cases h
      exact ⟨m, rfl, hturn⟩
    · rintro ⟨m₁, h, hturn⟩
      cases h
      exact ⟨m', hturn, rfl⟩
  | succ k ih =>
    rw [reach_succ]
    have hadd : n + 1 + k = n + (k + 1) := by omega
    constructor
    · rintro ⟨m₁, hturn, h⟩
      obtain ⟨m₂, hreach, hlast⟩ := ih.mp h
      rw [hadd] at hlast
      exact ⟨m₂, reach_succ.mpr ⟨m₁, hturn, hreach⟩, hlast⟩
    · rintro ⟨m₂, h, hlast⟩
      obtain ⟨m₁, hturn, hreach⟩ := reach_succ.mp h
      rw [← hadd] at hlast
      exact ⟨m₁, hturn, ih.mpr ⟨m₂, hreach, hlast⟩⟩

theorem after_succ :
    after fetch (k + 1) m = some m' ↔
      ∃ m₁, after fetch k m = some m₁ ∧ turn fetch k m₁ = .ok m' := by
  unfold after
  rw [reach_succ', Nat.zero_add]

/-- The machine behind one more instruction, or none, as an equation. -/
theorem after_succ_eq :
    after fetch (k + 1) m = (after fetch k m).bind fun m₁ => (turn fetch k m₁).toOption := by
  ext m'
  rw [after_succ, Option.bind_eq_some_iff]
  refine exists_congr fun m₁ => and_congr_right fun _ => ?_
  cases turn fetch k m₁ with
  | ok m₂ => simp [Except.toOption]
  | error o => simp [Except.toOption]

/-- Two runs are behind the same machines as long as their turns are the same. -/
theorem after_congr {fetch' : Machine μ → Fetch}
    (h : ∀ j < k, ∀ m', after fetch j m = some m' → turn fetch j m' = turn fetch' j m') :
    after fetch k m = after fetch' k m := by
  induction k with
  | zero => rfl
  | succ k ih =>
    have hsame := ih fun j hj => h j (Nat.lt_succ_of_lt hj)
    ext m'
    rw [after_succ, after_succ, ← hsame]
    constructor
    · rintro ⟨m₁, hafter, hturn⟩
      rw [h k (Nat.lt_succ_self k) m₁ hafter] at hturn
      exact ⟨m₁, hafter, hturn⟩
    · rintro ⟨m₁, hafter, hturn⟩
      rw [← h k (Nat.lt_succ_self k) m₁ hafter] at hturn
      exact ⟨m₁, hafter, hturn⟩

/-- A run that takes over every instruction of another passes through the same machines. -/
theorem after_of_turn {fetch' : Machine μ → Fetch}
    (h : ∀ n m m', turn fetch n m = .ok m' → turn fetch' n m = .ok m')
    (hafter : after fetch k m = some m') : after fetch' k m = some m' := by
  induction k generalizing m' with
  | zero => exact hafter
  | succ k ih =>
    obtain ⟨m₁, hreach, hturn⟩ := after_succ.mp hafter
    exact after_succ.mpr ⟨m₁, ih hreach, h k m₁ m' hturn⟩

theorem runFrom_eq_some_iff :
    runFrom fetch fuel n m = some o ↔
      ∃ k < fuel, ∃ m', reach fetch n k m = some m' ∧ turn fetch (n + k) m' = .error o := by
  induction fuel generalizing n m with
  | zero => simp [runFrom]
  | succ fuel ih =>
    rw [runFrom_succ]
    cases hturn : turn fetch n m with
    | error o' =>
      constructor
      · intro h
        cases h
        exact ⟨0, Nat.succ_pos fuel, m, rfl, hturn⟩
      · rintro ⟨k, -, m', hreach, hlast⟩
        cases k with
        | zero =>
          cases hreach
          rw [Nat.add_zero, hturn] at hlast
          cases hlast
          rfl
        | succ k =>
          obtain ⟨m₁, h, -⟩ := reach_succ.mp hreach
          rw [hturn] at h
          cases h
    | ok m₁ =>
      simp only
      rw [ih]
      constructor
      · rintro ⟨k, hk, m', hreach, hlast⟩
        refine ⟨k + 1, Nat.succ_lt_succ hk, m', reach_succ.mpr ⟨m₁, hturn, hreach⟩, ?_⟩
        rw [← hlast]
        congr 1
        omega
      · rintro ⟨k, hk, m', hreach, hlast⟩
        cases k with
        | zero =>
          cases hreach
          rw [Nat.add_zero, hturn] at hlast
          cases hlast
        | succ k =>
          obtain ⟨m₂, h, hreach⟩ := reach_succ.mp hreach
          rw [hturn] at h
          cases h
          refine ⟨k, Nat.lt_of_succ_lt_succ hk, m', hreach, ?_⟩
          rw [← hlast]
          congr 1
          omega

theorem runFrom_eq_none_iff :
    runFrom fetch fuel n m = none ↔ ∃ m', reach fetch n fuel m = some m' := by
  induction fuel generalizing n m with
  | zero => exact ⟨fun _ => ⟨m, rfl⟩, fun _ => rfl⟩
  | succ fuel ih =>
    rw [runFrom_succ, reach]
    cases turn fetch n m with
    | error o => simp
    | ok m₁ => exact ih

/-- A run that has no end yet has executed as many instructions as it was looked at for. -/
theorem run_eq_none_iff :
    run fetch fuel m = none ↔ ∃ m', after fetch fuel m = some m' :=
  runFrom_eq_none_iff

/-- **A run ends with the outcome of the first turn that has one.** -/
theorem run_eq_some_iff :
    run fetch fuel m = some o ↔
      ∃ k < fuel, ∃ m', after fetch k m = some m' ∧ turn fetch k m' = .error o := by
  unfold run after
  rw [runFrom_eq_some_iff]
  simp only [Nat.zero_add]

/-- A run that has ended ends the same when it is looked at for longer. -/
theorem run_of_le {fuel fuel' : Nat} (h : run fetch fuel m = some o) (hle : fuel ≤ fuel') :
    run fetch fuel' m = some o := by
  obtain ⟨k, hk, hends⟩ := run_eq_some_iff.mp h
  exact run_eq_some_iff.mpr ⟨k, Nat.lt_of_lt_of_le hk hle, hends⟩

/-- A run has one outcome. -/
theorem eq_of_run {fuel fuel' : Nat} {o' : Outcome μ Summary} (h : run fetch fuel m = some o)
    (h' : run fetch fuel' m = some o') : o = o' := by
  have hlong := run_of_le h (Nat.le_max_left fuel fuel')
  rw [run_of_le h' (Nat.le_max_right fuel fuel')] at hlong
  exact (Option.some.inj hlong).symm

end Machine

end Micro65
