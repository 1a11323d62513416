import Micro65.Proofs.Machine.Executed
/-!
# Bits of the status register that a run does not look at

Some bits of the status register are hidden: two machines are alike if they differ in nothing but
these bits (`Machine.AlikeOff`). An operation shows a hidden bit only if it branches on it or puts
the register on the stack (`Operation.reveals`); every other operation takes alike machines to alike
machines (`Machine.AlikeOff.apply`), as long as the carry is not hidden, which sums and rotations
read. Two runs from alike machines that execute no such operation therefore go side by side,
whatever their length (`Machine.sameRuns`). The memory of alike machines is the same, and it may be
one that records what is written to it, so such runs make the same writes.
-/

namespace Micro65

namespace Status

/-- A result gives two flags values, which do not depend on the register. -/
theorem afterResult_eq (s : Status) (result : UInt8) :
    s.afterResult result = (s.set .zero (result = 0)).set .negative (Word.isNegative result) :=
  rfl

/-- A comparison gives three flags values, which do not depend on the register. -/
theorem exists_compare_eq (rule : CompareRule) (register value : UInt8) :
    ∃ carry zero negative, ∀ s, rule.status register value s =
      ((s.set .carry carry).set .zero zero).set .negative negative := by
  cases rule <;> exact ⟨_, _, _, fun _ => rfl⟩

/-- Two registers agree on the bits that are not set in `hidden`. -/
structure AgreesOff (s hidden t : Status) : Prop where
  get_eq : ∀ flag, hidden.get flag = false → s.get flag = t.get flag
  unused_eq : hidden.unused = false → s.unused = t.unused

namespace AgreesOff

variable {hidden s t : Status}

theorem refl (hidden s : Status) : s.AgreesOff hidden s :=
  ⟨fun _ _ => rfl, fun _ => rfl⟩

theorem symm (h : s.AgreesOff hidden t) : t.AgreesOff hidden s :=
  ⟨fun flag hflag => (h.get_eq flag hflag).symm, fun hunused => (h.unused_eq hunused).symm⟩

theorem trans {u : Status} (h : s.AgreesOff hidden t) (h' : t.AgreesOff hidden u) :
    s.AgreesOff hidden u :=
  ⟨fun flag hflag => (h.get_eq flag hflag).trans (h'.get_eq flag hflag),
    fun hunused => (h.unused_eq hunused).trans (h'.unused_eq hunused)⟩

/-- A flag that is set in both registers is set to the same value, or is hidden. -/
theorem set (h : s.AgreesOff hidden t) (flag : Flag) {v w : Bool}
    (hvalue : hidden.get flag = true ∨ v = w) : (s.set flag v).AgreesOff hidden (t.set flag w) where
  get_eq other hother := by
    by_cases hflag : flag = other
    · subst hflag
      rw [hother] at hvalue
      rw [get_set_self, get_set_self]
      exact hvalue.resolve_left Bool.false_ne_true
    · rw [get_set_of_ne s v hflag, get_set_of_ne t w hflag]
      exact h.get_eq other hother
  unused_eq hunused := by
    have hkept : ∀ (s : Status) (value : Bool), (s.set flag value).unused = s.unused := by
      intro s value
      cases flag <;> rfl
    rw [hkept, hkept]
    exact h.unused_eq hunused

/-- A hidden flag may be set in one register only. -/
theorem set_right (h : s.AgreesOff hidden t) (flag : Flag) (hflag : hidden.get flag = true)
    (v : Bool) : s.AgreesOff hidden (t.set flag v) := by
  have hsame : s = s.set flag (s.get flag) := by
    cases flag <;> rfl
  rw [hsame]
  exact h.set flag (.inl hflag)

theorem afterResult (h : s.AgreesOff hidden t) (result : UInt8) :
    (s.afterResult result).AgreesOff hidden (t.afterResult result) := by
  rw [Status.afterResult_eq, Status.afterResult_eq]
  exact (h.set .zero (.inr rfl)).set .negative (.inr rfl)

theorem compare (h : s.AgreesOff hidden t) (rule : CompareRule) (register value : UInt8) :
    (rule.status register value s).AgreesOff hidden (rule.status register value t) := by
  obtain ⟨carry, zero, negative, hrule⟩ := exists_compare_eq rule register value
  rw [hrule, hrule]
  exact ((h.set .carry (.inr rfl)).set .zero (.inr rfl)).set .negative (.inr rfl)

end AgreesOff

end Status

/-- Whether an operation shows what it finds in a hidden bit: it branches on it, or puts the whole
register on the stack. -/
def Operation.reveals (hidden : Status) : Operation → Bool
  | .branch flag _ => hidden.get flag
  | .pushStatus => true
  | _ => false

namespace Machine

variable {μ : Type}

/-- Two machines are alike if they differ at most in hidden bits of the status register, and in the
rule for the overflow flag if that is one of these bits. -/
structure AlikeOff (hidden : Status) (m m' : Machine μ) : Prop where
  a_eq : m.a = m'.a
  x_eq : m.x = m'.x
  y_eq : m.y = m'.y
  sp_eq : m.sp = m'.sp
  pc_eq : m.pc = m'.pc
  memory_eq : m.memory = m'.memory
  status : m.status.AgreesOff hidden m'.status
  compare_eq : m.settings.compare = m'.settings.compare
  stepLimit_eq : m.settings.stepLimit = m'.settings.stepLimit
  overflow_eq : hidden.overflow = true ∨ m.settings.overflow = m'.settings.overflow

/-- Two outcomes are alike if the results are the same and the machines are alike. -/
structure OutcomeAlikeOff {α : Type} (hidden : Status) (o o' : Outcome μ α) : Prop where
  result_eq : o.result = o'.result
  machine : o.machine.AlikeOff hidden o'.machine

namespace AlikeOff

variable {hidden : Status} {m m' : Machine μ}

/-! ## The parts of an operation -/

theorem mapStatus (h : m.AlikeOff hidden m') {f g : Status → Status}
    (hstatus : (f m.status).AgreesOff hidden (g m'.status)) :
    (m.mapStatus f).AlikeOff hidden (m'.mapStatus g) :=
  { h with status := hstatus }

theorem register (h : m.AlikeOff hidden m') (r : Register) : m.register r = m'.register r := by
  cases r with
  | a => exact h.a_eq
  | x => exact h.x_eq
  | y => exact h.y_eq
  | sp => exact h.sp_eq

theorem setRegister (h : m.AlikeOff hidden m') (r : Register) (value : UInt8) :
    (m.setRegister r value).AlikeOff hidden (m'.setRegister r value) := by
  cases r with
  | a => exact { h with a_eq := rfl }
  | x => exact { h with x_eq := rfl }
  | y => exact { h with y_eq := rfl }
  | sp => exact { h with sp_eq := rfl }

theorem assign (h : m.AlikeOff hidden m') (r : Register) (result : UInt8) :
    (m.assign r result).AlikeOff hidden (m'.assign r result) := by
  have hset := h.setRegister r result
  cases r with
  | sp => exact hset
  | a | x | y =>
    simp only [Machine.assign]
    exact hset.mapStatus (hset.status.afterResult result)

theorem advance (h : m.AlikeOff hidden m') (size : Nat) :
    (m.advance size).AlikeOff hidden (m'.advance size) :=
  { h with pc_eq := congrArg (· + UInt16.ofNat size) h.pc_eq }

/-- Neither machine branches unless the other does, if the flag is not hidden. -/
theorem branch (h : m.AlikeOff hidden m') {flag : Flag} (hflag : hidden.get flag = false)
    (value : Bool) (p : Place) :
    (m.branch flag value p).AlikeOff hidden (m'.branch flag value p) := by
  cases p with
  | distance bytes =>
    unfold Machine.branch
    simp only [h.status.get_eq flag hflag]
    split
    · exact { h with pc_eq := congrArg (Word.offset · bytes) h.pc_eq }
    · exact h
  | nowhere | accumulator | literal value | memory address => exact h

/-- A sum or a difference gives the carry and the overflow flag values of their own. -/
theorem assign_sum (h : m.AlikeOff hidden m') (result : UInt8) (carry : Bool) {v w : Bool}
    (hoverflow : hidden.overflow = true ∨ v = w) :
    ((m.mapStatus fun s => { s with carry, overflow := v }).assign .a result).AlikeOff hidden
      ((m'.mapStatus fun s => { s with carry, overflow := w }).assign .a result) := by
  refine (h.mapStatus ?_).assign .a result
  exact (h.status.set .carry (.inr (Eq.refl carry))).set .overflow hoverflow

variable [Memory μ]

theorem read (h : m.AlikeOff hidden m') (p : Place) : m.read p = m'.read p := by
  cases p with
  | accumulator => exact h.a_eq
  | memory address => exact congrArg (Memory.read · address) h.memory_eq
  | nowhere | literal value | distance bytes => rfl

theorem write (h : m.AlikeOff hidden m') (p : Place) (value : UInt8) :
    (m.write p value).AlikeOff hidden (m'.write p value) := by
  cases p with
  | accumulator => exact { h with a_eq := rfl }
  | memory address =>
    exact { h with memory_eq := congrArg (Memory.write · address value) h.memory_eq }
  | nowhere | literal value | distance bytes => exact h

theorem push (h : m.AlikeOff hidden m') (value : UInt8) :
    (m.push value).AlikeOff hidden (m'.push value) :=
  { h with
    sp_eq := congrArg (· - 1) h.sp_eq
    memory_eq := by
      unfold Machine.push
      simp only [h.sp_eq, h.memory_eq] }

theorem pull (h : m.AlikeOff hidden m') :
    m.pull.1 = m'.pull.1 ∧ m.pull.2.AlikeOff hidden m'.pull.2 := by
  refine ⟨?_, { h with sp_eq := congrArg (· + 1) h.sp_eq }⟩
  unfold Machine.pull
  simp only [h.sp_eq, h.memory_eq]

theorem place? (h : m.AlikeOff hidden m') (mode : Mode) (operand : Option UInt16) :
    m.place? mode operand = m'.place? mode operand := by
  have hlocate : ∀ operand, m.locate mode operand = m'.locate mode operand := by
    intro operand
    unfold locate
    simp only [h.x_eq, h.y_eq, h.memory_eq]
  unfold Machine.place?
  rw [hlocate, funext hlocate]

/-! ## One operation -/

/-- **An operation that shows no hidden bit takes alike machines to alike machines.** -/
theorem apply (h : m.AlikeOff hidden m') (hcarry : hidden.carry = false) {operation : Operation}
    (hquiet : operation.reveals hidden = false) (p : Place) :
    (m.apply operation p).AlikeOff hidden (m'.apply operation p) := by
  have hsame : m.status.carry = m'.status.carry := h.status.get_eq .carry hcarry
  cases operation with
  | load r =>
    simp only [Machine.apply, h.read p]
    exact h.assign r _
  | store r =>
    simp only [Machine.apply, h.register r]
    exact h.write p _
  | transfer source target =>
    simp only [Machine.apply, h.register source]
    exact h.assign target _
  | add =>
    simp only [Machine.apply, addWithCarry, h.read p, h.a_eq, hsame]
    exact h.assign_sum _ _ (h.overflow_eq.imp_right fun hrule => by rw [hrule])
  | subtract =>
    simp only [Machine.apply, subtractWithBorrow, h.read p, h.a_eq, hsame]
    exact h.assign_sum _ _ (h.overflow_eq.imp_right fun hrule => by rw [hrule])
  | combine logic =>
    simp only [Machine.apply, h.read p, h.a_eq]
    exact h.assign .a _
  | compare r =>
    simp only [Machine.apply, h.read p, h.register r, h.compare_eq]
    exact h.mapStatus (h.status.compare _ _ _)
  | shift s =>
    simp only [Machine.apply, h.read p, hsame]
    exact (h.write p _).mapStatus
      (((h.write p _).status.set .carry (.inr rfl)).afterResult _)
  | adjust delta =>
    simp only [Machine.apply, h.read p]
    exact (h.write p _).mapStatus ((h.write p _).status.afterResult _)
  | adjustRegister r delta =>
    simp only [Machine.apply, h.register r]
    exact h.assign r _
  | branch flag value => exact h.branch hquiet value p
  | pushAccumulator =>
    simp only [Machine.apply, h.a_eq]
    exact h.push _
  | pushStatus => cases hquiet
  | pullAccumulator =>
    obtain ⟨hvalue, hpulled⟩ := h.pull
    simp only [Machine.apply, hvalue]
    exact hpulled.assign .a _
  | pullStatus =>
    obtain ⟨hvalue, hpulled⟩ := h.pull
    simp only [Machine.apply, hvalue]
    exact { hpulled with status := .refl hidden _ }
  | setFlag flag value =>
    simp only [Machine.apply]
    exact h.mapStatus (h.status.set flag (.inr rfl))
  | idle => exact h

/-! ## One command, one turn -/

/-- **A command does the same to alike machines**, unless it shows a hidden bit. -/
theorem perform (h : m.AlikeOff hidden m') (hcarry : hidden.carry = false) {c : Command}
    (hquiet : ∀ mnemonic m₁, m.perform c = ⟨.ok mnemonic, m₁⟩ →
      mnemonic.operation.reveals hidden = false) :
    OutcomeAlikeOff hidden (m.perform c) (m'.perform c) := by
  -- The operand and its place, and with them every fault, are found without the status register.
  cases c with
  | encoded opcode bytes =>
    unfold Machine.perform executeBytes at hquiet ⊢
    simp only [← h.place?, ← h.pc_eq] at hquiet ⊢
    cases hmnemonic : (Slot.ofOpcode opcode).instruction? with
    | none => exact ⟨rfl, h⟩
    | some mnemonic =>
      cases hoperand : Encoding.readOperand? (Slot.ofOpcode opcode).operandSize bytes with
      | none => exact ⟨rfl, h⟩
      | some operand =>
        simp only [hmnemonic, hoperand] at hquiet ⊢
        cases hp : m.place? (Slot.ofOpcode opcode).mode operand with
        | none => exact ⟨rfl, h⟩
        | some p =>
          simp only [hp] at hquiet
          exact ⟨rfl, (h.advance _).apply hcarry (hquiet mnemonic _ rfl) p⟩
  | decoded i =>
    unfold Machine.perform execute at hquiet ⊢
    simp only [← h.place?] at hquiet ⊢
    by_cases hmode : i.mnemonic.hasMode i.mode = true
    · simp only [hmode, if_true] at hquiet ⊢
      cases hp : m.place? i.mode i.operand with
      | none => exact ⟨rfl, h⟩
      | some p =>
        simp only [hp] at hquiet
        exact ⟨rfl, (h.advance _).apply hcarry (hquiet i.mnemonic _ rfl) p⟩
    · simp only [hmode]
      exact ⟨rfl, h⟩

end AlikeOff

variable [Memory μ] {hidden : Status} {m m' : Machine μ} {fetch : Machine μ → Fetch}

/-- Two turns are alike if both execute an instruction or both end the run, with alike machines. -/
inductive TurnsAlikeOff (hidden : Status) :
    Except (Outcome μ Summary) (Machine μ) → Except (Outcome μ Summary) (Machine μ) → Prop where
  | executed {m m' : Machine μ} (machine : m.AlikeOff hidden m') :
      TurnsAlikeOff hidden (.ok m) (.ok m')
  | ended {o o' : Outcome μ Summary} (outcome : OutcomeAlikeOff hidden o o') :
      TurnsAlikeOff hidden (.error o) (.error o')

omit [Memory μ] in
/-- Alike turns lead to alike machines, or to none. -/
theorem TurnsAlikeOff.toOption {t t' : Except (Outcome μ Summary) (Machine μ)}
    (h : TurnsAlikeOff hidden t t') : Option.Rel (AlikeOff hidden) t.toOption t'.toOption := by
  cases h with
  | executed hmachine => exact .some hmachine
  | ended houtcome => exact .none

theorem AlikeOff.turn (h : m.AlikeOff hidden m') (hcarry : hidden.carry = false)
    (hfetch : fetch m = fetch m') (n : Nat)
    (hquiet : ∀ c mnemonic m₁, fetch m = .command c → Machine.turn fetch n m = .ok m₁ →
      c.mnemonic? = some mnemonic → mnemonic.operation.reveals hidden = false) :
    TurnsAlikeOff hidden (Machine.turn fetch n m) (Machine.turn fetch n m') := by
  have hlimit : m.limitFault? n = m'.limitFault? n := by
    unfold limitFault?
    rw [h.stepLimit_eq]
  unfold Machine.turn at hquiet ⊢
  rw [← hfetch, ← hlimit]
  cases hm : fetch m with
  | stop ending => exact .ended ⟨rfl, h⟩
  | fault f => exact .ended ⟨rfl, h⟩
  | command c =>
    simp only [hm] at hquiet ⊢
    cases hover : m.limitFault? n with
    | some f => exact .ended ⟨rfl, h⟩
    | none =>
      simp only [hover] at hquiet ⊢
      have hperform : OutcomeAlikeOff hidden (m.perform c) (m'.perform c) := by
        refine h.perform hcarry fun mnemonic m₁ hdone => ?_
        rw [hdone] at hquiet
        exact hquiet c mnemonic m₁ rfl rfl (exists_place_of_perform hdone).1
      generalize m.perform c = o at hperform
      generalize m'.perform c = o' at hperform
      obtain ⟨result, m₁⟩ := o
      obtain ⟨result', m₁'⟩ := o'
      obtain ⟨rfl, hmachine⟩ := hperform
      cases result with
      | ok mnemonic => exact .executed hmachine
      | error f => exact .ended ⟨rfl, hmachine⟩

/-! ## Whole runs -/

/-- **Two runs side by side**: they execute the same commands, and behind every number of
instructions and at their ends they have the same result and alike machines. -/
structure SameRuns (hidden : Status) (fetch : Machine μ → Fetch) (m m' : Machine μ) : Prop where
  executes_iff : ∀ k c, Executes fetch k m c ↔ Executes fetch k m' c
  after_alike : ∀ k, Option.Rel (AlikeOff hidden) (after fetch k m) (after fetch k m')
  run_alike : ∀ fuel, Option.Rel (OutcomeAlikeOff hidden) (run fetch fuel m) (run fetch fuel m')

section

variable (hcarry : hidden.carry = false)
  (hfetch : ∀ m m' : Machine μ, m.AlikeOff hidden m' → fetch m = fetch m')
  (hquiet : ∀ k c, Executes fetch k m c →
    ∀ mnemonic ∈ c.mnemonic?, mnemonic.operation.reveals hidden = false)

include hcarry hfetch hquiet

/-- A turn of the first run is alike to the turn of the second, if the machines are. -/
theorem turnsAlikeOff_of_after {k : Nat} {m₁ m₁' : Machine μ} (hafter : after fetch k m = some m₁)
    (h : m₁.AlikeOff hidden m₁') :
    TurnsAlikeOff hidden (turn fetch k m₁) (turn fetch k m₁') :=
  h.turn hcarry (hfetch m₁ m₁' h) k fun c mnemonic m₂ hm hturn hmnemonic =>
    hquiet k c ⟨m₁, m₂, hafter, hm, hturn⟩ mnemonic hmnemonic

/-- **The runs stay side by side**, by induction on the number of instructions. -/
theorem after_alikeOff (h : m.AlikeOff hidden m') (k : Nat) :
    Option.Rel (AlikeOff hidden) (after fetch k m) (after fetch k m') := by
  induction k with
  -- A run starts at address 0, wherever the machine stands.
  | zero => exact .some { h with pc_eq := rfl }
  | succ k ih =>
    rw [after_succ_eq, after_succ_eq]
    generalize hafter : after fetch k m = o at ih
    generalize after fetch k m' = o' at ih
    cases ih with
    | none => exact .none
    | some halike => exact (turnsAlikeOff_of_after hcarry hfetch hquiet hafter halike).toOption

/-- Behind so many instructions, both runs have no machine, or they have alike machines with alike
turns to come. -/
theorem after_cases (h : m.AlikeOff hidden m') (k : Nat) :
    (after fetch k m = none ∧ after fetch k m' = none) ∨
      ∃ m₁ m₁', after fetch k m = some m₁ ∧ after fetch k m' = some m₁' ∧ fetch m₁ = fetch m₁' ∧
        TurnsAlikeOff hidden (turn fetch k m₁) (turn fetch k m₁') := by
  have halike := after_alikeOff hcarry hfetch hquiet h k
  generalize hafter : after fetch k m = o at halike
  generalize after fetch k m' = o' at halike
  cases halike with
  | none => exact .inl ⟨rfl, rfl⟩
  | some halike =>
    exact .inr ⟨_, _, rfl, rfl, hfetch _ _ halike,
      turnsAlikeOff_of_after hcarry hfetch hquiet hafter halike⟩

/-- **Runs from alike machines go side by side**, if the first shows no hidden bit. -/
theorem sameRuns (h : m.AlikeOff hidden m') : SameRuns hidden fetch m m' where
  executes_iff k c := by
    unfold Executes
    obtain ⟨hnone, hnone'⟩ | ⟨m₁, m₁', hafter, hafter', hsame, hturns⟩ :=
      after_cases hcarry hfetch hquiet h k
    · simp [hnone, hnone']
    · rw [hafter, hafter']
      constructor
      · rintro ⟨m₂, m₃, hm, hc, hturn⟩
        cases hm
        rw [hturn] at hturns
        generalize hturn' : turn fetch k m₁' = t at hturns
        cases hturns with
        | executed hmachine => exact ⟨m₁', _, rfl, hsame ▸ hc, hturn'⟩
      · rintro ⟨m₂, m₃, hm, hc, hturn⟩
        cases hm
        rw [hturn] at hturns
        generalize hturn' : turn fetch k m₁ = t at hturns
        cases hturns with
        | executed hmachine => exact ⟨m₁, _, rfl, hsame ▸ hc, hturn'⟩
  after_alike := after_alikeOff hcarry hfetch hquiet h
  run_alike fuel := by
    cases hrun : run fetch fuel m with
    | none =>
      obtain ⟨m₁, hm₁⟩ := run_eq_none_iff.mp hrun
      obtain ⟨hnone, -⟩ | ⟨-, m₁', -, hafter', -⟩ := after_cases hcarry hfetch hquiet h fuel
      · rw [hnone] at hm₁
        cases hm₁
      · rw [run_eq_none_iff.mpr ⟨m₁', hafter'⟩]
        exact .none
    | some o =>
      obtain ⟨k, hk, m₂, hm₂, hturn⟩ := run_eq_some_iff.mp hrun
      obtain ⟨hnone, -⟩ | ⟨m₁, m₁', hafter, hafter', -, hturns⟩ :=
        after_cases hcarry hfetch hquiet h k
      · rw [hnone] at hm₂
        cases hm₂
      · rw [hafter] at hm₂
        cases hm₂
        rw [hturn] at hturns
        generalize hturn' : turn fetch k m₁' = t at hturns
        cases hturns with
        | ended houtcome =>
          rw [run_eq_some_iff.mpr ⟨k, hk, m₁', hafter', hturn'⟩]
          exact .some houtcome

end

omit [Memory μ] in
/-- What comes next in an image depends on the program counter only. -/
theorem fetchRom_congr (rom : Array UInt8) (h : m.pc = m'.pc) :
    fetchRom rom m = fetchRom rom m' := by
  unfold fetchRom
  rw [h]

end Machine

end Micro65
