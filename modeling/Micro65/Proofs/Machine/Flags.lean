import Micro65.Proofs.Machine.Hidden
/-!
# The flags that an instruction writes

Every operation writes some bits of the status register (`Operation.writes`) and leaves the others
as they were (`Machine.status_apply`). Only the instruction that takes the register from the stack
writes the bits without a meaning to the machine, so these stay what they were at the start of a run
that does not execute it (`Machine.status_of_after`); the interrupt and decimal flags are written by
the instructions that are there for it, besides.
-/

namespace Micro65

/-- The bits that show what has been put into a register: the sign and the zero, but none
for the stack pointer. -/
def Register.shownIn : Register → Status
  | .a | .x | .y => .ofByte 0x82
  | .sp => .ofByte 0x00

/-- The bits of the status register that an operation may change. -/
def Operation.writes : Operation → Status
  | .load r | .transfer _ r | .adjustRegister r _ => r.shownIn
  | .add | .subtract => .ofByte 0xC3
  | .compare _ | .shift _ => .ofByte 0x83
  | .combine _ | .adjust _ | .pullAccumulator => .ofByte 0x82
  | .setFlag flag _ => (Status.ofByte 0x00).set flag true
  | .pullStatus => .ofByte 0xFF
  | .store _ | .branch _ _ | .pushAccumulator | .pushStatus | .idle => .ofByte 0x00

/-- The instructions that write the mark of the break instruction or the bit without a use. -/
theorem eq_plp_of_writes {mnemonic : Mnemonic}
    (h : mnemonic.operation.writes.breakMark = true ∨ mnemonic.operation.writes.unused = true) :
    mnemonic = .plp := by
  revert h
  cases mnemonic <;> decide

/-- The instructions that write the interrupt flag. -/
theorem writes_interruptDisable_iff (mnemonic : Mnemonic) :
    mnemonic.operation.writes.interruptDisable = true ↔
      mnemonic = .sei ∨ mnemonic = .cli ∨ mnemonic = .plp := by
  cases mnemonic <;> decide

/-- The instructions that write the decimal flag. -/
theorem writes_decimal_iff (mnemonic : Mnemonic) :
    mnemonic.operation.writes.decimal = true ↔
      mnemonic = .sed ∨ mnemonic = .cld ∨ mnemonic = .plp := by
  cases mnemonic <;> decide

namespace Status

/-- What shows a result is hidden from a register that hides the zero and the sign. -/
theorem AgreesOff.afterResult_right {s hidden t : Status} (h : s.AgreesOff hidden t)
    (hzero : hidden.get .zero = true) (hnegative : hidden.get .negative = true) (result : UInt8) :
    s.AgreesOff hidden (t.afterResult result) := by
  rw [afterResult_eq]
  exact (h.set_right .zero hzero _).set_right .negative hnegative _

theorem agreesOff_afterResult (s : Status) (result : UInt8) :
    s.AgreesOff (.ofByte 0x82) (s.afterResult result) :=
  (AgreesOff.refl _ s).afterResult_right (by decide) (by decide) result

theorem agreesOff_compare (rule : CompareRule) (register value : UInt8) (s : Status) :
    s.AgreesOff (.ofByte 0x83) (rule.status register value s) := by
  obtain ⟨carry, zero, negative, hrule⟩ := exists_compare_eq rule register value
  rw [hrule]
  exact (((AgreesOff.refl _ s).set_right .carry (by decide) _).set_right
    .zero (by decide) _).set_right .negative (by decide) _

/-- Two registers agree on the bits that are left if all are hidden: on none. -/
theorem agreesOff_all (s t : Status) : s.AgreesOff (.ofByte 0xFF) t where
  get_eq flag hflag := by
    have hset : (ofByte 0xFF).get flag = true := by
      cases flag <;> decide
    rw [hset] at hflag
    cases hflag
  unused_eq hunused := absurd hunused (by decide)

end Status

namespace Machine

variable {μ : Type}

theorem agreesOff_assign (m : Machine μ) (r : Register) (result : UInt8) :
    m.status.AgreesOff r.shownIn (m.assign r result).status := by
  cases r with
  | sp => exact .refl _ _
  | a | x | y => exact Status.agreesOff_afterResult _ _

/-- A sum or a difference writes the carry and the overflow flag, besides what shows the result. -/
theorem agreesOff_assign_sum (m : Machine μ) (result : UInt8) (carry overflow : Bool) :
    m.status.AgreesOff (.ofByte 0xC3)
      ((m.mapStatus fun s => { s with carry, overflow }).assign .a result).status := by
  have hstatus : ((m.mapStatus fun s => { s with carry, overflow }).assign .a result).status =
      ((m.status.set .carry carry).set .overflow overflow).afterResult result := rfl
  have hsum : m.status.AgreesOff (.ofByte 0xC3)
      ((m.status.set .carry carry).set .overflow overflow) :=
    ((Status.AgreesOff.refl _ _).set_right .carry (by decide) _).set_right .overflow (by decide) _
  rw [hstatus]
  exact hsum.afterResult_right (by decide) (by decide) result

variable [Memory μ]

@[simp] theorem status_write (m : Machine μ) (p : Place) (value : UInt8) :
    (m.write p value).status = m.status := by
  cases p <;> rfl

omit [Memory μ] in
@[simp] theorem status_branch (m : Machine μ) (flag : Flag) (value : Bool) (p : Place) :
    (m.branch flag value p).status = m.status := by
  cases p with
  | distance bytes =>
    unfold branch
    simp only
    split <;> rfl
  | nowhere | accumulator | literal value | memory address => rfl

/-- **An operation changes at most the bits that it writes.** -/
theorem status_apply (m : Machine μ) (operation : Operation) (p : Place) :
    m.status.AgreesOff operation.writes (m.apply operation p).status := by
  have hrefl := Status.AgreesOff.refl
  cases operation with
  | load r => exact m.agreesOff_assign r _
  | store r =>
    simp only [apply, status_write]
    exact hrefl _ _
  | transfer source target => exact m.agreesOff_assign target _
  | add => exact m.agreesOff_assign_sum _ _ _
  | subtract => exact m.agreesOff_assign_sum _ _ _
  | combine logic => exact m.agreesOff_assign .a _
  | compare r => exact Status.agreesOff_compare _ _ _ _
  | shift s =>
    have hstatus : (m.apply (.shift s) p).status =
        (m.status.set .carry (s.apply (m.read p) m.status.carry).2).afterResult
          (s.apply (m.read p) m.status.carry).1 := by
      simp only [apply, mapStatus, status_write]
      rfl
    rw [hstatus]
    exact ((hrefl (.ofByte 0x83) _).set_right .carry (by decide) _).afterResult_right (by decide)
      (by decide) _
  | adjust delta =>
    simp only [apply, mapStatus, status_write]
    exact Status.agreesOff_afterResult _ _
  | adjustRegister r delta => exact m.agreesOff_assign r _
  | branch flag value =>
    simp only [apply, status_branch]
    exact hrefl _ _
  | pushAccumulator => exact hrefl _ _
  | pushStatus => exact hrefl _ _
  | pullAccumulator => exact m.pull.2.agreesOff_assign .a _
  -- Every bit comes from the stack.
  | pullStatus => exact Status.agreesOff_all _ _
  | setFlag flag value => exact (hrefl _ _).set_right flag (Status.get_set_self _ _ _) _
  | idle => exact hrefl _ _

/-! ## Along a run -/

variable {fetch : Machine μ → Fetch} {k : Nat} {m m₁ m₂ : Machine μ}

/-- **The bits without a meaning keep their values** along a run that does not take the
register from the stack. -/
theorem status_of_after (hafter : after fetch k m = some m₁)
    (hquiet : ∀ j < k, ∀ c, Executes fetch j m c → c.mnemonic? ≠ some .plp) :
    m₁.status.breakMark = m.status.breakMark ∧ m₁.status.unused = m.status.unused := by
  refine invariant_of_after
    (P := fun m₁ => m₁.status.breakMark = m.status.breakMark ∧ m₁.status.unused = m.status.unused)
    ⟨rfl, rfl⟩ ?_ hafter
  intro j hj m₁ c mnemonic p hexecutes hmnemonic hP
  have hne : mnemonic ≠ .plp := by
    rintro rfl
    exact hquiet j hj c hexecutes hmnemonic
  have hstatus := (m₁.advance c.size).status_apply mnemonic.operation p
  constructor
  · have hbreakMark : mnemonic.operation.writes.breakMark = false := by
      rw [Bool.eq_false_iff]
      exact fun h => hne (eq_plp_of_writes (.inl h))
    rw [← hP.1]
    exact (hstatus.get_eq .breakMark hbreakMark).symm
  · have hunused : mnemonic.operation.writes.unused = false := by
      rw [Bool.eq_false_iff]
      exact fun h => hne (eq_plp_of_writes (.inr h))
    rw [← hP.2]
    exact (hstatus.unused_eq hunused).symm

/-- A flag that an instruction of a run changes is one that the instruction writes. -/
theorem exists_writes_of_changed (flag : Flag) (hm₁ : after fetch k m = some m₁)
    (hm₂ : after fetch (k + 1) m = some m₂) (hchanged : m₂.status.get flag ≠ m₁.status.get flag) :
    ∃ c mnemonic, Executes fetch k m c ∧ c.mnemonic? = some mnemonic ∧
      mnemonic.operation.writes.get flag = true := by
  obtain ⟨m₁', c, mnemonic, hm₁', hexecutes, hmnemonic, p, rfl⟩ := exists_executes_of_after_succ hm₂
  rw [hm₁] at hm₁'
  cases hm₁'
  refine ⟨c, mnemonic, hexecutes, hmnemonic, ?_⟩
  rw [← Bool.not_eq_false]
  intro hwrites
  have hstatus := (m₁.advance c.size).status_apply mnemonic.operation p
  exact hchanged (hstatus.get_eq flag hwrites).symm

end Machine

end Micro65
