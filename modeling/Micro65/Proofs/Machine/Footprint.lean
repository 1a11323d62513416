import Micro65.Machine.Execute
/-!
# What an operation leaves alone

Every operation changes a few registers at most (`Machine.register_apply`), writes one byte to
memory or none (`Machine.memory_apply`), and never changes the settings (`Machine.settings_apply`).
The operations that give a result show it in two flags (`Machine.shows_apply`,
`Machine.shows_written`). Which bits of the status register an operation may change is said where
the flags are, and what it does to the program counter where the counter is.
-/

namespace Micro65

/-- The registers that an operation on a place may change. -/
def Operation.registers (p : Place) : Operation → List Register
  | .load r | .transfer _ r | .adjustRegister r _ => [r]
  | .add | .subtract | .combine _ => [.a]
  | .store _ | .shift _ | .adjust _ => if p = .accumulator then [.a] else []
  | .pushAccumulator | .pushStatus | .pullStatus => [.sp]
  | .pullAccumulator => [.a, .sp]
  | .compare _ | .branch _ _ | .setFlag _ _ | .idle => []

/-- The register that an operation on a place gives a result which the flags show. The stack
pointer has no sign to show. -/
def Operation.shown? (p : Place) : Operation → Option Register
  | .load r | .transfer _ r | .adjustRegister r _ => if r = .sp then none else some r
  | .add | .subtract | .combine _ | .pullAccumulator => some .a
  | .shift _ | .adjust _ => if p = .accumulator then some .a else none
  | .store _ | .compare _ | .branch _ _ | .pushAccumulator | .pushStatus | .pullStatus
  | .setFlag _ _ | .idle => none

/-- Whether an operation puts its result where it has found its operand. -/
def Operation.rewrites : Operation → Bool
  | .shift _ | .adjust _ => true
  | _ => false

/-- The address of a place in memory. -/
def Place.address? : Place → Option UInt16
  | .memory address => some address
  | .nowhere | .accumulator | .literal _ | .distance _ => none

namespace Machine

variable {μ : Type} {r : Register}

/-- The zero flag and the sign show a result. -/
structure Shows (m : Machine μ) (result : UInt8) : Prop where
  zero_eq : m.status.zero = decide (result = 0)
  negative_eq : m.status.negative = Word.isNegative result

/-! ## The parts of an operation -/

@[simp] theorem register_mapStatus (m : Machine μ) (f : Status → Status) (r : Register) :
    (m.mapStatus f).register r = m.register r := by
  cases r <;> rfl

@[simp] theorem register_assign_self (m : Machine μ) (r : Register) (value : UInt8) :
    (m.assign r value).register r = value := by
  cases r <;> rfl

theorem register_assign_of_ne (m : Machine μ) {other : Register} (value : UInt8) (h : r ≠ other) :
    (m.assign other value).register r = m.register r := by
  cases other <;> cases r <;> first | rfl | exact absurd rfl h

@[simp] theorem memory_assign (m : Machine μ) (r : Register) (value : UInt8) :
    (m.assign r value).memory = m.memory := by
  cases r <;> rfl

@[simp] theorem settings_assign (m : Machine μ) (r : Register) (value : UInt8) :
    (m.assign r value).settings = m.settings := by
  cases r <;> rfl

/-- A branch changes nothing but the program counter. -/
theorem exists_branch_eq (m : Machine μ) (flag : Flag) (value : Bool) (p : Place) :
    ∃ pc, m.branch flag value p = { m with pc } := by
  cases p with
  | distance bytes =>
    simp only [branch]
    split
    · exact ⟨_, rfl⟩
    · exact ⟨m.pc, rfl⟩
  | nowhere | accumulator | literal _ | memory _ => exact ⟨m.pc, rfl⟩

/-- A register that is not the stack pointer shows what it is given. -/
theorem shows_assign (m : Machine μ) (hr : r ≠ .sp) (value : UInt8) :
    (m.assign r value).Shows ((m.assign r value).register r) := by
  rw [register_assign_self]
  cases r with
  | sp => exact absurd rfl hr
  | a | x | y => exact ⟨rfl, rfl⟩

variable [Memory μ]

theorem register_write_of_ne (m : Machine μ) {p : Place} (value : UInt8)
    (h : p = .accumulator → r ≠ .a) : (m.write p value).register r = m.register r := by
  cases p with
  | accumulator =>
    cases r with
    | a => exact absurd rfl (h rfl)
    | x | y | sp => rfl
  | memory address => cases r <;> rfl
  | nowhere | literal _ | distance _ => rfl

@[simp] theorem settings_write (m : Machine μ) (p : Place) (value : UInt8) :
    (m.write p value).settings = m.settings := by
  cases p <;> rfl

/-! ## One operation -/

/-- **An operation changes at most its registers.** -/
theorem register_apply (m : Machine μ) {operation : Operation} {p : Place}
    (h : r ∉ operation.registers p) : (m.apply operation p).register r = m.register r := by
  cases operation with
  | load _ | transfer _ _ | adjustRegister _ _ | combine _ =>
    exact register_assign_of_ne _ _ (List.ne_of_not_mem_cons h)
  | add | subtract =>
    have hne : r ≠ .a := List.ne_of_not_mem_cons h
    exact (register_assign_of_ne _ _ hne).trans (register_mapStatus _ _ _)
  | store _ =>
    refine register_write_of_ne m _ fun hp => ?_
    simpa [Operation.registers, hp] using h
  | shift _ | adjust _ =>
    refine (register_mapStatus _ _ _).trans (register_write_of_ne m _ fun hp => ?_)
    simpa [Operation.registers, hp] using h
  | pushAccumulator | pushStatus | pullStatus =>
    cases r with
    | sp => exact absurd (List.mem_singleton_self _) h
    | a | x | y => rfl
  | pullAccumulator =>
    cases r with
    | a | sp => simp [Operation.registers] at h
    | x | y => rfl
  | branch flag value =>
    obtain ⟨pc, hbranch⟩ := m.exists_branch_eq flag value p
    simp only [apply, hbranch]
    cases r <;> rfl
  | compare _ | setFlag _ _ => exact register_mapStatus _ _ _
  | idle => rfl

/-- The byte that an operation on a place writes to memory, with its address. -/
def written? (m : Machine μ) (operation : Operation) (p : Place) : Option (UInt16 × UInt8) :=
  match operation with
  | .store r => p.address?.map (·, m.register r)
  | .shift s => p.address?.map (·, (s.apply (m.read p) m.status.carry).1)
  | .adjust delta => p.address?.map (·, m.read p + delta)
  | .pushAccumulator => some (stackAddress m.sp, m.a)
  | .pushStatus => some (stackAddress m.sp, m.status.toByte)
  | .load _ | .transfer _ _ | .adjustRegister _ _ | .add | .subtract | .combine _ | .compare _
  | .branch _ _ | .pullAccumulator | .pullStatus | .setFlag _ _ | .idle => none

/-- **An operation writes to memory what it writes, and nothing else.** -/
theorem memory_apply (m : Machine μ) (operation : Operation) (p : Place) :
    (m.apply operation p).memory =
      match m.written? operation p with
      | none => m.memory
      | some (address, value) => Memory.write m.memory address value := by
  cases operation with
  | load r | transfer _ r | adjustRegister r _ => exact memory_assign _ _ _
  | add | subtract | combine _ => exact memory_assign _ _ _
  | store _ | shift _ | adjust _ => cases p <;> rfl
  | branch flag value =>
    obtain ⟨pc, hbranch⟩ := m.exists_branch_eq flag value p
    simp only [apply, hbranch]
    rfl
  | compare _ | pushAccumulator | pushStatus | pullAccumulator | pullStatus | setFlag _ _ | idle =>
    rfl

/-- No operation changes the settings. -/
@[simp] theorem settings_apply (m : Machine μ) (operation : Operation) (p : Place) :
    (m.apply operation p).settings = m.settings := by
  cases operation with
  | load r | transfer _ r | adjustRegister r _ => exact settings_assign _ _ _
  | add | subtract | combine _ | pullAccumulator => exact settings_assign _ _ _
  | store _ | shift _ | adjust _ => exact settings_write _ _ _
  | branch flag value =>
    obtain ⟨pc, hbranch⟩ := m.exists_branch_eq flag value p
    simp only [apply, hbranch]
  | compare _ | pushAccumulator | pushStatus | pullStatus | setFlag _ _ | idle => rfl

/-- **A result in a register is shown.** -/
theorem shows_apply (m : Machine μ) {operation : Operation} {p : Place}
    (h : operation.shown? p = some r) :
    (m.apply operation p).Shows ((m.apply operation p).register r) := by
  cases operation with
  | load target | transfer _ target | adjustRegister target _ =>
    obtain ⟨hne, hr⟩ := Option.ite_none_left_eq_some.mp h
    cases hr
    exact shows_assign _ hne _
  | add | subtract | combine _ | pullAccumulator =>
    cases h
    exact shows_assign (r := .a) _ nofun _
  | shift _ | adjust _ =>
    obtain ⟨rfl, hr⟩ := Option.ite_none_right_eq_some.mp h
    cases hr
    exact ⟨rfl, rfl⟩
  | store _ | compare _ | branch _ _ | pushAccumulator | pushStatus | pullStatus | setFlag _ _
  | idle => cases h

/-- **A result in memory is shown.** -/
theorem shows_written (m : Machine μ) {operation : Operation} {p : Place} {address : UInt16}
    {value : UInt8} (hrewrites : operation.rewrites = true)
    (h : m.written? operation p = some (address, value)) : (m.apply operation p).Shows value := by
  cases operation with
  | shift _ | adjust _ =>
    obtain ⟨_, -, hvalue⟩ := Option.map_eq_some_iff.mp h
    cases hvalue
    cases p <;> exact ⟨rfl, rfl⟩
  | _ => cases hrewrites

end Machine

end Micro65
