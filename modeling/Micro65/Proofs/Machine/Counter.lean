import Micro65.Machine.Execute
/-!
# The program counter

An instruction moves the program counter behind itself. After that only a branch moves it, and a
branch does so only if its flag has the value it asks for (`Machine.branch_of_ne`). No other
operation looks at the program counter or changes it (`Machine.pc_apply`).
-/

namespace Micro65

namespace Word

/-- Distances are added modulo the size of the address space. -/
theorem toNat_offset (w : UInt16) (d : Int) :
    ((offset w d).toNat : Int) = (w.toNat + d) % 0x10000 := by
  have hnat : ((UInt16.ofInt d).toNat : Int) = d % 65536 := by
    unfold UInt16.ofInt
    rw [UInt16.toNat_ofNat']
    omega
  unfold offset
  rw [UInt16.toNat_add]
  omega

end Word

namespace Machine

variable {μ : Type}

@[simp] theorem pc_assign (m : Machine μ) (r : Register) (result : UInt8) :
    (m.assign r result).pc = m.pc := by
  cases r <;> rfl

theorem toNat_pc_advance (m : Machine μ) (size : Nat) :
    (m.advance size).pc.toNat = (m.pc.toNat + size) % 0x10000 := by
  unfold advance
  rw [UInt16.toNat_add, UInt16.toNat_ofNat']
  omega

/-- A branch that is taken jumps over its distance. -/
theorem pc_branch_of_eq {m : Machine μ} {flag : Flag} {value : Bool} (h : m.status.get flag = value)
    (bytes : Int) : (m.branch flag value (.distance bytes)).pc = Word.offset m.pc bytes := by
  simp only [branch, if_pos h]

theorem branch_of_ne {m : Machine μ} {flag : Flag} {value : Bool} (h : m.status.get flag ≠ value)
    (p : Place) : m.branch flag value p = m := by
  cases p with
  | distance bytes => exact if_neg h
  | _ => rfl

variable [Memory μ]

@[simp] theorem pc_write (m : Machine μ) (p : Place) (value : UInt8) :
    (m.write p value).pc = m.pc := by
  cases p <;> rfl

/-- **No operation other than a branch moves the program counter.** -/
theorem pc_apply {operation : Operation} (h : ∀ flag value, operation ≠ .branch flag value)
    (m : Machine μ) (p : Place) : (m.apply operation p).pc = m.pc := by
  cases operation with
  | branch flag value => exact absurd rfl (h flag value)
  | load r | transfer r r' | combine logic | adjustRegister r delta => exact pc_assign ..
  | store r => exact pc_write ..
  | add | subtract | compare r | setFlag flag value | idle => rfl
  | pushAccumulator | pushStatus | pullAccumulator | pullStatus => rfl
  | shift s | adjust delta => exact pc_write ..

end Machine

end Micro65
