import Mathlib.Data.List.Nodup
import Micro65.Proofs.Machine.Flags
import Micro65.Proofs.Machine.Footprint
import Micro65.Proofs.Machine.WideArithmetic
/-!
# Shifts of numbers of several bytes

A number of several bytes is shifted by one bit if its bytes are rotated one after the other, each
taking over the bit that has left the one before: to the left from the least significant byte on, to
the right from the most significant one on. Both are one relation between two machines, read in
either direction (`Machine.Rotated`): the number behind a rotation to the left, with the carry above
it, is twice the number before, with the carry below it. One rotation is in this relation for its
byte (`Machine.rotated_rol`, `Machine.rotated_ror`), and a byte in front of a number keeps it so
(`Machine.Rotated.cons`). That one direction undoes the other is then a matter of arithmetic
(`Machine.Rotated.memory_eq`). The main statement is `Machine.wideShifts`.
-/

namespace Micro65

/-- The addresses of so many bytes from an address on. The last address is followed by the first. -/
def Word.addresses (start : UInt16) (count : Nat) : List UInt16 :=
  (List.range count).map fun i => start + UInt16.ofNat i

@[simp] theorem Word.length_addresses (start : UInt16) (count : Nat) :
    (addresses start count).length = count := by
  simp [addresses]

/-- No address comes twice before all have come. -/
theorem Word.nodup_addresses (start : UInt16) {count : Nat} (h : count ≤ 0x10000) :
    (addresses start count).Nodup := by
  refine List.Nodup.map_on (fun i hi j hj heq => ?_) List.nodup_range
  have hsame := UInt16.toNat_inj.mpr heq
  rw [List.mem_range] at hi hj
  rw [UInt16.toNat_add, UInt16.toNat_add, UInt16.toNat_ofNat', UInt16.toNat_ofNat'] at hsame
  omega

namespace Ram

/-- The number held at some addresses, the least significant byte first. -/
def number (m : Ram) (addresses : List UInt16) : Nat :=
  Bytes.value (addresses.map m.read)

variable {m m' : Ram} {addresses : List UInt16}

@[simp] theorem number_nil (m : Ram) : m.number [] = 0 := rfl

@[simp] theorem number_cons (m : Ram) (address : UInt16) (addresses : List UInt16) :
    m.number (address :: addresses) = (m.read address).toNat + 256 * m.number addresses := rfl

theorem number_congr (h : ∀ address ∈ addresses, m.read address = m'.read address) :
    m.number addresses = m'.number addresses := by
  unfold number
  rw [List.map_congr_left h]

/-- The bytes of a number are known from it. -/
theorem read_eq_of_number_eq (h : m.number addresses = m'.number addresses) :
    ∀ address ∈ addresses, m.read address = m'.read address :=
  List.map_inj_left.mp (Bytes.eq_of_value_eq (by simp) h)

/-- Memory is known from its bytes. -/
theorem eq_of_read_eq (h : ∀ address, m.read address = m'.read address) : m = m' := by
  obtain ⟨cells⟩ := m
  obtain ⟨cells'⟩ := m'
  congr 1
  ext i hi
  have hread := h (UInt16.ofNat i)
  have hnat : (UInt16.ofNat i).toNat = i := UInt16.toNat_ofNat_of_lt hi
  simp only [read, hnat] at hread
  exact congrArg UInt8.toNat hread

end Ram

/-! ## One byte -/

theorem eq_of_toNat_eq : ∀ {carry carry' : Bool}, carry.toNat = carry'.toNat → carry = carry' := by
  decide

namespace Shift

/-- A rotation to the left doubles a byte with the carry below it, up to the carry above it. -/
theorem toNat_rotateLeft (b : UInt8) (carry : Bool) :
    (rotateLeft.apply b carry).1.toNat + (rotateLeft.apply b carry).2.toNat * 256 =
      2 * b.toNat + carry.toNat := by
  have h : ∀ n : Fin 256, ∀ carry : Bool,
      (rotateLeft.apply (UInt8.ofNat n) carry).1.toNat +
          (rotateLeft.apply (UInt8.ofNat n) carry).2.toNat * 256 =
        2 * (UInt8.ofNat n).toNat + carry.toNat := by
    decide +kernel
  simpa using h ⟨b.toNat, b.toNat_lt⟩ carry

/-- A rotation to the right is read as one to the left, from the result to the byte. -/
theorem toNat_rotateRight (b : UInt8) (carry : Bool) :
    b.toNat + carry.toNat * 256 =
      2 * (rotateRight.apply b carry).1.toNat + (rotateRight.apply b carry).2.toNat := by
  have h : ∀ n : Fin 256, ∀ carry : Bool,
      (UInt8.ofNat n).toNat + carry.toNat * 256 =
        2 * (rotateRight.apply (UInt8.ofNat n) carry).1.toNat +
          (rotateRight.apply (UInt8.ofNat n) carry).2.toNat := by
    decide +kernel
  simpa using h ⟨b.toNat, b.toNat_lt⟩ carry

/-- A shift to the left is a rotation without a carry. -/
theorem left_apply (b : UInt8) (carry : Bool) :
    left.apply b carry = rotateLeft.apply b false := by
  simp [apply]

/-- A shift to the right is a rotation without a carry. -/
theorem right_apply (b : UInt8) (carry : Bool) :
    right.apply b carry = rotateRight.apply b false := by
  simp [apply]

end Shift

/-- A shift has the modes of its rotation, and the rotation those of the shift. -/
def Slot.hasRotation : Slot → Bool
  | .documented .asl mode => table.toList.contains (.documented .rol mode)
  | .documented .rol mode => table.toList.contains (.documented .asl mode)
  | .documented .lsr mode => table.toList.contains (.documented .ror mode)
  | .documented .ror mode => table.toList.contains (.documented .lsr mode)
  | _ => true

theorem Slot.hasRotation_of_mem {slot : Slot} (h : slot ∈ table.toList) :
    slot.hasRotation = true := by
  have hall : table.toList.all hasRotation = true := by decide +kernel
  exact List.all_eq_true.mp hall slot h

theorem Mnemonic.hasMode_asl_eq (mode : Mode) : asl.hasMode mode = rol.hasMode mode := by
  rw [Bool.eq_iff_iff, hasMode_iff_mem, hasMode_iff_mem]
  constructor
  all_goals
    intro h
    simpa only [Slot.hasRotation, List.contains_iff_mem] using Slot.hasRotation_of_mem h

theorem Mnemonic.hasMode_lsr_eq (mode : Mode) : lsr.hasMode mode = ror.hasMode mode := by
  rw [Bool.eq_iff_iff, hasMode_iff_mem, hasMode_iff_mem]
  constructor
  all_goals
    intro h
    simpa only [Slot.hasRotation, List.contains_iff_mem] using Slot.hasRotation_of_mem h

namespace Machine

section

variable {m m₁ m' m'' : Machine Ram} {address : UInt16} {addresses others : List UInt16}

/-! ## A number of several bytes -/

/-- Two machines differ at most in the bytes at some addresses, in the flags that a shift sets, and
in the program counter. -/
structure DiffersAt (addresses : List UInt16) (m m' : Machine Ram) : Prop where
  read_eq : ∀ address ∉ addresses, m'.memory.read address = m.memory.read address
  register_eq : ∀ r, m'.register r = m.register r
  status : m.status.AgreesOff (.ofByte 0x83) m'.status
  settings_eq : m'.settings = m.settings

namespace DiffersAt

theorem refl (m : Machine Ram) : DiffersAt addresses m m :=
  ⟨fun _ _ => rfl, fun _ => rfl, .refl _ _, rfl⟩

theorem symm (h : DiffersAt addresses m m') : DiffersAt addresses m' m where
  read_eq address haddress := (h.read_eq address haddress).symm
  register_eq r := (h.register_eq r).symm
  status := h.status.symm
  settings_eq := h.settings_eq.symm

theorem trans (h : DiffersAt addresses m m₁) (h' : DiffersAt others m₁ m') :
    DiffersAt (addresses ++ others) m m' where
  read_eq address haddress := by
    rw [List.mem_append, not_or] at haddress
    exact (h'.read_eq address haddress.2).trans (h.read_eq address haddress.1)
  register_eq r := (h'.register_eq r).trans (h.register_eq r)
  status := h.status.trans h'.status
  settings_eq := h'.settings_eq.trans h.settings_eq

end DiffersAt

/-- From the machine `m` to the machine `m'`, the number at some addresses is rotated to the
left through the carry. -/
structure Rotated (addresses : List UInt16) (m m' : Machine Ram) : Prop
    extends DiffersAt addresses m m' where
  number_eq : m'.memory.number addresses + m'.status.carry.toNat * 256 ^ addresses.length =
    2 * m.memory.number addresses + m.status.carry.toNat

namespace Rotated

theorem nil (m : Machine Ram) : Rotated [] m m where
  toDiffersAt := .refl m
  number_eq := by simp

/-- A byte in front of a number: the carry out of it is the one into the number. -/
theorem cons (hfirst : Rotated [address] m m₁) (hrest : Rotated addresses m₁ m')
    (hnew : address ∉ addresses) : Rotated (address :: addresses) m m' where
  toDiffersAt := hfirst.toDiffersAt.trans hrest.toDiffersAt
  number_eq := by
    have hlow : (m₁.memory.read address).toNat + m₁.status.carry.toNat * 256 =
        2 * (m.memory.read address).toNat + m.status.carry.toNat := by
      simpa using hfirst.number_eq
    have hhigh := hrest.number_eq
    have hkept : m'.memory.read address = m₁.memory.read address := hrest.read_eq address hnew
    have hbefore : m₁.memory.number addresses = m.memory.number addresses :=
      Ram.number_congr fun other hother => hfirst.read_eq other fun hmem =>
        hnew (List.mem_singleton.mp hmem ▸ hother)
    rw [hbefore] at hhigh
    rw [Ram.number_cons, Ram.number_cons, hkept, List.length_cons, Nat.pow_succ]
    linarith

/-- What is rotated to the same number was the same number, with the same carry. -/
theorem number_eq_and_carry_eq (h : Rotated addresses m m') (h' : Rotated addresses m'' m') :
    m''.memory.number addresses = m.memory.number addresses ∧
      m''.status.carry = m.status.carry := by
  have hnumber := h.number_eq.symm.trans h'.number_eq
  have hle := m.status.carry.toNat_le
  have hle' := m''.status.carry.toNat_le
  exact ⟨by omega, eq_of_toNat_eq (by omega)⟩

theorem memory_eq (h : Rotated addresses m m') (h' : Rotated addresses m'' m') :
    m''.memory = m.memory := by
  refine Ram.eq_of_read_eq fun address => ?_
  by_cases hmem : address ∈ addresses
  · exact Ram.read_eq_of_number_eq (h.number_eq_and_carry_eq h').1 address hmem
  · exact (h'.read_eq address hmem).symm.trans (h.read_eq address hmem)

end Rotated

/-! ## One instruction -/

/-- The machine behind a shift of the byte at an address. -/
def shifted (m : Machine Ram) (s : Shift) (address : UInt16) : Machine Ram :=
  (m.advance 3).apply (.shift s) (.memory address)

theorem memory_shifted (m : Machine Ram) (s : Shift) (address : UInt16) :
    (m.shifted s address).memory =
      m.memory.write address (s.apply (m.memory.read address) m.status.carry).1 := rfl

theorem carry_shifted (m : Machine Ram) (s : Shift) (address : UInt16) :
    (m.shifted s address).status.carry = (s.apply (m.memory.read address) m.status.carry).2 := rfl

theorem differsAt_shifted (m : Machine Ram) (s : Shift) (address : UInt16) :
    DiffersAt [address] m (m.shifted s address) where
  read_eq other hother :=
    Ram.read_write_of_ne _ _ fun heq => hother (List.mem_singleton.mpr heq.symm)
  register_eq r := by
    have hnone : r ∉ Operation.registers (.memory address) (.shift s) := nofun
    rw [shifted, register_apply _ hnone]
    cases r <;> rfl
  status := (m.advance 3).status_apply (.shift s) (.memory address)
  settings_eq := settings_apply _ _ _

theorem rotated_rol (m : Machine Ram) (address : UInt16) :
    Rotated [address] m (m.shifted .rotateLeft address) where
  toDiffersAt := m.differsAt_shifted .rotateLeft address
  number_eq := by
    have hbyte := Shift.toNat_rotateLeft (m.memory.read address) m.status.carry
    simpa [memory_shifted, carry_shifted] using hbyte

/-- A rotation to the right leads back. -/
theorem rotated_ror (m : Machine Ram) (address : UInt16) :
    Rotated [address] (m.shifted .rotateRight address) m where
  toDiffersAt := (m.differsAt_shifted .rotateRight address).symm
  number_eq := by
    have hbyte := Shift.toNat_rotateRight (m.memory.read address) m.status.carry
    simpa [memory_shifted, carry_shifted] using hbyte

end

section

variable {μ : Type} [Memory μ] {m m' : Machine μ} {mnemonic rotation : Mnemonic} {mode : Mode}
  {operand : Option UInt16} {addresses : List UInt16}

theorem execute_absolute (m : Machine μ) (h : mnemonic.hasMode .absolute = true)
    (address : UInt16) :
    m.execute mnemonic .absolute (some address) =
      ⟨.ok (), (m.advance 3).apply mnemonic.operation (.memory address)⟩ :=
  execute_eq h (m.place?_some _ _)

/-- An instruction that does to every operand what a rotation does without a carry, and has the
modes of the rotation, is executed like the rotation after the carry is cleared. -/
theorem execute_eq_ok_iff_of_rotation (hmode : mnemonic.hasMode mode = rotation.hasMode mode)
    (happly : ∀ (m : Machine μ) p, m.apply mnemonic.operation p =
      (m.mapStatus (·.set .carry false)).apply rotation.operation p) :
    m.execute mnemonic mode operand = ⟨.ok (), m'⟩ ↔
      (m.mapStatus (·.set .carry false)).execute rotation mode operand = ⟨.ok (), m'⟩ := by
  have hplace : (m.mapStatus (·.set .carry false)).place? mode operand = m.place? mode operand :=
    rfl
  unfold execute
  rw [hmode, hplace]
  by_cases hhas : rotation.hasMode mode = true
  · rw [if_pos hhas, if_pos hhas]
    cases m.place? mode operand with
    | none => simp
    | some p =>
      simp only [happly]
      rfl
  · rw [if_neg hhas, if_neg hhas]
    simp

theorem apply_left (m : Machine μ) (p : Place) :
    m.apply (.shift .left) p = (m.mapStatus (·.set .carry false)).apply (.shift .rotateLeft) p := by
  simp only [apply, Shift.left_apply]
  cases p <;> rfl

theorem apply_right (m : Machine μ) (p : Place) :
    m.apply (.shift .right) p =
      (m.mapStatus (·.set .carry false)).apply (.shift .rotateRight) p := by
  simp only [apply, Shift.right_apply]
  cases p <;> rfl

/-! ## Chains -/

/-- Executes an instruction on the byte at each of some addresses. -/
def executeEach (m : Machine μ) (mnemonic : Mnemonic) : List UInt16 → Outcome μ Unit
  | [] => ⟨.ok (), m⟩
  | address :: rest =>
    (m.execute mnemonic .absolute (some address)).bind fun _ m => m.executeEach mnemonic rest

theorem executeEach_cons (m : Machine μ) (h : mnemonic.hasMode .absolute = true)
    (address : UInt16) :
    m.executeEach mnemonic (address :: addresses) =
      ((m.advance 3).apply mnemonic.operation (.memory address)).executeEach
        mnemonic addresses := by
  rw [executeEach, execute_absolute m h]
  rfl

theorem executeEach_append (h : mnemonic.hasMode .absolute = true) {others : List UInt16}
    (hfirst : m.executeEach mnemonic addresses = ⟨.ok (), m'⟩) :
    m.executeEach mnemonic (addresses ++ others) = m'.executeEach mnemonic others := by
  induction addresses generalizing m with
  | nil =>
    cases hfirst
    rfl
  | cons address addresses ih =>
    rw [executeEach_cons m h] at hfirst
    rw [List.cons_append, executeEach_cons m h]
    exact ih hfirst

end

section

variable {addresses : List UInt16}

/-- **Rotations to the left, from the least significant byte on, rotate the number to the left.** -/
theorem exists_executeEach_rol (h : addresses.Nodup) (m : Machine Ram) :
    ∃ m', m.executeEach .rol addresses = ⟨.ok (), m'⟩ ∧ Rotated addresses m m' := by
  have hmode : Mnemonic.rol.hasMode .absolute = true := by decide +kernel
  induction addresses generalizing m with
  | nil => exact ⟨m, rfl, .nil m⟩
  | cons address addresses ih =>
    obtain ⟨hnew, hrest⟩ := List.nodup_cons.mp h
    obtain ⟨m', hchain, hrotated⟩ := ih hrest (m.shifted .rotateLeft address)
    refine ⟨m', ?_, (m.rotated_rol address).cons hrotated hnew⟩
    rw [executeEach_cons m hmode]
    exact hchain

/-- **Rotations to the right, from the most significant byte on, lead back from a number that is
rotated to the left.** -/
theorem exists_executeEach_ror (h : addresses.Nodup) (m : Machine Ram) :
    ∃ m', m.executeEach .ror addresses.reverse = ⟨.ok (), m'⟩ ∧ Rotated addresses m' m := by
  have hmode : Mnemonic.ror.hasMode .absolute = true := by decide +kernel
  induction addresses generalizing m with
  | nil => exact ⟨m, rfl, .nil m⟩
  | cons address addresses ih =>
    obtain ⟨hnew, hrest⟩ := List.nodup_cons.mp h
    obtain ⟨m₁, hchain, hrotated⟩ := ih hrest m
    refine ⟨m₁.shifted .rotateRight address, ?_, (m₁.rotated_ror address).cons hrotated hnew⟩
    rw [List.reverse_cons, executeEach_append hmode hchain, executeEach_cons m₁ hmode]
    rfl

/-- What a rotation to the right leaves of a number, and what it puts into the carry. -/
theorem Rotated.eq_half {m m' : Machine Ram} (h : Rotated addresses m' m) (hne : addresses ≠ []) :
    m'.memory.number addresses =
        (m.status.carry.toNat * 256 ^ addresses.length + m.memory.number addresses) / 2 ∧
      m'.status.carry.toNat = m.memory.number addresses % 2 := by
  have hle := m'.status.carry.toNat_le
  have heven : m.status.carry.toNat * 256 ^ addresses.length % 2 = 0 := by
    have hpos := List.length_pos_iff.mpr hne
    rw [← Nat.sub_add_cancel hpos, Nat.pow_succ, ← Nat.mul_assoc]
    omega
  have hnumber := h.number_eq
  omega

/-- **What chains of shifts do to a number of several bytes** at some addresses, from the
least significant byte on. -/
structure WideShifts (addresses : List UInt16) (m : Machine Ram) : Prop where
  /-- To the left, from the least significant byte on, the number is doubled. -/
  left : ∃ m', m.executeEach .rol addresses = ⟨.ok (), m'⟩ ∧ DiffersAt addresses m m' ∧
    m'.memory.number addresses + m'.status.carry.toNat * 256 ^ addresses.length =
      2 * m.memory.number addresses + m.status.carry.toNat
  /-- To the right, from the most significant byte on, the number is halved. -/
  right : ∃ m', m.executeEach .ror addresses.reverse = ⟨.ok (), m'⟩ ∧ DiffersAt addresses m m' ∧
    m'.memory.number addresses =
      (m.status.carry.toNat * 256 ^ addresses.length + m.memory.number addresses) / 2 ∧
    m'.status.carry.toNat = m.memory.number addresses % 2
  /-- To the left and then to the right, every byte and the carry are what they were. -/
  back : ∃ m' m'', m.executeEach .rol addresses = ⟨.ok (), m'⟩ ∧
    m'.executeEach .ror addresses.reverse = ⟨.ok (), m''⟩ ∧
    m''.memory = m.memory ∧ m''.status.carry = m.status.carry
  /-- A shift to the left is a rotation after the carry is cleared, on every operand. -/
  asl : ∀ mode operand m', m.execute .asl mode operand = ⟨.ok (), m'⟩ ↔
    (m.mapStatus (·.set .carry false)).execute .rol mode operand = ⟨.ok (), m'⟩
  /-- So is a shift to the right. -/
  lsr : ∀ mode operand m', m.execute .lsr mode operand = ⟨.ok (), m'⟩ ↔
    (m.mapStatus (·.set .carry false)).execute .ror mode operand = ⟨.ok (), m'⟩

end

/-- **Chains of rotations shift numbers of several bytes**, in every machine and at every address,
for up to as many bytes as there are addresses, the last of which is followed by the first. -/
theorem wideShifts (m : Machine Ram) (start : UInt16) {count : Nat} (hpos : 0 < count)
    (hcount : count ≤ 0x10000) : WideShifts (Word.addresses start count) m := by
  have hnodup := Word.nodup_addresses start hcount
  have hne : Word.addresses start count ≠ [] :=
    List.length_pos_iff.mp ((Word.length_addresses start count).symm ▸ hpos)
  obtain ⟨m', hleft, hrotated⟩ := exists_executeEach_rol hnodup m
  obtain ⟨m₁, hright, hback⟩ := exists_executeEach_ror hnodup m
  obtain ⟨m'', hreturn, hreturned⟩ := exists_executeEach_ror hnodup m'
  exact {
    left := ⟨m', hleft, hrotated.toDiffersAt, hrotated.number_eq⟩
    right := ⟨m₁, hright, hback.toDiffersAt.symm, hback.eq_half hne⟩
    back := ⟨m', m'', hleft, hreturn, hrotated.memory_eq hreturned,
      (hrotated.number_eq_and_carry_eq hreturned).2⟩
    asl := fun mode operand m' =>
      execute_eq_ok_iff_of_rotation (Mnemonic.hasMode_asl_eq mode) apply_left
    lsr := fun mode operand m' =>
      execute_eq_ok_iff_of_rotation (Mnemonic.hasMode_lsr_eq mode) apply_right }

/-- Three bytes across the last address, with the carry set. -/
theorem wideShifts_of_wrap :
    let m : Machine Ram :=
      { status := .ofByte 0x01, memory := Ram.zeroed.load 0xFFFE [0x80, 0xFF, 0x01] }
    (0 < 3 ∧ 3 ≤ 0x10000) ∧ WideShifts (Word.addresses 0xFFFE 3) m := by
  intro m
  have hpos : 0 < 3 := by decide
  have hcount : 3 ≤ 0x10000 := by decide
  exact ⟨⟨hpos, hcount⟩, wideShifts m 0xFFFE hpos hcount⟩

end Machine

end Micro65
