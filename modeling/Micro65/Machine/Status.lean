/-!
# The status register

Eight bits that instructions set and branches test. The register is kept as a record; as a byte,
which the stack holds, its bits stand in the order of the fields, and the two views carry the same
information (`ofByte_toByte`, `toByte_ofByte`).
-/

namespace Micro65

/-- The status register. -/
structure Status where
  /-- The last result has its most significant bit set. -/
  negative : Bool
  /-- The last sum or difference left the range of a signed byte. -/
  overflow : Bool
  /-- A bit without a use. -/
  unused : Bool
  /-- A mark of the break instruction, which the machine lacks. -/
  breakMark : Bool
  /-- Decimal arithmetic is asked for. -/
  decimal : Bool
  /-- Interrupts are refused. -/
  interruptDisable : Bool
  /-- The last result is zero. -/
  zero : Bool
  /-- The carry out of the last addition, comparison or shift. -/
  carry : Bool
  deriving DecidableEq, Repr

/-- A bit of the status register that has a use. -/
inductive Flag where
  | negative
  | overflow
  | breakMark
  | decimal
  | interruptDisable
  | zero
  | carry
  deriving DecidableEq, Repr

namespace Status

/-- The register when the machine is switched on. -/
def initial : Status where
  negative := false
  overflow := false
  unused := true
  breakMark := false
  decimal := false
  interruptDisable := true
  zero := false
  carry := false

/-- The value of a flag. -/
def get (s : Status) : Flag → Bool
  | .negative => s.negative
  | .overflow => s.overflow
  | .breakMark => s.breakMark
  | .decimal => s.decimal
  | .interruptDisable => s.interruptDisable
  | .zero => s.zero
  | .carry => s.carry

/-- The register with one flag replaced. -/
def set (s : Status) (flag : Flag) (value : Bool) : Status :=
  match flag with
  | .negative => { s with negative := value }
  | .overflow => { s with overflow := value }
  | .breakMark => { s with breakMark := value }
  | .decimal => { s with decimal := value }
  | .interruptDisable => { s with interruptDisable := value }
  | .zero => { s with zero := value }
  | .carry => { s with carry := value }

/-- The register as a byte. -/
def toByte (s : Status) : UInt8 :=
  bit s.negative 0x80 ||| bit s.overflow 0x40 ||| bit s.unused 0x20 ||| bit s.breakMark 0x10 |||
    bit s.decimal 0x08 ||| bit s.interruptDisable 0x04 ||| bit s.zero 0x02 ||| bit s.carry 0x01
where
  /-- The bit at its place, if it is set. -/
  bit (isSet : Bool) (place : UInt8) : UInt8 :=
    if isSet then place else 0

/-- The register that a byte stands for. -/
def ofByte (b : UInt8) : Status where
  negative := b &&& 0x80 ≠ 0
  overflow := b &&& 0x40 ≠ 0
  unused := b &&& 0x20 ≠ 0
  breakMark := b &&& 0x10 ≠ 0
  decimal := b &&& 0x08 ≠ 0
  interruptDisable := b &&& 0x04 ≠ 0
  zero := b &&& 0x02 ≠ 0
  carry := b &&& 0x01 ≠ 0

@[simp] theorem get_set_self (s : Status) (flag : Flag) (value : Bool) :
    (s.set flag value).get flag = value := by
  cases flag <;> rfl

theorem get_set_of_ne (s : Status) {flag other : Flag} (value : Bool) (h : flag ≠ other) :
    (s.set flag value).get other = s.get other := by
  cases flag <;> cases other <;> first | rfl | exact absurd rfl h

@[simp] theorem ofByte_toByte (s : Status) : ofByte s.toByte = s := by
  obtain ⟨n, v, u, b, d, i, z, c⟩ := s
  revert n v u b d i z c
  decide

@[simp] theorem toByte_ofByte (b : UInt8) : (ofByte b).toByte = b := by
  have h : ∀ n : Fin 256, (ofByte (UInt8.ofNat n.val)).toByte = UInt8.ofNat n.val := by
    decide +kernel
  simpa using h ⟨b.toNat, b.toNat_lt⟩

end Status

end Micro65
