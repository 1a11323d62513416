import Mathlib.Data.Nat.Digits.Defs
import Mathlib.Tactic.Ring
import Micro65.Word
/-!
# Numbers of several bytes

A list of bytes stands for a number, the least significant byte first (`Bytes.value`), and in two's
complement for a number with a sign (`Bytes.signed`), which only the last byte decides
(`Bytes.signed_cons`). If every byte is replaced by its complement, a number goes over to what is
left of the largest one, and a number with a sign to its negative less one
(`Bytes.value_add_value_complement`, `Bytes.signed_complement`).
-/

namespace Micro65

namespace Bytes

/-- The number that bytes stand for, the least significant byte first. -/
def value (bytes : List UInt8) : Nat :=
  Nat.ofDigits 256 (bytes.map UInt8.toNat)

/-- The weight of the most significant bit of so many bytes. -/
def signWeight (count : Nat) : Nat :=
  2 ^ (8 * count - 1)

/-- The two's-complement reading of bytes. -/
def signed (bytes : List UInt8) : Int :=
  if value bytes < signWeight bytes.length then value bytes
  else value bytes - 256 ^ bytes.length

/-- So many bytes cannot hold the number in two's complement. -/
def Overflows (count : Nat) (x : Int) : Prop :=
  x < -(signWeight count : Int) ∨ (signWeight count : Int) - 1 < x

variable {bytes : List UInt8} {count : Nat}

@[simp] theorem value_nil : value [] = 0 := rfl

@[simp] theorem value_cons (b : UInt8) (bytes : List UInt8) :
    value (b :: bytes) = b.toNat + 256 * value bytes := rfl

/-- So many bytes are known from the number that they stand for. -/
theorem eq_of_value_eq {bytes' : List UInt8} (hlength : bytes.length = bytes'.length)
    (h : value bytes = value bytes') : bytes = bytes' := by
  have hdigit : ∀ bytes : List UInt8, ∀ d ∈ bytes.map UInt8.toNat, d < 256 := by
    intro bytes d hd
    obtain ⟨b, -, rfl⟩ := List.mem_map.mp hd
    exact b.toNat_lt
  have hdigits : bytes.map UInt8.toNat = bytes'.map UInt8.toNat :=
    Nat.ofDigits_inj_of_len_eq (by decide) (by simpa using hlength) (hdigit bytes) (hdigit bytes') h
  exact (List.map_inj_right fun _ _ heq => UInt8.toNat_inj.mp heq).mp hdigits

/-! ## The sign -/

theorem signWeight_succ (h : 0 < count) : signWeight (count + 1) = 256 * signWeight count := by
  unfold signWeight
  rw [show 8 * (count + 1) - 1 = 8 + (8 * count - 1) by omega, Nat.pow_add]

theorem two_mul_signWeight (h : 0 < count) : 2 * signWeight count = 256 ^ count := by
  unfold signWeight
  have hbits : (8 * count - 1).succ = 8 * count := by omega
  rw [← Nat.pow_succ', hbits, Nat.pow_mul]

/-- One byte is read as a number with a sign. -/
theorem signed_singleton (b : UInt8) : signed [b] = Word.signed b := by
  unfold signed Word.signed
  simp [signWeight]

/-- Every byte but the last stands for what it stands for in a number without a sign. -/
theorem signed_cons (b : UInt8) (h : bytes ≠ []) :
    signed (b :: bytes) = b.toNat + 256 * signed bytes := by
  have hcount : 0 < bytes.length := List.length_pos_iff.mpr h
  have hb := b.toNat_lt
  have hsucc := signWeight_succ hcount
  unfold signed
  rw [value_cons, List.length_cons, hsucc]
  by_cases hlt : value bytes < signWeight bytes.length
  · rw [if_pos hlt, if_pos (by omega)]
    push_cast
    ring
  · rw [if_neg hlt, if_neg (by omega)]
    push_cast
    ring

/-- One byte shows its sign in its most significant bit. -/
theorem testBit_singleton (b : UInt8) : (value [b]).testBit 7 = Word.isNegative b := by
  have h : ∀ n : Fin 256, (value [UInt8.ofNat n]).testBit 7 = Word.isNegative (UInt8.ofNat n) := by
    decide +kernel
  simpa using h ⟨b.toNat, b.toNat_lt⟩

/-- The most significant bit is that of the bytes behind the first. -/
theorem testBit_cons (h : 0 < count) (b : UInt8) (bytes : List UInt8) :
    (value (b :: bytes)).testBit (8 * (count + 1) - 1) = (value bytes).testBit (8 * count - 1) := by
  have hbits : 8 * (count + 1) - 1 - 8 = 8 * count - 1 := by omega
  rw [value_cons, Nat.add_comm, Nat.testBit_two_pow_mul_add (i := 8) _ b.toNat_lt,
    if_neg (by omega), hbits]

/-- Whether a number leaves the range is decided without the least significant byte. -/
theorem overflows_succ_iff (h : 0 < count) {low : Nat} (hlow : low < 256) (x : Int) :
    Overflows (count + 1) (low + 256 * x) ↔ Overflows count x := by
  unfold Overflows
  rw [signWeight_succ h]
  push_cast
  omega

/-! ## Complements -/

theorem toNat_complement (b : UInt8) : (~~~b).toNat = 255 - b.toNat := by
  simp [UInt8.toNat_not]

theorem value_add_value_complement (bytes : List UInt8) :
    value bytes + value (bytes.map (~~~·)) + 1 = 256 ^ bytes.length := by
  induction bytes with
  | nil => rfl
  | cons b bytes ih =>
    have hb := b.toNat_lt
    rw [List.map_cons, value_cons, value_cons, toNat_complement, List.length_cons, Nat.pow_succ]
    omega

theorem signed_complement (h : bytes ≠ []) : signed (bytes.map (~~~·)) = -1 - signed bytes := by
  have hhalf := two_mul_signWeight (List.length_pos_iff.mpr h)
  have hsum := value_add_value_complement bytes
  have hpow : (256 ^ bytes.length : Int) = 2 * (signWeight bytes.length : Int) := by
    exact_mod_cast hhalf.symm
  unfold signed
  rw [List.length_map, hpow]
  by_cases hlt : value bytes < signWeight bytes.length
  · rw [if_pos hlt, if_neg (by omega)]
    omega
  · rw [if_neg hlt, if_pos (by omega)]
    omega

end Bytes

end Micro65
