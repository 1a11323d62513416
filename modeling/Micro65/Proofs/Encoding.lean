import Mathlib.Algebra.Group.Nat.Defs
import Micro65.Proofs.Opcode
/-!
# Operands written and read back

A word is the value of its two bytes (`Word.toNat_ofBytes`), so an operand that has the size of its
mode reads back from the bytes it is written with (`Encoding.readOperand?_operand`). What has the
size of a mode is said by `Mode.Fits`; the assembler gives an instruction no other operand.
-/

namespace Micro65

namespace Word

theorem toNat_low (w : UInt16) : (low w).toNat = w.toNat % 256 := by
  simp [low]

theorem toNat_high (w : UInt16) : (high w).toNat = w.toNat / 256 := by
  have hw := w.toNat_lt
  simp only [high, UInt16.toNat_toUInt8, UInt16.toNat_shiftRight, Nat.shiftRight_eq_div_pow]
  simp
  omega

/-- A word is the value of its bytes in base 256. -/
theorem toNat_ofBytes (low high : UInt8) :
    (ofBytes low high).toNat = high.toNat * 256 + low.toNat := by
  have hlow : low.toNat < 2 ^ 8 := low.toNat_lt
  have hhigh := high.toNat_lt
  unfold ofBytes
  simp only [UInt16.toNat_or, UInt16.toNat_shiftLeft, UInt8.toNat_toUInt16]
  rw [show (8 : UInt16).toNat % 16 = 8 from rfl, Nat.shiftLeft_eq,
    Nat.mod_eq_of_lt (by omega), ← Nat.shiftLeft_eq, ← Nat.shiftLeft_add_eq_or_of_lt hlow,
    Nat.shiftLeft_eq]

/-- A word is put together again from its bytes. -/
@[simp] theorem ofBytes_low_high (w : UInt16) : ofBytes (low w) (high w) = w := by
  apply UInt16.toNat_inj.mp
  rw [toNat_ofBytes, toNat_low, toNat_high]
  omega

/-- A word below 256 is its less significant byte. -/
theorem ofBytes_low_zero {w : UInt16} (h : w.toNat < 256) : ofBytes (low w) 0 = w := by
  apply UInt16.toNat_inj.mp
  rw [toNat_ofBytes, toNat_low, show (0 : UInt8).toNat = 0 from rfl]
  omega

theorem low_ofNat (b : UInt8) : low (UInt16.ofNat b.toNat) = b := by
  apply UInt8.toNat_inj.mp
  have := b.toNat_lt
  rw [toNat_low, UInt16.toNat_ofNat']
  omega

theorem toNat_ofInt (d : Int) : ((UInt8.ofInt d).toNat : Int) = d % 256 := by
  unfold UInt8.ofInt
  rw [UInt8.toNat_ofNat']
  omega

/-- A distance that a byte can hold reads back from its two's complement. -/
theorem signed_ofInt {d : Int} (hlow : -128 ≤ d) (hhigh : d ≤ 127) :
    signed (UInt8.ofInt d) = d := by
  have hnat := toNat_ofInt d
  unfold signed
  omega

end Word

/-- Whether an operand has the size of the mode: there is one exactly if the mode has operand bytes,
and then it is written in full by that many of them. -/
def Mode.Fits (mode : Mode) : Option UInt16 → Prop
  | none => mode.operandSize = 0
  | some value => mode.operandSize ≠ 0 ∧ value.toNat < 256 ^ mode.operandSize

instance (mode : Mode) : (operand : Option UInt16) → Decidable (mode.Fits operand)
  | none => inferInstanceAs (Decidable (mode.operandSize = 0))
  | some value =>
    inferInstanceAs (Decidable (mode.operandSize ≠ 0 ∧ value.toNat < 256 ^ mode.operandSize))

namespace Encoding

@[simp] theorem length_operand (mode : Mode) (value : UInt16) :
    (operand mode value).length = mode.operandSize := by
  have := mode.operandSize_le_two
  simp only [operand, List.length_take, List.length_cons, List.length_nil]
  omega

/-- An operand of the size of its mode reads back from its bytes, whatever follows them. -/
theorem readOperand?_operand {mode : Mode} {value : Option UInt16} (h : mode.Fits value)
    (rest : List UInt8) :
    readOperand? mode.operandSize (operand mode (value.getD 0) ++ rest) = some value := by
  have hsize := mode.operandSize_le_two
  unfold operand
  cases value with
  | none =>
    simp only [Mode.Fits] at h
    rw [h]
    rfl
  | some w =>
    obtain ⟨hpos, hlt⟩ := h
    obtain hone | htwo : mode.operandSize = 1 ∨ mode.operandSize = 2 := by omega
    · rw [hone] at hlt ⊢
      simp only [Option.getD_some, List.take_succ_cons, List.take_zero, List.cons_append,
        readOperand?]
      rw [Word.ofBytes_low_zero hlt]
    · rw [htwo]
      simp [readOperand?]

/-- What reads from some bytes reads from any bytes that start with them. -/
theorem readOperand?_of_starts {count : Nat} {bytes window : List UInt8} {value : Option UInt16}
    (hstarts : bytes <+: window) (h : readOperand? count bytes = some value) :
    readOperand? count window = some value := by
  obtain ⟨rest, rfl⟩ := hstarts
  match count, bytes, h with
  | 0, _, h => exact h
  | 1, _ :: _, h => exact h
  | 2, _ :: _ :: _, h => exact h

end Encoding

namespace Mnemonic

variable {m : Mnemonic} {mode : Mode} {operand : Option UInt16}

/-- An instruction that has the mode is written as its opcode and its operand. -/
theorem encode?_eq_some_iff {bytes : List UInt8} :
    m.encode? mode operand = some bytes ↔
      ∃ opcode, m.opcode? mode = some opcode ∧
        bytes = opcode :: Encoding.operand mode (operand.getD 0) := by
  unfold encode?
  rw [Option.map_eq_some_iff]
  constructor
  · rintro ⟨opcode, hopcode, rfl⟩
    exact ⟨opcode, hopcode, rfl⟩
  · rintro ⟨opcode, hopcode, rfl⟩
    exact ⟨opcode, hopcode, rfl⟩

theorem exists_encode? (h : m.hasMode mode = true) (operand : Option UInt16) :
    ∃ bytes, m.encode? mode operand = some bytes ∧ bytes.length = 1 + mode.operandSize := by
  obtain ⟨opcode, hopcode⟩ := hasMode_iff.mp h
  refine ⟨_, encode?_eq_some_iff.mpr ⟨opcode, hopcode, rfl⟩, ?_⟩
  rw [List.length_cons, Encoding.length_operand, Nat.add_comm]

end Mnemonic

end Micro65
