import Micro65.Machine.Execute
import Micro65.Proofs.Encoding
/-!
# An instruction and its encoding

An instruction can be executed from its parts, with any word as its operand, or from the bytes that
it is written with. A mode of one byte is written with the less significant byte of the word, and
looks at no more of the word when it is executed (`Machine.locate_ofBytes_low`); a mode without
operand bytes looks at none of it. What is read back from the bytes therefore leads to the same
place as the operand (`Machine.exists_readOperand?`), and both executions do the same
(`Machine.executesAsWritten`).

An opcode is executed if it has an instruction and there are enough bytes behind it
(`Machine.exists_operandPlace?`, `Machine.executeBytes_eq`).
-/

namespace Micro65

theorem Word.low_ofBytes (low high : UInt8) : Word.low (ofBytes low high) = low := by
  apply UInt8.toNat_inj.mp
  have := low.toNat_lt
  rw [toNat_low, toNat_ofBytes]
  omega

/-- The bytes of an operand are read if there are enough of them, from the first on. -/
theorem Encoding.readOperand?_cases {count : Nat} {bytes : List UInt8} (hcount : count ≤ 2)
    (hbytes : count ≤ bytes.length) :
    count = 0 ∧ readOperand? count bytes = some none ∨
      ∃ value, readOperand? count bytes = some (some value) ∧ Word.low value = bytes.headD 0 := by
  match count, bytes with
  | 0, _ => exact .inl ⟨rfl, rfl⟩
  | 1, low :: _ => exact .inr ⟨_, rfl, Word.low_ofBytes low 0⟩
  | 2, low :: high :: _ => exact .inr ⟨_, rfl, Word.low_ofBytes low high⟩

namespace Machine

variable {μ : Type} [Memory μ] {mnemonic : Mnemonic} {mode : Mode} {operand : Option UInt16}

/-! ## What an operand leads to -/

/-- An operand leads to a place in every mode. -/
theorem place?_some (m : Machine μ) (mode : Mode) (value : UInt16) :
    m.place? mode (some value) = some (m.locate mode value) := by
  cases mode <;> rfl

/-- A mode without operand bytes leads to the same place whatever the operand is. -/
theorem place?_none (m : Machine μ) (hsize : mode.operandSize = 0) (value : UInt16) :
    m.place? mode none = some (m.locate mode value) := by
  cases mode with
  | implied | accumulator | stack => rfl
  | _ => cases hsize

/-- A mode with one operand byte looks at the less significant byte of its operand only. -/
theorem locate_ofBytes_low (m : Machine μ) (hsize : mode.operandSize = 1) (value : UInt16) :
    m.locate mode (Word.ofBytes (Word.low value) 0) = m.locate mode value := by
  cases mode with
  | implied | accumulator | stack => cases hsize
  | absolute | absoluteX | absoluteY | indirect | absoluteIndexedIndirect => cases hsize
  | immediate | relative | zeroPage | zeroPageX | zeroPageY | indirectX | indirectY
    | zeroPageIndirect => simp only [locate, Word.low_ofBytes]

/-- **What is read back from the bytes of an operand leads to the same place** as the operand
does. -/
theorem exists_readOperand? (m : Machine μ) (mode : Mode) (value : UInt16) (extra : List UInt8) :
    ∃ kept, Encoding.readOperand? mode.operandSize (Encoding.operand mode value ++ extra) =
        some kept ∧ m.place? mode kept = some (m.locate mode value) := by
  have hle := mode.operandSize_le_two
  unfold Encoding.operand
  obtain hsize | hsize | hsize :
      mode.operandSize = 0 ∨ mode.operandSize = 1 ∨ mode.operandSize = 2 := by omega
  · refine ⟨none, ?_, m.place?_none hsize value⟩
    rw [hsize]
    rfl
  · refine ⟨some (Word.ofBytes (Word.low value) 0), ?_, ?_⟩
    · rw [hsize]
      rfl
    · rw [place?_some, m.locate_ofBytes_low hsize]
  · refine ⟨some value, ?_, m.place?_some mode value⟩
    rw [hsize]
    exact congrArg (some ∘ some) (Word.ofBytes_low_high value)

/-- An instruction with its mode and its operand applies its operation, behind itself. -/
theorem execute_eq {m : Machine μ} {p : Place} (hmode : mnemonic.hasMode mode = true)
    (hp : m.place? mode operand = some p) :
    m.execute mnemonic mode operand =
      ⟨.ok (), (m.advance (1 + mode.operandSize)).apply mnemonic.operation p⟩ := by
  unfold execute
  simp only [if_pos hmode, hp]

/-! ## Opcodes with the bytes behind them -/

section

variable {m : Machine μ} {opcode : UInt8} {bytes : List UInt8} {p : Place}

/-- Where the bytes behind an opcode lead: the effective address, if the operand is in memory. -/
def operandPlace? (m : Machine μ) (opcode : UInt8) (bytes : List UInt8) : Option Place :=
  (Encoding.readOperand? (Slot.ofOpcode opcode).operandSize bytes).bind
    (m.place? (Slot.ofOpcode opcode).mode)

theorem exists_operandPlace? (m : Machine μ)
    (hinstruction : (Slot.ofOpcode opcode).instruction? = some mnemonic)
    (hbytes : (Slot.ofOpcode opcode).operandSize ≤ bytes.length) :
    ∃ value, m.operandPlace? opcode bytes = some (m.locate (Slot.ofOpcode opcode).mode value) ∧
      ((Slot.ofOpcode opcode).mode = .relative → Word.low value = bytes.headD 0) := by
  have hsize := Slot.operandSize_of_instruction? hinstruction
  unfold operandPlace?
  obtain ⟨hzero, hread⟩ | ⟨value, hread, hlow⟩ :=
    Encoding.readOperand?_cases (Slot.ofOpcode opcode).operandSize_le_two hbytes
  · refine ⟨0, ?_, fun hmode => ?_⟩
    · rw [hread, Option.bind_some, m.place?_none (hsize.symm.trans hzero) 0]
    · rw [hsize, hmode] at hzero
      cases hzero
  · refine ⟨value, ?_, fun _ => hlow⟩
    rw [hread, Option.bind_some, place?_some]

/-- An opcode with its operand applies the operation of its instruction, behind itself. -/
theorem executeBytes_eq (hinstruction : (Slot.ofOpcode opcode).instruction? = some mnemonic)
    (hp : m.operandPlace? opcode bytes = some p) :
    m.executeBytes opcode bytes =
      ⟨.ok mnemonic, (m.advance (Slot.ofOpcode opcode).size).apply mnemonic.operation p⟩ := by
  obtain ⟨operand, hread, hplace⟩ := Option.bind_eq_some_iff.mp hp
  unfold executeBytes
  simp only [hinstruction, hread, hplace]

end

/-! ## Both executions -/

/-- **An instruction does what the bytes do that it is written with**, for every word as its operand
and whatever stands behind the bytes, in every machine and with every memory, one that records what
is written to it included. -/
theorem executesAsWritten (m : Machine μ) (hmode : mnemonic.hasMode mode = true)
    (hoperand : operand.isSome = true ∨ mode.operandSize = 0) :
    ∃ opcode bytes m', mnemonic.encode? mode operand = some (opcode :: bytes) ∧
      m.execute mnemonic mode operand = ⟨.ok (), m'⟩ ∧
      ∀ extra, m.executeBytes opcode (bytes ++ extra) = ⟨.ok mnemonic, m'⟩ := by
  obtain ⟨opcode, hopcode⟩ := Mnemonic.hasMode_iff.mp hmode
  have hslot := Mnemonic.ofOpcode_of_opcode? hopcode
  refine ⟨opcode, Encoding.operand mode (operand.getD 0),
    (m.advance (1 + mode.operandSize)).apply mnemonic.operation
      (m.locate mode (operand.getD 0)), ?_, ?_, ?_⟩
  · exact Mnemonic.encode?_eq_some_iff.mpr ⟨opcode, hopcode, rfl⟩
  · have hplace : m.place? mode operand = some (m.locate mode (operand.getD 0)) := by
      cases operand with
      | none => exact m.place?_none (hoperand.resolve_left Bool.false_ne_true) 0
      | some value => exact m.place?_some mode value
    unfold execute
    rw [if_pos hmode, hplace]
  · intro extra
    obtain ⟨kept, hread, hplace⟩ := m.exists_readOperand? mode (operand.getD 0) extra
    have hinstruction : (Slot.ofOpcode opcode).instruction? = some mnemonic := by rw [hslot]; rfl
    have hp : m.operandPlace? opcode (Encoding.operand mode (operand.getD 0) ++ extra) =
        some (m.locate mode (operand.getD 0)) := by
      unfold operandPlace?
      rw [hslot]
      exact Option.bind_eq_some_iff.mpr ⟨kept, hread, hplace⟩
    rw [executeBytes_eq hinstruction hp, hslot]
    rfl

/-- A store to the first page, with a word as its operand that is no address of it. -/
theorem executesAsWritten_of_store :
    let m : Machine (Traced Ram) := { a := 0x42, memory := ⟨.zeroed, []⟩ }
    Mnemonic.sta.hasMode .zeroPageX = true ∧ ∃ opcode bytes m',
      Mnemonic.sta.encode? .zeroPageX (some 0x1234) = some (opcode :: bytes) ∧
      m.execute .sta .zeroPageX (some 0x1234) = ⟨.ok (), m'⟩ ∧
      ∀ extra, m.executeBytes opcode (bytes ++ extra) = ⟨.ok .sta, m'⟩ := by
  have hmode : Mnemonic.sta.hasMode .zeroPageX = true := by decide +kernel
  exact ⟨hmode, executesAsWritten _ hmode (.inl rfl)⟩

end Machine

end Micro65
