import Micro65.Encoding
/-!
# The opcode table read in both directions

An opcode that an instruction is written with reads back as that instruction in that mode
(`Mnemonic.ofOpcode_of_opcode?`). The table itself is looked at three times only: its first
slot holds no instruction of the machine, so no instruction is written with the byte 0
(`Mnemonic.opcode?_ne_zero`), and `Slot.table_modes` and `Slot.table_bareModes` say which
modes its instructions have. No instruction takes its operand through a pointer of two bytes,
a distance is the operand of the branches and of nothing else, and no instruction has two
modes without operand bytes.
-/

namespace Micro65

/-- The one mode without operand bytes that an instruction may have. -/
def Mnemonic.bareMode : Mnemonic → Mode
  | .asl | .dec | .inc | .lsr | .rol | .ror => .accumulator
  | .pha | .php | .pla | .plp => .stack
  | _ => .implied

namespace Slot

/-- The element at the first index of an element. -/
theorem getElem?_of_idxOf? {slots : Array Slot} {slot : Slot} {i : Nat}
    (h : slots.idxOf? slot = some i) : slots[i]? = some slot := by
  rw [Array.idxOf?_eq_map_finIdxOf?_val] at h
  obtain ⟨j, hj, rfl⟩ := Option.map_eq_some_iff.mp h
  obtain ⟨hget, _⟩ := Array.finIdxOf?_eq_some_iff.mp hj
  rw [Array.getElem?_eq_getElem j.isLt]
  exact congrArg some hget

/-- Every index of the table is an opcode. -/
theorem ofOpcode_ofNat {i : Nat} {slot : Slot} (h : table.toArray[i]? = some slot) :
    i < 256 ∧ ofOpcode (UInt8.ofNat i) = slot := by
  obtain ⟨hi, hget⟩ := Array.getElem?_eq_some_iff.mp h
  have hsize : i < 256 := by simpa only [Vector.size_toArray] using hi
  refine ⟨hsize, ?_⟩
  have hnat : (UInt8.ofNat i).toNat = i := by
    simp only [UInt8.toNat_ofNat']
    omega
  unfold ofOpcode
  simp only [hnat]
  exact hget

/-- No instruction has more than two bytes behind its opcode. -/
theorem operandSize_le_two (slot : Slot) : slot.operandSize ≤ 2 := by
  cases slot with
  | documented m mode | reserved mode | omitted name mode => exact mode.operandSize_le_two
  | omittedBitBranch name => exact Nat.le_refl 2

/-- What the table says about the modes of its instructions. -/
def hasUsualMode : Slot → Bool
  | .documented m mode =>
    mode ≠ .indirect && mode ≠ .absoluteIndexedIndirect && (m.isBranch == decide (mode = .relative))
  | _ => true

theorem table_modes : table.toList.all hasUsualMode = true := by
  decide +kernel

/-- Whether a mode without operand bytes is the one that the instruction may have. -/
def hasBareMode : Slot → Bool
  | .documented m mode => mode.operandSize ≠ 0 || mode = m.bareMode
  | _ => true

theorem table_bareModes : table.toList.all hasBareMode = true := by
  decide +kernel

/-- No instruction of the machine has the opcode 0. -/
theorem ofOpcode_zero : ofOpcode 0 = .omitted "BRK" .stack := by
  decide +kernel

theorem ofOpcode_mem_table (opcode : UInt8) : ofOpcode opcode ∈ table.toList := by
  unfold ofOpcode
  exact Vector.mem_toList_iff.mpr (Vector.getElem_mem _)

theorem hasUsualMode_ofOpcode (opcode : UInt8) : (ofOpcode opcode).hasUsualMode = true :=
  List.all_eq_true.mp table_modes _ (ofOpcode_mem_table opcode)

theorem hasBareMode_ofOpcode (opcode : UInt8) : (ofOpcode opcode).hasBareMode = true :=
  List.all_eq_true.mp table_bareModes _ (ofOpcode_mem_table opcode)

/-- The instruction of an opcode is the one that the table has, or the one that reserved bytes pass
as. -/
theorem eq_of_instruction? {slot : Slot} {mnemonic : Mnemonic}
    (h : slot.instruction? = some mnemonic) :
    slot = .documented mnemonic slot.mode ∨ slot = .reserved slot.mode ∧ mnemonic = .nop := by
  cases slot with
  | documented m mode =>
    cases h
    exact .inl rfl
  | reserved mode =>
    cases h
    exact .inr ⟨rfl, rfl⟩
  | omitted | omittedBitBranch => cases h

theorem operandSize_of_instruction? {slot : Slot} {mnemonic : Mnemonic}
    (h : slot.instruction? = some mnemonic) :
    slot.operandSize = slot.mode.operandSize := by
  obtain hslot | ⟨hslot, -⟩ := eq_of_instruction? h
  · rw [hslot]
    rfl
  · rw [hslot]
    rfl

end Slot

namespace Mnemonic

variable {m : Mnemonic} {mode : Mode}

/-- An opcode reads back as the instruction that it was looked up for. -/
theorem ofOpcode_of_opcode? {opcode : UInt8} (h : m.opcode? mode = some opcode) :
    Slot.ofOpcode opcode = .documented m mode := by
  unfold opcode? at h
  obtain ⟨i, hi, rfl⟩ := Option.map_eq_some_iff.mp h
  exact (Slot.ofOpcode_ofNat (Slot.getElem?_of_idxOf? hi)).2

/-- No instruction is written with the byte at which a run halts. -/
theorem opcode?_ne_zero {opcode : UInt8} (h : m.opcode? mode = some opcode) : opcode ≠ 0 := by
  rintro rfl
  have hslot := ofOpcode_of_opcode? h
  rw [Slot.ofOpcode_zero] at hslot
  cases hslot

theorem hasMode_iff : m.hasMode mode = true ↔ ∃ opcode, m.opcode? mode = some opcode := by
  unfold hasMode
  exact Option.isSome_iff_exists

/-- An instruction has the modes in which the table has it. -/
theorem hasMode_iff_mem :
    m.hasMode mode = true ↔ Slot.documented m mode ∈ Slot.table.toList := by
  unfold hasMode opcode?
  rw [Option.isSome_map, Array.isSome_idxOf?, Vector.mem_toArray_iff, Vector.mem_toList_iff]

theorem hasUsualMode_of_hasMode (h : m.hasMode mode = true) :
    (Slot.documented m mode).hasUsualMode = true := by
  obtain ⟨opcode, hopcode⟩ := hasMode_iff.mp h
  rw [← ofOpcode_of_opcode? hopcode]
  exact Slot.hasUsualMode_ofOpcode opcode

/-- The pointers of two bytes are modes of no instruction. -/
theorem ne_pointer_of_hasMode (h : m.hasMode mode = true) :
    mode ≠ .indirect ∧ mode ≠ .absoluteIndexedIndirect := by
  have husual := hasUsualMode_of_hasMode h
  simp only [Slot.hasUsualMode, Bool.and_eq_true, decide_eq_true_eq] at husual
  exact husual.1

/-- The branches take a distance, and only they do. -/
theorem isBranch_iff_of_hasMode (h : m.hasMode mode = true) :
    m.isBranch = true ↔ mode = .relative := by
  have husual := hasUsualMode_of_hasMode h
  simp only [Slot.hasUsualMode, Bool.and_eq_true, beq_iff_eq] at husual
  rw [husual.2, decide_eq_true_eq]

/-- Every branch takes a distance. -/
theorem hasMode_relative (h : m.isBranch = true) : m.hasMode .relative = true := by
  revert h
  cases m <;> decide +kernel

/-- An instruction has no two modes without operand bytes. -/
theorem eq_bareMode_of_hasMode (h : m.hasMode mode = true) (hsize : mode.operandSize = 0) :
    mode = m.bareMode := by
  obtain ⟨opcode, hopcode⟩ := hasMode_iff.mp h
  have hbare := Slot.hasBareMode_ofOpcode opcode
  rw [ofOpcode_of_opcode? hopcode] at hbare
  simpa [Slot.hasBareMode, hsize] using hbare

end Mnemonic

end Micro65
