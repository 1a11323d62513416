import Micro65.Proofs.Assembly.Exact
/-!
# Machine code read back

A sweep reads machine code from its start: each byte that it comes to is taken as an opcode, and
what the table says about the opcode tells how many operand bytes belong to it and where the next
one stands. Nothing in the code marks where an instruction starts, so a sweep is right only as long
as every length it is told is right.

The code of an assembly has every instruction at its address (`Assembly.standsIn`), so a sweep over
it finds the instructions of the assembly and nothing else, and ends where the code does
(`Assembly.sweepsBack`).
-/

namespace Micro65

/-! ## Instructions in machine code -/

/-- The bytes of an instruction are an opcode that reads back as the instruction, and its
operand. -/
theorem Instruction.WellFormed.exists_opcode {i : Instruction} (h : i.WellFormed) :
    ∃ opcode, i.bytes = opcode :: Encoding.operand i.mode (i.operand.getD 0) ∧
      opcode ≠ 0 ∧ Slot.ofOpcode opcode = .documented i.mnemonic i.mode := by
  obtain ⟨opcode, hopcode, hbytes⟩ := Mnemonic.encode?_eq_some_iff.mp h.encode?_eq
  exact ⟨opcode, hbytes, Mnemonic.opcode?_ne_zero hopcode, Mnemonic.ofOpcode_of_opcode? hopcode⟩

/-- Machine code has the instruction at its address: an opcode that reads back as the instruction,
and behind it the operand. -/
def Instruction.StandsIn (i : Instruction) (code : Array UInt8) : Prop :=
  ∃ opcode, code[i.address.toNat]? = some opcode ∧ opcode ≠ 0 ∧
    Slot.ofOpcode opcode = .documented i.mnemonic i.mode ∧
    (code.extract (i.address.toNat + 1) (i.address.toNat + i.size)).toList =
      Encoding.operand i.mode (i.operand.getD 0)

/-- **The code of an assembly has every instruction at its address.** -/
theorem Assembly.standsIn {settings : AssemblerSettings} {source : Text} {a : Assembly}
    (h : assemble settings source = .ok a) : ∀ i ∈ a.instructions, i.StandsIn a.bytes := by
  intro i hi
  obtain ⟨opcode, hbytes, hzero, hopcode⟩ := (wellFormed h i hi).exists_opcode
  obtain ⟨front, behind, himage, hfront⟩ := (contiguous h).exists_split (wellFormed h) hi
  obtain ⟨-, -, hcode, -⟩ := exists_reads h
  rw [himage, hbytes] at hcode
  refine ⟨opcode, ?_, hzero, hopcode, ?_⟩
  · rw [← Array.getElem?_toList, hcode, ← hfront]
    simp
  · have hdrop : (front ++ (opcode :: Encoding.operand i.mode (i.operand.getD 0)) ++ behind).drop
        (front.length + 1) = Encoding.operand i.mode (i.operand.getD 0) ++ behind := by
      rw [List.append_assoc, ← List.drop_drop, List.drop_left]
      rfl
    have hlength : front.length + i.size - (front.length + 1) =
        (Encoding.operand i.mode (i.operand.getD 0)).length := by
      rw [Encoding.length_operand]
      unfold Instruction.size
      omega
    rw [Array.toList_extract, hcode, ← hfront, List.extract_eq_take_drop, hdrop, hlength,
      List.take_left]

/-! ## The sweep -/

/-- What a sweep finds at an address: the meaning of the byte there, and the operand behind it. -/
structure Decoded where
  address : Nat
  slot : Slot
  operand : Option UInt16
  deriving DecidableEq, Repr

/-- The number of bytes that belong together. -/
def Decoded.size (d : Decoded) : Nat :=
  d.slot.size

/-- Reads machine code from an offset to its end. There is no result if the code ends before
the last operand does. -/
def sweep (code : Array UInt8) (offset : Nat) : Option (List Decoded) :=
  if h : offset < code.size then
    let slot := Slot.ofOpcode code[offset]
    let behind := (code.extract (offset + 1) (offset + slot.size)).toList
    match Encoding.readOperand? slot.operandSize behind with
    | none => none
    | some operand => (sweep code (offset + slot.size)).map (⟨offset, slot, operand⟩ :: ·)
  else if offset = code.size then some [] else none
termination_by code.size - offset
decreasing_by
  simp only [Slot.size]
  omega

theorem sweep_size (code : Array UInt8) : sweep code code.size = some [] := by
  rw [sweep, dif_neg (Nat.lt_irrefl _), if_pos rfl]

/-- An opcode with all of its operand is found, and then whatever stands behind it. -/
theorem sweep_of_readOperand? {code : Array UInt8} {offset : Nat} {opcode : UInt8}
    {operand : Option UInt16} (hopcode : code[offset]? = some opcode)
    (hread : Encoding.readOperand? (Slot.ofOpcode opcode).operandSize
      (code.extract (offset + 1) (offset + (Slot.ofOpcode opcode).size)).toList = some operand) :
    sweep code offset = (sweep code (offset + (Slot.ofOpcode opcode).size)).map
      (⟨offset, Slot.ofOpcode opcode, operand⟩ :: ·) := by
  obtain ⟨hlt, rfl⟩ := Array.getElem?_eq_some_iff.mp hopcode
  rw [sweep, dif_pos hlt]
  simp only [hread]

namespace Instruction

/-- The instruction as a sweep should find it. -/
def decoded (i : Instruction) : Decoded :=
  ⟨i.address.toNat, .documented i.mnemonic i.mode, i.operand⟩

/-- **A sweep takes one instruction**, if it comes to its address. -/
theorem StandsIn.sweep_eq {i : Instruction} {code : Array UInt8} (h : i.StandsIn code)
    (hfits : i.mode.Fits i.operand) :
    sweep code i.address.toNat = (sweep code i.stop).map (i.decoded :: ·) := by
  obtain ⟨opcode, hget, -, hslot, hbehind⟩ := h
  have hsize : (Slot.ofOpcode opcode).size = i.size := by rw [hslot]; rfl
  have hread := Encoding.readOperand?_operand hfits []
  rw [List.append_nil, ← hbehind, ← hsize] at hread
  rw [sweep_of_readOperand? hget (by rw [hslot] at hread ⊢; exact hread), hsize, hslot]
  rfl

end Instruction

/-- **A sweep over contiguous instructions** up to the end of the code finds these instructions. -/
theorem Contiguous.sweep_eq {start : Nat} {instructions : List Instruction} {code : Array UInt8}
    (h : Contiguous start instructions code.size) (hstands : ∀ i ∈ instructions, i.StandsIn code)
    (hwell : ∀ i ∈ instructions, i.WellFormed) :
    sweep code start = some (instructions.map Instruction.decoded) := by
  induction instructions generalizing start with
  | nil =>
    rw [show start = code.size from h]
    exact sweep_size code
  | cons i rest ih =>
    obtain ⟨haddress, hrest⟩ := h
    have htail := ih hrest (fun j hj => hstands j (List.mem_cons_of_mem i hj))
      fun j hj => hwell j (List.mem_cons_of_mem i hj)
    rw [← haddress, (hstands i List.mem_cons_self).sweep_eq (hwell i List.mem_cons_self).fits,
      htail]
    rfl

/-! ## Assembling undone -/

namespace Assembly

variable {settings : AssemblerSettings} {source : Text} {a : Assembly}

/-- **What it is for machine code to read back** as the instructions that it was made from. -/
structure SweepsBack (a : Assembly) : Prop where
  /-- The sweep comes to the end of the code, and finds the instructions one by one. -/
  sweep_eq : sweep a.bytes 0 = some (a.instructions.map Instruction.decoded)
  /-- No byte that it takes for an opcode is reserved, and the machine carries all of them out. -/
  emulated : ∀ i ∈ a.instructions, i.decoded.slot.isReserved = false ∧
    i.decoded.slot.instruction? = some i.mnemonic ∧ i.decoded.slot.mode = i.mode ∧
    i.decoded.size = i.size
  /-- An operand is missing exactly where the mode has no operand bytes. -/
  operand_eq_none_iff : ∀ i ∈ a.instructions, i.operand = none ↔ i.mode.operandSize = 0
  /-- An operand of one byte is below 256. -/
  operand_lt : ∀ i ∈ a.instructions, i.mode.operandSize = 1 →
    ∀ value, i.operand = some value → value.toNat < 256

/-- **Decoding undoes assembling.** -/
theorem sweepsBack (h : assemble settings source = .ok a) : SweepsBack a where
  sweep_eq := (contiguous h).sweep_eq (standsIn h) (wellFormed h)
  emulated _ _ := ⟨rfl, rfl, rfl, rfl⟩
  operand_eq_none_iff i hi := by
    have hfits := (wellFormed h i hi).fits
    cases hoperand : i.operand with
    | none =>
      rw [hoperand] at hfits
      exact iff_of_true rfl hfits
    | some value =>
      rw [hoperand] at hfits
      exact iff_of_false (Option.some_ne_none value) hfits.1
  operand_lt i hi hsize value hvalue := by
    have hfits := (wellFormed h i hi).fits
    rw [hvalue] at hfits
    have hlt := hfits.2
    rwa [hsize] at hlt

/-- A program with operands of every size. -/
theorem sweepsBack_of_three_sizes :
    ∃ a, assemble {} "STA $0200,X\nLDX #$03\nDEX\n".toList = .ok a ∧
      a.bytes = #[0x9D, 0x00, 0x02, 0xA2, 0x03, 0xCA] ∧ SweepsBack a := by
  have h : (assemble {} "STA $0200,X\nLDX #$03\nDEX\n".toList).toOption.map (·.bytes) =
      some #[0x9D, 0x00, 0x02, 0xA2, 0x03, 0xCA] := by
    decide +kernel
  obtain ⟨a, ha, hbytes⟩ := exists_of_map_toOption h
  exact ⟨a, ha, hbytes, sweepsBack ha⟩

end Assembly

end Micro65
