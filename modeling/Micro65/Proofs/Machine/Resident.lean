import Micro65.Proofs.Encoding
import Micro65.Proofs.Machine.Executed
/-!
# Images in memory

An image can be run as it is, or from memory that holds it. The two fetch differently: the image
gives an instruction the bytes that it has of it, memory gives two bytes, whatever they belong to,
and the byte behind the last address is the first. As long as memory holds the image (`Holds`), the
bytes of the image are the first of the two (`Machine.operand_starts`), so an instruction that is
executed from the image is executed the same from memory (`Machine.step_of_turn`). A program may
write over itself. Up to the first byte of the image that it changes (`Machine.Intact`), the steps
from memory follow the run of the image (`Machine.followsRom`).
-/

namespace Micro65

/-- Memory holds an image from address 0 on. -/
def Holds {μ : Type} [Memory μ] (rom : Array UInt8) (memory : μ) : Prop :=
  ∀ (address : UInt16) (byte : UInt8), rom[address.toNat]? = some byte →
    Memory.read memory address = byte

/-! ## Loading -/

namespace Ram

theorem load_cons (m : Ram) (start : UInt16) (byte : UInt8) (bytes : List UInt8) :
    m.load start (byte :: bytes) = (m.write start byte).load (start + 1) bytes :=
  rfl

theorem add_one_add_ofNat (start : UInt16) (i : Nat) :
    start + 1 + UInt16.ofNat i = start + UInt16.ofNat (i + 1) := by
  rw [UInt16.ofNat_add, UInt16.add_assoc, UInt16.add_comm 1]
  rfl

/-- Bytes that are written elsewhere leave a byte alone. -/
theorem read_load_of_ne (m : Ram) {start address : UInt16} (bytes : List UInt8)
    (hne : ∀ i < bytes.length, start + UInt16.ofNat i ≠ address) :
    (m.load start bytes).read address = m.read address := by
  induction bytes generalizing m start with
  | nil => rfl
  | cons byte bytes ih =>
    have hstart : start ≠ address := by
      simpa using hne 0 (Nat.succ_pos _)
    rw [load_cons, ih, read_write_of_ne m byte hstart]
    intro i hi
    rw [add_one_add_ofNat]
    exact hne (i + 1) (Nat.succ_lt_succ hi)

/-- Bytes that fit into memory stand one after the other. -/
theorem read_load (m : Ram) (start : UInt16) (bytes : List UInt8) (hlength : bytes.length ≤ 0x10000)
    {i : Nat} (hi : i < bytes.length) :
    (m.load start bytes).read (start + UInt16.ofNat i) = bytes[i] := by
  induction bytes generalizing m start i with
  | nil => cases hi
  | cons byte bytes ih =>
    rw [List.length_cons] at hlength hi
    rw [load_cons]
    cases i with
    | zero =>
      rw [read_load_of_ne]
      · simp
      · intro i hi h
        have hnat := congrArg UInt16.toNat h
        simp [UInt16.toNat_add] at hnat
        omega
    | succ i =>
      rw [← add_one_add_ofNat, ih (m.write start byte) (start + 1) (by omega) (by omega)]
      rfl

/-- **Memory holds an image that has been loaded into it.** -/
theorem holds_load (m : Ram) {rom : Array UInt8} (hsize : rom.size ≤ 0x10000) :
    Holds rom (m.load 0 rom.toList) := by
  intro address byte hbyte
  obtain ⟨hi, rfl⟩ := Array.getElem?_eq_some_iff.mp hbyte
  have hread := m.read_load 0 rom.toList hsize hi
  rw [UInt16.ofNat_toNat, UInt16.zero_add] at hread
  exact hread

end Ram

namespace Machine

variable {μ : Type} [Memory μ] {rom : Array UInt8} {m m' : Machine μ} {n : Nat}

/-! ## One instruction -/

/-- What the image has behind an opcode is what memory has there first. -/
theorem operand_starts (hsize : rom.size ≤ 0x10000) (hholds : Holds rom m.memory) (opcode : UInt8) :
    (rom.extract (m.pc.toNat + 1) (m.pc.toNat + (Slot.ofOpcode opcode).size)).toList <+:
      [Memory.read m.memory (m.pc + 1), Memory.read m.memory (m.pc + 2)] := by
  have hoperand := (Slot.ofOpcode opcode).operandSize_le_two
  have hread : ∀ i, m.pc.toNat + 1 + i < rom.size → ∀ byte, rom[m.pc.toNat + 1 + i]? = some byte →
      Memory.read m.memory (m.pc + UInt16.ofNat (1 + i)) = byte := by
    intro i hi byte hbyte
    refine hholds _ _ ?_
    -- The byte lies in the image, which ends at the last address, so the sum does not wrap around.
    have haddress : (m.pc + UInt16.ofNat (1 + i)).toNat = m.pc.toNat + 1 + i := by
      rw [UInt16.toNat_add, UInt16.toNat_ofNat']
      omega
    rw [haddress]
    exact hbyte
  rw [List.prefix_iff_getElem?]
  intro i hi
  have hlength := hi
  rw [Array.length_toList, Array.size_extract, Slot.size] at hlength
  have hbyte := hread i (by omega) rom[m.pc.toNat + 1 + i] (Array.getElem?_eq_getElem _)
  rw [Array.getElem_toList, Array.getElem_extract]
  obtain rfl | rfl : i = 0 ∨ i = 1 := by omega
  · exact congrArg some hbyte
  · exact congrArg some hbyte

/-- More bytes behind an opcode do not change what its instruction does. -/
theorem executeBytes_of_starts {opcode : UInt8} {bytes window : List UInt8} {mnemonic : Mnemonic}
    (hstarts : bytes <+: window) (h : m.executeBytes opcode bytes = ⟨.ok mnemonic, m'⟩) :
    m.executeBytes opcode window = ⟨.ok mnemonic, m'⟩ := by
  unfold executeBytes at h ⊢
  cases hinstruction : (Slot.ofOpcode opcode).instruction? with
  | none =>
    simp only [hinstruction] at h
    cases h
  | some found =>
    cases hoperand : Encoding.readOperand? (Slot.ofOpcode opcode).operandSize bytes with
    | none =>
      simp only [hinstruction, hoperand] at h
      cases h
    | some operand =>
      simp only [hinstruction, hoperand] at h
      simp only [hinstruction, Encoding.readOperand?_of_starts hstarts hoperand]
      exact h

/-- An opcode without an instruction has none whatever the bytes behind it are. -/
theorem executeBytes_of_unknownOpcode {opcode found : UInt8} {bytes window : List UInt8}
    {pc : UInt16} (h : m.executeBytes opcode bytes = ⟨.error (.unknownOpcode found pc), m'⟩) :
    m.executeBytes opcode window = ⟨.error (.unknownOpcode found pc), m'⟩ := by
  unfold executeBytes at h ⊢
  cases hinstruction : (Slot.ofOpcode opcode).instruction? with
  | none =>
    simp only [hinstruction] at h ⊢
    exact h
  | some mnemonic =>
    simp only [hinstruction] at h
    split at h
    · cases h
    · split at h <;> cases h

/-! ## One step -/

/-- What comes next in memory that holds an image, if the image has a command. -/
theorem fetchMemory_of_command (hsize : rom.size ≤ 0x10000) (hholds : Holds rom m.memory)
    {c : Command} (hfetch : fetchRom rom m = .command c) :
    ∃ opcode bytes window, c = .encoded opcode bytes ∧ bytes <+: window ∧
      fetchMemory m = .command (.encoded opcode window) := by
  obtain ⟨opcode, hopcode, hhalt, hencoded⟩ := exists_opcode_of_fetchRom hfetch
  refine ⟨opcode, _, _, hencoded, operand_starts hsize hholds opcode, ?_⟩
  unfold fetchMemory
  simp only [hholds m.pc opcode hopcode, if_neg hhalt]

/-- **An instruction executed from the image is executed the same from memory.** -/
theorem step_of_turn (hsize : rom.size ≤ 0x10000) (hholds : Holds rom m.memory)
    (hturn : turn (fetchRom rom) n m = .ok m') :
    ∃ mnemonic, step fetchMemory m = ⟨.ok (.executed mnemonic), m'⟩ := by
  obtain ⟨c, mnemonic, hfetch, -, hperform⟩ := turn_eq_ok_iff.mp hturn
  obtain ⟨opcode, bytes, window, rfl, hstarts, hmemory⟩ :=
    fetchMemory_of_command hsize hholds hfetch
  refine ⟨mnemonic, ?_⟩
  have hwindow : m.perform (.encoded opcode window) = ⟨.ok mnemonic, m'⟩ :=
    executeBytes_of_starts hstarts hperform
  unfold step
  simp only [hmemory, hwindow]

/-- Where the image has its end mark, so has memory. -/
theorem step_of_halted (hholds : Holds rom m.memory) (hfetch : fetchRom rom m = .stop .halted) :
    step fetchMemory m = ⟨.ok (.stopped .halted), m⟩ := by
  obtain ⟨-, h⟩ | ⟨hhalt, -⟩ | ⟨opcode, -, -, h⟩ := fetchRom_cases rom m
  · rw [h] at hfetch
    cases hfetch
  · unfold step fetchMemory
    simp only [hholds m.pc haltByte hhalt, if_true]
  · rw [h] at hfetch
    cases hfetch

/-- An opcode that the machine does not know is a fault of the command, not of what comes
next or of the limit. -/
theorem perform_of_unknownOpcode {opcode : UInt8} {pc : UInt16}
    (hturn : turn (fetchRom rom) n m = .error ⟨.error (.unknownOpcode opcode pc), m⟩) :
    ∃ c, fetchRom rom m = .command c ∧ m.perform c = ⟨.error (.unknownOpcode opcode pc), m⟩ := by
  obtain ⟨ending, -, h⟩ | ⟨f, h, hfault | ⟨c, hfetch, hlimit | hperform⟩⟩ :=
    turn_eq_error_cases hturn
  · cases h
  · obtain ⟨_, hstop⟩ | ⟨_, hstop⟩ | ⟨_, _, _, hcommand⟩ := fetchRom_cases rom m
    · simp [hstop] at hfault
    · simp [hstop] at hfault
    · simp [hcommand] at hfault
  · cases h
    obtain hnone | ⟨limit, hsome, -⟩ := limitFault?_cases m n
    · simp [hnone] at hlimit
    · simp [hsome] at hlimit
  · cases h
    exact ⟨c, hfetch, hperform⟩

/-- An opcode of the image that the machine does not know is the same fault in memory. -/
theorem step_of_unknownOpcode (hsize : rom.size ≤ 0x10000) (hholds : Holds rom m.memory)
    {opcode : UInt8} {pc : UInt16}
    (hturn : turn (fetchRom rom) n m = .error ⟨.error (.unknownOpcode opcode pc), m⟩) :
    step fetchMemory m = ⟨.error (.unknownOpcode opcode pc), m⟩ := by
  obtain ⟨c, hfetch, hperform⟩ := perform_of_unknownOpcode hturn
  obtain ⟨fetched, bytes, window, rfl, -, hmemory⟩ := fetchMemory_of_command hsize hholds hfetch
  have hwindow : m.perform (.encoded fetched window) = ⟨.error (.unknownOpcode opcode pc), m⟩ :=
    executeBytes_of_unknownOpcode hperform
  unfold step
  simp only [hmemory, hwindow]

/-! ## Whole runs -/

/-- The machine behind a step that executes an instruction. -/
def executed? : Outcome μ Step → Option (Machine μ)
  | ⟨.ok (.executed _), m⟩ => some m
  | _ => none

/-- The machine behind `k` steps, if every one of them executes an instruction. -/
def steps (fetch : Machine μ → Fetch) : Nat → Machine μ → Option (Machine μ)
  | 0, m => some m
  | k + 1, m => (steps fetch k m).bind fun m => executed? (step fetch m)

/-- None of the first `k` instructions of the run of an image changes a byte of memory below
the size of the image. -/
def Intact (rom : Array UInt8) (k : Nat) (m : Machine μ) : Prop :=
  ∀ j < k, ∀ m₁ m₂, after (fetchRom rom) j m = some m₁ → after (fetchRom rom) (j + 1) m = some m₂ →
    ∀ address : UInt16, address.toNat < rom.size →
      Memory.read m₂.memory address = Memory.read m₁.memory address

/-- How the steps from memory follow the run of the image that it holds, as long as the image is
intact. -/
structure FollowsRom (rom : Array UInt8) (m : Machine μ) : Prop where
  /-- Behind as many steps as the run has instructions, there is the machine of the run. -/
  executed : ∀ k m', after (fetchRom rom) k m = some m' → Intact rom k m →
    steps fetchMemory k m = some m'
  /-- Where the run comes to the end mark, so does the next step. -/
  halted : ∀ k fuel m', run (fetchRom rom) fuel m = some ⟨.ok ⟨k, .halted⟩, m'⟩ → Intact rom k m →
    steps fetchMemory k m = some m' ∧ step fetchMemory m' = ⟨.ok (.stopped .halted), m'⟩
  /-- Where the run comes to an opcode that the machine does not know, so does the next step. -/
  unknownOpcode : ∀ k fuel m' opcode pc, after (fetchRom rom) k m = some m' →
    run (fetchRom rom) fuel m = some ⟨.error (.unknownOpcode opcode pc), m'⟩ → Intact rom k m →
    steps fetchMemory k m = some m' ∧ step fetchMemory m' = ⟨.error (.unknownOpcode opcode pc), m'⟩

section

variable {k : Nat} (hsize : rom.size ≤ 0x10000) (hpc : m.pc = 0) (hholds : Holds rom m.memory)

include hholds in
/-- Memory holds an image as long as it is intact. -/
theorem holds_of_after (hafter : after (fetchRom rom) k m = some m') (hintact : Intact rom k m) :
    Holds rom m'.memory := by
  induction k generalizing m' with
  | zero =>
    cases hafter
    exact hholds
  | succ k ih =>
    obtain ⟨m₁, hm₁, -⟩ := after_succ.mp hafter
    have hbefore : Holds rom m₁.memory := ih hm₁ fun j hj => hintact j (Nat.lt_succ_of_lt hj)
    intro address byte hbyte
    obtain ⟨haddress, -⟩ := Array.getElem?_eq_some_iff.mp hbyte
    rw [hintact k (Nat.lt_succ_self k) m₁ m' hm₁ hafter address haddress]
    exact hbefore address byte hbyte

include hsize hpc hholds

/-- **The steps go with the run**, by induction on the number of instructions. -/
theorem steps_of_after (hafter : after (fetchRom rom) k m = some m') (hintact : Intact rom k m) :
    steps fetchMemory k m = some m' := by
  induction k generalizing m' with
  | zero =>
    cases hafter
    rw [steps, ← hpc]
  | succ k ih =>
    obtain ⟨m₁, hm₁, hturn⟩ := after_succ.mp hafter
    have hbefore : Intact rom k m := fun j hj => hintact j (Nat.lt_succ_of_lt hj)
    obtain ⟨mnemonic, hstep⟩ := step_of_turn hsize (holds_of_after hholds hm₁ hbefore) hturn
    rw [steps, ih hm₁ hbefore, Option.bind_some, hstep]
    rfl

/-- **Stepping from memory follows the run of the image** for every image that fits into memory,
from every machine at address 0 whose memory holds it. -/
theorem followsRom : FollowsRom rom m where
  executed k m' hafter hintact := steps_of_after hsize hpc hholds hafter hintact
  halted k fuel m' hrun hintact := by
    obtain ⟨j, -, hafter, hturn⟩ := exists_after_of_run hrun
    obtain ⟨ending, hfetch, h⟩ | ⟨f, h, -⟩ := turn_eq_error_cases hturn
    · cases h
      refine ⟨steps_of_after hsize hpc hholds hafter hintact, ?_⟩
      exact step_of_halted (holds_of_after hholds hafter hintact) hfetch
    · cases h
  unknownOpcode k fuel m' opcode pc hafter hrun hintact := by
    refine ⟨steps_of_after hsize hpc hholds hafter hintact, ?_⟩
    obtain ⟨j, -, -, hturn⟩ := exists_after_of_run hrun
    exact step_of_unknownOpcode hsize (holds_of_after hholds hafter hintact) hturn

end

/-- A program that counts in a byte behind itself, loaded into memory. -/
theorem followsRom_of_loaded :
    FollowsRom #[0xE8, 0xE6, 0x10, 0x00]
      ({ memory := Ram.zeroed.load 0 [0xE8, 0xE6, 0x10, 0x00] } : Machine Ram) :=
  followsRom (by decide) rfl (Ram.holds_load _ (by decide))

end Machine

end Micro65
