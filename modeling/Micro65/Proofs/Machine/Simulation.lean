import Micro65.Machine.SourceRun
import Micro65.Proofs.Assembly.Disassembly
import Micro65.Proofs.Machine.Program
import Micro65.Proofs.Machine.Turn
/-!
# Instructions and their bytes

An assembled program can be executed from its instructions or from its bytes. As long as the program
counter is at the start of an instruction, or behind the program, both fetch the same instruction
and do the same with it (`Machine.turn_fetchRom_eq`), for every machine and every memory, a memory
that records what is written to it included. So the two runs agree, up to the point, if there is
one, at which the program counter lies within an instruction (`Machine.romSimulates`).
-/

namespace Micro65

namespace Machine

variable {μ : Type}

/-! ## What comes next -/

section

variable {settings : AssemblerSettings} {source : Text} {a : Assembly}

/-- What the machine code has where an instruction starts. -/
theorem fetchRom_of_mem (h : assemble settings source = .ok a) {m : Machine μ} {i : Instruction}
    (hi : i ∈ a.instructions) (hpc : i.address = m.pc) :
    ∃ opcode, fetchRom a.bytes m =
        .command (.encoded opcode (Encoding.operand i.mode (i.operand.getD 0))) ∧
      Slot.ofOpcode opcode = .documented i.mnemonic i.mode := by
  obtain ⟨opcode, hget, hhalt, hopcode, hoperand⟩ := Assembly.standsIn h i hi
  have hsize : (Slot.ofOpcode opcode).size = i.size := by rw [hopcode]; rfl
  refine ⟨opcode, ?_, hopcode⟩
  rw [hpc] at hget hoperand
  unfold fetchRom
  simp only [hget, if_neg (show opcode ≠ haltByte from hhalt), hsize, hoperand]

/-- What comes next in an assembled program: its end, an instruction, or a place within one. -/
theorem fetchProgram_cases (h : assemble settings source = .ok a) (m : Machine μ) :
    (a.bytes.size ≤ m.pc.toNat ∧ fetchProgram (.ofAssembly a) m = .stop .finished) ∨
    (∃ i ∈ a.instructions, i.address = m.pc ∧
      fetchProgram (.ofAssembly a) m = .command (.decoded i)) ∨
    (m.pc.toNat < a.bytes.size ∧ (∀ i ∈ a.instructions, i.address ≠ m.pc) ∧
      fetchProgram (.ofAssembly a) m = .fault (.misaligned m.pc)) := by
  unfold fetchProgram Program.ofAssembly
  rcases Program.point_cases (Assembly.contiguous h) m.pc with ⟨hle, hpoint⟩ |
    ⟨i, hi, hpc, hpoint⟩ | ⟨hlt, hinside, hpoint⟩
  · rw [hpoint]
    exact .inl ⟨hle, rfl⟩
  · rw [hpoint]
    exact .inr (.inl ⟨i, hi, hpc, rfl⟩)
  · rw [hpoint]
    exact .inr (.inr ⟨hlt, hinside, rfl⟩)

end

variable [Memory μ]

section

variable {i : Instruction} {m : Machine μ} {p : Place}

theorem exists_place? {mode : Mode} {operand : Option UInt16} (h : mode.Fits operand)
    (m : Machine μ) : ∃ p, m.place? mode operand = some p := by
  unfold place?
  cases operand with
  | none => exact ⟨_, if_pos h⟩
  | some value =>
    rw [if_neg h.1]
    exact ⟨_, rfl⟩

/-- An instruction of the table with a fitting operand is carried out. -/
theorem perform_decoded (h : i.WellFormed) (hp : m.place? i.mode i.operand = some p) :
    m.perform (.decoded i) =
      ⟨.ok i.mnemonic, (m.advance i.size).apply i.mnemonic.operation p⟩ := by
  unfold perform execute
  simp only [if_pos h.hasMode, hp]
  rfl

/-- **The bytes of an instruction do what the instruction does.** -/
theorem perform_encoded {opcode : UInt8} (h : i.WellFormed)
    (hopcode : Slot.ofOpcode opcode = .documented i.mnemonic i.mode) :
    m.perform (.encoded opcode (Encoding.operand i.mode (i.operand.getD 0))) =
      m.perform (.decoded i) := by
  obtain ⟨p, hp⟩ := exists_place? h.fits m
  have hread := Encoding.readOperand?_operand h.fits []
  rw [List.append_nil] at hread
  rw [perform_decoded h hp]
  unfold perform executeBytes
  simp only [hopcode, Slot.instruction?, Slot.operandSize, Slot.mode, hread, hp]
  rfl

end

/-! ## One turn -/

section

variable {settings : AssemblerSettings} {source : Text} {a : Assembly} {m : Machine μ}

/-- What a turn of a run from the instructions of an assembly can be. -/
inductive Turns (a : Assembly) (n : Nat) (m : Machine μ) :
    Except (Outcome μ Summary) (Machine μ) → Prop where
  | misaligned (lt_size : m.pc.toNat < a.bytes.size)
      (inside : ∀ i ∈ a.instructions, i.address ≠ m.pc)
      (fetch_eq : fetchProgram (.ofAssembly a) m = .fault (.misaligned m.pc)) :
      Turns a n m (.error ⟨.error (.misaligned m.pc), m⟩)
  | finished (size_le : a.bytes.size ≤ m.pc.toNat) :
      Turns a n m (.error ⟨.ok ⟨n, .finished⟩, m⟩)
  | limited (limit : Nat) (i : Instruction) (mem : i ∈ a.instructions)
      (address_eq : i.address = m.pc) (stepLimit_eq : m.settings.stepLimit = some limit)
      (limit_le : limit ≤ n) : Turns a n m (.error ⟨.error (.limitReached limit), m⟩)
  | executed (i : Instruction) (mem : i ∈ a.instructions) (address_eq : i.address = m.pc)
      (p : Place) (place_eq : m.place? i.mode i.operand = some p) :
      Turns a n m (.ok ((m.advance i.size).apply i.mnemonic.operation p))

/-- **A turn from the instructions** is one of these. -/
theorem turns_fetchProgram (h : assemble settings source = .ok a) (n : Nat) (m : Machine μ) :
    Turns a n m (turn (fetchProgram (.ofAssembly a)) n m) := by
  unfold turn
  rcases fetchProgram_cases h m with ⟨hle, hfetch⟩ | ⟨i, hi, hpc, hfetch⟩ |
    ⟨hlt, hinside, hfetch⟩
  · rw [hfetch]
    exact .finished hle
  · obtain ⟨p, hp⟩ := exists_place? (Assembly.wellFormed h i hi).fits m
    rw [hfetch]
    simp only
    rcases m.limitFault?_cases n with hnone | ⟨limit, hsome, hlimit, hle⟩
    · rw [hnone, perform_decoded (Assembly.wellFormed h i hi) hp]
      exact .executed i hi hpc p hp
    · rw [hsome]
      exact .limited limit i hi hpc hlimit hle
  · rw [hfetch]
    exact .misaligned hlt hinside hfetch

/-- **Where the instructions and the bytes agree**: in every machine whose program counter does not
lie within an instruction, the turn from the bytes is the same. -/
theorem turn_fetchRom_eq (h : assemble settings source = .ok a) (n : Nat) (m : Machine μ)
    (haligned : fetchProgram (.ofAssembly a) m ≠ .fault (.misaligned m.pc)) :
    turn (fetchRom a.bytes) n m = turn (fetchProgram (.ofAssembly a)) n m := by
  unfold turn
  rcases fetchProgram_cases h m with ⟨hle, hfetch⟩ | ⟨i, hi, hpc, hfetch⟩ | ⟨-, -, hfetch⟩
  · have hrom : fetchRom a.bytes m = .stop .finished := by
      unfold fetchRom
      simp only [Array.getElem?_eq_none hle]
    simp only [hrom, hfetch]
  · obtain ⟨opcode, hrom, hopcode⟩ := fetchRom_of_mem h hi hpc
    simp only [hrom, hfetch, perform_encoded (Assembly.wellFormed h i hi) hopcode]
  · exact absurd hfetch haligned

/-! ## Whole runs -/

/-- An instruction that is executed from the program is executed from the bytes. -/
theorem turn_fetchRom_of_ok (h : assemble settings source = .ok a) (n : Nat) (m m' : Machine μ)
    (hturn : turn (fetchProgram (.ofAssembly a)) n m = .ok m') :
    turn (fetchRom a.bytes) n m = .ok m' := by
  rw [turn_fetchRom_eq h n m, hturn]
  intro hfetch
  unfold turn at hturn
  rw [hfetch] at hturn
  cases hturn

/-- A run from the program ends with an address within an instruction, or the run from the bytes
ends the same way, without a fault or at the limit. -/
theorem turn_fetchRom_of_error (h : assemble settings source = .ok a) {n : Nat}
    {o : Outcome μ Summary} (hturn : turn (fetchProgram (.ofAssembly a)) n m = .error o) :
    o = ⟨.error (.misaligned m.pc), m⟩ ∨
      turn (fetchRom a.bytes) n m = .error o ∧
        ((∃ summary, o.result = .ok summary) ∨
          ∃ limit, o.result = .error (.limitReached limit)) := by
  by_cases hfetch : fetchProgram (.ofAssembly a) m = .fault (.misaligned m.pc)
  · unfold turn at hturn
    rw [hfetch] at hturn
    cases hturn
    exact .inl rfl
  · have hturns := turns_fetchProgram h n m
    rw [hturn] at hturns
    rw [turn_fetchRom_eq h n m hfetch]
    cases hturns with
    | misaligned _ _ h => exact absurd h hfetch
    | finished _ => exact .inr ⟨hturn, .inl ⟨_, rfl⟩⟩
    | limited limit _ _ _ _ _ => exact .inr ⟨hturn, .inr ⟨limit, rfl⟩⟩

/-- **How the bytes of an assembly simulate its instructions**, in runs from the same machine. -/
structure RomSimulates (a : Assembly) (m : Machine μ) : Prop where
  /-- After every number of instructions the machines are the same, as long as the run from the
  instructions has not come to an address within an instruction. -/
  same_machines : ∀ k,
    (∀ j < k, ∀ m', after (fetchProgram (.ofAssembly a)) j m = some m' →
      fetchProgram (.ofAssembly a) m' ≠ .fault (.misaligned m'.pc)) →
    after (fetchProgram (.ofAssembly a)) k m = after (fetchRom a.bytes) k m
  ended : ∀ fuel summary m',
    run (fetchProgram (.ofAssembly a)) fuel m = some ⟨.ok summary, m'⟩ →
    run (fetchRom a.bytes) fuel m = some ⟨.ok summary, m'⟩
  limited : ∀ fuel limit m',
    run (fetchProgram (.ofAssembly a)) fuel m = some ⟨.error (.limitReached limit), m'⟩ →
    run (fetchRom a.bytes) fuel m = some ⟨.error (.limitReached limit), m'⟩
  /-- The run from the bytes passes through the machine with which the other one gives up. -/
  misaligned : ∀ fuel pc m',
    run (fetchProgram (.ofAssembly a)) fuel m = some ⟨.error (.misaligned pc), m'⟩ →
    m'.pc = pc ∧ ∃ k, after (fetchProgram (.ofAssembly a)) k m = some m' ∧
      after (fetchRom a.bytes) k m = some m'
  no_other_fault : ∀ fuel f m',
    run (fetchProgram (.ofAssembly a)) fuel m = some ⟨.error f, m'⟩ →
    (∃ limit, f = .limitReached limit) ∨ ∃ pc, f = .misaligned pc
  unended : ∀ fuel, run (fetchProgram (.ofAssembly a)) fuel m = none →
    run (fetchRom a.bytes) fuel m = none

/-- A run from the program that ends either gives up at an address within an instruction, or the run
from the bytes ends with the same outcome. -/
theorem run_fetchRom_of_some (h : assemble settings source = .ok a) {fuel : Nat}
    {o : Outcome μ Summary} (hrun : run (fetchProgram (.ofAssembly a)) fuel m = some o) :
    (∃ k m', after (fetchProgram (.ofAssembly a)) k m = some m' ∧
      o = ⟨.error (.misaligned m'.pc), m'⟩) ∨
    run (fetchRom a.bytes) fuel m = some o ∧
      ((∃ summary, o.result = .ok summary) ∨
        ∃ limit, o.result = .error (.limitReached limit)) := by
  obtain ⟨k, hk, m', hafter, hturn⟩ := run_eq_some_iff.mp hrun
  rcases turn_fetchRom_of_error h hturn with ho | ⟨hrom, hresult⟩
  · exact .inl ⟨k, m', hafter, ho⟩
  · refine .inr ⟨run_eq_some_iff.mpr ⟨k, hk, m', ?_, hrom⟩, hresult⟩
    exact after_of_turn (turn_fetchRom_of_ok h) hafter

/-- **The bytes of every assembly simulate its instructions.** -/
theorem romSimulates (h : assemble settings source = .ok a) (m : Machine μ) : RomSimulates a m where
  same_machines k haligned :=
    after_congr fun j hj m' hafter => (turn_fetchRom_eq h j m' (haligned j hj m' hafter)).symm
  ended fuel summary m' hrun := by
    rcases run_fetchRom_of_some h hrun with ⟨_, _, -, ho⟩ | ⟨hrom, -⟩
    · cases ho
    · exact hrom
  limited fuel limit m' hrun := by
    rcases run_fetchRom_of_some h hrun with ⟨_, _, -, ho⟩ | ⟨hrom, -⟩
    · cases ho
    · exact hrom
  misaligned fuel pc m' hrun := by
    rcases run_fetchRom_of_some h hrun with ⟨k, _, hafter, ho⟩ | ⟨-, ⟨_, h⟩ | ⟨_, h⟩⟩
    · cases ho
      exact ⟨rfl, k, hafter, after_of_turn (turn_fetchRom_of_ok h) hafter⟩
    · cases h
    · cases h
  no_other_fault fuel f m' hrun := by
    rcases run_fetchRom_of_some h hrun with ⟨_, _, -, ho⟩ | ⟨-, ⟨_, h⟩ | ⟨limit, h⟩⟩
    · cases ho
      exact .inr ⟨_, rfl⟩
    · cases h
    · cases h
      exact .inl ⟨limit, rfl⟩
  unended fuel hrun := by
    obtain ⟨m', hafter⟩ := run_eq_none_iff.mp hrun
    exact run_eq_none_iff.mpr ⟨m', after_of_turn (turn_fetchRom_of_ok h) hafter⟩

/-- A branch into itself, on a machine that records what is written. -/
theorem romSimulates_of_branch :
    ∃ a, assemble {} "BNE $FF".toList = .ok a ∧ a.bytes = #[0xD0, 0xFF] ∧
      RomSimulates a ({ memory := ⟨Ram.zeroed, []⟩ } : Machine (Traced Ram)) := by
  have h : (assemble {} "BNE $FF".toList).toOption.map (·.bytes) = some #[0xD0, 0xFF] := by
    decide +kernel
  obtain ⟨a, ha, hbytes⟩ := exists_of_map_toOption h
  exact ⟨a, ha, hbytes, romSimulates ha _⟩

end

end Machine

end Micro65
