import Micro65.Proofs.Machine.Dispatch
import Micro65.Proofs.Machine.Limit
/-!
# Faults

An instruction given by its parts is at fault if it lacks the mode or the operand
(`Machine.execute_cases`), an opcode if it has no instruction or too few bytes behind it
(`Machine.executeBytes_cases`), and nothing else can go wrong. Both are found before the machine is
changed, so a fault leaves the machine as it was, its memory with all that has been written to it
included. A run that ends with a fault is therefore at the machine behind the instructions that it
has executed, whose program counter is still at what it could not execute (`Machine.StopsInRom`,
`Machine.StopsInProgram`). The main statement is `Machine.faultsLeaveNoTrace`.
-/

namespace Micro65

/-- Bytes are too few for an operand exactly if there are fewer of them than the operand has. -/
theorem Encoding.readOperand?_eq_none_iff {count : Nat} {bytes : List UInt8} (hcount : count ≤ 2) :
    readOperand? count bytes = none ↔ bytes.length < count := by
  match count, bytes with
  | 0, _ => simp [readOperand?]
  | 1, [] => simp [readOperand?]
  | 1, _ :: _ => simp [readOperand?]
  | 2, [] => simp [readOperand?]
  | 2, [_] => simp [readOperand?]
  | 2, _ :: _ :: _ => simp [readOperand?]

namespace Machine

variable {μ : Type} [Memory μ] {fetch : Machine μ → Fetch} {m m' : Machine μ} {f : Fault}

/-! ## One instruction -/

theorem exists_place?_or_missing (m : Machine μ) (mode : Mode) (operand : Option UInt16) :
    (operand = none ∧ mode.operandSize ≠ 0 ∧ m.place? mode operand = none) ∨
      ∃ p, m.place? mode operand = some p := by
  cases operand with
  | some value => exact .inr ⟨_, m.place?_some mode value⟩
  | none =>
    by_cases hsize : mode.operandSize = 0
    · exact .inr ⟨_, m.place?_none hsize 0⟩
    · exact .inl ⟨rfl, hsize, if_neg hsize⟩

/-- **What comes of an instruction given by its parts.** -/
theorem execute_cases (m : Machine μ) (mnemonic : Mnemonic) (mode : Mode)
    (operand : Option UInt16) :
    (mnemonic.hasMode mode = false ∧
      m.execute mnemonic mode operand = ⟨.error (.lacksMode mnemonic mode), m⟩) ∨
    (mnemonic.hasMode mode = true ∧ operand = none ∧ mode.operandSize ≠ 0 ∧
      m.execute mnemonic mode operand = ⟨.error (.missingOperand mode), m⟩) ∨
    ∃ p, mnemonic.hasMode mode = true ∧ m.place? mode operand = some p ∧
      m.execute mnemonic mode operand =
        ⟨.ok (), (m.advance (1 + mode.operandSize)).apply mnemonic.operation p⟩ := by
  by_cases hmode : mnemonic.hasMode mode = true
  · obtain ⟨hoperand, hsize, hplace⟩ | ⟨p, hplace⟩ := m.exists_place?_or_missing mode operand
    · refine .inr (.inl ⟨hmode, hoperand, hsize, ?_⟩)
      unfold execute
      simp only [if_pos hmode, hplace]
    · exact .inr (.inr ⟨p, hmode, hplace, execute_eq hmode hplace⟩)
  · exact .inl ⟨Bool.eq_false_iff.mpr hmode, if_neg hmode⟩

/-- **What comes of an opcode with the bytes behind it.** -/
theorem executeBytes_cases (m : Machine μ) (opcode : UInt8) (bytes : List UInt8) :
    ((Slot.ofOpcode opcode).instruction? = none ∧
      m.executeBytes opcode bytes = ⟨.error (.unknownOpcode opcode m.pc), m⟩) ∨
    ∃ mnemonic, (Slot.ofOpcode opcode).instruction? = some mnemonic ∧
      ((bytes.length < (Slot.ofOpcode opcode).operandSize ∧ m.executeBytes opcode bytes =
          ⟨.error (.truncated opcode (Slot.ofOpcode opcode).operandSize bytes.length), m⟩) ∨
        ∃ p, (Slot.ofOpcode opcode).operandSize ≤ bytes.length ∧
          m.operandPlace? opcode bytes = some p ∧ m.executeBytes opcode bytes =
            ⟨.ok mnemonic,
              (m.advance (Slot.ofOpcode opcode).size).apply mnemonic.operation p⟩) := by
  cases hinstruction : (Slot.ofOpcode opcode).instruction? with
  | none =>
    refine .inl ⟨rfl, ?_⟩
    unfold executeBytes
    simp only [hinstruction]
  | some mnemonic =>
    refine .inr ⟨mnemonic, rfl, ?_⟩
    by_cases hbytes : bytes.length < (Slot.ofOpcode opcode).operandSize
    · have hread := (Encoding.readOperand?_eq_none_iff
        (Slot.ofOpcode opcode).operandSize_le_two).mpr hbytes
      refine .inl ⟨hbytes, ?_⟩
      unfold executeBytes
      simp only [hinstruction, hread]
    · have henough := Nat.le_of_not_lt hbytes
      obtain ⟨value, hplace, -⟩ := m.exists_operandPlace? hinstruction henough
      exact .inr ⟨_, henough, hplace, executeBytes_eq hinstruction hplace⟩

/-! ## One step -/

/-- A step at fault leaves the machine as it was. -/
theorem machine_of_step_eq_error (h : step fetch m = ⟨.error f, m'⟩) : m' = m := by
  unfold step at h
  split at h
  · cases h
  · cases h
    rfl
  · split at h
    · cases h
    · rename_i hperform
      cases h
      exact machine_of_perform_eq_error hperform

/-! ## Runs -/

section

omit [Memory μ]

variable {rom : Array UInt8} {pc : Nat}

/-- An image has enough bytes behind an opcode exactly if the instruction ends in it. -/
theorem operandSize_le_length_iff (hpc : pc < rom.size) (slot : Slot) :
    slot.operandSize ≤ (rom.extract (pc + 1) (pc + slot.size)).toList.length ↔
      pc + slot.size ≤ rom.size := by
  rw [Array.length_toList, Array.size_extract, Slot.size]
  omega

/-- Behind the opcode of an instruction that does not end in the image are the rest of its bytes. -/
theorem length_behind {slot : Slot} (h : rom.size < pc + slot.size) :
    (rom.extract (pc + 1) (pc + slot.size)).toList.length = rom.size - (pc + 1) := by
  rw [Array.length_toList, Array.size_extract, Nat.min_eq_right (Nat.le_of_lt h)]

end

/-- Why the run of an image cannot go on: the fault is in what the image has at the program counter,
or there is an instruction that the limit forbids. -/
inductive StopsInRom (rom : Array UInt8) (m : Machine μ) : Fault → Prop where
  | limitReached (opcode : UInt8) (limit : Nat) (opcode_eq : rom[m.pc.toNat]? = some opcode)
      (ne_halt : opcode ≠ haltByte) (limit_eq : m.settings.stepLimit = some limit) :
      StopsInRom rom m (.limitReached limit)
  | unknownOpcode (opcode : UInt8) (opcode_eq : rom[m.pc.toNat]? = some opcode)
      (unknown : (Slot.ofOpcode opcode).instruction? = none) :
      StopsInRom rom m (.unknownOpcode opcode m.pc)
  | truncated (opcode : UInt8) (opcode_eq : rom[m.pc.toNat]? = some opcode)
      (known : (Slot.ofOpcode opcode).instruction?.isSome = true)
      (size_lt : rom.size < m.pc.toNat + (Slot.ofOpcode opcode).size) :
      StopsInRom rom m
        (.truncated opcode (Slot.ofOpcode opcode).operandSize (rom.size - (m.pc.toNat + 1)))

/-- Why the run of a program cannot go on: the fault is in the instruction at the program counter,
there is no instruction that starts there, or there is one that the limit forbids. -/
inductive StopsInProgram (p : Program) (m : Machine μ) : Fault → Prop where
  | limitReached (i : Instruction) (limit : Nat) (point_eq : p.point m.pc = .start i)
      (limit_eq : m.settings.stepLimit = some limit) : StopsInProgram p m (.limitReached limit)
  | misaligned (point_eq : p.point m.pc = .inside) : StopsInProgram p m (.misaligned m.pc)
  | lacksMode (i : Instruction) (point_eq : p.point m.pc = .start i)
      (lacks : i.mnemonic.hasMode i.mode = false) :
      StopsInProgram p m (.lacksMode i.mnemonic i.mode)
  | missingOperand (i : Instruction) (point_eq : p.point m.pc = .start i)
      (none_eq : i.operand = none) (size_ne : i.mode.operandSize ≠ 0) :
      StopsInProgram p m (.missingOperand i.mode)

/-- **A run that ends with a fault** is at the machine behind the instructions that it has executed,
as many as its limit if that is the fault. What comes next there is at fault. -/
theorem exists_after_of_run_eq_error {fuel : Nat} (h : run fetch fuel m = some ⟨.error f, m'⟩) :
    ∃ k, after fetch k m = some m' ∧
      (fetch m' = .fault f ∨ ∃ c, fetch m' = .command c ∧
        ((f = .limitReached k ∧ m'.settings.stepLimit = some k) ∨
          m'.perform c = ⟨.error f, m'⟩)) := by
  obtain ⟨k, -, hafter, hturn⟩ := exists_after_of_run h
  refine ⟨k, hafter, ?_⟩
  obtain ⟨_, -, ho⟩ | ⟨_, ho, hfault | ⟨c, hcommand, hlimit | hperform⟩⟩ :=
    turn_eq_error_cases hturn
  · cases ho
  · cases ho
    exact .inl hfault
  · cases ho
    obtain hnone | ⟨limit, hsome, hstep, hle⟩ := limitFault?_cases m' k
    · rw [hnone] at hlimit
      cases hlimit
    · rw [hsome] at hlimit
      cases hlimit
      -- The run has kept its limit, and has not executed more instructions than it.
      have hkept : m'.limitedTo m.settings.stepLimit = m' := limitedTo_of_after (m := m) hafter
      have hsame : m.settings.stepLimit = some limit := by
        rw [← hstep, ← hkept]
        rfl
      have hk : k ≤ limit := le_of_after_limitedTo (m := m) hafter limit hsame
      obtain rfl : limit = k := Nat.le_antisymm hle hk
      exact .inr ⟨c, hcommand, .inl ⟨rfl, hstep⟩⟩
  · cases ho
    exact .inr ⟨c, hcommand, .inr hperform⟩

/-- A run of an image that ends with a fault has its cause in the image, at the program counter. -/
theorem stopsInRom_of_run {rom : Array UInt8} {fuel : Nat}
    (h : run (fetchRom rom) fuel m = some ⟨.error f, m'⟩) :
    ∃ k, after (fetchRom rom) k m = some m' ∧ StopsInRom rom m' f ∧
      ∀ limit, f = .limitReached limit → limit = k := by
  obtain ⟨k, hafter, hfault | ⟨c, hcommand, hcause⟩⟩ := exists_after_of_run_eq_error h
  · obtain ⟨-, hfetch⟩ | ⟨-, hfetch⟩ | ⟨_, -, -, hfetch⟩ := fetchRom_cases rom m'
    all_goals rw [hfetch] at hfault; cases hfault
  refine ⟨k, hafter, ?_⟩
  obtain ⟨opcode, hopcode, hhalt, rfl⟩ := exists_opcode_of_fetchRom hcommand
  obtain ⟨rfl, hlimit⟩ | hperform := hcause
  · refine ⟨.limitReached opcode k hopcode hhalt hlimit, ?_⟩
    intro limit hf
    exact (Fault.limitReached.inj hf).symm
  · rw [perform] at hperform
    obtain ⟨hunknown, heq⟩ | ⟨mnemonic, hknown, ⟨hbytes, heq⟩ | ⟨p, -, -, heq⟩⟩ :=
      m'.executeBytes_cases opcode
        (rom.extract (m'.pc.toNat + 1) (m'.pc.toNat + (Slot.ofOpcode opcode).size)).toList
    · rw [heq] at hperform
      cases hperform
      exact ⟨.unknownOpcode opcode hopcode hunknown, by simp⟩
    · rw [heq] at hperform
      cases hperform
      obtain ⟨hpc, -⟩ := Array.getElem?_eq_some_iff.mp hopcode
      have hsize : rom.size < m'.pc.toNat + (Slot.ofOpcode opcode).size := by
        rw [← Nat.not_le, ← operandSize_le_length_iff hpc]
        exact Nat.not_le.mpr hbytes
      rw [length_behind hsize]
      exact ⟨.truncated opcode hopcode (Option.isSome_of_eq_some hknown) hsize, by simp⟩
    · rw [heq] at hperform
      cases hperform

/-- A run of a program that ends with a fault has its cause in the program, at the program
counter. -/
theorem stopsInProgram_of_run {p : Program} {fuel : Nat}
    (h : run (fetchProgram p) fuel m = some ⟨.error f, m'⟩) :
    ∃ k, after (fetchProgram p) k m = some m' ∧ StopsInProgram p m' f ∧
      ∀ limit, f = .limitReached limit → limit = k := by
  obtain ⟨k, hafter, hcause⟩ := exists_after_of_run_eq_error h
  refine ⟨k, hafter, ?_⟩
  unfold fetchProgram at hcause
  cases hpoint : p.point m'.pc with
  | outside => simp [hpoint] at hcause
  | inside =>
    obtain rfl : Fault.misaligned m'.pc = f := by simpa [hpoint] using hcause
    exact ⟨.misaligned hpoint, by simp⟩
  | start i =>
    simp only [hpoint, reduceCtorEq, Fetch.command.injEq, exists_eq_left', false_or] at hcause
    obtain ⟨rfl, hlimit⟩ | hperform := hcause
    · refine ⟨.limitReached i k hpoint hlimit, ?_⟩
      intro limit hf
      exact (Fault.limitReached.inj hf).symm
    · rw [perform] at hperform
      obtain ⟨hlacks, heq⟩ | ⟨-, hnone, hsize, heq⟩ | ⟨_, -, -, heq⟩ :=
        m'.execute_cases i.mnemonic i.mode i.operand
      · simp only [heq] at hperform
        cases hperform
        exact ⟨.lacksMode i hpoint hlacks, by simp⟩
      · simp only [heq] at hperform
        cases hperform
        exact ⟨.missingOperand i hpoint hnone hsize, by simp⟩
      · simp only [heq] at hperform
        cases hperform

/-- **What a fault does to a machine**: nothing, wherever it is found. The memory is any memory, one
that records what is written to it included. -/
structure FaultsLeaveNoTrace (m : Machine μ) : Prop where
  execute : ∀ mnemonic mode operand f m', m.execute mnemonic mode operand = ⟨.error f, m'⟩ → m' = m
  executeBytes : ∀ opcode bytes f m', m.executeBytes opcode bytes = ⟨.error f, m'⟩ → m' = m
  /-- A step from memory. -/
  step : ∀ f m', step fetchMemory m = ⟨.error f, m'⟩ → m' = m
  /-- A step of a program. -/
  stepProgram : ∀ p f m', Machine.step (fetchProgram p) m = ⟨.error f, m'⟩ → m' = m
  /-- A run of an image ends with a fault behind a number of instructions, which is the limit if
  that is the fault, and the program counter is at what could not be executed. -/
  run : ∀ rom fuel f m', run (fetchRom rom) fuel m = some ⟨.error f, m'⟩ →
    ∃ k, after (fetchRom rom) k m = some m' ∧ StopsInRom rom m' f ∧
      ∀ limit, f = .limitReached limit → limit = k
  /-- So does a run of a program. -/
  runProgram : ∀ p fuel f m', Machine.run (fetchProgram p) fuel m = some ⟨.error f, m'⟩ →
    ∃ k, after (fetchProgram p) k m = some m' ∧ StopsInProgram p m' f ∧
      ∀ limit, f = .limitReached limit → limit = k
  /-- An opcode never lacks a mode or an operand. -/
  executeBytes_ne : ∀ opcode bytes mnemonic mode,
    (m.executeBytes opcode bytes).result ≠ .error (.lacksMode mnemonic mode) ∧
      (m.executeBytes opcode bytes).result ≠ .error (.missingOperand mode)
  /-- An opcode with an instruction, reserved ones included, is at fault exactly if it has too
  few bytes behind it. -/
  truncated_iff : ∀ opcode bytes,
    (∃ found expected length,
      (m.executeBytes opcode bytes).result = .error (.truncated found expected length)) ↔
    (Slot.ofOpcode opcode).instruction?.isSome = true ∧
      bytes.length < (Slot.ofOpcode opcode).operandSize

/-- **Faults leave no trace**, in every machine. -/
theorem faultsLeaveNoTrace (m : Machine μ) : FaultsLeaveNoTrace m where
  execute mnemonic mode operand f m' h := by
    obtain ⟨-, heq⟩ | ⟨-, -, -, heq⟩ | ⟨_, -, -, heq⟩ := m.execute_cases mnemonic mode operand
    all_goals cases heq.symm.trans h
    · rfl
    · rfl
  executeBytes opcode bytes f m' h := machine_of_perform_eq_error (c := .encoded opcode bytes) h
  step f m' h := machine_of_step_eq_error h
  stepProgram p f m' h := machine_of_step_eq_error h
  run rom fuel f m' h := stopsInRom_of_run h
  runProgram p fuel f m' h := stopsInProgram_of_run h
  executeBytes_ne opcode bytes mnemonic mode := by
    obtain ⟨-, heq⟩ | ⟨_, -, ⟨-, heq⟩ | ⟨_, -, -, heq⟩⟩ := m.executeBytes_cases opcode bytes
    all_goals rw [heq]; exact ⟨nofun, nofun⟩
  truncated_iff opcode bytes := by
    obtain ⟨hnone, heq⟩ | ⟨_, hsome, ⟨hlt, heq⟩ | ⟨_, hle, -, heq⟩⟩ :=
      m.executeBytes_cases opcode bytes
    · simp [heq, hnone]
    · simp [heq, hsome, hlt]
    · simp [heq, hsome, hle]

end Machine

end Micro65
