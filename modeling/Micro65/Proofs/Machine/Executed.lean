import Micro65.Proofs.Machine.Turn
/-!
# The instructions of a run

A turn that does not end a run carries out the command that was fetched (`Machine.turn_eq_ok_iff`),
and a command that is carried out moves the program counter behind its instruction and applies the
instruction to one operand (`Machine.exists_place_of_perform`). A turn that ends a run leaves the
machine as it was (`Machine.machine_of_turn_eq_error`). `Machine.Executes` says which command a run
carries out after so many others, so a property of the instructions of a run is a property of these
commands, whether the run has an end or not.
-/

namespace Micro65

namespace Command

/-- The instruction of a command, if the machine has it. -/
def mnemonic? : Command → Option Mnemonic
  | .encoded opcode _ => (Slot.ofOpcode opcode).instruction?
  | .decoded i => some i.mnemonic

/-- The number of bytes of the instruction. -/
def size : Command → Nat
  | .encoded opcode _ => (Slot.ofOpcode opcode).size
  | .decoded i => i.size

end Command

namespace Machine

variable {μ : Type} [Memory μ] {fetch : Machine μ → Fetch} {n k : Nat} {m m' : Machine μ}
  {c : Command} {mnemonic : Mnemonic} {o : Outcome μ Summary}

/-! ## One command -/

/-- **A command that is carried out** names its instruction, which is applied to one
operand behind the command. -/
theorem exists_place_of_perform (h : m.perform c = ⟨.ok mnemonic, m'⟩) :
    c.mnemonic? = some mnemonic ∧ ∃ p, m' = (m.advance c.size).apply mnemonic.operation p := by
  cases c with
  | encoded opcode bytes =>
    simp only [perform, executeBytes] at h
    split at h
    · cases h
    · rename_i found hfound
      split at h
      · cases h
      · split at h
        · cases h
        · rename_i p _
          cases h
          exact ⟨hfound, p, rfl⟩
  | decoded i =>
    simp only [perform, execute] at h
    split at h
    · rename_i done hdone
      cases h
      split at hdone
      · split at hdone
        · cases hdone
        · rename_i p _
          cases hdone
          exact ⟨rfl, p, rfl⟩
      · cases hdone
    · cases h

/-- **A command at fault leaves the machine as it was.** -/
theorem machine_of_perform_eq_error {f : Fault} (h : m.perform c = ⟨.error f, m'⟩) : m' = m := by
  cases c with
  | encoded opcode bytes =>
    simp only [perform, executeBytes] at h
    split at h
    · cases h
      rfl
    · split at h
      · cases h
        rfl
      · split at h
        · cases h
          rfl
        · cases h
  | decoded i =>
    simp only [perform, execute] at h
    split at h
    · cases h
    · rename_i failed hfailed
      cases h
      split at hfailed
      · split at hfailed
        · cases hfailed
          rfl
        · cases hfailed
      · cases hfailed
        rfl

/-! ## One turn -/

/-- **A turn that executes an instruction** carries out the command that comes next, below the
limit. -/
theorem turn_eq_ok_iff :
    turn fetch n m = .ok m' ↔ ∃ c mnemonic, fetch m = .command c ∧ m.limitFault? n = none ∧
      m.perform c = ⟨.ok mnemonic, m'⟩ := by
  unfold turn
  constructor
  · intro h
    split at h
    · cases h
    · cases h
    · rename_i c hfetch
      split at h
      · cases h
      · rename_i hlimit
        split at h
        · rename_i mnemonic m₁ hperform
          cases h
          exact ⟨c, mnemonic, hfetch, hlimit, hperform⟩
        · cases h
  · rintro ⟨c, mnemonic, hfetch, hlimit, hperform⟩
    simp only [hfetch, hlimit, hperform]

/-- **A turn that ends a run** finds the end of the program or a fault, in what comes next, in the
limit of the run or in carrying out a command. -/
theorem turn_eq_error_cases (h : turn fetch n m = .error o) :
    (∃ ending, fetch m = .stop ending ∧ o = ⟨.ok ⟨n, ending⟩, m⟩) ∨
      ∃ f, o = ⟨.error f, m⟩ ∧ (fetch m = .fault f ∨ ∃ c, fetch m = .command c ∧
        (m.limitFault? n = some f ∨ m.perform c = ⟨.error f, m⟩)) := by
  unfold turn at h
  split at h
  · rename_i ending hfetch
    cases h
    exact .inl ⟨ending, hfetch, rfl⟩
  · rename_i f hfetch
    cases h
    exact .inr ⟨f, rfl, .inl hfetch⟩
  · rename_i c hfetch
    split at h
    · rename_i f hlimit
      cases h
      exact .inr ⟨f, rfl, .inr ⟨c, hfetch, .inl hlimit⟩⟩
    · split at h
      · cases h
      · rename_i f m₁ hperform
        obtain rfl := machine_of_perform_eq_error hperform
        cases h
        exact .inr ⟨f, rfl, .inr ⟨c, hfetch, .inr hperform⟩⟩

/-- A turn that ends a run leaves the machine as it was. -/
theorem machine_of_turn_eq_error (h : turn fetch n m = .error o) : o.machine = m := by
  obtain ⟨ending, -, rfl⟩ | ⟨f, rfl, -⟩ := turn_eq_error_cases h
  · rfl
  · rfl

/-- A run ends with a machine that it has come to. -/
theorem exists_after_of_run {fuel : Nat} (h : run fetch fuel m = some o) :
    ∃ k < fuel, after fetch k m = some o.machine ∧ turn fetch k o.machine = .error o := by
  obtain ⟨k, hk, m', hafter, hturn⟩ := run_eq_some_iff.mp h
  obtain rfl := machine_of_turn_eq_error hturn
  exact ⟨k, hk, hafter, hturn⟩

/-! ## Runs -/

/-- After `k` instructions, the run from `m` carries out the command `c`. -/
def Executes (fetch : Machine μ → Fetch) (k : Nat) (m : Machine μ) (c : Command) : Prop :=
  ∃ m₁ m₂, after fetch k m = some m₁ ∧ fetch m₁ = .command c ∧ turn fetch k m₁ = .ok m₂

/-- Whatever comes after an instruction comes from the command that the run has carried out. -/
theorem exists_executes_of_after_succ (h : after fetch (k + 1) m = some m') :
    ∃ m₁ c mnemonic, after fetch k m = some m₁ ∧ Executes fetch k m c ∧
      c.mnemonic? = some mnemonic ∧ ∃ p, m' = (m₁.advance c.size).apply mnemonic.operation p := by
  obtain ⟨m₁, hafter, hturn⟩ := after_succ.mp h
  obtain ⟨c, mnemonic, hfetch, -, hperform⟩ := turn_eq_ok_iff.mp hturn
  obtain ⟨hmnemonic, p, hp⟩ := exists_place_of_perform hperform
  exact ⟨m₁, c, mnemonic, hafter, ⟨m₁, m', hafter, hfetch, hturn⟩, hmnemonic, p, hp⟩

/-- What the start of a run has and every executed instruction keeps, holds behind any number of
instructions. -/
theorem invariant_of_after {P : Machine μ → Prop} (hstart : P { m with pc := 0 })
    (hkept : ∀ j < k, ∀ m₁ c mnemonic p, Executes fetch j m c → c.mnemonic? = some mnemonic → P m₁ →
      P ((m₁.advance c.size).apply mnemonic.operation p))
    (hafter : after fetch k m = some m') : P m' := by
  induction k generalizing m' with
  | zero =>
    cases hafter
    exact hstart
  | succ k ih =>
    obtain ⟨m₁, c, mnemonic, hm₁, hexecutes, hmnemonic, p, rfl⟩ :=
      exists_executes_of_after_succ hafter
    have hP : P m₁ := ih (fun j hj => hkept j (Nat.lt_succ_of_lt hj)) hm₁
    exact hkept k (Nat.lt_succ_self k) m₁ c mnemonic p hexecutes hmnemonic hP

/-! ## Runs of an image -/

omit [Memory μ] in
/-- What comes next in an image: the end behind it, its end mark, or the command of an opcode with
the bytes that the image has of it. -/
theorem fetchRom_cases (rom : Array UInt8) (m : Machine μ) :
    (rom[m.pc.toNat]? = none ∧ fetchRom rom m = .stop .finished) ∨
      (rom[m.pc.toNat]? = some haltByte ∧ fetchRom rom m = .stop .halted) ∨
      ∃ opcode, rom[m.pc.toNat]? = some opcode ∧ opcode ≠ haltByte ∧
        fetchRom rom m = .command (.encoded opcode
          (rom.extract (m.pc.toNat + 1) (m.pc.toNat + (Slot.ofOpcode opcode).size)).toList) := by
  unfold fetchRom
  simp only
  cases rom[m.pc.toNat]? with
  | none => exact .inl ⟨rfl, rfl⟩
  | some opcode =>
    by_cases hhalt : opcode = haltByte
    · exact .inr (.inl ⟨congrArg some hhalt, if_pos hhalt⟩)
    · exact .inr (.inr ⟨opcode, rfl, hhalt, if_neg hhalt⟩)

omit [Memory μ] in
/-- A command of an image is an opcode with the bytes that the image has of it. -/
theorem exists_opcode_of_fetchRom {rom : Array UInt8} (h : fetchRom rom m = .command c) :
    ∃ opcode, rom[m.pc.toNat]? = some opcode ∧ opcode ≠ haltByte ∧
      c = .encoded opcode
        (rom.extract (m.pc.toNat + 1) (m.pc.toNat + (Slot.ofOpcode opcode).size)).toList := by
  obtain ⟨-, hfetch⟩ | ⟨-, hfetch⟩ | ⟨opcode, hopcode, hhalt, hfetch⟩ := fetchRom_cases rom m
  · cases hfetch.symm.trans h
  · cases hfetch.symm.trans h
  · cases hfetch.symm.trans h
    exact ⟨opcode, hopcode, hhalt, rfl⟩

/-- A run from an image carries out opcodes of the image only. -/
theorem exists_mem_of_executes {rom : Array UInt8} (h : Executes (fetchRom rom) k m c) :
    ∃ opcode ∈ rom, ∃ bytes, c = .encoded opcode bytes := by
  obtain ⟨m₁, -, -, hc, -⟩ := h
  obtain ⟨opcode, hopcode, -, hencoded⟩ := exists_opcode_of_fetchRom hc
  exact ⟨opcode, Array.mem_of_getElem? hopcode, _, hencoded⟩

end Machine

end Micro65
