import Micro65.Proofs.Machine.Changes
import Micro65.Proofs.Machine.Faults
/-!
# Programs that jump forward

An instruction that is executed lies in the image with all its bytes, so the program counter behind
it has moved up, unless a branch takes it back or the addresses wrap around. An image that leaves
room for the longest jump below the last address rules out the second (`Machine.pc_lt_of_turn`). If
no branch jumps back, either, the program counter moves up along the whole run
(`Machine.pc_lt_of_after`), and the run ends before it has executed more instructions than the image
has bytes. A limit that is not lower has no effect on such a run (`Machine.runsForward`).
-/

namespace Micro65

/-- A byte below 0x80 is a distance forward, of 127 at most. -/
theorem Word.signed_of_lt {b : UInt8} (h : b < 0x80) : 0 ≤ signed b ∧ signed b ≤ 127 := by
  have hlt : b.toNat < 128 := UInt8.lt_iff_toNat_lt.mp h
  unfold signed
  omega

/-- The size of the largest image in which no jump forward wraps around: a branch at its end
reaches the last address. -/
def forwardSize : Nat := 65408

namespace Machine

variable {μ : Type} [Memory μ] {rom : Array UInt8} {m m' m₁ m₂ : Machine μ} {n j k : Nat}

/-- Every branch that the run of an image takes is a jump forward. -/
def JumpsForward (rom : Array UInt8) (m : Machine μ) : Prop :=
  ∀ k m₁ m₂ opcode bytes mnemonic, after (fetchRom rom) k m = some m₁ →
    turn (fetchRom rom) k m₁ = .ok m₂ → fetchRom rom m₁ = .command (.encoded opcode bytes) →
    (Slot.ofOpcode opcode).instruction? = some mnemonic → mnemonic.jumps m₁.status = true →
    bytes.headD 0 < 0x80

/-- This is so if every branch that the run executes has a distance forward, whether it jumps or
not. -/
theorem jumpsForward_of_executes
    (h : ∀ k opcode bytes mnemonic, Executes (fetchRom rom) k m (.encoded opcode bytes) →
      (Slot.ofOpcode opcode).instruction? = some mnemonic → mnemonic.isBranch = true →
      bytes.headD 0 < 0x80) : JumpsForward rom m := by
  intro k m₁ m₂ opcode bytes mnemonic hafter hturn hfetch hinstruction hjumps
  obtain ⟨flag, value, hbranch, -⟩ := Mnemonic.jumps_eq_true_iff.mp hjumps
  exact h k opcode bytes mnemonic ⟨m₁, m₂, hafter, hfetch, hturn⟩ hinstruction
    (mnemonic.isBranch_iff.mpr ⟨flag, value, hbranch⟩)

/-! ## One instruction -/

/-- An opcode that is executed has all its bytes, and the program counter is then behind them or, if
it is a branch that jumps, at its distance from there. -/
theorem toNat_pc_of_executeBytes {opcode : UInt8} {bytes : List UInt8} {mnemonic : Mnemonic}
    (h : m.executeBytes opcode bytes = ⟨.ok mnemonic, m'⟩) :
    (Slot.ofOpcode opcode).instruction? = some mnemonic ∧
      (Slot.ofOpcode opcode).operandSize ≤ bytes.length ∧
      (m'.pc.toNat : Int) = (m.pc.toNat + (Slot.ofOpcode opcode).size +
        if mnemonic.jumps m.status then Word.signed (bytes.headD 0) else 0) % 0x10000 := by
  obtain ⟨-, heq⟩ | ⟨found, hfound, ⟨-, heq⟩ | ⟨p, henough, hp, heq⟩⟩ :=
    m.executeBytes_cases opcode bytes
  · cases heq.symm.trans h
  · cases heq.symm.trans h
  · cases heq.symm.trans h
    obtain ⟨value, hplace, hdistance⟩ := m.exists_operandPlace? hfound henough
    cases hp.symm.trans hplace
    exact ⟨hfound, henough, toNat_pc_apply hfound hdistance⟩

/-- **An instruction of an image that does not jump back moves the program counter up.** -/
theorem pc_lt_of_turn (hsize : rom.size ≤ forwardSize) (hturn : turn (fetchRom rom) n m = .ok m')
    (hforward : ∀ opcode bytes mnemonic, fetchRom rom m = .command (.encoded opcode bytes) →
      (Slot.ofOpcode opcode).instruction? = some mnemonic → mnemonic.jumps m.status = true →
      bytes.headD 0 < 0x80) :
    m.pc.toNat < rom.size ∧ m.pc.toNat < m'.pc.toNat := by
  obtain ⟨c, mnemonic, hfetch, -, hperform⟩ := turn_eq_ok_iff.mp hturn
  obtain ⟨opcode, hopcode, -, rfl⟩ := exists_opcode_of_fetchRom hfetch
  obtain ⟨hpc, -⟩ := Array.getElem?_eq_some_iff.mp hopcode
  obtain ⟨hinstruction, henough, hmoved⟩ := toNat_pc_of_executeBytes hperform
  have hwithin := (operandSize_le_length_iff hpc _).mp henough
  have hjump := hforward _ _ mnemonic hfetch hinstruction
  have hpos : 0 < (Slot.ofOpcode opcode).size := Nat.le_add_right 1 _
  refine ⟨hpc, ?_⟩
  unfold forwardSize at hsize
  by_cases hjumps : mnemonic.jumps m.status = true
  · obtain ⟨hback, hfar⟩ := Word.signed_of_lt (hjump hjumps)
    rw [if_pos hjumps] at hmoved
    omega
  · rw [if_neg hjumps] at hmoved
    omega

/-! ## Whole runs -/

section

variable (hsize : rom.size ≤ forwardSize) (hforward : JumpsForward rom m)

include hsize hforward

/-- Each further instruction of the run moves the program counter up. -/
theorem pc_lt_of_after_succ (h : after (fetchRom rom) k m = some m₁)
    (hnext : after (fetchRom rom) (k + 1) m = some m₂) :
    m₁.pc.toNat < rom.size ∧ m₁.pc.toNat < m₂.pc.toNat := by
  obtain ⟨m', hafter, hturn⟩ := after_succ.mp hnext
  cases h.symm.trans hafter
  exact pc_lt_of_turn hsize hturn fun opcode bytes mnemonic => hforward k _ m₂ _ _ _ h hturn

/-- **The program counter moves up along the run.** -/
theorem pc_lt_of_after (h : after (fetchRom rom) j m = some m₁)
    (hlater : after (fetchRom rom) k m = some m₂) (hlt : j < k) : m₁.pc < m₂.pc := by
  induction k generalizing m₂ with
  | zero => exact absurd hlt (Nat.not_lt_zero j)
  | succ k ih =>
    obtain ⟨m', hafter, -⟩ := after_succ.mp hlater
    have hlast := (pc_lt_of_after_succ hsize hforward hafter hlater).2
    rw [UInt16.lt_iff_toNat_lt]
    obtain hbefore | rfl := Nat.lt_succ_iff_lt_or_eq.mp hlt
    · exact Nat.lt_trans (UInt16.lt_iff_toNat_lt.mp (ih hafter hbefore)) hlast
    · cases h.symm.trans hafter
      exact hlast

/-- The program counter has moved up by at least as much as instructions have been executed. -/
theorem le_pc_of_after (h : after (fetchRom rom) k m = some m') : k ≤ m'.pc.toNat := by
  induction k generalizing m' with
  | zero => exact Nat.zero_le _
  | succ k ih =>
    obtain ⟨m₁, hafter, -⟩ := after_succ.mp h
    have hlast := (pc_lt_of_after_succ hsize hforward hafter h).2
    exact Nat.lt_of_le_of_lt (ih hafter) hlast

/-- The run does not execute more instructions than the image has bytes. -/
theorem le_size_of_after (h : after (fetchRom rom) k m = some m') : k ≤ rom.size := by
  cases k with
  | zero => exact Nat.zero_le _
  | succ k =>
    obtain ⟨m₁, hafter, -⟩ := after_succ.mp h
    have hwithin := (pc_lt_of_after_succ hsize hforward hafter h).1
    exact Nat.lt_of_le_of_lt (le_pc_of_after hsize hforward hafter) hwithin

end

/-- **A run that jumps forward**: the program counter moves up, and the run ends, before
it has executed more instructions than the image has bytes. Under a limit that is not
lower it ends the same way. -/
structure RunsForward (rom : Array UInt8) (m : Machine μ) : Prop where
  ascends : ∀ j k m₁ m₂, after (fetchRom rom) j m = some m₁ → after (fetchRom rom) k m = some m₂ →
    j < k → m₁.pc < m₂.pc
  ends : ∃ k ≤ rom.size, ∃ o, after (fetchRom rom) k m = some o.machine ∧
    run (fetchRom rom) (k + 1) m = some o ∧
    ∀ limit, rom.size ≤ limit → run (fetchRom rom) (k + 1) (m.limitedTo (some limit)) =
      some (o.limitedTo (some limit))

/-- **Programs that jump forward end**, from every machine without a limit. -/
theorem runsForward (hsize : rom.size ≤ forwardSize) (hlimit : m.settings.stepLimit = none)
    (hforward : JumpsForward rom m) : RunsForward rom m where
  ascends j k m₁ m₂ h hlater hlt := pc_lt_of_after hsize hforward h hlater hlt
  ends := by
    have hends : run (fetchRom rom) (rom.size + 1) m ≠ none := by
      intro hnone
      obtain ⟨m', hafter⟩ := run_eq_none_iff.mp hnone
      exact Nat.not_succ_le_self _ (le_size_of_after hsize hforward hafter)
    obtain ⟨o, hrun⟩ := Option.ne_none_iff_exists'.mp hends
    obtain ⟨k, -, hafter, hturn⟩ := exists_after_of_run hrun
    have hk := le_size_of_after hsize hforward hafter
    refine ⟨k, hk, o, hafter, run_eq_some_iff.mpr ⟨k, Nat.lt_succ_self k, _, hafter, hturn⟩, ?_⟩
    intro limit hle
    have hfree : m.limitedTo none = m := by
      rw [← hlimit]
      rfl
    rw [← hfree] at hafter
    have hkept := limitedTo_of_after hafter
    rw [← hkept] at hturn
    have hfetch := ignoresLimit_fetchRom (μ := μ) rom
    refine run_eq_some_iff.mpr ⟨k, Nat.lt_succ_self k, _,
      after_limitedTo hfetch hafter ?_, ?_⟩
    · rintro l hl
      cases hl
      exact Nat.le_trans hk hle
    · refine turn_limitedTo_of_error hfetch hturn ?_ ?_
      · intro l hreached
        obtain ⟨hnone, -⟩ := exists_command_of_limitReached hfetch hturn hreached
        cases hnone
      · -- At a further instruction the program counter is in the image, and has come as far as the
        -- run.
        rintro c hcommand - l hl
        cases hl
        obtain ⟨opcode, hopcode, -⟩ := exists_opcode_of_fetchRom hcommand
        obtain ⟨hpc, -⟩ := Array.getElem?_eq_some_iff.mp hopcode
        rw [hfree] at hafter
        have hcome := le_pc_of_after hsize hforward hafter
        omega

/-- A branch over one byte to the end of its image. -/
theorem runsForward_of_branch :
    let rom : Array UInt8 := #[0xE8, 0xD0, 0x01, 0xC8]
    let m : Machine Ram := { memory := .zeroed }
    (rom.size ≤ forwardSize ∧ m.settings.stepLimit = none ∧ JumpsForward rom m) ∧
      RunsForward rom m := by
  intro rom m
  have hdistances : ∀ i : Fin rom.size, ∀ mnemonic ∈ (Slot.ofOpcode rom[i]).instruction?,
      mnemonic.isBranch = true →
      (rom.extract (i + 1) (i + (Slot.ofOpcode rom[i]).size)).toList.headD 0 < 0x80 := by
    decide +kernel
  have hforward : JumpsForward rom m := by
    refine jumpsForward_of_executes ?_
    rintro k opcode bytes mnemonic ⟨m₁, -, -, hfetch, -⟩ hinstruction hbranch
    obtain ⟨_, hopcode, -, hencoded⟩ := exists_opcode_of_fetchRom hfetch
    cases hencoded
    obtain ⟨hpc, rfl⟩ := Array.getElem?_eq_some_iff.mp hopcode
    exact hdistances ⟨m₁.pc.toNat, hpc⟩ mnemonic hinstruction hbranch
  have hsize : rom.size ≤ forwardSize := by decide
  have hlimit : m.settings.stepLimit = none := rfl
  exact ⟨⟨hsize, hlimit, hforward⟩, runsForward hsize hlimit hforward⟩

end Machine

end Micro65
