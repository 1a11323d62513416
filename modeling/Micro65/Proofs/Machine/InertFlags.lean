import Micro65.Proofs.Machine.Flags
/-!
# Flags that the machine does not look at

Four bits of the status register have no part in what the machine does: the interrupt and decimal
flags, the mark of the break instruction and the bit without a use. No branch tests them and no
arithmetic, under either rule, reads them; only the instruction that puts the whole register on the
stack shows them (`reveals_inert_iff`). So two runs that start with different values of these bits
are the same run (`InertFlags.sameRuns`), and the bits themselves change only where an instruction
says so (`Machine.inertFlags`).
-/

namespace Micro65

/-- The instruction that shows an inert bit. -/
theorem reveals_inert_iff (mnemonic : Mnemonic) :
    mnemonic.operation.reveals (.ofByte 0x3C) = true ↔ mnemonic = .php := by
  cases mnemonic <;> decide

namespace Machine

variable {μ : Type} [Memory μ]

/-- What is inert about four bits of the status register in the runs of an image, from a machine
with its own values of them and with those of `s`. -/
structure InertFlags (rom : Array UInt8) (m : Machine μ) (s : Status) : Prop where
  /-- A run that does not put the register on the stack is the same whatever the bits are. -/
  sameRuns : (∀ k c, Executes (fetchRom rom) k m c → c.mnemonic? ≠ some .php) →
    SameRuns (.ofByte 0x3C) (fetchRom rom) m { m with status := s }
  /-- The bits without a meaning keep their values until the register is taken from the stack. -/
  kept : ∀ k m₁, after (fetchRom rom) k m = some m₁ →
    (∀ j < k, ∀ c, Executes (fetchRom rom) j m c → c.mnemonic? ≠ some .plp) →
    m₁.status.breakMark = m.status.breakMark ∧ m₁.status.unused = m.status.unused
  /-- The interrupt flag changes at its own instructions, and where the register is taken from the
  stack. -/
  interruptDisable : ∀ k m₁ m₂, after (fetchRom rom) k m = some m₁ →
    after (fetchRom rom) (k + 1) m = some m₂ →
    m₂.status.interruptDisable ≠ m₁.status.interruptDisable →
    ∃ c, Executes (fetchRom rom) k m c ∧
      (c.mnemonic? = some .sei ∨ c.mnemonic? = some .cli ∨ c.mnemonic? = some .plp)
  /-- The decimal flag changes at its own instructions, and where the register is taken from the
  stack. -/
  decimal : ∀ k m₁ m₂, after (fetchRom rom) k m = some m₁ →
    after (fetchRom rom) (k + 1) m = some m₂ →
    m₂.status.decimal ≠ m₁.status.decimal →
    ∃ c, Executes (fetchRom rom) k m c ∧
      (c.mnemonic? = some .sed ∨ c.mnemonic? = some .cld ∨ c.mnemonic? = some .plp)
  /-- A run ends with a machine that it has come to, so all this is said of its end, too. -/
  ended : ∀ fuel o, run (fetchRom rom) fuel m = some o →
    ∃ k < fuel, after (fetchRom rom) k m = some o.machine

/-- **Four bits of the status register are inert**, for every image and machine, under all settings
and with every memory, one that records what is written to it included. -/
theorem inertFlags (rom : Array UInt8) (m : Machine μ) {s : Status}
    (hs : m.status.AgreesOff (.ofByte 0x3C) s) : InertFlags rom m s where
  sameRuns hquiet := by
    refine Machine.sameRuns (by decide) (fun _ _ h => fetchRom_congr rom h.pc_eq) ?_ ?_
    · intro k c hexecutes mnemonic hmnemonic
      rw [Bool.eq_false_iff, Ne, reveals_inert_iff]
      rintro rfl
      exact hquiet k c hexecutes hmnemonic
    · exact {
        a_eq := rfl, x_eq := rfl, y_eq := rfl, sp_eq := rfl, pc_eq := rfl, memory_eq := rfl
        status := hs
        compare_eq := rfl, stepLimit_eq := rfl, overflow_eq := .inr rfl }
  kept k m₁ hafter hquiet := status_of_after hafter hquiet
  interruptDisable k m₁ m₂ hm₁ hm₂ hchanged := by
    obtain ⟨c, mnemonic, hexecutes, hmnemonic, hwrites⟩ :=
      exists_writes_of_changed .interruptDisable hm₁ hm₂ hchanged
    refine ⟨c, hexecutes, ?_⟩
    rw [hmnemonic]
    simpa using (writes_interruptDisable_iff mnemonic).mp hwrites
  decimal k m₁ m₂ hm₁ hm₂ hchanged := by
    obtain ⟨c, mnemonic, hexecutes, hmnemonic, hwrites⟩ :=
      exists_writes_of_changed .decimal hm₁ hm₂ hchanged
    refine ⟨c, hexecutes, ?_⟩
    rw [hmnemonic]
    simpa using (writes_decimal_iff mnemonic).mp hwrites
  ended fuel o hrun := by
    obtain ⟨k, hk, hafter, -⟩ := exists_after_of_run hrun
    exact ⟨k, hk, hafter⟩

/-- The four bits of a machine that has just been switched on may be turned over. -/
theorem inertFlags_of_switchedOn :
    let s := Status.ofByte (Status.initial.toByte ^^^ 0x3C)
    InertFlags #[0xF8, 0x69, 0x09, 0x58]
      ({ memory := ⟨.zeroed, []⟩ } : Machine (Traced Ram)) s := by
  intro s
  refine inertFlags _ _ ⟨fun flag hflag => ?_, fun hunused => ?_⟩
  · cases flag <;> first | rfl | exact absurd hflag (by decide)
  · exact absurd hunused (by decide)

end Machine

end Micro65
