import Micro65.Proofs.Machine.Hidden
/-!
# Runs under either rule for the overflow flag

The rule for the overflow flag is looked at by sums and differences, which give the flag its value.
The flag is looked at by the branches on it and by the instruction that puts the status register on
the stack (`reveals_overflow_iff`), and by nothing else: not by the arithmetic, and not by the
instruction that takes the register back from the stack, which gives both machines the same flag
again. A run without these three instructions is therefore the same under both rules but for the
flag (`Machine.sameRuns_overflowRule`).
-/

namespace Micro65

/-- The instructions that show the overflow flag. -/
theorem reveals_overflow_iff (mnemonic : Mnemonic) :
    mnemonic.operation.reveals (.ofByte 0x40) = true ↔
      mnemonic = .bvc ∨ mnemonic = .bvs ∨ mnemonic = .php := by
  cases mnemonic <;> decide

namespace Machine

variable {μ : Type} [Memory μ]

/-- The machine with another rule for the overflow flag. -/
def under (m : Machine μ) (rule : OverflowRule) : Machine μ :=
  { m with settings := { m.settings with overflow := rule } }

omit [Memory μ] in
/-- Under either rule, the machine is the same apart from the flag. -/
theorem alikeOff_under (m : Machine μ) (rule rule' : OverflowRule) :
    (m.under rule).AlikeOff (.ofByte 0x40) (m.under rule') where
  a_eq := rfl
  x_eq := rfl
  y_eq := rfl
  sp_eq := rfl
  pc_eq := rfl
  memory_eq := rfl
  status := .refl _ _
  compare_eq := rfl
  stepLimit_eq := rfl
  overflow_eq := .inl rfl

/-- **The rule for the overflow flag touches nothing but the flag.** If the run of an image
under the one rule executes no branch on the flag and does not push the status register, then
the run under the other rule executes the same instructions, has the same result, writes the
same to memory (which may be one that records the writes) and ends with the same machine, up to
the flag and the rule. -/
theorem sameRuns_overflowRule (rom : Array UInt8) (m : Machine μ)
    (hquiet : ∀ k c, Executes (fetchRom rom) k (m.under .signHeuristic) c →
      c.mnemonic? ≠ some .bvc ∧ c.mnemonic? ≠ some .bvs ∧ c.mnemonic? ≠ some .php) :
    SameRuns (.ofByte 0x40) (fetchRom rom) (m.under .signHeuristic) (m.under .twosComplement) := by
  refine sameRuns (by decide) (fun _ _ h => fetchRom_congr rom h.pc_eq) ?_ (alikeOff_under m _ _)
  intro k c hexecutes mnemonic hmnemonic
  obtain ⟨hbvc, hbvs, hphp⟩ := hquiet k c hexecutes
  rw [Bool.eq_false_iff, Ne, reveals_overflow_iff]
  rintro (rfl | rfl | rfl)
  · exact hbvc hmnemonic
  · exact hbvs hmnemonic
  · exact hphp hmnemonic

/-- The sum of the two least bytes overflows under the one rule and not under the other. -/
theorem sameRuns_overflowRule_of_sum :
    let m : Machine (Traced Ram) := { a := 0x80, memory := ⟨.zeroed, []⟩ }
    SameRuns (.ofByte 0x40) (fetchRom #[0x69, 0x80, 0x85, 0x10]) (m.under .signHeuristic)
      (m.under .twosComplement) := by
  intro m
  refine sameRuns_overflowRule _ m ?_
  intro k c hexecutes
  obtain ⟨opcode, hopcode, bytes, rfl⟩ := exists_mem_of_executes hexecutes
  have hinstructions : (Slot.ofOpcode opcode).instruction? ≠ some .bvc ∧
      (Slot.ofOpcode opcode).instruction? ≠ some .bvs ∧
      (Slot.ofOpcode opcode).instruction? ≠ some .php := by
    simp only [List.mem_toArray, List.mem_cons, List.not_mem_nil, or_false] at hopcode
    rcases hopcode with rfl | rfl | rfl | rfl <;> decide
  exact hinstructions

end Machine

end Micro65
