import Micro65.Machine.Program
import Micro65.Proofs.Assembly.Image
/-!
# What a program has at an address

A program finds its instructions by an index of their addresses. The addresses of contiguous
instructions ascend, so the index holds every instruction at its own address and nothing else
(`Program.point_cases`).
-/

namespace Micro65

namespace Program

/-- Adds instructions to an index by address. -/
def index (instructions : List Instruction) (starts : Std.HashMap UInt16 Instruction) :
    Std.HashMap UInt16 Instruction :=
  instructions.foldl (fun starts i => starts.insert i.address i) starts

variable {instructions : List Instruction} {i : Instruction} {address : UInt16} {stop : Nat}

/-- An address that no added instruction has keeps what it had. -/
theorem getElem?_index_of_forall_ne (h : ∀ i ∈ instructions, i.address ≠ address)
    (starts : Std.HashMap UInt16 Instruction) :
    (index instructions starts)[address]? = starts[address]? := by
  unfold index
  induction instructions generalizing starts with
  | nil => rfl
  | cons i instructions ih =>
    rw [List.foldl_cons, ih fun j hj => h j (List.mem_cons_of_mem i hj),
      Std.HashMap.getElem?_insert]
    simp [h i List.mem_cons_self]

/-- An instruction is found at its address. -/
theorem getElem?_index_of_mem (h : instructions.Pairwise fun i j => i.address ≠ j.address)
    (hi : i ∈ instructions) (starts : Std.HashMap UInt16 Instruction) :
    (index instructions starts)[i.address]? = some i := by
  induction instructions generalizing starts with
  | nil => cases hi
  | cons j instructions ih =>
    obtain ⟨hj, htail⟩ := List.pairwise_cons.mp h
    show (index instructions (starts.insert j.address j))[i.address]? = some i
    rcases List.mem_cons.mp hi with rfl | hi
    · rw [getElem?_index_of_forall_ne fun k hk => (hj k hk).symm]
      exact Std.HashMap.getElem?_insert_self
    · exact ih htail hi _

/-- **What a program has at an address**: nothing behind its last instruction, and before that an
instruction where one starts. -/
theorem point_cases (h : Contiguous 0 instructions stop) (address : UInt16) :
    (stop ≤ address.toNat ∧ (ofInstructions instructions).point address = .outside) ∨
    (∃ i ∈ instructions, i.address = address ∧
      (ofInstructions instructions).point address = .start i) ∨
    (address.toNat < stop ∧ (∀ i ∈ instructions, i.address ≠ address) ∧
      (ofInstructions instructions).point address = .inside) := by
  have hstop : (ofInstructions instructions).stop = stop := h.eq_getLast?.symm
  have hstarts : (ofInstructions instructions).starts = index instructions ∅ := rfl
  unfold point
  rw [hstop, hstarts]
  by_cases hle : stop ≤ address.toNat
  · exact .inl ⟨hle, if_pos hle⟩
  · rw [if_neg hle]
    by_cases hmem : ∃ i ∈ instructions, i.address = address
    · obtain ⟨i, hi, rfl⟩ := hmem
      rw [getElem?_index_of_mem (List.pairwise_map.mp h.nodup_addresses) hi]
      exact .inr (.inl ⟨i, hi, rfl, rfl⟩)
    · have hne : ∀ i ∈ instructions, i.address ≠ address := fun i hi heq => hmem ⟨i, hi, heq⟩
      rw [getElem?_index_of_forall_ne hne, Std.HashMap.getElem?_empty]
      exact .inr (.inr ⟨Nat.lt_of_not_le hle, hne, rfl⟩)

end Program

end Micro65
