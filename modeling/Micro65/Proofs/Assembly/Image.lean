import Mathlib.Data.List.Nodup
import Micro65.Proofs.Assembly.Instruction
/-!
# Instructions one behind the other

Instructions are contiguous when each starts where the one before it ends (`Contiguous`). Their
bytes, one behind the other, then have every instruction at its address: what stands before it is as
long as the address says (`Contiguous.exists_split`). An address has at most one instruction, and
the bytes end where the last instruction does.
-/

namespace Micro65

/-- The instructions stand one behind the other from an address on, up to another. -/
def Contiguous : (start : Nat) → List Instruction → (stop : Nat) → Prop
  | start, [], stop => start = stop
  | start, i :: rest, stop => i.address.toNat = start ∧ Contiguous i.stop rest stop

/-- The bytes of instructions, one behind the other. -/
def image (instructions : List Instruction) : List UInt8 :=
  instructions.flatMap Instruction.bytes

theorem Instruction.address_lt_stop (i : Instruction) : i.address.toNat < i.stop := by
  unfold stop size
  omega

namespace Instruction.WellFormed

variable {i : Instruction}

theorem encode?_eq (h : i.WellFormed) : i.mnemonic.encode? i.mode i.operand = some i.bytes := by
  obtain ⟨code, hcode, -⟩ := Mnemonic.exists_encode? h.hasMode i.operand
  unfold Instruction.bytes
  rw [hcode]
  rfl

@[simp] theorem length_bytes (h : i.WellFormed) : i.bytes.length = i.size := by
  obtain ⟨code, hcode, hlength⟩ := Mnemonic.exists_encode? h.hasMode i.operand
  unfold Instruction.bytes
  rw [hcode]
  exact hlength

end Instruction.WellFormed

namespace Contiguous

variable {start middle stop : Nat} {before after instructions : List Instruction} {i : Instruction}

theorem append_iff :
    Contiguous start (before ++ after) stop ↔
      ∃ middle, Contiguous start before middle ∧ Contiguous middle after stop := by
  induction before generalizing start with
  | nil =>
    constructor
    · intro h
      exact ⟨start, rfl, h⟩
    · rintro ⟨middle, rfl, h⟩
      exact h
  | cons i before ih =>
    simp only [List.cons_append, Contiguous, ih]
    constructor
    · rintro ⟨hi, middle, hbefore, hafter⟩
      exact ⟨middle, ⟨hi, hbefore⟩, hafter⟩
    · rintro ⟨middle, ⟨hi, hbefore⟩, hafter⟩
      exact ⟨hi, middle, hbefore, hafter⟩

theorem start_le (h : Contiguous start instructions stop) : start ≤ stop := by
  induction instructions generalizing start with
  | nil => exact Nat.le_of_eq h
  | cons i rest ih =>
    have hlt := i.address_lt_stop
    have hle := ih h.2
    have hstart := h.1
    omega

/-- The bytes end where the last instruction does. -/
theorem length_image (h : Contiguous start instructions stop)
    (hwell : ∀ i ∈ instructions, i.WellFormed) : start + (image instructions).length = stop := by
  induction instructions generalizing start with
  | nil => exact h
  | cons i rest ih =>
    have hrest := ih h.2 fun j hj => hwell j (List.mem_cons_of_mem i hj)
    have hi := (hwell i List.mem_cons_self).length_bytes
    unfold image at hrest ⊢
    rw [List.flatMap_cons, List.length_append, hi, ← hrest, ← h.1]
    unfold Instruction.stop
    omega

/-- **An instruction stands at its address**: the bytes before it are as many as the address
says. -/
theorem exists_split (h : Contiguous 0 instructions stop)
    (hwell : ∀ i ∈ instructions, i.WellFormed) (hi : i ∈ instructions) :
    ∃ front behind, image instructions = front ++ i.bytes ++ behind ∧
      front.length = i.address.toNat := by
  obtain ⟨before, after, rfl⟩ := List.append_of_mem hi
  obtain ⟨middle, hbefore, hafter⟩ := append_iff.mp h
  have hlength := hbefore.length_image fun j hj => hwell j (List.mem_append_left _ hj)
  refine ⟨image before, image after, ?_, ?_⟩
  · unfold image
    rw [List.flatMap_append, List.flatMap_cons, List.append_assoc]
  · rw [hafter.1]
    omega

theorem start_le_of_mem (h : Contiguous start instructions stop) (hi : i ∈ instructions) :
    start ≤ i.address.toNat ∧ i.stop ≤ stop := by
  obtain ⟨before, after, rfl⟩ := List.append_of_mem hi
  obtain ⟨middle, hbefore, hafter⟩ := append_iff.mp h
  have hle := hbefore.start_le
  have hmiddle := hafter.1
  exact ⟨by omega, hafter.2.start_le⟩

/-- Behind an instruction is the next one or the end. -/
theorem stop_eq_or_exists (h : Contiguous start instructions stop) (hi : i ∈ instructions) :
    i.stop = stop ∨ ∃ j ∈ instructions, j.address.toNat = i.stop := by
  obtain ⟨before, after, rfl⟩ := List.append_of_mem hi
  obtain ⟨middle, -, hafter⟩ := append_iff.mp h
  cases after with
  | nil => exact .inl hafter.2
  | cons j after => exact .inr ⟨j, by simp, hafter.2.1⟩

/-- The addresses ascend. -/
theorem pairwise (h : Contiguous start instructions stop) :
    instructions.Pairwise fun i j => i.address.toNat < j.address.toNat := by
  induction instructions generalizing start with
  | nil => exact .nil
  | cons i rest ih =>
    refine .cons ?_ (ih h.2)
    intro j hj
    have hlt := i.address_lt_stop
    have hle := (h.2.start_le_of_mem hj).1
    omega

/-- Two instructions do not start at one address. -/
theorem nodup_addresses (h : Contiguous start instructions stop) :
    (instructions.map Instruction.address).Nodup :=
  List.pairwise_map.mpr <| h.pairwise.imp fun hlt heq =>
    Nat.ne_of_lt hlt (congrArg UInt16.toNat heq)

theorem isChain (h : Contiguous start instructions stop) :
    instructions.IsChain fun i j => j.address.toNat = i.stop := by
  induction instructions generalizing start with
  | nil => exact .nil
  | cons i rest ih =>
    cases rest with
    | nil => exact .singleton i
    | cons j rest => exact .cons_cons h.2.1 (ih h.2)

theorem eq_getLast? (h : Contiguous start instructions stop) :
    stop = (instructions.getLast?.map Instruction.stop).getD start := by
  induction instructions generalizing start with
  | nil => exact h.symm
  | cons i rest ih =>
    rw [ih h.2, List.getLast?_cons]
    cases rest.getLast? with
    | none => rfl
    | some last => rfl

/-- If all instructions pass a test, the first that does starts where the first one does. -/
theorem address_find? (h : Contiguous start instructions stop) {p : Instruction → Bool}
    (hp : ∀ i ∈ instructions, p i = true) :
    ((instructions.find? p).map (·.address.toNat)).getD stop = start := by
  cases instructions with
  | nil => exact h.symm
  | cons i rest =>
    rw [List.find?_cons_of_pos (hp i List.mem_cons_self)]
    exact h.1

end Contiguous

end Micro65
