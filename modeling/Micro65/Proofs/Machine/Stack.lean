import Mathlib.Data.List.Induction
import Mathlib.Data.List.Infix
import Micro65.Proofs.Machine.Changes
import Micro65.Proofs.Machine.Executed
import Micro65.Proofs.Machine.Faults
/-!
# The stack

The stack has a page of its own, and its pointer wraps around in it. Commands that push and pull are
therefore a stack as long as no more than 256 bytes are on it and nothing else gets in their way
(`Machine.UsesStack`). The pointer then tells the height of the stack (`Machine.toNat_sp_behind`).
Below a byte that has been pushed there is room for 255 others, so as long as no more are pushed
above it and it is not pulled, it stays (`Machine.read_behind`); and a pull that follows finds it,
by the pointer. A pull belongs to the last push that is still open (`Command.exists_push`), with
balanced commands in between. The main statement is `Machine.stackDiscipline`.
-/

namespace Micro65

/-- Whether an instruction takes a byte from the stack. -/
def Mnemonic.pulls : Mnemonic → Bool
  | .pla | .plp => true
  | _ => false

theorem Mnemonic.pulls_eq_false_of_pushes {m : Mnemonic} (h : m.pushes = true) :
    m.pulls = false := by
  cases m with
  | pha | php => rfl
  | _ => cases h

/-! ## Commands that use the stack -/

namespace Command

/-- Whether a command puts a byte on the stack. -/
def pushes (c : Command) : Bool :=
  c.mnemonic?.any Mnemonic.pushes

/-- Whether a command takes a byte from the stack. -/
def pulls (c : Command) : Bool :=
  c.mnemonic?.any Mnemonic.pulls

/-- Whether a command can be carried out: an opcode has an instruction and enough bytes behind it,
an instruction has its mode and an operand for it. -/
def isExecutable : Command → Bool
  | .encoded opcode bytes =>
    (Slot.ofOpcode opcode).instruction?.isSome && (Slot.ofOpcode opcode).operandSize ≤ bytes.length
  | .decoded i => i.mnemonic.hasMode i.mode && (i.operand.isSome || i.mode.operandSize = 0)

/-- How many more bytes commands put on the stack than they take from it. -/
def height (cs : List Command) : Int :=
  cs.countP pushes - cs.countP pulls

/-- Commands that leave the stack as high as they have found it, and never lower it below that. -/
structure Balanced (cs : List Command) : Prop where
  height_eq : height cs = 0
  height_nonneg : ∀ before, before <+: cs → 0 ≤ height before

variable {c : Command} {cs : List Command}

@[simp] theorem height_nil : height [] = 0 := rfl

theorem height_singleton (c : Command) : height [c] = c.pushes.toNat - c.pulls.toNat := by
  cases hpushes : c.pushes <;> cases hpulls : c.pulls <;> simp [height, hpushes, hpulls]

@[simp] theorem height_append (cs others : List Command) :
    height (cs ++ others) = height cs + height others := by
  simp only [height, List.countP_append]
  omega

theorem height_cons (c : Command) (cs : List Command) :
    height (c :: cs) = height [c] + height cs :=
  height_append [c] cs

theorem pulls_eq_false_of_pushes (h : c.pushes = true) : c.pulls = false := by
  obtain ⟨mnemonic, hmnemonic, hpushes⟩ := (Option.any_eq_true _ _).mp h
  rw [pulls, hmnemonic]
  exact Mnemonic.pulls_eq_false_of_pushes hpushes

theorem height_singleton_of_pushes (h : c.pushes = true) : height [c] = 1 := by
  rw [height_singleton, h, pulls_eq_false_of_pushes h]
  rfl

theorem height_singleton_of_pulls (h : c.pulls = true) : height [c] = -1 := by
  have hpushes : c.pushes = false := by
    cases hpushes : c.pushes with
    | false => rfl
    | true => cases (pulls_eq_false_of_pushes hpushes).symm.trans h
  rw [height_singleton, h, hpushes]
  rfl

/-- Below the height of the stack, at every level there is a push that is still open. -/
theorem exists_push_at {level : Int} (hzero : 0 ≤ level) (h : level < height cs) :
    ∃ outer push between, cs = outer ++ push :: between ∧ push.pushes = true ∧
      height outer = level ∧ ∀ before, before <+: between → 0 ≤ height before := by
  induction cs using List.reverseRecOn with
  | nil => exact absurd (Int.lt_of_le_of_lt hzero h) (Int.lt_irrefl 0)
  | append_singleton cs c ih =>
    by_cases hopen : level < height cs
    · obtain ⟨outer, push, between, rfl, hpush, hlevel, hbetween⟩ := ih hopen
      refine ⟨outer, push, between ++ [c], by simp, hpush, hlevel, fun before hbefore => ?_⟩
      obtain rfl | hbefore := List.prefix_concat_iff.mp hbefore
      · rw [height_append, height_append, height_cons, height_singleton_of_pushes hpush] at h
        rw [height_append]
        omega
      · exact hbetween before hbefore
    · rw [height_append, height_singleton] at h
      have hpush : c.pushes = true := by
        cases hpushes : c.pushes with
        | true => rfl
        | false =>
          rw [hpushes] at h
          simp only [Bool.toNat_false] at h
          omega
      have hle := c.pushes.toNat_le
      refine ⟨cs, c, [], rfl, hpush, by omega, fun before hbefore => ?_⟩
      rw [List.prefix_nil.mp hbefore]
      exact Int.le_refl 0

/-- **On a stack that is not empty there is a last push that is still open.** -/
theorem exists_push (h : 0 < height cs) :
    ∃ outer push between, cs = outer ++ push :: between ∧ push.pushes = true ∧
      Balanced between := by
  obtain ⟨outer, push, between, hcs, hpush, hlevel, hbetween⟩ :=
    exists_push_at (Int.le_sub_one_of_lt h) (Int.sub_lt_self (height cs) Int.one_pos)
  refine ⟨outer, push, between, hcs, hpush, ?_, hbetween⟩
  rw [hcs, height_append, height_cons, height_singleton_of_pushes hpush] at hlevel
  omega

end Command

namespace Machine

/-- An address of the page of the stack. -/
def OnStackPage (address : UInt16) : Prop :=
  0x100 ≤ address ∧ address ≤ 0x1FF

theorem toNat_stackAddress (sp : UInt8) : (stackAddress sp).toNat = 0x100 + sp.toNat := by
  have hlt := sp.toNat_lt
  have hpage : (0x100 : UInt16).toNat = 0x100 := rfl
  rw [stackAddress_eq, UInt16.toNat_add, UInt8.toNat_toUInt16, hpage]
  exact Nat.mod_eq_of_lt (by omega)

theorem onStackPage_stackAddress (sp : UInt8) : OnStackPage (stackAddress sp) := by
  have hlt := sp.toNat_lt
  constructor
  all_goals
    apply UInt16.le_iff_toNat_le.mpr
    rw [toNat_stackAddress]
  · exact Nat.le_add_right 0x100 _
  · exact Nat.add_le_add_left (Nat.le_of_lt_succ hlt) 0x100

theorem toNat_pushed (sp : UInt8) : ((sp - 1).toNat : Int) = (sp.toNat - 1) % 256 := by
  have hone : (1 : UInt8).toNat = 1 := rfl
  rw [UInt8.toNat_sub, hone]
  omega

theorem toNat_pulled (sp : UInt8) : ((sp + 1).toNat : Int) = (sp.toNat + 1) % 256 := by
  have hone : (1 : UInt8).toNat = 1 := rfl
  rw [UInt8.toNat_add, hone]
  omega

theorem stackAddress_ne {sp sp' : UInt8} (h : sp.toNat ≠ sp'.toNat) :
    stackAddress sp ≠ stackAddress sp' := by
  intro heq
  have := toNat_stackAddress sp
  rw [heq, toNat_stackAddress] at this
  omega

section

variable {μ : Type} [Memory μ] {m : Machine μ} {c : Command} {mnemonic : Mnemonic}
  {cs others : List Command}

/-! ## Commands one after the other -/

/-- The machine behind commands that are performed one after the other. -/
def behind (m : Machine μ) (cs : List Command) : Machine μ :=
  cs.foldl (fun m c => (m.perform c).machine) m

@[simp] theorem behind_nil (m : Machine μ) : m.behind [] = m := rfl

theorem behind_append : m.behind (cs ++ others) = (m.behind cs).behind others :=
  List.foldl_append

theorem behind_concat : m.behind (cs ++ [c]) = ((m.behind cs).perform c).machine :=
  behind_append

/-- **A command that can be carried out is carried out** by every machine. -/
theorem exists_perform (m : Machine μ) (h : c.isExecutable = true) :
    ∃ mnemonic p, c.mnemonic? = some mnemonic ∧
      m.perform c = ⟨.ok mnemonic, (m.advance c.size).apply mnemonic.operation p⟩ := by
  cases c with
  | encoded opcode bytes =>
    rw [Command.isExecutable, Bool.and_eq_true, decide_eq_true_iff] at h
    obtain ⟨hunknown, -⟩ | ⟨mnemonic, hknown, ⟨htruncated, -⟩ | ⟨p, -, -, heq⟩⟩ :=
      m.executeBytes_cases opcode bytes
    · rw [hunknown] at h
      cases h.1
    · exact absurd htruncated (Nat.not_lt.mpr h.2)
    · exact ⟨mnemonic, p, hknown, heq⟩
  | decoded i =>
    rw [Command.isExecutable, Bool.and_eq_true, Bool.or_eq_true, decide_eq_true_iff] at h
    obtain ⟨hlacks, -⟩ | ⟨-, hnone, hsize, -⟩ | ⟨p, -, -, heq⟩ :=
      m.execute_cases i.mnemonic i.mode i.operand
    · cases hlacks.symm.trans h.1
    · rw [hnone] at h
      exact absurd (h.2.resolve_left Bool.false_ne_true) hsize
    · exact ⟨i.mnemonic, p, rfl, by simp only [perform, heq]; rfl⟩

/-! ## One command -/

/-- The byte that a command puts on the stack, or has taken from it, where it belongs in the
machine: the status register or the accumulator. -/
def stackByte (m : Machine μ) (c : Command) : UInt8 :=
  match c.mnemonic? with
  | some .php | some .plp => m.status.toByte
  | _ => m.a

theorem sp_apply (m : Machine μ) (htxs : mnemonic ≠ .txs) (p : Place) :
    (m.apply mnemonic.operation p).sp =
      if mnemonic.pushes then m.sp - 1 else if mnemonic.pulls then m.sp + 1 else m.sp := by
  cases mnemonic with
  | pha | php | pla | plp => rfl
  | txs => exact absurd rfl htxs
  | _ => exact register_apply (r := .sp) m (by simp [Mnemonic.operation, Operation.registers])

/-- The pointer moves down for a push and up for a pull. -/
theorem toNat_sp_perform (m : Machine μ) (h : c.isExecutable = true)
    (htxs : c.mnemonic? ≠ some .txs) :
    ((m.perform c).machine.sp.toNat : Int) = (m.sp.toNat - Command.height [c]) % 256 := by
  obtain ⟨mnemonic, p, hmnemonic, heq⟩ := m.exists_perform h
  have hne : mnemonic ≠ .txs := fun htxs' => htxs (htxs' ▸ hmnemonic)
  have hsp : (m.advance c.size).sp = m.sp := rfl
  rw [heq, Command.height_singleton, sp_apply _ hne, hsp]
  simp only [Command.pushes, Command.pulls, hmnemonic, Option.any_some]
  cases hpushes : mnemonic.pushes with
  | true =>
    rw [Mnemonic.pulls_eq_false_of_pushes hpushes]
    exact toNat_pushed m.sp
  | false =>
    cases mnemonic.pulls with
    | true => exact toNat_pulled m.sp
    | false =>
      have hlt := m.sp.toNat_lt
      simp only [Bool.toNat_false, Bool.false_eq_true, if_false]
      omega

/-- A command that neither stores nor pushes leaves memory alone. -/
theorem memory_perform (m : Machine μ) (h : c.isExecutable = true)
    (hmnemonic : c.mnemonic? = some mnemonic) (hstores : mnemonic.stores .absolute = false)
    (hpushes : mnemonic.pushes = false) : (m.perform c).machine.memory = m.memory := by
  obtain ⟨found, p, hfound, heq⟩ := m.exists_perform h
  cases hmnemonic.symm.trans hfound
  rw [heq, memory_apply, mnemonic.written?_eq_none hstores hpushes nofun]
  rfl

theorem memory_perform_of_pulls (m : Machine μ) (h : c.isExecutable = true)
    (hpulls : c.pulls = true) : (m.perform c).machine.memory = m.memory := by
  obtain ⟨mnemonic, hmnemonic, hpulls⟩ := (Option.any_eq_true _ _).mp hpulls
  cases mnemonic with
  | pla | plp => exact m.memory_perform h hmnemonic rfl rfl
  | _ => cases hpulls

theorem memory_perform_of_pushes (m : Machine μ) (h : c.isExecutable = true)
    (hpushes : c.pushes = true) :
    (m.perform c).machine.memory = Memory.write m.memory (stackAddress m.sp) (m.stackByte c) := by
  obtain ⟨mnemonic, p, hmnemonic, heq⟩ := m.exists_perform h
  rw [Command.pushes, hmnemonic] at hpushes
  unfold stackByte
  rw [heq, hmnemonic]
  cases mnemonic with
  | pha | php => rfl
  | _ => cases hpushes

/-- A push leaves the pointer below its byte. -/
theorem sp_perform_of_pushes (m : Machine μ) (h : c.isExecutable = true)
    (hpushes : c.pushes = true) : (m.perform c).machine.sp + 1 = m.sp := by
  obtain ⟨mnemonic, p, hmnemonic, heq⟩ := m.exists_perform h
  rw [Command.pushes, hmnemonic] at hpushes
  rw [heq]
  cases mnemonic with
  | pha | php => exact UInt8.sub_add_cancel _ _
  | _ => cases hpushes

/-- What a pull has taken from the stack is the byte above the pointer. -/
theorem stackByte_perform_of_pulls (m : Machine μ) (h : c.isExecutable = true)
    (hpulls : c.pulls = true) :
    (m.perform c).machine.stackByte c = Memory.read m.memory (stackAddress (m.sp + 1)) := by
  obtain ⟨mnemonic, p, hmnemonic, heq⟩ := m.exists_perform h
  rw [Command.pulls, hmnemonic] at hpulls
  unfold stackByte
  rw [heq, hmnemonic]
  cases mnemonic with
  | pla => rfl
  | plp => exact Status.toByte_ofByte _
  | _ => cases hpulls

end

/-! ## A stack of limited height -/

/-- Commands that can be carried out and use the stack from its present height on: they take no byte
from below it and never have more than so many bytes above it. None of them is a transfer to the
pointer, and those that neither push nor pull leave the bytes on the page of the stack as they are,
as they do if they write nothing there. -/
structure UsesStack (capacity : Int) (m : Machine Ram) (cs : List Command) : Prop where
  isExecutable : ∀ c ∈ cs, c.isExecutable = true
  height : ∀ before, before <+: cs →
    0 ≤ Command.height before ∧ Command.height before ≤ capacity
  ne_txs : ∀ c ∈ cs, c.mnemonic? ≠ some .txs
  read_eq : ∀ before c, before ++ [c] <+: cs → c.pushes = false → c.pulls = false →
    ∀ address, OnStackPage address →
      (m.behind (before ++ [c])).memory.read address = (m.behind before).memory.read address

section

variable {m : Machine Ram} {capacity : Int} {c push : Command}
  {cs before outer between : List Command}

namespace UsesStack

theorem of_prefix (h : UsesStack capacity m cs) (hbefore : before <+: cs) :
    UsesStack capacity m before where
  isExecutable c hc := h.isExecutable c (hbefore.subset hc)
  height first hfirst := h.height first (hfirst.trans hbefore)
  ne_txs c hc := h.ne_txs c (hbefore.subset hc)
  read_eq first c hfirst := h.read_eq first c (hfirst.trans hbefore)

/-- Above a byte of the stack there is room for one byte less than on the whole stack. -/
theorem above (h : UsesStack (capacity + 1) m (outer ++ push :: between))
    (hpush : push.pushes = true) (hbetween : Command.Balanced between) :
    UsesStack capacity (m.behind (outer ++ [push])) between := by
  have hcs : outer ++ push :: between = outer ++ [push] ++ between := by simp
  rw [hcs] at h
  have hmem : ∀ c ∈ between, c ∈ outer ++ [push] ++ between :=
    fun c hc => List.mem_append_right _ hc
  have hstarts : ∀ first, first <+: between →
      outer ++ [push] ++ first <+: outer ++ [push] ++ between :=
    fun first hfirst => (List.prefix_append_right_inj _).mpr hfirst
  exact {
    isExecutable := fun c hc => h.isExecutable c (hmem c hc)
    height := by
      intro first hfirst
      have houter := (h.height outer (by simp [List.append_assoc])).1
      have hall := (h.height _ (hstarts first hfirst)).2
      rw [Command.height_append, Command.height_append,
        Command.height_singleton_of_pushes hpush] at hall
      exact ⟨hbetween.height_nonneg first hfirst, by omega⟩
    ne_txs := fun c hc => h.ne_txs c (hmem c hc)
    read_eq := by
      intro first c hfirst hpushes hpulls address haddress
      rw [← behind_append, ← behind_append, ← List.append_assoc]
      refine h.read_eq _ c ?_ hpushes hpulls address haddress
      rw [List.append_assoc]
      exact hstarts _ hfirst }

end UsesStack

/-- **The pointer tells the height of the stack.** -/
theorem toNat_sp_behind (h : UsesStack capacity m cs) :
    ((m.behind cs).sp.toNat : Int) = (m.sp.toNat - Command.height cs) % 256 := by
  induction cs using List.reverseRecOn with
  | nil =>
    have hlt := m.sp.toNat_lt
    rw [behind_nil, Command.height_nil]
    omega
  | append_singleton cs c ih =>
    have hlast : c ∈ cs ++ [c] := List.mem_concat_self
    have hbefore := ih (h.of_prefix (List.prefix_append cs [c]))
    have hstep := (m.behind cs).toNat_sp_perform (h.isExecutable c hlast) (h.ne_txs c hlast)
    rw [behind_concat, hstep, hbefore, Command.height_append]
    omega

theorem sp_behind_of_balanced (h : UsesStack capacity m cs) (hbalanced : Command.Balanced cs) :
    (m.behind cs).sp = m.sp := by
  have hsp := toNat_sp_behind h
  have hlt := m.sp.toNat_lt
  rw [hbalanced.height_eq] at hsp
  apply UInt8.toNat_inj.mp
  omega

/-- **A byte of the stack stays** while commands use the stack above it, as long as they do not come
around to it. -/
theorem read_behind (h : UsesStack 255 m cs) :
    (m.behind cs).memory.read (stackAddress (m.sp + 1)) =
      m.memory.read (stackAddress (m.sp + 1)) := by
  induction cs using List.reverseRecOn with
  | nil => rfl
  | append_singleton cs c ih =>
    have hbefore := h.of_prefix (List.prefix_append cs [c])
    rw [← ih hbefore]
    have hc := h.isExecutable c List.mem_concat_self
    by_cases hpushes : c.pushes = true
    · -- The byte that is pushed is at most 255 places below the one that stays.
      have hlow := (hbefore.height cs List.prefix_rfl).1
      have hhigh := (h.height (cs ++ [c]) List.prefix_rfl).2
      rw [Command.height_append, Command.height_singleton_of_pushes hpushes] at hhigh
      have hsp := toNat_sp_behind hbefore
      have habove := toNat_pulled m.sp
      have hne : (m.behind cs).sp.toNat ≠ (m.sp + 1).toNat := by omega
      rw [behind_concat, memory_perform_of_pushes _ hc hpushes]
      exact Ram.read_write_of_ne _ _ (stackAddress_ne hne)
    · by_cases hpulls : c.pulls = true
      · rw [behind_concat, memory_perform_of_pulls _ hc hpulls]
      · exact h.read_eq cs c List.prefix_rfl (Bool.eq_false_iff.mpr hpushes)
          (Bool.eq_false_iff.mpr hpulls) _ (onStackPage_stackAddress _)

/-- **A pull gives back what the push has put there that it belongs to.** -/
theorem stackByte_eq {pull : Command}
    (h : UsesStack 256 m (outer ++ push :: between ++ [pull])) (hpush : push.pushes = true)
    (hpull : pull.pulls = true) (hbetween : Command.Balanced between) :
    (m.behind (outer ++ push :: between ++ [pull])).stackByte pull =
      (m.behind outer).stackByte push := by
  have hbefore : UsesStack (255 + 1) m (outer ++ push :: between) := h.of_prefix (by simp)
  have habove := hbefore.above hpush hbetween
  have hpushed : push.isExecutable = true := h.isExecutable push (by simp)
  have hpulled : pull.isExecutable = true := h.isExecutable pull (by simp)
  have hdown : (m.behind (outer ++ [push])).sp + 1 = (m.behind outer).sp := by
    rw [behind_concat]
    exact sp_perform_of_pushes _ hpushed hpush
  have hback : (m.behind (outer ++ push :: between)).sp = (m.behind (outer ++ [push])).sp := by
    rw [← sp_behind_of_balanced habove hbetween, ← behind_append, List.append_assoc,
      List.singleton_append]
  have hstays := read_behind habove
  rw [← behind_append, hdown, List.append_assoc, List.singleton_append] at hstays
  rw [behind_concat, stackByte_perform_of_pulls _ hpulled hpull, hback, hdown]
  calc (m.behind (outer ++ push :: between)).memory.read (stackAddress (m.behind outer).sp)
      = (m.behind (outer ++ [push])).memory.read (stackAddress (m.behind outer).sp) := hstays
    _ = (m.behind outer).stackByte push := by
        rw [behind_concat, memory_perform_of_pushes _ hpushed hpush]
        exact Ram.read_write_self _ _ _

/-- **What becomes of the stack** along commands that use it. -/
structure StackDiscipline (m : Machine Ram) (cs : List Command) : Prop where
  /-- Every command is carried out. -/
  performs : ∀ before c, before ++ [c] <+: cs → ∃ mnemonic, c.mnemonic? = some mnemonic ∧
    (m.behind before).perform c = ⟨.ok mnemonic, m.behind (before ++ [c])⟩
  /-- The pointer is below its start by the height of the stack. -/
  sp_eq : ∀ before, before <+: cs →
    ((m.behind before).sp.toNat : Int) = (m.sp.toNat - Command.height before) % 256
  /-- Every pull belongs to a push, the last that is open. -/
  matched : ∀ before pull, before ++ [pull] <+: cs → pull.pulls = true →
    ∃ outer push between, before = outer ++ push :: between ∧ push.pushes = true ∧
      Command.Balanced between
  /-- The byte that a pull delivers is the one of its push. -/
  delivers : ∀ outer push between pull, outer ++ push :: between ++ [pull] <+: cs →
    push.pushes = true → pull.pulls = true → Command.Balanced between →
    (m.behind (outer ++ push :: between ++ [pull])).stackByte pull = (m.behind outer).stackByte push
  /-- Pushes and pulls change no byte outside the page of the stack. -/
  read_eq : ∀ before c, before ++ [c] <+: cs → (c.pushes || c.pulls) = true →
    ∀ address, ¬OnStackPage address →
      (m.behind (before ++ [c])).memory.read address = (m.behind before).memory.read address

/-- **The page of the stack is a stack of 256 bytes**, from every pointer on. -/
theorem stackDiscipline (h : UsesStack 256 m cs) : StackDiscipline m cs where
  performs before c hbefore := by
    obtain ⟨mnemonic, p, hmnemonic, heq⟩ :=
      (m.behind before).exists_perform (h.isExecutable c (hbefore.subset List.mem_concat_self))
    refine ⟨mnemonic, hmnemonic, ?_⟩
    rw [behind_concat, heq]
  sp_eq before hbefore := toNat_sp_behind (h.of_prefix hbefore)
  matched before pull hbefore hpull := by
    have hheight := (h.height _ hbefore).1
    rw [Command.height_append, Command.height_singleton_of_pulls hpull] at hheight
    exact Command.exists_push (by omega)
  delivers outer push between pull hbefore hpush hpull hbetween :=
    stackByte_eq (h.of_prefix hbefore) hpush hpull hbetween
  read_eq before c hbefore hc address haddress := by
    have hexecutable := h.isExecutable c (hbefore.subset List.mem_concat_self)
    rw [behind_concat]
    obtain hpushes | hpulls := Bool.or_eq_true_iff.mp hc
    · rw [memory_perform_of_pushes _ hexecutable hpushes]
      refine Ram.read_write_of_ne _ _ fun heq => haddress ?_
      exact heq ▸ onStackPage_stackAddress _
    · rw [memory_perform_of_pulls _ hexecutable hpulls]

end

/-- Both registers are kept on the stack across a load, where the page wraps around. -/
theorem stackDiscipline_of_wrap :
    let m : Machine Ram := { a := 0x42, sp := 0x00, memory := .zeroed }
    let cs : List Command := [.encoded 0x48 [], .encoded 0x08 [], .encoded 0xA9 [0x80],
      .encoded 0x28 [], .encoded 0x68 []]
    UsesStack 256 m cs ∧ StackDiscipline m cs := by
  intro m cs
  have hexecutable : ∀ c ∈ cs, c.isExecutable = true := by decide +kernel
  have hheight : ∀ before ∈ cs.inits,
      0 ≤ Command.height before ∧ Command.height before ≤ 256 := by decide +kernel
  have hloads : ∀ c ∈ cs, c.pushes = false → c.pulls = false → c.mnemonic? = some .lda := by
    decide +kernel
  have huses : UsesStack 256 m cs := {
    isExecutable := hexecutable
    height := fun before hbefore => hheight before ((List.mem_inits _ _).mpr hbefore)
    ne_txs := by decide +kernel
    read_eq := by
      intro before c hbefore hpushes hpulls address _
      have hc := hbefore.subset List.mem_concat_self
      rw [behind_concat, memory_perform _ (hexecutable c hc) (hloads c hc hpushes hpulls) rfl rfl] }
  exact ⟨huses, stackDiscipline huses⟩

end Machine

end Micro65
