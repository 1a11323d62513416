import Micro65.Proofs.Machine.Counter
import Micro65.Proofs.Machine.Dispatch
import Micro65.Proofs.Machine.Flags
import Micro65.Proofs.Machine.Footprint
/-!
# What an instruction may change

For every instruction, and where it matters for its mode, the tables of this module say where its
result goes, whether it writes to memory, which bits of the status register it may change and on
which flag it jumps. Executing an opcode with enough bytes behind it succeeds and changes what
the tables say, and nothing else (`Machine.changesOnly`). The tables are about the instructions
as they are named; that an instruction does no more than its table says is read off its
operation, case by case.
-/

namespace Micro65

/-! ## The tables -/

/-- Where an instruction leaves a result that the flags show. -/
inductive Destination where
  | register (r : Register)
  /-- In memory, where the operand is. -/
  | memory
  deriving DecidableEq, Repr

namespace Mnemonic

/-- Where an instruction leaves its result in a mode. -/
def destination? (m : Mnemonic) (mode : Mode) : Option Destination :=
  match m with
  | .adc | .sbc | .and | .eor | .ora | .lda | .pla | .txa | .tya => some (.register .a)
  | .ldx | .tax | .tsx | .inx | .dex => some (.register .x)
  | .ldy | .tay | .iny | .dey => some (.register .y)
  | .asl | .lsr | .rol | .ror | .inc | .dec =>
    if mode = .accumulator then some (.register .a) else some .memory
  | _ => none

/-- Whether an instruction moves the stack pointer. -/
def movesStack : Mnemonic → Bool
  | .pha | .php | .pla | .plp | .txs => true
  | _ => false

/-- Whether an instruction puts a byte on the stack. -/
def pushes : Mnemonic → Bool
  | .pha | .php => true
  | _ => false

/-- Whether an instruction writes to memory where its operand is. -/
def stores (m : Mnemonic) (mode : Mode) : Bool :=
  match m with
  | .sta | .stx | .sty => true
  | .asl | .lsr | .rol | .ror | .inc | .dec => mode ≠ .accumulator
  | _ => false

/-- The bits of the status register that an instruction may change: the sign, the overflow flag, the
zero flag and the carry are 0x80, 0x40, 0x02 and 0x01. -/
def changes : Mnemonic → Status
  | .adc | .sbc => .ofByte 0xC3
  | .cmp | .cpx | .cpy | .asl | .lsr | .rol | .ror => .ofByte 0x83
  | .and | .eor | .ora | .lda | .ldx | .ldy | .inc | .dec | .inx | .iny | .dex | .dey =>
    .ofByte 0x82
  | .tax | .tay | .tsx | .txa | .tya | .pla => .ofByte 0x82
  | .clv => .ofByte 0x40
  | .cld | .sed => .ofByte 0x08
  | .cli | .sei => .ofByte 0x04
  | .clc | .sec => .ofByte 0x01
  | .plp => .ofByte 0xFF
  | .bcc | .bcs | .beq | .bmi | .bne | .bpl | .bvc | .bvs => .ofByte 0x00
  | .nop | .pha | .php | .sta | .stx | .sty | .txs => .ofByte 0x00

/-- The flag that a branch tests, with the value on which it jumps. -/
def condition? : Mnemonic → Option (Flag × Bool)
  | .bcc => some (.carry, false)
  | .bcs => some (.carry, true)
  | .bne => some (.zero, false)
  | .beq => some (.zero, true)
  | .bpl => some (.negative, false)
  | .bmi => some (.negative, true)
  | .bvc => some (.overflow, false)
  | .bvs => some (.overflow, true)
  | _ => none

/-- Whether an instruction jumps. -/
def jumps (m : Mnemonic) (s : Status) : Bool :=
  match m.condition? with
  | some (flag, value) => s.get flag = value
  | none => false

/-! ## The tables and the operations -/

variable {m : Mnemonic} {mode : Mode}

theorem operation_eq_branch_iff {flag : Flag} {value : Bool} :
    m.operation = .branch flag value ↔ m.condition? = some (flag, value) := by
  cases m <;> simp [operation, condition?]

theorem jumps_eq_true_iff {s : Status} : m.jumps s = true ↔
    ∃ flag value, m.operation = .branch flag value ∧ s.get flag = value := by
  unfold jumps
  simp only [operation_eq_branch_iff]
  cases m.condition? with
  | none => simp
  | some c =>
    obtain ⟨flag, value⟩ := c
    simp [eq_comm]

theorem writes_operation (m : Mnemonic) : m.operation.writes = m.changes := by
  cases m <;> decide

theorem destination?_of_mem_registers {p : Place} {r : Register}
    (hp : p = .accumulator → mode = .accumulator) (h : r ∈ m.operation.registers p)
    (hstores : m.stores mode = true → p ≠ .accumulator) :
    m.destination? mode = some (.register r) ∨ r = .sp ∧ m.movesStack = true := by
  cases m with
  | adc | sbc | and | eor | ora | lda | ldx | ldy | tax | tay | tsx | txa | tya | inx | iny | dex
    | dey =>
    rw [List.mem_singleton.mp h]
    exact .inl rfl
  | txs | pha | php | plp => exact .inr ⟨List.mem_singleton.mp h, rfl⟩
  | pla =>
    obtain rfl | hr := List.mem_cons.mp h
    · exact .inl rfl
    · exact .inr ⟨List.mem_singleton.mp hr, rfl⟩
  | sta | stx | sty =>
    simp [operation, Operation.registers, hstores rfl] at h
  | asl | lsr | rol | ror | inc | dec =>
    obtain ⟨hplace, rfl⟩ : p = .accumulator ∧ r = .a := by
      simpa [operation, Operation.registers] using h
    exact .inl (if_pos (hp hplace))
  | _ => cases h

theorem shown?_of_destination? {p : Place} {r : Register}
    (hp : mode = .accumulator → p = .accumulator) (h : m.destination? mode = some (.register r)) :
    m.operation.shown? p = some r := by
  cases m with
  | asl | lsr | rol | ror | inc | dec =>
    by_cases hmode : mode = .accumulator
    · cases (if_pos hmode).symm.trans h
      exact if_pos (hp hmode)
    · cases (if_neg hmode).symm.trans h
  | _ => cases h <;> rfl

theorem rewrites_of_destination? (h : m.destination? mode = some .memory) :
    m.operation.rewrites = true := by
  cases m <;> first | rfl | cases h

section

variable {μ : Type}

theorem exists_written?_of_stores [Memory μ] (h : m.stores mode = true) (machine : Machine μ)
    (address : UInt16) :
    ∃ value, machine.written? m.operation (.memory address) = some (address, value) := by
  cases m <;> first | exact ⟨_, rfl⟩ | cases h

theorem exists_written?_of_pushes [Memory μ] (h : m.pushes = true) (machine : Machine μ)
    (p : Place) :
    ∃ value, machine.written? m.operation p = some (Machine.stackAddress machine.sp, value) := by
  cases m <;> first | exact ⟨_, rfl⟩ | cases h

/-- An instruction that writes neither to its operand nor to the stack does not write at all: it may
have put its result into the accumulator. -/
theorem written?_eq_none [Memory μ] (hstores : m.stores mode = false) (hpushes : m.pushes = false)
    {p : Place} (hp : mode = .accumulator → p = .accumulator) (machine : Machine μ) :
    machine.written? m.operation p = none := by
  cases m with
  | sta | stx | sty => cases hstores
  | pha | php => cases hpushes
  | asl | lsr | rol | ror | inc | dec =>
    have hmode : mode = .accumulator := by simpa [stores] using hstores
    rw [hp hmode]
    rfl
  | _ => rfl

end

end Mnemonic

/-! ## The operand -/

/-- Whether the operand of the mode is in memory. -/
def Mode.accessesMemory : Mode → Bool
  | .implied | .accumulator | .immediate | .stack | .relative => false
  | _ => true

namespace Slot

/-- Whether an instruction that writes where its operand is has a mode that leads to memory. -/
def hasStoredMode : Slot → Bool
  | .documented m mode => !m.stores mode || mode.accessesMemory
  | _ => true

theorem table_storedModes : table.toList.all hasStoredMode = true := by
  decide +kernel

variable {opcode : UInt8} {mnemonic : Mnemonic}

/-- What is written where the operand is goes to memory. -/
theorem accessesMemory_of_stores (h : (ofOpcode opcode).instruction? = some mnemonic)
    (hstores : mnemonic.stores (ofOpcode opcode).mode = true) :
    (ofOpcode opcode).mode.accessesMemory = true := by
  have hstored := List.all_eq_true.mp table_storedModes _ (ofOpcode_mem_table opcode)
  obtain hslot | ⟨-, rfl⟩ := eq_of_instruction? h
  · rw [hslot] at hstored
    simpa [hasStoredMode, hstores] using hstored
  · cases hstores

/-- What jumps has a distance as its operand. -/
theorem mode_of_branch (h : (ofOpcode opcode).instruction? = some mnemonic) {flag : Flag}
    {value : Bool} (hbranch : mnemonic.operation = .branch flag value) :
    (ofOpcode opcode).mode = .relative := by
  have husual := hasUsualMode_ofOpcode opcode
  obtain hslot | ⟨-, rfl⟩ := eq_of_instruction? h
  · rw [hslot] at husual
    have hisBranch := mnemonic.isBranch_iff.mpr ⟨flag, value, hbranch⟩
    simp only [hasUsualMode, hisBranch, Bool.and_eq_true, beq_iff_eq] at husual
    exact of_decide_eq_true husual.2.symm
  · cases hbranch

end Slot

namespace Machine

section

variable {μ : Type} [Memory μ] {m : Machine μ} {opcode : UInt8} {bytes : List UInt8}
  {mnemonic : Mnemonic} {p : Place}

theorem locate_eq_accumulator_iff {mode : Mode} {value : UInt16} :
    m.locate mode value = .accumulator ↔ mode = .accumulator := by
  cases mode <;> simp [locate]

theorem exists_locate_eq_memory (m : Machine μ) {mode : Mode} (h : mode.accessesMemory = true)
    (value : UInt16) : ∃ address, m.locate mode value = .memory address := by
  cases mode with
  | implied | accumulator | immediate | stack | relative => cases h
  | _ => exact ⟨_, rfl⟩

/-- Where the program counter is behind an instruction. -/
theorem toNat_pc_apply (hinstruction : (Slot.ofOpcode opcode).instruction? = some mnemonic)
    {value : UInt16} (hdistance : (Slot.ofOpcode opcode).mode = .relative →
      Word.low value = bytes.headD 0) :
    (((m.advance (Slot.ofOpcode opcode).size).apply mnemonic.operation
        (m.locate (Slot.ofOpcode opcode).mode value)).pc.toNat : Int) =
      (m.pc.toNat + (Slot.ofOpcode opcode).size +
        if mnemonic.jumps m.status then Word.signed (bytes.headD 0) else 0) % 0x10000 := by
  have hbehind := m.toNat_pc_advance (Slot.ofOpcode opcode).size
  by_cases hjumps : mnemonic.jumps m.status = true
  · rw [if_pos hjumps]
    obtain ⟨flag, v, hbranch, hflag⟩ := Mnemonic.jumps_eq_true_iff.mp hjumps
    have hmode := Slot.mode_of_branch hinstruction hbranch
    have hjumped := pc_branch_of_eq (m := m.advance (Slot.ofOpcode opcode).size) hflag
      (Word.signed (Word.low value))
    rw [hbranch, ← hdistance hmode, hmode]
    simp only [apply, locate]
    rw [hjumped, Word.toNat_offset, hbehind]
    omega
  · have hstays : ((m.advance (Slot.ofOpcode opcode).size).apply mnemonic.operation
        (m.locate (Slot.ofOpcode opcode).mode value)).pc =
        (m.advance (Slot.ofOpcode opcode).size).pc := by
      by_cases hbranch : ∃ flag v, mnemonic.operation = .branch flag v
      · obtain ⟨flag, v, hbranch⟩ := hbranch
        rw [hbranch]
        simp only [apply]
        rw [branch_of_ne]
        intro hflag
        exact hjumps (Mnemonic.jumps_eq_true_iff.mpr ⟨flag, v, hbranch, hflag⟩)
      · exact pc_apply (fun flag v h => hbranch ⟨flag, v, h⟩) _ _
    rw [if_neg hjumps, hstays, hbehind]
    omega

omit [Memory μ] in
theorem stackAddress_eq (sp : UInt8) : stackAddress sp = 0x100 + sp.toUInt16 := by
  have h : ∀ n : Fin 256, stackAddress (UInt8.ofNat n) = 0x100 + (UInt8.ofNat n).toUInt16 := by
    decide +kernel
  simpa using h ⟨sp.toNat, sp.toNat_lt⟩

end

end Machine

/-- One byte has been written to memory, and nothing else. -/
structure Traced.WritesOnce {μ : Type} [Memory μ] (t t' : Traced μ) (address : UInt16)
    (value : UInt8) : Prop where
  memory_eq : t'.memory = Memory.write t.memory address value
  writes_eq : t'.writes = (address, value) :: t.writes

namespace Machine

variable {μ : Type} [Memory μ]

/-- **What the instruction of an opcode changes**, with these bytes behind the opcode, from the
machine `m` to the machine `m'`. The memory is any memory with a record of what is written to it. -/
structure ChangesOnly (m : Machine (Traced μ)) (opcode : UInt8) (bytes : List UInt8)
    (mnemonic : Mnemonic) (m' : Machine (Traced μ)) : Prop where
  /-- The program counter moves behind the instruction, and over the distance of a branch that
  jumps. -/
  pc_eq : (m'.pc.toNat : Int) = (m.pc.toNat + (Slot.ofOpcode opcode).size +
    if mnemonic.jumps m.status then Word.signed (bytes.headD 0) else 0) % 0x10000
  /-- An instruction that writes where its operand is writes once, to the effective address. What it
  leaves there is shown, if it is a result. -/
  stored : mnemonic.stores (Slot.ofOpcode opcode).mode = true →
    ∃ address value, m.operandPlace? opcode bytes = some (.memory address) ∧
      m.memory.WritesOnce m'.memory address value ∧
      (mnemonic.destination? (Slot.ofOpcode opcode).mode = some .memory → m'.Shows value)
  /-- An instruction that puts a byte on the stack writes once, to the free place of the stack. -/
  pushed : mnemonic.pushes = true →
    ∃ value, m.memory.WritesOnce m'.memory (0x100 + m.sp.toUInt16) value
  /-- No other instruction writes to memory. -/
  memory_eq : mnemonic.stores (Slot.ofOpcode opcode).mode = false → mnemonic.pushes = false →
    m'.memory = m.memory
  /-- A register changes only if the result goes there, or if it is the pointer of the stack and the
  instruction moves it. -/
  register_changed : ∀ r, m'.register r ≠ m.register r →
    mnemonic.destination? (Slot.ofOpcode opcode).mode = some (.register r) ∨
      r = .sp ∧ mnemonic.movesStack = true
  /-- The other bits of the status register keep their values. -/
  status : m.status.AgreesOff mnemonic.changes m'.status
  /-- A result in a register is shown. -/
  shown : ∀ r, mnemonic.destination? (Slot.ofOpcode opcode).mode = some (.register r) →
    m'.Shows (m'.register r)
  settings_eq : m'.settings = m.settings

section

variable {m : Machine (Traced μ)} {opcode : UInt8} {bytes : List UInt8} {mnemonic : Mnemonic}

theorem writesOnce_of_written? {operation : Operation} {p : Place} {address : UInt16}
    {value : UInt8} (h : m.written? operation p = some (address, value)) :
    m.memory.WritesOnce (m.apply operation p).memory address value := by
  rw [memory_apply, h]
  exact ⟨rfl, rfl⟩

/-- **Each instruction changes only what it may**: the program counter, what it writes to memory,
the register that its result goes to, and the bits of the status register that belong to it. -/
theorem changesOnly (m : Machine (Traced μ))
    (hinstruction : (Slot.ofOpcode opcode).instruction? = some mnemonic)
    (hbytes : (Slot.ofOpcode opcode).operandSize ≤ bytes.length) :
    ∃ m', m.executeBytes opcode bytes = ⟨.ok mnemonic, m'⟩ ∧
      m.ChangesOnly opcode bytes mnemonic m' := by
  obtain ⟨value, hplace, hdistance⟩ := m.exists_operandPlace? hinstruction hbytes
  refine ⟨_, executeBytes_eq hinstruction hplace, ?_⟩
  have haccumulator : m.locate (Slot.ofOpcode opcode).mode value = .accumulator ↔
    (Slot.ofOpcode opcode).mode = .accumulator := locate_eq_accumulator_iff
  generalize hbehind : m.advance (Slot.ofOpcode opcode).size = behind
  have hregister : ∀ r, behind.register r = m.register r := by
    subst hbehind
    intro r
    cases r <;> rfl
  exact {
    pc_eq := hbehind ▸ toNat_pc_apply hinstruction hdistance
    stored := by
      intro hstores
      obtain ⟨address, haddress⟩ := m.exists_locate_eq_memory
        (Slot.accessesMemory_of_stores hinstruction hstores) value
      obtain ⟨stored, hwritten⟩ := Mnemonic.exists_written?_of_stores hstores behind address
      rw [haddress] at hplace ⊢
      refine ⟨address, stored, hplace, hbehind ▸ writesOnce_of_written? hwritten, fun hresult => ?_⟩
      exact shows_written _ (Mnemonic.rewrites_of_destination? hresult) hwritten
    pushed := by
      intro hpushes
      obtain ⟨pushed, hwritten⟩ := Mnemonic.exists_written?_of_pushes hpushes behind
        (m.locate (Slot.ofOpcode opcode).mode value)
      refine ⟨pushed, ?_⟩
      have := writesOnce_of_written? hwritten
      subst hbehind
      rw [stackAddress_eq] at this
      exact this
    memory_eq := by
      intro hstores hpushes
      rw [memory_apply, Mnemonic.written?_eq_none hstores hpushes haccumulator.mpr]
      subst hbehind
      rfl
    register_changed := by
      intro r hchanged
      rw [← hregister] at hchanged
      have hmem : r ∈ mnemonic.operation.registers (m.locate (Slot.ofOpcode opcode).mode value) :=
        Decidable.of_not_not fun hnot => hchanged (register_apply behind hnot)
      refine Mnemonic.destination?_of_mem_registers haccumulator.mp hmem fun hstores => ?_
      obtain ⟨address, haddress⟩ := m.exists_locate_eq_memory
        (Slot.accessesMemory_of_stores hinstruction hstores) value
      rw [haddress]
      exact Place.noConfusion
    status := by
      rw [← Mnemonic.writes_operation]
      subst hbehind
      exact (m.advance _).status_apply mnemonic.operation _
    shown := by
      intro r hr
      exact shows_apply _ (Mnemonic.shown?_of_destination? haccumulator.mpr hr)
    settings_eq := by
      rw [settings_apply]
      subst hbehind
      rfl }

end

/-- An increment of the last address, and a branch on the sign that jumps, each standing at the last
address itself. -/
theorem changesOnly_of_wrap :
    let m : Machine (Traced Ram) :=
      { x := 0xFF, pc := 0xFFFF, status := .ofByte 0x80, memory := ⟨.zeroed, []⟩ }
    ((Slot.ofOpcode 0xFE).instruction? = some .inc ∧ (Slot.ofOpcode 0xFE).operandSize ≤ 2 ∧
        ∃ m', m.executeBytes 0xFE [0x00, 0xFF] = ⟨.ok .inc, m'⟩ ∧
          m.ChangesOnly 0xFE [0x00, 0xFF] .inc m') ∧
      (Slot.ofOpcode 0x30).instruction? = some .bmi ∧ (Slot.ofOpcode 0x30).operandSize ≤ 1 ∧
        ∃ m', m.executeBytes 0x30 [0x80] = ⟨.ok .bmi, m'⟩ ∧
          m.ChangesOnly 0x30 [0x80] .bmi m' := by
  intro m
  have hinc : (Slot.ofOpcode 0xFE).instruction? = some .inc := by decide +kernel
  have hincSize : (Slot.ofOpcode 0xFE).operandSize ≤ 2 := by decide +kernel
  have hbmi : (Slot.ofOpcode 0x30).instruction? = some .bmi := by decide +kernel
  have hbmiSize : (Slot.ofOpcode 0x30).operandSize ≤ 1 := by decide +kernel
  exact ⟨⟨hinc, hincSize, m.changesOnly hinc hincSize⟩, hbmi, hbmiSize, m.changesOnly hbmi hbmiSize⟩

end Machine

end Micro65
