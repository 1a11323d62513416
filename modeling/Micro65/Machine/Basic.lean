import Micro65.Settings.Basic
import Micro65.Machine.Memory
import Micro65.Machine.Operation
import Micro65.Mode
/-!
# The machine

The registers of the processor with its memory, what an addressing mode makes of an operand, and
what each operation does to the machine once the operand is known.
-/

namespace Micro65

/-- The processor with its memory. -/
structure Machine (μ : Type) where
  a : UInt8 := 0
  x : UInt8 := 0
  y : UInt8 := 0
  /-- The stack pointer: the free place on the stack page. -/
  sp : UInt8 := 0xFD
  /-- The program counter. -/
  pc : UInt16 := 0
  status : Status := .initial
  settings : MachineSettings := {}
  memory : μ

/-- Where an instruction finds its operand. -/
inductive Place where
  /-- The instruction has no operand. -/
  | nowhere
  /-- In the accumulator. -/
  | accumulator
  /-- In the instruction itself. -/
  | literal (value : UInt8)
  /-- In memory. -/
  | memory (address : UInt16)
  /-- The operand is the distance of a jump. -/
  | distance (bytes : Int)
  deriving DecidableEq, Repr

/-- Whether an addition, or a subtraction, sets the overflow flag. -/
def OverflowRule.overflows (rule : OverflowRule) (subtracts : Bool) (left right result : UInt8) :
    Bool :=
  match rule with
  | .signHeuristic =>
    let (l, r, s) := (Word.signed left, Word.signed right, Word.signed result)
    (0 < l && 0 < r && s < 0) || (l < 0 && r < 0 && 0 < s)
  | .twosComplement =>
    let (l, r, s) := (Word.isNegative left, Word.isNegative right, Word.isNegative result)
    if subtracts then l != r && l != s else l != s && r != s

/-- The status register after a comparison of a register with a value. -/
def CompareRule.status (rule : CompareRule) (register value : UInt8) (s : Status) : Status :=
  match rule with
  | .signed =>
    { s with
      carry := Word.signed value ≤ Word.signed register
      zero := register = value
      negative := Word.isNegative register }
  | .unsigned =>
    { s with
      carry := value ≤ register
      zero := register = value
      negative := Word.isNegative (register - value) }

/-- The status register after a result. -/
def Status.afterResult (s : Status) (result : UInt8) : Status :=
  { s with zero := result = 0, negative := Word.isNegative result }

/-- The bitwise combination of two bytes. -/
def Logic.apply : Logic → UInt8 → UInt8 → UInt8
  | .conjunction, l, r => l &&& r
  | .disjunction, l, r => l ||| r
  | .exclusive, l, r => l ^^^ r

/-- The shifted byte, and the bit that falls out. -/
def Shift.apply (s : Shift) (value : UInt8) (carry : Bool) : UInt8 × Bool :=
  match s with
  | .left => (value <<< 1, Word.isNegative value)
  | .right => (value >>> 1, value &&& 1 ≠ 0)
  | .rotateLeft => ((value <<< 1) ||| (if carry then 1 else 0), Word.isNegative value)
  | .rotateRight => ((value >>> 1) ||| (if carry then 0x80 else 0), value &&& 1 ≠ 0)

namespace Machine

variable {μ : Type} [Memory μ]

/-! ## Registers -/

/-- The value of a register. -/
def register (m : Machine μ) : Register → UInt8
  | .a => m.a
  | .x => m.x
  | .y => m.y
  | .sp => m.sp

/-- The machine with one register replaced. -/
def setRegister (m : Machine μ) (r : Register) (value : UInt8) : Machine μ :=
  match r with
  | .a => { m with a := value }
  | .x => { m with x := value }
  | .y => { m with y := value }
  | .sp => { m with sp := value }

/-- The machine with the status register changed by `f`. -/
def mapStatus (m : Machine μ) (f : Status → Status) : Machine μ :=
  { m with status := f m.status }

/-- Puts a result into a register and shows its sign. The stack pointer has no sign to show. -/
def assign (m : Machine μ) (r : Register) (result : UInt8) : Machine μ :=
  match r with
  | .sp => m.setRegister .sp result
  | r => (m.setRegister r result).mapStatus (·.afterResult result)

/-! ## The stack -/

/-- The address on the stack page that a stack pointer stands for. -/
def stackAddress (sp : UInt8) : UInt16 :=
  0x100 ||| sp.toUInt16

/-- Puts a byte on the stack. -/
def push (m : Machine μ) (value : UInt8) : Machine μ :=
  let address := stackAddress m.sp
  { m with memory := Memory.write m.memory address value, sp := m.sp - 1 }

/-- Takes a byte from the stack. -/
def pull (m : Machine μ) : UInt8 × Machine μ :=
  let sp := m.sp + 1
  (Memory.read m.memory (stackAddress sp), { m with sp })

/-! ## Operands -/

/-- Where an operand leads in a mode that has operand bytes. Sums in the first page stay in it. -/
def locate (m : Machine μ) (mode : Mode) (operand : UInt16) : Place :=
  let page := Word.low operand
  let word := Memory.word m.memory
  match mode with
  | .implied | .stack => .nowhere
  | .accumulator => .accumulator
  | .immediate => .literal page
  | .relative => .distance (Word.signed page)
  | .zeroPage => .memory page.toUInt16
  | .zeroPageX => .memory (page + m.x).toUInt16
  | .zeroPageY => .memory (page + m.y).toUInt16
  | .absolute => .memory operand
  | .absoluteX => .memory (operand + m.x.toUInt16)
  | .absoluteY => .memory (operand + m.y.toUInt16)
  | .indirect => .memory (word operand)
  | .absoluteIndexedIndirect => .memory (word (operand + m.x.toUInt16))
  | .indirectX => .memory (word (page + m.x).toUInt16)
  | .indirectY => .memory (word page.toUInt16 + m.y.toUInt16)
  | .zeroPageIndirect => .memory (word page.toUInt16)

/-- Where an instruction finds its operand, or `none` if the mode has operand bytes and there are
none. -/
def place? (m : Machine μ) (mode : Mode) (operand : Option UInt16) : Option Place :=
  if mode.operandSize = 0 then some (m.locate mode 0) else operand.map (m.locate mode)

/-- The byte at a place. -/
def read (m : Machine μ) : Place → UInt8
  | .accumulator => m.a
  | .literal value => value
  | .memory address => Memory.read m.memory address
  | .nowhere | .distance _ => 0

/-- Writes a byte to a place that can be written. -/
def write (m : Machine μ) (p : Place) (value : UInt8) : Machine μ :=
  match p with
  | .accumulator => { m with a := value }
  | .memory address => { m with memory := Memory.write m.memory address value }
  | .nowhere | .literal _ | .distance _ => m

/-! ## Operations -/

/-- Adds a byte and the carry to the accumulator. -/
def addWithCarry (m : Machine μ) (value : UInt8) : Machine μ :=
  let sum := m.a.toNat + value.toNat + m.status.carry.toNat
  let result := UInt8.ofNat sum
  let overflow := m.settings.overflow.overflows false m.a value result
  (m.mapStatus fun s => { s with carry := 0xFF < sum, overflow }).assign .a result

/-- Subtracts a byte and the missing carry from the accumulator. -/
def subtractWithBorrow (m : Machine μ) (value : UInt8) : Machine μ :=
  let difference : Int := m.a.toNat - value.toNat - (!m.status.carry).toNat
  let result := UInt8.ofInt difference
  let overflow := m.settings.overflow.overflows true m.a value result
  (m.mapStatus fun s => { s with carry := 0 ≤ difference, overflow }).assign .a result

/-- Jumps over a distance, from the instruction behind the branch, if a flag has a value. -/
def branch (m : Machine μ) (flag : Flag) (value : Bool) (p : Place) : Machine μ :=
  match p with
  | .distance bytes =>
    if m.status.get flag = value then { m with pc := Word.offset m.pc bytes } else m
  | _ => m

/-- Carries out an operation on an operand. -/
def apply (m : Machine μ) (operation : Operation) (p : Place) : Machine μ :=
  match operation with
  | .load r => let value := m.read p; m.assign r value
  | .store r => let value := m.register r; m.write p value
  | .transfer source target => let value := m.register source; m.assign target value
  | .add => let value := m.read p; m.addWithCarry value
  | .subtract => let value := m.read p; m.subtractWithBorrow value
  | .combine logic => let result := logic.apply m.a (m.read p); m.assign .a result
  | .compare r =>
    let value := m.read p
    let register := m.register r
    let rule := m.settings.compare
    m.mapStatus (rule.status register value)
  | .shift s =>
    let (result, carry) := s.apply (m.read p) m.status.carry
    (m.write p result).mapStatus fun s => { s with carry }.afterResult result
  | .adjust delta =>
    let result := m.read p + delta
    (m.write p result).mapStatus (·.afterResult result)
  | .adjustRegister r delta => let result := m.register r + delta; m.assign r result
  | .branch flag value => m.branch flag value p
  | .pushAccumulator => let value := m.a; m.push value
  | .pushStatus => let value := m.status.toByte; m.push value
  | .pullAccumulator => let (value, m) := m.pull; m.assign .a value
  | .pullStatus => let (value, m) := m.pull; { m with status := .ofByte value }
  | .setFlag flag value => m.mapStatus (·.set flag value)
  | .idle => m

end Machine

end Micro65
