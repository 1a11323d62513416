import Micro65.Machine.Execute
import Micro65.Machine.Program
/-!
# Runs

A run repeats one step: find out what comes next, and execute it. Three sources say what comes
next: a ROM image (`Machine.fetchRom`), an assembled program (`Machine.fetchProgram`) and the
machine's own memory (`Machine.fetchMemory`). The step (`Machine.step`) and the run
(`Machine.run`) are the same for all three. The end of a program is seen before the limit of the
run, so a program that ends in time never exceeds it.

How long a run takes cannot be told from the program, so `Machine.run` takes the number of steps
that it may look at, and gives `none` when they do not suffice.
-/

namespace Micro65

/-- Why a run ended well. -/
inductive Ending where
  /-- The opcode 0 came up. -/
  | halted
  /-- The program counter left the program. -/
  | finished
  deriving DecidableEq, Repr

/-- What is known of a run that ended well. -/
structure Summary where
  /-- The number of instructions executed. -/
  instructions : Nat
  ending : Ending
  deriving DecidableEq, Repr

/-- An instruction that is about to be executed. -/
inductive Command where
  /-- An opcode and the bytes behind it. -/
  | encoded (opcode : UInt8) (bytes : List UInt8)
  /-- An instruction of an assembled program. -/
  | decoded (i : Instruction)
  deriving DecidableEq, Repr

/-- What comes next. -/
inductive Fetch where
  | stop (ending : Ending)
  | fault (f : Fault)
  | command (c : Command)
  deriving DecidableEq, Repr

/-- What a step did. -/
inductive Step where
  /-- Nothing: the program is at its end. -/
  | stopped (ending : Ending)
  | executed (mnemonic : Mnemonic)
  deriving DecidableEq, Repr

/-- The opcode at which a run ends. -/
def haltByte : UInt8 := 0

namespace Machine

variable {μ : Type} [Memory μ]

/-! ## What comes next -/

/-- What comes next in a ROM image. An instruction is given the bytes that the image has of it. -/
def fetchRom (rom : Array UInt8) (m : Machine μ) : Fetch :=
  let pc := m.pc.toNat
  match rom[pc]? with
  | none => .stop .finished
  | some opcode =>
    if opcode = haltByte then .stop .halted
    else .command (.encoded opcode (rom.extract (pc + 1) (pc + (Slot.ofOpcode opcode).size)).toList)

/-- What comes next in an assembled program. -/
def fetchProgram (p : Program) (m : Machine μ) : Fetch :=
  match p.point m.pc with
  | .outside => .stop .finished
  | .inside => .fault (.misaligned m.pc)
  | .start i => .command (.decoded i)

/-- What comes next in memory. The byte behind the last address is the one at address 0. -/
def fetchMemory (m : Machine μ) : Fetch :=
  let opcode := Memory.read m.memory m.pc
  if opcode = haltByte then .stop .halted
  else
    .command (.encoded opcode
      [Memory.read m.memory (m.pc + 1), Memory.read m.memory (m.pc + 2)])

/-! ## Steps and runs -/

/-- Executes what came next. -/
def perform (m : Machine μ) : Command → Outcome μ Mnemonic
  | .encoded opcode bytes => m.executeBytes opcode bytes
  | .decoded i =>
    match m.execute i.mnemonic i.mode i.operand with
    | ⟨.ok (), m⟩ => ⟨.ok i.mnemonic, m⟩
    | ⟨.error f, m⟩ => ⟨.error f, m⟩

/-- Executes one instruction, if there is one. -/
def step (fetch : Machine μ → Fetch) (m : Machine μ) : Outcome μ Step :=
  match fetch m with
  | .stop ending => ⟨.ok (.stopped ending), m⟩
  | .fault f => ⟨.error f, m⟩
  | .command c =>
    match m.perform c with
    | ⟨.ok mnemonic, m⟩ => ⟨.ok (.executed mnemonic), m⟩
    | ⟨.error f, m⟩ => ⟨.error f, m⟩

/-- The fault of a run that wants a further instruction after this many, if it may have none. -/
def limitFault? (m : Machine μ) (instructions : Nat) : Option Fault :=
  match m.settings.stepLimit with
  | none => none
  | some limit => if limit ≤ instructions then some (.limitReached limit) else none

/-- Executes instructions until the program ends, a fault comes up or the limit is reached, after
`instructions` of them. -/
def runFrom (fetch : Machine μ → Fetch) (fuel : Nat) (instructions : Nat) (m : Machine μ) :
    Option (Outcome μ Summary) :=
  match fuel with
  | 0 => none
  | fuel + 1 =>
    match fetch m with
    | .stop ending => some ⟨.ok ⟨instructions, ending⟩, m⟩
    | .fault f => some ⟨.error f, m⟩
    | .command c =>
      match m.limitFault? instructions with
      | some f => some ⟨.error f, m⟩
      | none =>
        match m.perform c with
        | ⟨.ok _, m⟩ => runFrom fetch fuel (instructions + 1) m
        | ⟨.error f, m⟩ => some ⟨.error f, m⟩

/-- Runs a program from address 0. -/
def run (fetch : Machine μ → Fetch) (fuel : Nat) (m : Machine μ) : Option (Outcome μ Summary) :=
  runFrom fetch fuel 0 { m with pc := 0 }

end Machine

end Micro65
