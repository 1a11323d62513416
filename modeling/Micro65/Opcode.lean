import Micro65.Mnemonic
import Micro65.Mode
/-!
# Opcodes

The meaning of each of the 256 opcode bytes. A slot of the table holds a documented instruction
that the machine carries out, a reserved byte, which does nothing but has a length, or an
instruction of the processor that this machine leaves out. Looking an opcode up (`Slot.ofOpcode`)
and looking up the opcode of an instruction (`Mnemonic.opcode?`) are inverse to each other on the
documented slots.
-/

namespace Micro65

/-- The meaning of an opcode byte. -/
inductive Slot where
  /-- An instruction that the machine carries out. -/
  | documented (mnemonic : Mnemonic) (mode : Mode)
  /-- A byte without a meaning, which passes as `NOP` of the length of its mode. -/
  | reserved (mode : Mode)
  /-- An instruction of the processor that the machine does not carry out. -/
  | omitted (name : String) (mode : Mode)
  /-- A branch on a bit, not carried out: an address in the first page and a distance follow it. -/
  | omittedBitBranch (name : String)
  deriving DecidableEq, Repr

namespace Slot

/-- The name of the instruction in the data sheet. -/
def name : Slot → String
  | .documented mnemonic _ => mnemonic.name
  | .reserved _ => Mnemonic.nop.name
  | .omitted name _ | .omittedBitBranch name => name

/-- The instruction that the machine carries out for this opcode, if it has one. -/
def instruction? : Slot → Option Mnemonic
  | .documented mnemonic _ => some mnemonic
  | .reserved _ => some .nop
  | .omitted _ _ | .omittedBitBranch _ => none

/-- How the operand is found. -/
def mode : Slot → Mode
  | .documented _ mode | .reserved mode | .omitted _ mode => mode
  | .omittedBitBranch _ => .relative

/-- The number of bytes that follow the opcode. -/
def operandSize : Slot → Nat
  | .documented _ mode | .reserved mode | .omitted _ mode => mode.operandSize
  | .omittedBitBranch _ => 2

/-- The length of the instruction in bytes, opcode included. -/
def size (slot : Slot) : Nat :=
  1 + slot.operandSize

/-- Whether the byte is reserved. -/
def isReserved : Slot → Bool
  | .reserved _ => true
  | _ => false

set_option maxRecDepth 4096 in
/-- The slots by opcode, sixteen to a row. -/
def table : Vector Slot 256 :=
  #v[
    -- 0x00
    .omitted "BRK" .stack, .documented .ora .indirectX, .reserved .immediate, .reserved .implied,
    .omitted "TSB" .zeroPage, .documented .ora .zeroPage, .documented .asl .zeroPage,
    .omitted "RMB0" .zeroPage, .documented .php .stack, .documented .ora .immediate,
    .documented .asl .accumulator, .reserved .implied, .omitted "TSB" .absolute,
    .documented .ora .absolute, .documented .asl .absolute, .omittedBitBranch "BBR0",
    -- 0x10
    .documented .bpl .relative, .documented .ora .indirectY, .documented .ora .zeroPageIndirect,
    .reserved .implied, .omitted "TRB" .zeroPage, .documented .ora .zeroPageX,
    .documented .asl .zeroPageX, .omitted "RMB1" .zeroPage, .documented .clc .implied,
    .documented .ora .absoluteY, .documented .inc .accumulator, .reserved .implied,
    .omitted "TRB" .absolute, .documented .ora .absoluteX, .documented .asl .absoluteX,
    .omittedBitBranch "BBR1",
    -- 0x20
    .omitted "JSR" .absolute, .documented .and .indirectX, .reserved .immediate, .reserved .implied,
    .omitted "BIT" .zeroPage, .documented .and .zeroPage, .documented .rol .zeroPage,
    .omitted "RMB2" .zeroPage, .documented .plp .stack, .documented .and .immediate,
    .documented .rol .accumulator, .reserved .implied, .omitted "BIT" .absolute,
    .documented .and .absolute, .documented .rol .absolute, .omittedBitBranch "BBR2",
    -- 0x30
    .documented .bmi .relative, .documented .and .indirectY, .documented .and .zeroPageIndirect,
    .reserved .implied, .omitted "BIT" .zeroPageX, .documented .and .zeroPageX,
    .documented .rol .zeroPageX, .omitted "RMB3" .zeroPage, .documented .sec .implied,
    .documented .and .absoluteY, .documented .dec .accumulator, .reserved .implied,
    .omitted "BIT" .absoluteX, .documented .and .absoluteX, .documented .rol .absoluteX,
    .omittedBitBranch "BBR3",
    -- 0x40
    .omitted "RTI" .stack, .documented .eor .indirectX, .reserved .immediate, .reserved .implied,
    .reserved .zeroPage, .documented .eor .zeroPage, .documented .lsr .zeroPage,
    .omitted "RMB4" .zeroPage, .documented .pha .stack, .documented .eor .immediate,
    .documented .lsr .accumulator, .reserved .implied, .omitted "JMP" .absolute,
    .documented .eor .absolute, .documented .lsr .absolute, .omittedBitBranch "BBR4",
    -- 0x50
    .documented .bvc .relative, .documented .eor .indirectY, .documented .eor .zeroPageIndirect,
    .reserved .implied, .reserved .zeroPageX, .documented .eor .zeroPageX,
    .documented .lsr .zeroPageX, .omitted "RMB5" .zeroPage, .documented .cli .implied,
    .documented .eor .absoluteY, .omitted "PHY" .stack, .reserved .implied, .reserved .absolute,
    .documented .eor .absoluteX, .documented .lsr .absoluteX, .omittedBitBranch "BBR5",
    -- 0x60
    .omitted "RTS" .stack, .documented .adc .indirectX, .reserved .immediate, .reserved .implied,
    .omitted "STZ" .zeroPage, .documented .adc .zeroPage, .documented .ror .zeroPage,
    .omitted "RMB6" .zeroPage, .documented .pla .stack, .documented .adc .immediate,
    .documented .ror .accumulator, .reserved .implied, .omitted "JMP" .indirect,
    .documented .adc .absolute, .documented .ror .absolute, .omittedBitBranch "BBR6",
    -- 0x70
    .documented .bvs .relative, .documented .adc .indirectY, .documented .adc .zeroPageIndirect,
    .reserved .implied, .omitted "STZ" .zeroPageX, .documented .adc .zeroPageX,
    .documented .ror .zeroPageX, .omitted "RMB7" .zeroPage, .documented .sei .implied,
    .documented .adc .absoluteY, .omitted "PLY" .stack, .reserved .implied,
    .omitted "JMP" .absoluteIndexedIndirect, .documented .adc .absoluteX,
    .documented .ror .absoluteX, .omittedBitBranch "BBR7",
    -- 0x80
    .omitted "BRA" .relative, .documented .sta .indirectX, .reserved .immediate, .reserved .implied,
    .documented .sty .zeroPage, .documented .sta .zeroPage, .documented .stx .zeroPage,
    .omitted "SMB0" .zeroPage, .documented .dey .implied, .omitted "BIT" .immediate,
    .documented .txa .implied, .reserved .implied, .documented .sty .absolute,
    .documented .sta .absolute, .documented .stx .absolute, .omittedBitBranch "BBS0",
    -- 0x90
    .documented .bcc .relative, .documented .sta .indirectY, .documented .sta .zeroPageIndirect,
    .reserved .implied, .documented .sty .zeroPageX, .documented .sta .zeroPageX,
    .documented .stx .zeroPageY, .omitted "SMB1" .zeroPage, .documented .tya .implied,
    .documented .sta .absoluteY, .documented .txs .implied, .reserved .implied,
    .omitted "STZ" .absolute, .documented .sta .absoluteX, .omitted "STZ" .absoluteX,
    .omittedBitBranch "BBS1",
    -- 0xA0
    .documented .ldy .immediate, .documented .lda .indirectX, .documented .ldx .immediate,
    .reserved .implied, .documented .ldy .zeroPage, .documented .lda .zeroPage,
    .documented .ldx .zeroPage, .omitted "SMB2" .zeroPage, .documented .tay .implied,
    .documented .lda .immediate, .documented .tax .implied, .reserved .implied,
    .documented .ldy .absolute, .documented .lda .absolute, .documented .ldx .absolute,
    .omittedBitBranch "BBS2",
    -- 0xB0
    .documented .bcs .relative, .documented .lda .indirectY, .documented .lda .zeroPageIndirect,
    .reserved .implied, .documented .ldy .zeroPageX, .documented .lda .zeroPageX,
    .documented .ldx .zeroPageY, .omitted "SMB3" .zeroPage, .documented .clv .implied,
    .documented .lda .absoluteY, .documented .tsx .implied, .reserved .implied,
    .documented .ldy .absoluteX, .documented .lda .absoluteX, .documented .ldx .absoluteY,
    .omittedBitBranch "BBS3",
    -- 0xC0
    .documented .cpy .immediate, .documented .cmp .indirectX, .reserved .immediate,
    .reserved .implied, .documented .cpy .zeroPage, .documented .cmp .zeroPage,
    .documented .dec .zeroPage, .omitted "SMB4" .zeroPage, .documented .iny .implied,
    .documented .cmp .immediate, .documented .dex .implied, .reserved .implied,
    .documented .cpy .absolute, .documented .cmp .absolute, .documented .dec .absolute,
    .omittedBitBranch "BBS4",
    -- 0xD0
    .documented .bne .relative, .documented .cmp .indirectY, .documented .cmp .zeroPageIndirect,
    .reserved .implied, .reserved .zeroPageX, .documented .cmp .zeroPageX,
    .documented .dec .zeroPageX, .omitted "SMB5" .zeroPage, .documented .cld .implied,
    .documented .cmp .absoluteY, .omitted "PHX" .stack, .reserved .implied, .reserved .absolute,
    .documented .cmp .absoluteX, .documented .dec .absoluteX, .omittedBitBranch "BBS5",
    -- 0xE0
    .documented .cpx .immediate, .documented .sbc .indirectX, .reserved .immediate,
    .reserved .implied, .documented .cpx .zeroPage, .documented .sbc .zeroPage,
    .documented .inc .zeroPage, .omitted "SMB6" .zeroPage, .documented .inx .implied,
    .documented .sbc .immediate, .documented .nop .implied, .reserved .implied,
    .documented .cpx .absolute, .documented .sbc .absolute, .documented .inc .absolute,
    .omittedBitBranch "BBS6",
    -- 0xF0
    .documented .beq .relative, .documented .sbc .indirectY, .documented .sbc .zeroPageIndirect,
    .reserved .implied, .reserved .zeroPageX, .documented .sbc .zeroPageX,
    .documented .inc .zeroPageX, .omitted "SMB7" .zeroPage, .documented .sed .implied,
    .documented .sbc .absoluteY, .omitted "PLX" .stack, .reserved .implied, .reserved .absolute,
    .documented .sbc .absoluteX, .documented .inc .absoluteX, .omittedBitBranch "BBS7"]

/-- The meaning of an opcode byte. -/
def ofOpcode (opcode : UInt8) : Slot :=
  have : opcode.toNat < 256 := opcode.toNat_lt
  table[opcode.toNat]

end Slot

namespace Mnemonic

/-- The opcode of the instruction in a mode, if it has that mode. Reserved bytes are no opcode of
`NOP`. -/
def opcode? (m : Mnemonic) (mode : Mode) : Option UInt8 :=
  (Slot.table.toArray.idxOf? (.documented m mode)).map UInt8.ofNat

/-- Whether the instruction has a mode. -/
def hasMode (m : Mnemonic) (mode : Mode) : Bool :=
  (m.opcode? mode).isSome

end Mnemonic

end Micro65
