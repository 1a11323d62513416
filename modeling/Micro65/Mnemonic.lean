import Micro65.Text.Basic
/-!
# Mnemonics

The fifty instructions that the machine carries out, by their three-letter names. A name is read in
either case (`Mnemonic.ofText?`), and every mnemonic is read back from its name
(`Mnemonic.ofText?_letters`).
-/

namespace Micro65

/-- An instruction of the processor. -/
inductive Mnemonic where
  | adc | and | asl | bcc | bcs | beq | bmi | bne | bpl | bvc | bvs | clc | cld | cli | clv | cmp
  | cpx | cpy | dec | dex | dey | eor | inc | inx | iny | lda | ldx | ldy | lsr | nop | ora | pha
  | php | pla | plp | rol | ror | sbc | sec | sed | sei | sta | stx | sty | tax | tay | tsx | txa
  | txs | tya
  deriving DecidableEq, Repr

namespace Mnemonic

/-- All mnemonics in alphabetical order. -/
def all : List Mnemonic :=
  [.adc, .and, .asl, .bcc, .bcs, .beq, .bmi, .bne, .bpl, .bvc, .bvs, .clc, .cld, .cli, .clv, .cmp,
    .cpx, .cpy, .dec, .dex, .dey, .eor, .inc, .inx, .iny, .lda, .ldx, .ldy, .lsr, .nop, .ora, .pha,
    .php, .pla, .plp, .rol, .ror, .sbc, .sec, .sed, .sei, .sta, .stx, .sty, .tax, .tay, .tsx, .txa,
    .txs, .tya]

/-- The name of the instruction. -/
def name : Mnemonic → String
  | .adc => "ADC"
  | .and => "AND"
  | .asl => "ASL"
  | .bcc => "BCC"
  | .bcs => "BCS"
  | .beq => "BEQ"
  | .bmi => "BMI"
  | .bne => "BNE"
  | .bpl => "BPL"
  | .bvc => "BVC"
  | .bvs => "BVS"
  | .clc => "CLC"
  | .cld => "CLD"
  | .cli => "CLI"
  | .clv => "CLV"
  | .cmp => "CMP"
  | .cpx => "CPX"
  | .cpy => "CPY"
  | .dec => "DEC"
  | .dex => "DEX"
  | .dey => "DEY"
  | .eor => "EOR"
  | .inc => "INC"
  | .inx => "INX"
  | .iny => "INY"
  | .lda => "LDA"
  | .ldx => "LDX"
  | .ldy => "LDY"
  | .lsr => "LSR"
  | .nop => "NOP"
  | .ora => "ORA"
  | .pha => "PHA"
  | .php => "PHP"
  | .pla => "PLA"
  | .plp => "PLP"
  | .rol => "ROL"
  | .ror => "ROR"
  | .sbc => "SBC"
  | .sec => "SEC"
  | .sed => "SED"
  | .sei => "SEI"
  | .sta => "STA"
  | .stx => "STX"
  | .sty => "STY"
  | .tax => "TAX"
  | .tay => "TAY"
  | .tsx => "TSX"
  | .txa => "TXA"
  | .txs => "TXS"
  | .tya => "TYA"

/-- The name of the instruction as text. -/
def letters (m : Mnemonic) : Text :=
  m.name.toList

/-- The mnemonic that a text names, in either case. -/
def ofText? (t : Text) : Option Mnemonic :=
  let wanted := Text.upper t
  all.find? fun m => m.letters = wanted

/-- Whether the instruction is a branch: a jump over a distance on a condition. -/
def isBranch : Mnemonic → Bool
  | .bcc | .bcs | .beq | .bmi | .bne | .bpl | .bvc | .bvs => true
  | _ => false

theorem mem_all (m : Mnemonic) : m ∈ all := by
  cases m <;> decide

theorem ofText?_letters (m : Mnemonic) : ofText? m.letters = some m := by
  cases m <;> decide

/-- Letter case does not matter in a mnemonic. -/
theorem ofText?_eq_of_sameLetters {s t : Text} (h : Text.SameLetters s t) :
    ofText? s = ofText? t := by
  simp only [ofText?, show Text.upper s = Text.upper t from h]

end Mnemonic

end Micro65
