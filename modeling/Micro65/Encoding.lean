import Micro65.Opcode
import Micro65.Word
/-!
# Encoding of an instruction

An instruction is written as its opcode byte and then its operand, least significant byte first, in
as many bytes as its mode has.
-/

namespace Micro65

namespace Encoding

/-- The bytes of an operand in a mode. A mode of one byte keeps the less significant byte. -/
def operand (mode : Mode) (value : UInt16) : List UInt8 :=
  [Word.low value, Word.high value].take mode.operandSize

/-- Reads as many bytes as a mode has, least significant first, and ignores what follows them. The
outer `none` says that there are too few, the inner one that the mode has none. -/
def readOperand? : (count : Nat) → List UInt8 → Option (Option UInt16)
  | 0, _ => some none
  | 1, low :: _ => some (some (Word.ofBytes low 0))
  | 2, low :: high :: _ => some (some (Word.ofBytes low high))
  | _, _ => none

end Encoding

/-- The bytes of an instruction in a mode, if it has the mode. A missing operand is written as
zero. -/
def Mnemonic.encode? (m : Mnemonic) (mode : Mode) (operand : Option UInt16) :
    Option (List UInt8) :=
  (m.opcode? mode).map fun opcode => opcode :: Encoding.operand mode (operand.getD 0)

end Micro65
