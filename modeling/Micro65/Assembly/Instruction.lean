import Micro65.Settings.Basic
import Micro65.Encoding
import Micro65.Operand.Identifier
import Micro65.Operand.ModeChoice
import Micro65.Statement.Basic
import Micro65.SymbolTable
import Micro65.Text.Hex
/-!
# Instructions of a program

A statement becomes an instruction in two readings that differ only in what its identifiers stand
for. `Statement.size?` puts a placeholder for each, which fixes the mode and so the length before
any label has a value. `Statement.instruction` puts the values of the labels, written as literals
of the same width, so the two readings agree on the mode.
-/

namespace Micro65

/-- An instruction with its address and the line it comes from. -/
structure Instruction where
  mnemonic : Mnemonic
  mode : Mode
  operand : Option UInt16
  address : UInt16
  /-- The number of the line. -/
  line : Nat
  deriving DecidableEq, Repr

namespace Instruction

/-- The number of bytes of the instruction. -/
def size (i : Instruction) : Nat :=
  1 + i.mode.operandSize

/-- The address behind the instruction. -/
def stop (i : Instruction) : Nat :=
  i.address.toNat + i.size

/-- The bytes of the instruction. -/
def bytes (i : Instruction) : List UInt8 :=
  (i.mnemonic.encode? i.mode i.operand).getD []

end Instruction

namespace LabelRule

/-- Whether an instruction takes a label as a distance. Line numbers are no addresses, so under that
rule a branch has no distance to a label. -/
def isRelative (rule : LabelRule) (mnemonic : Mnemonic) : Bool :=
  mnemonic.isBranch && rule = .byteOffset

/-- The literal that stands for a label whose value is not known yet. -/
def placeholder (rule : LabelRule) (mnemonic : Mnemonic) : Text :=
  if rule.isRelative mnemonic then '$' :: Text.hexByte 0 else '$' :: Text.hexWord 0

/-- The literal that stands for a label in an instruction at this address: its value, or for a
branch its distance from the next instruction. -/
def reference (rule : LabelRule) (symbols : SymbolTable) (address : UInt16) (mnemonic : Mnemonic)
    (name : Text) : Except Diagnostic.Cause Text :=
  match symbols.find? name with
  | none => .error (.undefinedLabel name)
  | some symbol =>
    if rule.isRelative mnemonic then
      let distance : Int := symbol.address.toNat - (address.toNat + 2)
      if -128 ≤ distance ∧ distance ≤ 127 then
        .ok ('$' :: Text.hexByte (UInt8.ofInt distance))
      else .error (.branchTooFar name distance)
    else .ok ('$' :: Text.hexWord symbol.address)

end LabelRule

/-- An instruction without a place in a program. -/
structure Form where
  mnemonic : Mnemonic
  mode : Mode
  operand : Option UInt16
  deriving DecidableEq, Repr

namespace Statement

/-- Whether the token looks like a number after its signs `#`. -/
def looksNumeric : Text → Bool
  | [] => false
  | c :: _ => Piece.startsNumeral c

/-- The fault of tokens that have the form of no mode: a number among them that cannot be read, or
else the operand as a whole. -/
def mismatch (s : Statement) (mnemonic : Mnemonic) (tokens : List Text) : Diagnostic.Cause :=
  let faults := tokens.filterMap fun token =>
    let literal := token.dropWhile (· = '#')
    match Literal.value literal with
    | .error e => if looksNumeric literal then some e else none
    | .ok _ => none
  match faults with
  | e :: _ => .badNumber e
  | [] => .noMode mnemonic (s.operand.getD [])

/-- Reads the instruction of a statement, with `labelText` for what an identifier stands for. The
names of registers stand for themselves. -/
def form (labelText : Mnemonic → Text → Except Diagnostic.Cause Text) (s : Statement) :
    Except Diagnostic.Cause Form := do
  let word := s.mnemonic.getD []
  let some mnemonic := Mnemonic.ofText? word | throw (.unknownMnemonic word)
  let field ← (Field.ofText (s.operand.getD [])).mapError .badField
  let replace (name : Text) : Except Diagnostic.Cause (Option Text) :=
    if Label.isRegister name then pure none else some <$> labelText mnemonic name
  let tokens ← field.tokens.mapM (substitute replace)
  let some choice := ModeChoice.ofTokens? field.indirect mnemonic tokens
    | throw (s.mismatch mnemonic tokens)
  if mnemonic.hasMode choice.mode then return ⟨mnemonic, choice.mode, choice.operand⟩
  else throw (.lacksMode mnemonic choice.mode)

/-- The length of the instruction, if it can be told without the values of labels. -/
def size? (rule : LabelRule) (s : Statement) : Option Nat :=
  match s.form fun mnemonic _ => .ok (rule.placeholder mnemonic) with
  | .ok f => some (1 + f.mode.operandSize)
  | .error _ => none

/-- The instruction of the statement at an address, with the values of the labels. -/
def instruction (rule : LabelRule) (symbols : SymbolTable) (address : UInt16) (s : Statement) :
    Except Diagnostic.Cause Instruction :=
  (s.form (rule.reference symbols address)).map fun f =>
    ⟨f.mnemonic, f.mode, f.operand, address, s.line⟩

end Statement

end Micro65
