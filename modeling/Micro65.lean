import Micro65.Settings.Reader
import Micro65.Machine.SourceRun
import Micro65.Proofs.Assembly.Accounts
import Micro65.Proofs.Assembly.Appended
import Micro65.Proofs.Assembly.Beside
import Micro65.Proofs.Assembly.Cleaned
import Micro65.Proofs.Assembly.Crowding
import Micro65.Proofs.Assembly.Disassembly
import Micro65.Proofs.Assembly.Exact
import Micro65.Proofs.Assembly.FirstFaults
import Micro65.Proofs.Assembly.Fits
import Micro65.Proofs.Assembly.Image
import Micro65.Proofs.Assembly.Instruction
import Micro65.Proofs.Assembly.Labels
import Micro65.Proofs.Assembly.Layout
import Micro65.Proofs.Assembly.Listing
import Micro65.Proofs.Assembly.Reading
import Micro65.Proofs.Assembly.Recovery
import Micro65.Proofs.Assembly.Rejected
import Micro65.Proofs.Assembly.Restored
import Micro65.Proofs.Assembly.Rounds
import Micro65.Proofs.Assembly.Sizing
import Micro65.Proofs.Assembly.SourceMap
import Micro65.Proofs.Assembly.Unplaced
import Micro65.Proofs.Bytes
import Micro65.Proofs.Encoding
import Micro65.Proofs.Literal
import Micro65.Proofs.Machine.Bounds
import Micro65.Proofs.Machine.Changes
import Micro65.Proofs.Machine.Counter
import Micro65.Proofs.Machine.Course
import Micro65.Proofs.Machine.Faults
import Micro65.Proofs.Machine.Footprint
import Micro65.Proofs.Machine.Forward
import Micro65.Proofs.Machine.InertFlags
import Micro65.Proofs.Machine.Limit
import Micro65.Proofs.Machine.OverflowRule
import Micro65.Proofs.Machine.Program
import Micro65.Proofs.Machine.Resident
import Micro65.Proofs.Machine.Simulation
import Micro65.Proofs.Machine.Stack
import Micro65.Proofs.Machine.Turn
import Micro65.Proofs.Machine.WideArithmetic
import Micro65.Proofs.Machine.WideShifts
import Micro65.Proofs.Opcode
import Micro65.Proofs.Operand.Alike
import Micro65.Proofs.Operand.Names
import Micro65.Proofs.Operand.Notation
import Micro65.Proofs.Operand.Numeral
import Micro65.Proofs.Operand.Pattern
import Micro65.Proofs.Operand.Substitution
import Micro65.Proofs.SourceMap
import Micro65.Proofs.Statement.Joined
import Micro65.Proofs.Statement.Line
import Micro65.Proofs.Statement.Span
import Micro65.Proofs.SymbolTable
import Micro65.Proofs.Text.Blank
import Micro65.Proofs.Text.Lines
import Micro65.Proofs.Text.Utf8
import Micro65.Proofs.Operand.Pieces
import Micro65.Proofs.Operand.Grammar
import Micro65.Proofs.Assembly.References
import Micro65.Proofs.Operand.Parentheses
import Micro65.Proofs.Statement.LineByLine
import Micro65.Proofs.Assembly.LetterCase
