import Micro65.Statement.Basic
import Micro65.Text.Blank
import Micro65.Text.Line
/-!
# Lines that hold something

A line is cut three times: at the first semicolon, where the comment starts, at the first colon of
what is left, which ends the label, and at the first blank behind that, which ends the mnemonic.
What a line holds does not depend on any other line; `Line.ofSource` reads the lines of a source
one by one and leaves out those that hold nothing.
-/

namespace Micro65

/-- A line that holds something: a statement, or the fault in its label. -/
abbrev Line := Except Diagnostic Statement

namespace Line

/-- The statement whose code spans `whole`, with `rest` as the code behind its label, which starts
at byte `start` of the line. -/
def statement (number : Nat) (label comment : Option Text) (whole : Span) (start : Nat)
    (rest : Text) : Statement :=
  if rest = [] then ⟨number, label, none, none, comment, whole⟩
  else
    let operand := Text.trim (rest.dropWhile fun c => !Text.isBlank c)
    { line := number
      label
      mnemonic := some (rest.takeWhile fun c => !Text.isBlank c)
      operand := if operand = [] then none else some operand
      comment
      span := ⟨start, start + Text.byteLength rest⟩ }

/-- Reads the code of a line, which starts at byte `start` and has no blanks around it. -/
def ofCode (number : Nat) (comment : Option Text) (start : Nat) (code : Text) : Line :=
  let whole : Span := ⟨start, start + Text.byteLength code⟩
  match code.dropWhile (· ≠ ':') with
  | [] => .ok (statement number none comment whole start code)
  | _ :: behind =>
    let before := code.takeWhile (· ≠ ':')
    let colon := start + Text.byteLength before
    let name := Text.trim before
    match Label.check name with
    | .error e => .error ⟨number, ⟨start, colon⟩, .badLabel e⟩
    | .ok () =>
      let gap := Text.byteLength (behind.takeWhile Text.isBlank)
      .ok (statement number (some name) comment whole (colon + 1 + gap) (Text.trimStart behind))

/-- The code of a line: what comes before the first semicolon. -/
def codeOf (raw : Text) : Text :=
  raw.takeWhile (· ≠ ';')

/-- The comment of a line: what comes behind the first semicolon, without the blanks around it. -/
def commentOf (raw : Text) : Option Text :=
  match raw.dropWhile (· ≠ ';') with
  | [] => none
  | _ :: comment => some (Text.trim comment)

/-- Reads a line, or gives `none` if it holds blanks and a comment only. -/
def ofText? (number : Nat) (raw : Text) : Option Line :=
  let code := codeOf raw
  if Text.trim code = [] then none
  else
    let start := Text.byteLength (code.takeWhile Text.isBlank)
    some (ofCode number (commentOf raw) start (Text.trim code))

/-- The lines of a source that hold something, in order, numbered from one among all lines. -/
def ofSource (source : Text) : List Line :=
  ((Text.lines source).zipIdx 1).filterMap fun (raw, number) => ofText? number raw

end Line

end Micro65
