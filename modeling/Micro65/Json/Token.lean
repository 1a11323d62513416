import Micro65.Json.Basic
/-!
# JSON tokens

A document is read character by character into tokens. The scanner holds the token that is not
finished yet; between tokens there may be blanks, which in a document are the space, the tab, the
line feed and the carriage return.
-/

namespace Micro65

namespace Json

/-- A token of a document. -/
inductive Token where
  | openObject
  | closeObject
  | openArray
  | closeArray
  | colon
  | comma
  /-- A string, as it is written between its quotes. -/
  | string (written : Text)
  /-- A number or a constant. -/
  | scalar (value : Json)

/-- The token that is being read. Its text is held in reverse. -/
inductive Unfinished where
  /-- There is none. -/
  | nothing
  /-- A number or the name of a constant. -/
  | word (read : Text)
  /-- A string. -/
  | string (read : Text)
  /-- A string, behind a backslash. -/
  | escape (read : Text)
  /-- A string, within an escape that lacks so many digits and one more. -/
  | digits (read : Text) (missing : Nat)

/-- What has been read of a document. -/
structure Scanner where
  /-- The tokens finished so far, the last first. -/
  tokens : List Token := []
  unfinished : Unfinished := .nothing

namespace Scanner

/-- Whether numbers and the names of constants are made of this character. -/
def isWordChar (c : Char) : Bool :=
  c.isAlphanum || c = '+' || c = '-' || c = '.'

/-- The number or the constant that a word is. -/
def scalar? (word : Text) : Option Json :=
  if word = "null".toList then some .null
  else if word = "true".toList then some (.bool true)
  else if word = "false".toList then some (.bool false)
  else if isNumber word then some (.number word)
  else none

/-- The token that a character is by itself. -/
def mark? : Char → Option Token
  | '{' => some .openObject
  | '}' => some .closeObject
  | '[' => some .openArray
  | ']' => some .closeArray
  | ':' => some .colon
  | ',' => some .comma
  | _ => none

/-- Reads a character at which no token is unfinished. -/
def start (tokens : List Token) (c : Char) : Option Scanner :=
  if c = ' ' || c = '\t' || c = '\n' || c = '\r' then some ⟨tokens, .nothing⟩
  else if c = '"' then some ⟨tokens, .string []⟩
  else if isWordChar c then some ⟨tokens, .word [c]⟩
  else match mark? c with
    | some token => some ⟨token :: tokens, .nothing⟩
    | none => none

/-- Reads a character. -/
def feed : Scanner → Char → Option Scanner
  | ⟨tokens, .nothing⟩, c => start tokens c
  | ⟨tokens, .word read⟩, c =>
    if isWordChar c then some ⟨tokens, .word (c :: read)⟩
    else match scalar? read.reverse with
      | some value => start (.scalar value :: tokens) c
      | none => none
  | ⟨tokens, .string read⟩, c =>
    if c = '"' then some ⟨.string read.reverse :: tokens, .nothing⟩
    else if c = '\\' then some ⟨tokens, .escape (c :: read)⟩
    else if c.toNat < 0x20 then none
    else some ⟨tokens, .string (c :: read)⟩
  | ⟨tokens, .escape read⟩, c =>
    if c = 'u' then some ⟨tokens, .digits (c :: read) 3⟩
    else if (escaped? c).isSome then some ⟨tokens, .string (c :: read)⟩
    else none
  | ⟨tokens, .digits read missing⟩, c =>
    if (hexValue? c).isSome then
      match missing with
      | 0 => some ⟨tokens, .string (c :: read)⟩
      | missing + 1 => some ⟨tokens, .digits (c :: read) missing⟩
    else none

/-- The tokens of a document that ends here. -/
def finish : Scanner → Option (List Token)
  | ⟨tokens, .nothing⟩ => some tokens.reverse
  | ⟨tokens, .word read⟩ => (scalar? read.reverse).map fun value =>
    (Token.scalar value :: tokens).reverse
  | _ => none

end Scanner

/-- The tokens of a document. -/
def tokens? (document : Text) : Option (List Token) := do
  (← document.foldlM Scanner.feed {}).finish

end Json

end Micro65
