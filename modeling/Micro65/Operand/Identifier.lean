import Micro65.Label
/-!
# Identifiers in an operand

A token is read from left to right as a sequence of pieces: numerals, which start with a digit or
the sign of a base and take all letters and digits that follow, identifiers, which start with a
letter or an underscore, and single characters. No character is lost (`flatMap_text_pieces`), so
replacing identifiers (`substitute`) leaves all else as it was; a numeral such as `$BEEF` holds no
identifier.
-/

namespace Micro65

/-- A piece of an operand token. -/
inductive Piece where
  /-- A digit or the sign of a base, with the letters and digits behind it. -/
  | numeral (text : Text)
  /-- A whole name. -/
  | identifier (name : Text)
  /-- Any other character. -/
  | other (c : Char)
  deriving DecidableEq, Repr

namespace Piece

/-- The text of the piece. -/
def text : Piece → Text
  | numeral t => t
  | identifier name => name
  | other c => [c]

/-- Whether a numeral starts with this character. -/
def startsNumeral (c : Char) : Bool :=
  c = '$' || c = '%' || c.isDigit

/-- Whether an identifier starts with this character. -/
def startsIdentifier (c : Char) : Bool :=
  c.isAlpha || c = '_'

/-- The piece that starts with `c`, and what follows it. -/
def scan (c : Char) (rest : Text) : Piece × Text :=
  if startsNumeral c then
    (.numeral (c :: rest.takeWhile Char.isAlphanum), rest.dropWhile Char.isAlphanum)
  else if startsIdentifier c then
    (.identifier (c :: rest.takeWhile Label.isNameChar), rest.dropWhile Label.isNameChar)
  else (.other c, rest)

theorem text_scan_append (c : Char) (rest : Text) :
    (scan c rest).1.text ++ (scan c rest).2 = c :: rest := by
  simp only [scan]
  split
  · simp [text, List.takeWhile_append_dropWhile]
  · split
    · simp [text, List.takeWhile_append_dropWhile]
    · rfl

theorem length_scan_le (c : Char) (rest : Text) : (scan c rest).2.length ≤ rest.length := by
  simp only [scan]
  split
  · exact (List.dropWhile_sublist _).length_le
  · split
    · exact (List.dropWhile_sublist _).length_le
    · exact Nat.le_refl _

/-- Recursion over the pieces of a token: what holds of the empty token, and of a token whenever it
holds behind its first piece, holds of every token. -/
theorem scan_induction {motive : Text → Prop} (nil : motive [])
    (cons : ∀ c rest, motive (scan c rest).2 → motive (c :: rest)) (token : Text) :
    motive token := by
  induction hn : token.length using Nat.strongRecOn generalizing token with
  | _ n ih =>
    cases token with
    | nil => exact nil
    | cons c rest =>
      have hlt : (scan c rest).2.length < n := by
        have := length_scan_le c rest
        simp only [List.length_cons] at hn
        omega
      exact cons c rest (ih _ hlt _ rfl)

/-- The pieces of a token in order. -/
def pieces (token : Text) : List Piece :=
  go [] token
where
  /-- Puts the pieces of the rest of the token behind those found so far, which are held in
  reverse. -/
  go (found : List Piece) : Text → List Piece
    | [] => found.reverse
    | c :: rest => go ((scan c rest).1 :: found) (scan c rest).2
  termination_by rest => rest.length
  decreasing_by exact Nat.lt_succ_of_le (length_scan_le c rest)

theorem pieces.go_eq (found : List Piece) (rest : Text) :
    pieces.go found rest = found.reverse ++ pieces rest := by
  induction rest using scan_induction generalizing found with
  | nil => simp [pieces, pieces.go]
  | cons c rest ih =>
    have hpieces : pieces (c :: rest) = (scan c rest).1 :: pieces (scan c rest).2 := by
      show pieces.go [] (c :: rest) = _
      rw [pieces.go, ih]
      rfl
    rw [pieces.go, ih, hpieces]
    simp

@[simp] theorem pieces_nil : pieces [] = [] := by
  simp [pieces, pieces.go]

/-- A token that is not empty is its first piece and the pieces of the rest. -/
theorem pieces_cons (c : Char) (rest : Text) :
    pieces (c :: rest) = (scan c rest).1 :: pieces (scan c rest).2 := by
  show pieces.go [] (c :: rest) = _
  rw [pieces.go, pieces.go_eq]
  rfl

/-- The pieces hold the whole token. -/
theorem flatMap_text_pieces (token : Text) : (pieces token).flatMap text = token := by
  induction token using scan_induction with
  | nil => simp
  | cons c rest ih => rw [pieces_cons, List.flatMap_cons, ih, text_scan_append]

/-- The text that stands for the piece when `replace` says what identifiers become; `none` keeps
one. -/
def substituted {m : Type → Type} [Monad m] (replace : Text → m (Option Text)) : Piece → m Text
  | .identifier name => do return (← replace name).getD name
  | piece => pure piece.text

end Piece

/-- Replaces the identifiers of a token, from left to right. The first failure ends it. -/
def substitute {m : Type → Type} [Monad m] (replace : Text → m (Option Text)) (token : Text) :
    m Text := do
  let texts ← (Piece.pieces token).mapM (Piece.substituted replace)
  return texts.flatten

end Micro65
