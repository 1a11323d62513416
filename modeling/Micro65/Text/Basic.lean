/-!
# Source text

Text is a list of characters, so that a scanner is an ordinary recursion and a theorem about it an
ordinary induction. Places in a line are counted in bytes of UTF-8, which is what `byteLength`
measures; names that differ in the case of ASCII letters only are compared by `SameLetters`.
-/

namespace Micro65

/-- Source text, character by character. -/
abbrev Text := List Char

namespace Text

/-- The number of bytes the text takes in UTF-8. -/
def byteLength : Text → Nat
  | [] => 0
  | c :: t => c.utf8Size + byteLength t

/-- The text with its ASCII letters in upper case. -/
def upper (t : Text) : Text :=
  t.map Char.toUpper

/-- Two texts have the same letters when they differ at most in the case of ASCII letters. -/
def SameLetters (s t : Text) : Prop :=
  upper s = upper t

instance (s t : Text) : Decidable (SameLetters s t) :=
  inferInstanceAs (Decidable (upper s = upper t))

@[simp] theorem byteLength_nil : byteLength [] = 0 := rfl

@[simp] theorem byteLength_cons (c : Char) (t : Text) :
    byteLength (c :: t) = c.utf8Size + byteLength t := rfl

@[simp] theorem byteLength_append (s t : Text) :
    byteLength (s ++ t) = byteLength s + byteLength t := by
  induction s with
  | nil => simp
  | cons c s ih => simp [ih, Nat.add_assoc]

end Text

end Micro65
