import Micro65.Assembly.Instruction
import Micro65.Proofs.Operand.Names
import Micro65.Proofs.Operand.Pattern
import Micro65.Proofs.Text.LetterCase
/-!
# Operands in capitals

Each step in which an operand is understood does to the operand in capitals what it does to the
operand itself, in capitals: it is cut into the same pieces (`Piece.pieces_upper`) and into the same
tokens (`Field.ofText_upper`), its numerals have the same values and sizes (`Literal.sized?_upper`),
and the same mode accepts it (`ModeChoice.ofTokens?_upper`). Names are the exception. They are found
in the same places (`Text.names_upper`), but a name in capitals is another name.
-/

namespace Micro65

open Text (upper upper_cons upper_append)

/-! ## Pieces -/

theorem Label.isRegister_upper (name : Text) : isRegister (upper name) = isRegister name := by
  unfold isRegister
  rw [Text.upper_upper]

namespace Piece

/-- The piece in capitals. -/
def upper : Piece → Piece
  | numeral t => numeral (Text.upper t)
  | identifier name => identifier (Text.upper name)
  | other c => other c.toUpper

theorem scan_upper (c : Char) (rest : Text) :
    scan c.toUpper (Text.upper rest) = ((scan c rest).1.upper, Text.upper (scan c rest).2) := by
  unfold scan
  rw [caseless_startsNumeral, caseless_startsIdentifier,
    Text.takeWhile_upper caseless_isAlphanum, Text.dropWhile_upper caseless_isAlphanum,
    Text.takeWhile_upper caseless_isNameChar, Text.dropWhile_upper caseless_isNameChar]
  split
  · rfl
  · split <;> rfl

/-- **A token in capitals has the same pieces, in capitals.** -/
theorem pieces_upper (t : Text) : pieces (Text.upper t) = (pieces t).map upper := by
  induction t using scan_induction with
  | nil => rw [Text.upper_nil, pieces_nil, List.map_nil]
  | cons c rest ih => rw [upper_cons, pieces_cons, scan_upper, ih, pieces_cons, List.map_cons]

theorem name?_upper (p : Piece) : p.upper.name? = p.name?.map Text.upper := by
  cases p with
  | numeral t => rfl
  | other c => rfl
  | identifier name =>
    simp only [upper, name?, Label.isRegister_upper]
    split <;> rfl

end Piece

theorem Text.names_upper (t : Text) : names (Text.upper t) = (names t).map Text.upper := by
  unfold names
  rw [Piece.pieces_upper, List.filterMap_map, List.map_filterMap]
  exact List.filterMap_congr fun p _ => Piece.name?_upper p

/-! ## Numbers -/

namespace Literal

/-- The literal in capitals. -/
def upper (l : Literal) : Literal :=
  ⟨l.radix, Text.upper l.digits⟩

theorem ofText_upper (t : Text) : ofText (Text.upper t) = (ofText t).upper := by
  cases t with
  | nil => rfl
  | cons c t =>
    by_cases hhex : c = '$'
    · subst hhex
      rfl
    · by_cases hbin : c = '%'
      · subst hbin
        rfl
      · have hhex' : c.toUpper ≠ '$' := by rwa [Ne, toUpper_eq_iff (by decide)]
        have hbin' : c.toUpper ≠ '%' := by rwa [Ne, toUpper_eq_iff (by decide)]
        simp [ofText, upper, hhex, hbin, hhex', hbin']

variable (l : Literal)

theorem badDigit?_upper : l.upper.badDigit? = l.badDigit?.map Char.toUpper := by
  have hcaseless : (fun c => (l.radix.digit? c).isNone) ∘ Char.toUpper =
      fun c => (l.radix.digit? c).isNone :=
    funext fun c => congrArg Option.isNone (caseless_digit? l.radix c)
  unfold badDigit? upper Text.upper
  rw [List.find?_map, hcaseless]

theorem positional_upper : l.upper.positional = l.positional := by
  unfold positional upper Text.upper
  rw [List.foldl_map]
  simp only [caseless_digit? l.radix _]

/-- **The number does not depend on the case of its digits.** -/
theorem toOption_value_upper (t : Text) : (value (Text.upper t)).toOption = (value t).toOption := by
  unfold value
  simp only [ofText_upper, badDigit?_upper, positional_upper]
  by_cases hempty : (ofText t).digits = []
  · simp [upper, hempty, Except.toOption]
  · simp only [upper, Text.upper_eq_nil_iff, hempty, if_false]
    cases (ofText t).badDigit? with
    | some c => rfl
    | none =>
      simp only [Option.map_none]
      split <;> rfl

theorem sized?_upper (t : Text) : sized? (Text.upper t) = sized? t := by
  unfold sized?
  simp only [ofText_upper, toOption_value_upper]
  simp only [upper, Text.byteLength_upper]

end Literal

/-! ## Modes -/

namespace ModeChoice

theorem literal?_upper (w : Width) (t : Text) : literal? w (Text.upper t) = literal? w t := by
  unfold literal?
  rw [Literal.sized?_upper]

theorem sameLetters_upper_iff {s t : Text} :
    Text.SameLetters (Text.upper s) t ↔ Text.SameLetters s t := by
  unfold Text.SameLetters
  rw [Text.upper_upper]

theorem immediate?_upper (t : Text) : immediate? (Text.upper t) = immediate? t := by
  cases t with
  | nil => rfl
  | cons c t =>
    by_cases hc : c = '#'
    · subst hc
      exact literal?_upper .byte t
    · have hc' : c.toUpper ≠ '#' := by rwa [Ne, toUpper_eq_iff (by decide)]
      simp [immediate?, hc, hc']

/-- A token in capitals shows patterns what the token shows them. -/
theorem alikeUnder_upper (t : Text) : AlikeUnder id (Text.upper t) t where
  literal w := by rw [literal?_upper]
  immediate := by rw [immediate?_upper]
  register _ _ := sameLetters_upper_iff

/-- **Tokens in capitals have the mode of the tokens**, and the same operand. -/
theorem ofTokens?_upper (indirect : Bool) (m : Mnemonic) (tokens : List Text) :
    ofTokens? indirect m (tokens.map Text.upper) = ofTokens? indirect m tokens :=
  ofTokens?_congr indirect m
    (List.forall₂_map_left_iff.mpr (List.forall₂_same.mpr fun t _ => alikeUnder_upper t))

end ModeChoice

/-! ## Fields -/

namespace Field

/-- The field with its tokens in capitals. -/
def upper (f : Field) : Field :=
  ⟨f.indirect, f.tokens.map Text.upper⟩

end Field

/-- The fault of the field in capitals. -/
def FieldError.upper (e : FieldError) : FieldError :=
  ⟨e.misplacement, Text.upper e.field⟩

namespace Field

theorem cut_upper (t : Text) : cut (Text.upper t) = (cut t).map Text.upper := by
  unfold cut
  simp only [Text.mem_upper_iff (c := ',') (by decide)]
  split
  · rw [Text.splitOn_upper (by decide), List.map_map, List.map_map]
    exact List.map_congr_left fun u _ => Text.trim_upper u
  · exact Text.words_upper t

theorem misplacedIndex?_upper (closed : Bool) (tokens : List Text) :
    misplacedIndex? closed (tokens.map Text.upper) = misplacedIndex? closed tokens := by
  match tokens with
  | [] => rfl
  | [_] => rfl
  | [_, index] => simp only [List.map_cons, List.map_nil, misplacedIndex?,
      ModeChoice.sameLetters_upper_iff]
  | _ :: _ :: _ :: _ => rfl

theorem parenthesised_upper (field inner : Text) (rest : List Text) :
    parenthesised (Text.upper field) (Text.upper inner) (rest.map Text.upper) =
      ((parenthesised field inner rest).mapError FieldError.upper).map upper := by
  have hclose : Caseless fun c => decide (c ≠ ')') := Text.caseless_ne (by decide)
  have htokens : (rest.map Text.upper).map (fun t => Text.trim (t.filter (· ≠ ')'))) =
      (rest.map fun t => Text.trim (t.filter (· ≠ ')'))).map Text.upper := by
    rw [List.map_map, List.map_map]
    refine List.map_congr_left fun t _ => ?_
    simp only [Function.comp_apply, Text.filter_upper hclose, Text.trim_upper]
  unfold parenthesised
  simp only [Text.mem_upper_iff (c := ')') (by decide), Text.takeWhile_upper hclose,
    Text.dropWhile_upper hclose, Text.length_upper, Text.trim_upper, htokens]
  split
  · rfl
  · split
    · rfl
    · have hempty : (Text.upper (inner.dropWhile (· ≠ ')'))).isEmpty =
          (inner.dropWhile (· ≠ ')')).isEmpty := List.isEmpty_map
      rw [← List.map_cons, misplacedIndex?_upper, hempty]
      split <;> rfl

/-- **A field in capitals has the tokens of the field, in capitals**, or the same fault. -/
theorem ofText_upper (t : Text) :
    ofText (Text.upper t) = ((ofText t).mapError FieldError.upper).map upper := by
  unfold ofText
  simp only [Text.trim_upper, cut_upper]
  cases cut (Text.trim t) with
  | nil => rfl
  | cons first rest =>
    simp only [List.map_cons, Text.mem_upper_iff (c := '(') (by decide),
      Text.mem_upper_iff (c := ')') (by decide)]
    split
    · cases first with
      | nil => rfl
      | cons c inner =>
        by_cases hc : c = '('
        · subst hc
          exact parenthesised_upper (Text.trim t) inner rest
        · have hc' : c.toUpper ≠ '(' := by rwa [Ne, toUpper_eq_iff (by decide)]
          simp [hc, hc', Except.mapError, Except.map, FieldError.upper]
    · split <;> rfl

end Field

end Micro65
