import Micro65.Label
import Micro65.Literal
import Micro65.Operand.Identifier
import Micro65.Proofs.Text.Blank
/-!
# Letter case

`Text.upper` changes letters of ASCII and nothing else, so what a character does in a text seldom
depends on its case: it is as much a blank, a letter, a digit or a mark as its capital (`Caseless`).
Cutting a text at such characters and then taking capitals is the same as cutting the text in
capitals. Two texts that have the same letters (`Text.SameLetters`) are therefore cut alike, and
they take the same number of bytes (`Text.SameLetters.byteLength_eq`).
-/

namespace Micro65

/-- A function of characters that does not depend on the case of letters. -/
def Caseless {α : Type} (f : Char → α) : Prop :=
  ∀ c, f c.toUpper = f c

/-- A character is one of the twenty-six small letters, or its own capital. -/
theorem small_or_capital (c : Char) : (∃ n < 26, c = Char.ofNat (97 + n)) ∨ c.toUpper = c := by
  by_cases hsmall : 97 ≤ c.toNat ∧ c.toNat ≤ 122
  · have hsum : 97 + (c.toNat - 97) = c.toNat := by omega
    exact .inl ⟨c.toNat - 97, by omega, by rw [hsum, Char.ofNat_toNat]⟩
  · right
    unfold Char.toUpper
    exact dif_neg hsmall

/-- Only the small letters have to be looked at. -/
theorem caseless_of_letters {α : Type} {f : Char → α}
    (h : ∀ n < 26, f (Char.ofNat (97 + n)).toUpper = f (Char.ofNat (97 + n))) : Caseless f := by
  intro c
  obtain ⟨n, hn, rfl⟩ | hc := small_or_capital c
  · exact h n hn
  · rw [hc]

theorem Caseless.comp_toUpper {α : Type} {f : Char → α} (h : Caseless f) : f ∘ Char.toUpper = f :=
  funext h

theorem caseless_toUpper : Caseless Char.toUpper :=
  caseless_of_letters (by decide)

theorem caseless_isBlank : Caseless Text.isBlank :=
  caseless_of_letters (by decide)

theorem caseless_isAlpha : Caseless Char.isAlpha :=
  caseless_of_letters (by decide)

theorem caseless_isAlphanum : Caseless Char.isAlphanum :=
  caseless_of_letters (by decide)

theorem caseless_isNameChar : Caseless Label.isNameChar :=
  caseless_of_letters (by decide)

theorem caseless_startsNumeral : Caseless Piece.startsNumeral :=
  caseless_of_letters (by decide)

theorem caseless_startsIdentifier : Caseless Piece.startsIdentifier :=
  caseless_of_letters (by decide)

theorem caseless_digit? (r : Radix) : Caseless r.digit? := by
  cases r <;> exact caseless_of_letters (by decide)

theorem caseless_utf8Size : Caseless Char.utf8Size :=
  caseless_of_letters (by decide)

/-- What is not a letter is its own capital. -/
theorem toUpper_eq_self {c : Char} (h : c.isAlpha = false) : c.toUpper = c := by
  obtain ⟨n, hn, rfl⟩ | hc := small_or_capital c
  · have hletters : ∀ n < 26, (Char.ofNat (97 + n)).isAlpha = true := by decide
    rw [hletters n hn] at h
    cases h
  · exact hc

/-- A character that is not a letter is the capital of no other character. -/
theorem toUpper_eq_iff {c d : Char} (hd : d.isAlpha = false) : c.toUpper = d ↔ c = d := by
  constructor
  · intro h
    have hc : c.isAlpha = false := by rw [← caseless_isAlpha, h, hd]
    rw [← h, toUpper_eq_self hc]
  · rintro rfl
    exact toUpper_eq_self hd

namespace Text

@[simp] theorem upper_nil : upper [] = [] := rfl

@[simp] theorem upper_cons (c : Char) (t : Text) : upper (c :: t) = c.toUpper :: upper t := rfl

@[simp] theorem upper_append (s t : Text) : upper (s ++ t) = upper s ++ upper t :=
  List.map_append

@[simp] theorem length_upper (t : Text) : (upper t).length = t.length :=
  List.length_map _

@[simp] theorem upper_eq_nil_iff {t : Text} : upper t = [] ↔ t = [] :=
  List.map_eq_nil_iff

@[simp] theorem upper_upper (t : Text) : upper (upper t) = upper t := by
  unfold upper
  rw [List.map_map, caseless_toUpper.comp_toUpper]

/-- A mark that is not a letter stands in both of a text and the text in capitals. -/
theorem mem_upper_iff {c : Char} (hc : c.isAlpha = false) {t : Text} : c ∈ upper t ↔ c ∈ t := by
  unfold upper
  rw [List.mem_map]
  constructor
  · rintro ⟨d, hd, hdc⟩
    rwa [← (toUpper_eq_iff hc).mp hdc]
  · exact fun h => ⟨c, h, toUpper_eq_self hc⟩

@[simp] theorem byteLength_upper (t : Text) : byteLength (upper t) = byteLength t := by
  induction t with
  | nil => rfl
  | cons c t ih => rw [upper_cons, byteLength_cons, byteLength_cons, caseless_utf8Size c, ih]

theorem SameLetters.byteLength_eq {s t : Text} (h : SameLetters s t) :
    byteLength s = byteLength t := by
  rw [← byteLength_upper s, show upper s = upper t from h, byteLength_upper]

theorem SameLetters.mem_iff {s t : Text} (h : SameLetters s t) {c : Char} (hc : c.isAlpha = false) :
    c ∈ s ↔ c ∈ t := by
  rw [← mem_upper_iff hc, show upper s = upper t from h, mem_upper_iff hc]

/-- Character by character, texts with the same letters look the same to what does not depend on
case. -/
theorem SameLetters.map_eq {α : Type} {f : Char → α} (hf : Caseless f) {s t : Text}
    (h : SameLetters s t) : s.map f = t.map f := by
  have hupper : ∀ u : Text, u.map f = (upper u).map f := by
    intro u
    unfold upper
    rw [List.map_map, hf.comp_toUpper]
  rw [hupper, show upper s = upper t from h, ← hupper]

section

variable {p : Char → Bool} (hp : Caseless p) (t : Text)
include hp

theorem takeWhile_upper : (upper t).takeWhile p = upper (t.takeWhile p) := by
  unfold upper
  rw [List.takeWhile_map, hp.comp_toUpper]

theorem dropWhile_upper : (upper t).dropWhile p = upper (t.dropWhile p) := by
  unfold upper
  rw [List.dropWhile_map, hp.comp_toUpper]

theorem filter_upper : (upper t).filter p = upper (t.filter p) := by
  unfold upper
  rw [List.filter_map, hp.comp_toUpper]

/-- **A text in capitals is cut where the text is cut.** -/
theorem splitOnP_upper : (upper t).splitOnP p = (t.splitOnP p).map upper := by
  induction t with
  | nil => rfl
  | cons c t ih =>
    rw [upper_cons, List.splitOnP_cons_eq_if_modifyHead, List.splitOnP_cons_eq_if_modifyHead,
      hp c, ih]
    split
    · rfl
    · cases t.splitOnP p <;> rfl

end

theorem trimStart_upper (t : Text) : trimStart (upper t) = upper (trimStart t) :=
  dropWhile_upper caseless_isBlank t

@[simp] theorem trim_upper (t : Text) : trim (upper t) = upper (trim t) := by
  have hreverse : ∀ u : Text, (upper u).reverse = upper u.reverse :=
    fun u => List.map_reverse.symm
  unfold trim trimEnd
  rw [trimStart_upper, hreverse, dropWhile_upper caseless_isBlank, hreverse]

theorem words_upper (t : Text) : words (upper t) = (words t).map upper := by
  unfold words
  rw [splitOnP_upper caseless_isBlank, List.filter_map]
  refine congrArg (List.map upper) (List.filter_congr fun u _ => ?_)
  simp

/-- No letter becomes a given mark when it is taken in capitals. -/
theorem caseless_eq {c : Char} (hc : c.isAlpha = false) : Caseless fun d => decide (d = c) :=
  fun _ => by simp [toUpper_eq_iff hc]

theorem caseless_ne {c : Char} (hc : c.isAlpha = false) : Caseless fun d => decide (d ≠ c) :=
  fun _ => by simp [toUpper_eq_iff hc]

/-- A mark that is not a letter cuts a text in capitals where it cuts the text. -/
theorem splitOn_upper {c : Char} (hc : c.isAlpha = false) (t : Text) :
    (upper t).splitOn c = (t.splitOn c).map upper := by
  rw [List.splitOn_eq_splitOnP, List.splitOn_eq_splitOnP]
  refine splitOnP_upper (fun d => ?_) t
  simp only [beq_eq_decide]
  exact caseless_eq hc d

end Text

end Micro65
