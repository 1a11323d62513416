import Mathlib.Data.List.Induction
import Micro65.Proofs.Operand.Grammar
import Micro65.Proofs.Text.LetterCase
/-!
# Numerals read exactly

A numeral is the sign of a base, if the base is not ten, and digits of this base, letters in either
case (`Literal.Splits`, `Radix.IsDigit`). It is read as the number that the digits spell by
position, provided that there are digits, that there is nothing else, and that the number fits
thirty-two bits; the first of these conditions that does not hold is reported
(`Literal.value_eq_iff`). There may be any number of digits: a register of thirty-two bits that
takes one after the other overflows on its way exactly if the number is too large in the end
(`Literal.accumulate?_eq_some_iff`). The size of a literal is decided by the count of its digits,
and two literals of one size and one number do the same in every operand (`Literal.readsExactly`).
-/

namespace Micro65

namespace Radix

/-! ## Digits -/

/-- The digits of the base in ascending order. -/
def numerals : Radix → Text
  | .binary => ['0', '1']
  | .decimal => ['0', '1', '2', '3', '4', '5', '6', '7', '8', '9']
  | .hexadecimal => ['0', '1', '2', '3', '4', '5', '6', '7', '8', '9', 'A', 'B', 'C', 'D', 'E', 'F']

/-- Whether a character is a digit of the base. Letters may be of either case. -/
def IsDigit (r : Radix) (c : Char) : Prop :=
  c.toUpper ∈ r.numerals

/-- A text of digits spells a number by position, the first digit being the most significant one. -/
def Spells (r : Radix) (digits : Text) (n : Nat) : Prop :=
  ∃ values, List.Forall₂ (fun c d => r.numerals.idxOf? c.toUpper = some d) digits values ∧
    Nat.ofDigits r.base values.reverse = n

/-- **The value of a digit** is its place among the digits of the base. -/
theorem digit?_eq_idxOf? (r : Radix) (c : Char) : r.digit? c = r.numerals.idxOf? c.toUpper := by
  by_cases hascii : c.toNat < 128
  · have hall : ∀ n < 128, r.digit? (Char.ofNat n) = r.numerals.idxOf? (Char.ofNat n).toUpper := by
      cases r <;> decide +kernel
    simpa using hall c.toNat hascii
  -- Outside ASCII there is no letter and no digit, and no capital to be taken.
  · have halphanum : c.isAlphanum = false := by
      rw [Bool.eq_false_iff]
      exact fun h => hascii (Piece.inAscii_isAlphanum c h)
    have hdigit : r.digit? c = none := by
      rw [← Option.not_isSome_iff_eq_none]
      intro h
      rw [isAlphanum_of_digit? h] at halphanum
      cases halphanum
    have hupper : c.toUpper = c := by
      rw [Char.isAlphanum, Bool.or_eq_false_iff] at halphanum
      exact toUpper_eq_self halphanum.1
    have hnumerals : ∀ d ∈ r.numerals, d.toNat < 128 := by
      cases r <;> simp [numerals]
    rw [hdigit, hupper, eq_comm, List.idxOf?_eq_none_iff]
    exact fun hc => hascii (hnumerals c hc)

theorem isDigit_iff {r : Radix} {c : Char} : r.IsDigit c ↔ (r.digit? c).isSome = true := by
  unfold IsDigit
  rw [digit?_eq_idxOf?, List.isSome_idxOf?]

theorem spells_iff {r : Radix} {digits : Text} {n : Nat} :
    r.Spells digits n ↔
      (∀ c ∈ digits, (r.digit? c).isSome = true) ∧ Literal.positional ⟨r, digits⟩ = n := by
  unfold Spells
  simp only [← digit?_eq_idxOf?]
  constructor
  · rintro ⟨values, hvalues, hn⟩
    exact ⟨Literal.isSome_of_forall₂ hvalues, (Literal.positional_eq_ofDigits hvalues).trans hn⟩
  · rintro ⟨hdigits, hn⟩
    obtain ⟨values, hvalues⟩ := Literal.forall₂_digits hdigits
    exact ⟨values, hvalues, (Literal.positional_eq_ofDigits hvalues).symm.trans hn⟩

end Radix

/-- The greatest number of a size. -/
def Width.greatest : Width → Nat
  | .byte => 0xFF
  | .word => 0xFFFF

theorem Width.greatest_add_one (w : Width) : w.greatest + 1 = w.bound := by
  cases w <;> rfl

namespace Literal

variable {token digits : Text} {r : Radix}

/-! ## What a token is read as -/

/-- What a token is made of: the sign of a base, or none for base ten, and the rest. -/
inductive Splits : Text → Radix → Text → Prop
  | hexadecimal (rest : Text) : Splits ('$' :: rest) .hexadecimal rest
  | binary (rest : Text) : Splits ('%' :: rest) .binary rest
  | decimal {rest : Text} (h : ∀ c ∈ rest.head?, c ≠ '$' ∧ c ≠ '%') : Splits rest .decimal rest

/-- What a token is read as, if its rest behind the sign of the base is this. -/
inductive Reads (token : Text) (r : Radix) : (rest : Text) → Except LiteralError Nat → Prop
  | empty : Reads token r [] (.error .empty)
  /-- The first character that is no digit is at fault, whatever stands behind it. -/
  | invalidDigit {good behind : Text} {c : Char} (hgood : ∀ d ∈ good, r.IsDigit d)
      (hbad : ¬ r.IsDigit c) :
      Reads token r (good ++ c :: behind) (.error (.invalidDigit token c r))
  | number {digits : Text} {n : Nat} (hne : digits ≠ []) (hspells : r.Spells digits n)
      (hfits : n < 2 ^ 32) : Reads token r digits (.ok n)
  | tooLarge {digits : Text} {n : Nat} (hspells : r.Spells digits n) (hlarge : 2 ^ 32 ≤ n) :
      Reads token r digits (.error (.tooLarge token))

theorem splits_ofText (token : Text) : Splits token (ofText token).radix (ofText token).digits := by
  unfold ofText
  split
  · exact .hexadecimal _
  · exact .binary _
  · rename_i hhex hbin
    refine .decimal fun c hc => ?_
    obtain ⟨rest, rfl⟩ := List.head?_eq_some_iff.mp hc
    constructor
    · rintro rfl
      exact hhex rest rfl
    · rintro rfl
      exact hbin rest rfl

theorem badDigit?_eq_some_iff {c : Char} :
    badDigit? ⟨r, digits⟩ = some c ↔
      ∃ good behind, digits = good ++ c :: behind ∧ (∀ d ∈ good, r.IsDigit d) ∧ ¬ r.IsDigit c := by
  unfold badDigit?
  rw [List.find?_eq_some_iff_append]
  simp only [Radix.isDigit_iff, Bool.not_eq_true', Option.isNone_eq_false_iff, Bool.not_eq_true,
    Option.isSome_eq_false_iff]
  constructor
  · rintro ⟨hbad, good, behind, heq, hgood⟩
    exact ⟨good, behind, heq, hgood, hbad⟩
  · rintro ⟨good, behind, heq, hgood, hbad⟩
    exact ⟨hbad, good, behind, heq, hgood⟩

theorem value_eq (h : ofText token = ⟨r, digits⟩) :
    value token =
      if digits = [] then .error .empty
      else match badDigit? ⟨r, digits⟩ with
        | some c => .error (.invalidDigit token c r)
        | none =>
          if positional ⟨r, digits⟩ < 2 ^ 32 then .ok (positional ⟨r, digits⟩)
          else .error (.tooLarge token) := by
  unfold value
  rw [h]
  rfl

theorem reads_value (h : ofText token = ⟨r, digits⟩) : Reads token r digits (value token) := by
  rw [value_eq h]
  split
  · rename_i hempty
    rw [hempty]
    exact .empty
  · rename_i hne
    split
    · rename_i c hbad
      obtain ⟨good, behind, rfl, hgood, hc⟩ := badDigit?_eq_some_iff.mp hbad
      exact .invalidDigit hgood hc
    · rename_i hgood
      have hspells := Radix.spells_iff.mpr ⟨badDigit?_eq_none_iff.mp hgood, rfl⟩
      split
      · rename_i hfits
        exact .number hne hspells hfits
      · rename_i hlarge
        exact .tooLarge hspells (Nat.le_of_not_lt hlarge)

/-- **What a token is read as** is one of the four outcomes, and its digits say which. -/
theorem value_eq_iff (h : ofText token = ⟨r, digits⟩) {outcome : Except LiteralError Nat} :
    value token = outcome ↔ Reads token r digits outcome := by
  constructor
  · rintro rfl
    exact reads_value h
  · intro hreads
    rw [value_eq h]
    cases hreads with
    | empty => rfl
    | invalidDigit hgood hbad =>
      rw [if_neg (by simp), badDigit?_eq_some_iff.mpr ⟨_, _, rfl, hgood, hbad⟩]
    | number hne hspells hfits =>
      obtain ⟨hdigits, rfl⟩ := Radix.spells_iff.mp hspells
      rw [if_neg hne, badDigit?_eq_none_iff.mpr hdigits]
      exact if_pos hfits
    | tooLarge hspells hlarge =>
      obtain ⟨hdigits, rfl⟩ := Radix.spells_iff.mp hspells
      have hne : digits ≠ [] := by
        rintro rfl
        exact absurd hlarge (by simp [positional])
      rw [if_neg hne, badDigit?_eq_none_iff.mpr hdigits]
      exact if_neg (Nat.not_lt_of_le hlarge)

/-! ## A register of thirty-two bits -/

/-- A number in a register, if it fits one. -/
def register? (n : Nat) : Option UInt32 :=
  if n < UInt32.size then some (UInt32.ofNat n) else none

/-- Puts a digit behind the number in a register. The product and the sum must both fit. -/
def shiftIn? (r : Radix) (x : UInt32) (c : Char) : Option UInt32 := do
  let digit ← r.digit? c
  let product ← register? (x.toNat * r.base)
  register? (product.toNat + digit)

/-- Puts digits into a register one after the other, up to the first overflow. -/
def accumulate? (r : Radix) (digits : Text) : Option UInt32 :=
  digits.foldlM (shiftIn? r) 0

theorem register?_eq_some_iff {n : Nat} {x : UInt32} : register? n = some x ↔ x.toNat = n := by
  unfold register?
  constructor
  · intro h
    split at h
    · rename_i hn
      cases h
      exact Nat.mod_eq_of_lt hn
    · cases h
  · rintro rfl
    rw [if_pos x.toNat_lt, UInt32.ofNat_toNat]

/-- A number that has outgrown the register does not come back. -/
theorem register?_bind {n : Nat} {f : Nat → Nat} (h : n ≤ f n) :
    ((register? n).bind fun x => register? (f x.toNat)) = register? (f n) := by
  unfold register?
  by_cases hn : n < UInt32.size
  · rw [if_pos hn, Option.bind_some, UInt32.toNat_ofNat', Nat.mod_eq_of_lt hn]
  · rw [if_neg hn, Option.bind_none, if_neg (by omega)]

theorem shiftIn?_eq {c : Char} {d : Nat} (h : r.digit? c = some d) (x : UInt32) :
    shiftIn? r x c = register? (x.toNat * r.base + d) := by
  unfold shiftIn?
  rw [h]
  exact register?_bind (f := (· + d)) (Nat.le_add_right _ d)

theorem isSome_digit?_of_foldlM {x y : UInt32} (h : digits.foldlM (shiftIn? r) x = some y) :
    ∀ c ∈ digits, (r.digit? c).isSome = true := by
  induction digits generalizing x with
  | nil => nofun
  | cons c digits ih =>
    rw [List.foldlM_cons] at h
    obtain ⟨z, hz, h⟩ := Option.bind_eq_some_iff.mp h
    obtain ⟨d, hd, -⟩ := Option.bind_eq_some_iff.mp hz
    rw [List.forall_mem_cons]
    exact ⟨Option.isSome_iff_exists.mpr ⟨d, hd⟩, ih h⟩

theorem positional_concat (r : Radix) (digits : Text) (c : Char) :
    positional ⟨r, digits ++ [c]⟩ = positional ⟨r, digits⟩ * r.base + (r.digit? c).getD 0 := by
  simp [positional]

/-- By induction on the last digit: the register holds the number of the digits before it, or this
is too large already. -/
theorem accumulate?_eq (h : ∀ c ∈ digits, (r.digit? c).isSome = true) :
    accumulate? r digits = register? (positional ⟨r, digits⟩) := by
  unfold accumulate?
  induction digits using List.reverseRecOn with
  | nil => rfl
  | append_singleton digits c ih =>
    obtain ⟨d, hd⟩ := Option.isSome_iff_exists.mp (h c (by simp))
    have hbase : 0 < r.base := by cases r <;> decide
    have hgrows := Nat.le_mul_of_pos_right (positional ⟨r, digits⟩) hbase
    rw [List.foldlM_append, ih fun c' hc' => h c' (by simp [hc']), positional_concat, hd,
      Option.getD_some]
    simp only [List.foldlM_cons, List.foldlM_nil, shiftIn?_eq hd, bind_pure]
    exact register?_bind (f := (· * r.base + d)) (Nat.le_add_right_of_le hgrows)

/-- **A register takes a text of digits** exactly if the number that they spell fits it. -/
theorem accumulate?_eq_some_iff {x : UInt32} :
    accumulate? r digits = some x ↔ r.Spells digits x.toNat := by
  rw [Radix.spells_iff]
  constructor
  · intro h
    have hdigits := isSome_digit?_of_foldlM h
    rw [accumulate?_eq hdigits, register?_eq_some_iff] at h
    exact ⟨hdigits, h.symm⟩
  · rintro ⟨hdigits, hn⟩
    rw [accumulate?_eq hdigits, register?_eq_some_iff, hn]

/-! ## Sizes -/

variable {w : Width} {n : Nat}

/-- **A literal has a size** if it has the digits of this size and its number is not too large for
it. -/
theorem sized?_eq_some_iff_value (h : ofText token = ⟨r, digits⟩) :
    sized? token = some (w, n) ↔
      digits.length = r.places w ∧ value token = .ok n ∧ n ≤ w.greatest := by
  rw [← Nat.lt_add_one_iff, Width.greatest_add_one]
  constructor
  · intro hsized
    obtain ⟨hvalue, hbound⟩ := value_of_sized? hsized
    have hdigits := (isSome_digit?_of_value hvalue).2
    have hplaces := Radix.ofDigits?_eq_some_iff.mp (ofDigits?_of_sized? hsized)
    rw [h] at hdigits hplaces
    rw [byteLength_of_digits hdigits] at hplaces
    exact ⟨hplaces, hvalue, hbound⟩
  · rintro ⟨hplaces, hvalue, hbound⟩
    have hdigits := (isSome_digit?_of_value hvalue).2
    rw [h] at hdigits
    have hwidth : Width.ofDigits? r (Text.byteLength digits) = some w := by
      rw [byteLength_of_digits hdigits]
      exact Radix.ofDigits?_eq_some_iff.mpr hplaces
    simp [sized?, h, hwidth, hvalue, Except.toOption, hbound]

/-! ## Literals in operands -/

variable {other : Text}

theorem alikeUnder_of_sized? (h : sized? token = some (w, n)) (h' : sized? other = some (w, n)) :
    AlikeUnder id token other where
  literal w' := by
    unfold ModeChoice.literal?
    rw [h, h']
  immediate := by
    have hnone : ∀ {t : Text}, sized? t = some (w, n) → ModeChoice.immediate? t = none := by
      intro t ht
      unfold ModeChoice.immediate?
      split
      · exact absurd (sized?_eq_some_iff.mp ht) not_denotes_immediate
      · rfl
    rw [hnone h, hnone h']
  register c _ :=
    iff_of_false ((sized?_eq_some_iff.mp h).not_sameLetters c)
      ((sized?_eq_some_iff.mp h').not_sameLetters c)

/-- Behind the sign of an immediate byte two literals are as alike as they are alone. -/
theorem alikeUnder_immediate (h : AlikeUnder id token other) :
    AlikeUnder id ('#' :: token) ('#' :: other) where
  literal w' := by
    have hnone : ∀ t : Text, ModeChoice.literal? w' ('#' :: t) = none := by
      intro t
      rw [Option.eq_none_iff_forall_ne_some]
      intro value hvalue
      exact not_denotes_immediate (ModeChoice.literal?_eq_some_iff_denotes.mp hvalue)
    rw [hnone, hnone]
  immediate := h.literal .byte
  register c hc := by
    have hsign : ∀ t : Text, ¬ Text.SameLetters ('#' :: t) [c] := by
      intro t hletters
      have hupper := (List.cons.inj hletters).1
      simp only [List.mem_cons, List.not_mem_nil, or_false] at hc
      rcases hc with rfl | rfl | rfl <;> exact absurd hupper (by decide)
    exact iff_of_false (hsign token) (hsign other)

/-- **A literal can be replaced by another of its size and number** anywhere in an operand. -/
theorem ofTokens?_exchange (h : sized? token = some (w, n)) (h' : sized? other = some (w, n))
    (indirect : Bool) (m : Mnemonic) (before behind : List Text) {sign : Text}
    (hsign : sign ∈ [[], ['#']]) :
    ModeChoice.ofTokens? indirect m (before ++ (sign ++ token) :: behind) =
      ModeChoice.ofTokens? indirect m (before ++ (sign ++ other) :: behind) := by
  have halike : AlikeUnder id (sign ++ token) (sign ++ other) := by
    simp only [List.mem_cons, List.not_mem_nil, or_false] at hsign
    rcases hsign with rfl | rfl
    · exact alikeUnder_of_sized? h h'
    · exact alikeUnder_immediate (alikeUnder_of_sized? h h')
  have hsame : ∀ tokens : List Text, List.Forall₂ (AlikeUnder id) tokens tokens := fun tokens =>
    List.forall₂_same.mpr fun t _ => .refl id t
  exact ModeChoice.ofTokens?_congr indirect m
    (List.rel_append (hsame before) (.cons halike (hsame behind)))

/-- **What it is for a token to be read exactly**, as the sign of this base and these digits. -/
structure ReadsExactly (token : Text) (r : Radix) (digits : Text) : Prop where
  splits : Splits token r digits
  value_eq_iff : ∀ outcome, value token = outcome ↔ Reads token r digits outcome
  /-- A register of thirty-two bits overflows exactly if the number is too large. -/
  accumulate?_eq_some_iff : ∀ x, accumulate? r digits = some x ↔ r.Spells digits x.toNat
  /-- The size is decided by the count of the digits, which are counted as characters. -/
  sized?_eq_some_iff : ∀ w n, sized? token = some (w, n) ↔
    digits.length = r.places w ∧ value token = .ok n ∧ n ≤ w.greatest
  /-- Another literal of the same size and number is the same to every operand, also behind the sign
  of an immediate byte. -/
  exchange : ∀ w n other, sized? token = some (w, n) → sized? other = some (w, n) →
    ∀ indirect m before behind, ∀ sign ∈ [[], ['#']],
      ModeChoice.ofTokens? indirect m (before ++ (sign ++ token) :: behind) =
        ModeChoice.ofTokens? indirect m (before ++ (sign ++ other) :: behind)

/-- **Every token is read exactly.** -/
theorem readsExactly (token : Text) : ∃ r digits, ReadsExactly token r digits := by
  refine ⟨(ofText token).radix, (ofText token).digits, ?_⟩
  exact {
    splits := splits_ofText token
    value_eq_iff := fun _ => value_eq_iff rfl
    accumulate?_eq_some_iff := fun _ => accumulate?_eq_some_iff
    sized?_eq_some_iff := fun _ _ => sized?_eq_some_iff_value rfl
    exchange := fun _ _ _ h h' indirect m before behind _ hsign =>
      ofTokens?_exchange h h' indirect m before behind hsign }

end Literal

end Micro65
