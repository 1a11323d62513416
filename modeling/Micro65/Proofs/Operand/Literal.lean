import Mathlib.Data.List.Forall2
import Mathlib.Data.Nat.Digits.Defs
import Mathlib.Tactic.Ring
import Micro65.Proofs.Literal
import Micro65.Proofs.Operand.Pieces
/-!
# Literals of a size

A literal of a size is the sign of a base and as many digits of this base as the size asks for, and
it denotes the number that the digits have by position (`Literal.Denotes`). A token is read as
having a size and a number exactly if it is such a literal (`Literal.sized?_eq_some_iff`). What
follows the sign can be digits of one base only, so a token denotes at most one number.
-/

namespace Micro65

namespace Radix

/-- The sign of the base. -/
def sign : Radix → Text
  | .hexadecimal => ['$']
  | .binary => ['%']
  | .decimal => []

/-- The number of digits that a literal of this size has in the base. -/
def places : Radix → Width → Nat
  | .hexadecimal, .byte => 2
  | .hexadecimal, .word => 4
  | .binary, .byte => 8
  | .binary, .word => 16
  | .decimal, .byte => 3
  | .decimal, .word => 5

theorem ofDigits?_eq_some_iff {r : Radix} {count : Nat} {w : Width} :
    Width.ofDigits? r count = some w ↔ count = r.places w := by
  constructor
  · intro h
    unfold Width.ofDigits? at h
    split at h <;> cases h <;> rfl
  · rintro rfl
    cases r <;> cases w <;> rfl

theorem one_lt_places (r : Radix) (w : Width) : 1 < r.places w := by
  cases r <;> cases w <;> decide

theorem utf8Size_of_digit? {r : Radix} {c : Char} (h : (r.digit? c).isSome = true) :
    c.utf8Size = 1 :=
  (Text.encode_of_lt (Piece.inAscii_isAlphanum c (isAlphanum_of_digit? h))).2

end Radix

namespace Literal

/-- A token is a literal of this size with this number. -/
inductive Denotes : Text → Width → Nat → Prop
  | intro (r : Radix) (w : Width) {digits : Text} {values : List Nat}
      (hdigits : List.Forall₂ (fun c d => r.digit? c = some d) digits values)
      (hplaces : digits.length = r.places w)
      (hbound : Nat.ofDigits r.base values.reverse < w.bound) :
      Denotes (r.sign ++ digits) w (Nat.ofDigits r.base values.reverse)

/-- The digits of a base count as many bytes as characters. -/
theorem byteLength_of_digits {r : Radix} {digits : Text}
    (h : ∀ c ∈ digits, (r.digit? c).isSome = true) : Text.byteLength digits = digits.length := by
  induction digits with
  | nil => rfl
  | cons c digits ih =>
    rw [Text.byteLength_cons, List.length_cons, Radix.utf8Size_of_digit? (h c List.mem_cons_self),
      ih fun d hd => h d (List.mem_cons_of_mem c hd), Nat.add_comm]

/-- The number of a literal is what its digits denote by position. -/
theorem positional_eq_ofDigits {r : Radix} {digits : Text} {values : List Nat}
    (h : List.Forall₂ (fun c d => r.digit? c = some d) digits values) :
    positional ⟨r, digits⟩ = Nat.ofDigits r.base values.reverse := by
  unfold positional
  simp only
  suffices hfold : ∀ n, digits.foldl (fun n c => n * r.base + (r.digit? c).getD 0) n =
      n * r.base ^ values.length + Nat.ofDigits r.base values.reverse by
    simpa using hfold 0
  induction h with
  | nil => simp
  | @cons c d digits values hc h ih =>
    intro n
    rw [List.foldl_cons, ih, hc, Nat.ofDigits_reverse_cons, List.length_cons, Option.getD_some]
    ring

theorem forall₂_digits {r : Radix} {digits : Text} (h : ∀ c ∈ digits, (r.digit? c).isSome = true) :
    ∃ values, List.Forall₂ (fun c d => r.digit? c = some d) digits values := by
  induction digits with
  | nil => exact ⟨[], .nil⟩
  | cons c digits ih =>
    obtain ⟨d, hd⟩ := Option.isSome_iff_exists.mp (h c List.mem_cons_self)
    obtain ⟨values, hvalues⟩ := ih fun c' hc' => h c' (List.mem_cons_of_mem c hc')
    exact ⟨d :: values, .cons hd hvalues⟩

theorem isSome_of_forall₂ {r : Radix} {digits : Text} {values : List Nat}
    (h : List.Forall₂ (fun c d => r.digit? c = some d) digits values) :
    ∀ c ∈ digits, (r.digit? c).isSome = true := by
  induction h with
  | nil => nofun
  | cons hc _ ih =>
    rw [List.forall_mem_cons]
    exact ⟨Option.isSome_iff_exists.mpr ⟨_, hc⟩, ih⟩

theorem sign_append_ofText (token : Text) :
    (ofText token).radix.sign ++ (ofText token).digits = token := by
  unfold ofText
  split <;> rfl

/-- What stands behind the sign of a base is taken for digits of this base. -/
theorem ofText_sign_append {r : Radix} {digits : Text} (hne : digits ≠ [])
    (h : ∀ c ∈ digits, (r.digit? c).isSome = true) : ofText (r.sign ++ digits) = ⟨r, digits⟩ := by
  cases r with
  | hexadecimal | binary => rfl
  | decimal =>
    obtain ⟨c, digits, rfl⟩ := List.exists_cons_of_ne_nil hne
    have hc := Radix.isDigit_of_digit?_decimal (h c List.mem_cons_self)
    unfold ofText
    simp only [Radix.sign, List.nil_append]
    split
    · rename_i heq
      cases heq
      exact absurd hc (by decide)
    · rename_i heq
      cases heq
      exact absurd hc (by decide)
    · rfl

theorem bound_lt (w : Width) : w.bound < UInt32.size := by
  cases w <;> decide

theorem ofDigits?_of_sized? {token : Text} {w : Width} {n : Nat} (h : sized? token = some (w, n)) :
    Width.ofDigits? (ofText token).radix (Text.byteLength (ofText token).digits) = some w := by
  unfold sized? at h
  simp only [Option.bind_eq_bind] at h
  obtain ⟨width, hwidth, h⟩ := Option.bind_eq_some_iff.mp h
  obtain ⟨m, -, h⟩ := Option.bind_eq_some_iff.mp h
  split at h
  · cases h
    exact hwidth
  · cases h

/-- The number of a token is what its digits denote by position. -/
theorem value_eq_ok_iff {token : Text} {n : Nat} :
    value token = .ok n ↔
      (ofText token).digits ≠ [] ∧
        (∀ c ∈ (ofText token).digits, ((ofText token).radix.digit? c).isSome = true) ∧
        positional (ofText token) = n ∧ n < UInt32.size := by
  constructor
  · intro h
    obtain ⟨hne, hdigits⟩ := isSome_digit?_of_value h
    refine ⟨hne, hdigits, ?_⟩
    simp only [value, if_neg hne] at h
    split at h
    · cases h
    · split at h
      · rename_i hlt
        cases h
        exact ⟨rfl, hlt⟩
      · cases h
  · rintro ⟨hne, hdigits, rfl, hlt⟩
    simp only [value, if_neg hne, badDigit?_eq_none_iff.mpr hdigits, if_pos hlt]

/-- **What it takes for a token to be read as a literal of a size.** -/
theorem sized?_eq_some_iff {token : Text} {w : Width} {n : Nat} :
    sized? token = some (w, n) ↔ Denotes token w n := by
  constructor
  · intro h
    obtain ⟨hvalue, hbound⟩ := value_of_sized? h
    obtain ⟨-, hdigits, hn, -⟩ := value_eq_ok_iff.mp hvalue
    have hplaces := Radix.ofDigits?_eq_some_iff.mp (ofDigits?_of_sized? h)
    rw [byteLength_of_digits hdigits] at hplaces
    obtain ⟨values, hvalues⟩ := forall₂_digits hdigits
    obtain rfl : Nat.ofDigits (ofText token).radix.base values.reverse = n :=
      (positional_eq_ofDigits hvalues).symm.trans hn
    have hdenotes := Denotes.intro (ofText token).radix w hvalues hplaces hbound
    rwa [sign_append_ofText] at hdenotes
  · rintro ⟨r, w, hvalues, hplaces, hbound⟩
    rename_i digits values
    have hdigits := isSome_of_forall₂ hvalues
    have hne : digits ≠ [] := by
      rintro rfl
      have := r.one_lt_places w
      rw [← hplaces, List.length_nil] at this
      omega
    have htext := ofText_sign_append hne hdigits
    have hvalue : value (r.sign ++ digits) = .ok (Nat.ofDigits r.base values.reverse) := by
      rw [value_eq_ok_iff, htext]
      exact ⟨hne, hdigits, positional_eq_ofDigits hvalues, Nat.lt_trans hbound (bound_lt w)⟩
    have hwidth : Width.ofDigits? r (Text.byteLength digits) = some w := by
      rw [byteLength_of_digits hdigits, hplaces]
      exact Radix.ofDigits?_eq_some_iff.mpr rfl
    simp [sized?, htext, hwidth, hvalue, Except.toOption, hbound]

/-- A token denotes one number of one size. -/
theorem Denotes.unique {token : Text} {w w' : Width} {n n' : Nat} (h : Denotes token w n)
    (h' : Denotes token w' n') : w = w' ∧ n = n' := by
  have heq := (sized?_eq_some_iff.mpr h).symm.trans (sized?_eq_some_iff.mpr h')
  cases heq
  exact ⟨rfl, rfl⟩

theorem denotes_hexByte (b : UInt8) : Denotes ('$' :: Text.hexByte b) .byte b.toNat :=
  sized?_eq_some_iff.mp (sized?_hexByte b)

theorem denotes_hexWord (w : UInt16) : Denotes ('$' :: Text.hexWord w) .word w.toNat :=
  sized?_eq_some_iff.mp (sized?_hexWord w)

end Literal

end Micro65
