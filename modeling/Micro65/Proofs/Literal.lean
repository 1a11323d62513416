import Mathlib.Algebra.Group.Nat.Defs
import Micro65.Literal
import Micro65.Operand.Identifier
import Micro65.Text.Hex
/-!
# Numerals read back

A number written with a fixed number of hexadecimal digits reads back as that number
(`Literal.value_hex`), and its digit count gives it the size of a byte or of a word
(`Literal.sized?_hexByte`, `Literal.sized?_hexWord`). Conversely a literal that has a size starts
like a numeral and goes on with letters and digits only (`Literal.shape_of_sized?`), which leaves no
room in it for a second numeral, an identifier or any other character.
-/

namespace Micro65

namespace Radix

theorem isAlphanum_of_digitValue {c : Char} {n : Nat} (h : digitValue c = some n) :
    c.isAlphanum = true := by
  have hkinds : c.isAlphanum = (c.isUpper || c.isLower || c.isDigit) := rfl
  unfold digitValue at h
  split at h
  · rename_i hc
    simp [hkinds, hc]
  · split at h
    · rename_i hc
      simp [hkinds, hc]
    · split at h
      · rename_i hc
        simp [hkinds, hc]
      · cases h

theorem isAlphanum_of_digit? {r : Radix} {c : Char} (h : (r.digit? c).isSome = true) :
    c.isAlphanum = true := by
  obtain ⟨n, hn⟩ := Option.isSome_iff_exists.mp h
  exact isAlphanum_of_digitValue (Option.filter_eq_some_iff.mp hn).1

/-- The digits of the decimal base are the ASCII digits. -/
theorem isDigit_of_digit?_decimal {c : Char} (h : (decimal.digit? c).isSome = true) :
    c.isDigit = true := by
  obtain ⟨n, hn⟩ := Option.isSome_iff_exists.mp h
  obtain ⟨hvalue, hbase⟩ := Option.filter_eq_some_iff.mp hn
  have hlt : n < 10 := of_decide_eq_true hbase
  unfold digitValue at hvalue
  split at hvalue
  · assumption
  · split at hvalue
    · cases hvalue
      omega
    · split at hvalue
      · cases hvalue
        omega
      · cases hvalue

theorem digit?_hexDigit {d : Nat} (h : d < 16) :
    hexadecimal.digit? (Text.hexDigit d) = some d := by
  have hall : ∀ d : Fin 16, hexadecimal.digit? (Text.hexDigit d.val) = some d.val := by decide
  exact hall ⟨d, h⟩

end Radix

namespace Text

theorem utf8Size_hexDigit {d : Nat} (h : d < 16) : (hexDigit d).utf8Size = 1 := by
  have hall : ∀ d : Fin 16, (hexDigit d.val).utf8Size = 1 := by decide
  exact hall ⟨d, h⟩

@[simp] theorem byteLength_hex (places n : Nat) : byteLength (hex places n) = places := by
  induction places generalizing n with
  | zero => rfl
  | succ places ih =>
    rw [hex, byteLength_append, ih, byteLength_cons, byteLength_nil,
      utf8Size_hexDigit (Nat.mod_lt n (by decide))]

end Text

namespace Literal

/-! ## Reading a number back -/

theorem positional_hex (places n : Nat) :
    positional ⟨.hexadecimal, Text.hex places n⟩ = n % 16 ^ places := by
  unfold positional
  induction places generalizing n with
  | zero => simp [Text.hex, Nat.mod_one]
  | succ places ih =>
    have hdigit := Radix.digit?_hexDigit (Nat.mod_lt n (show 0 < 16 by decide))
    simp only at ih hdigit ⊢
    rw [Text.hex, List.foldl_append, ih, List.foldl_cons, List.foldl_nil, hdigit, Option.getD_some,
      show Radix.hexadecimal.base = 16 from rfl, Nat.pow_succ', Nat.mod_mul]
    omega

/-- No digit is bad if every character is a digit of the base. -/
theorem badDigit?_eq_none_iff {l : Literal} :
    l.badDigit? = none ↔ ∀ c ∈ l.digits, (l.radix.digit? c).isSome = true := by
  unfold badDigit?
  rw [List.find?_eq_none]
  simp only [Option.isNone_iff_eq_none, ← ne_eq, ← Option.isSome_iff_ne_none]

theorem badDigit?_hex (places n : Nat) :
    badDigit? ⟨.hexadecimal, Text.hex places n⟩ = none := by
  rw [badDigit?_eq_none_iff]
  induction places generalizing n with
  | zero => simp [Text.hex]
  | succ places ih =>
    intro c hc
    rw [Text.hex] at hc
    rcases List.mem_append.mp hc with hc | hc
    · exact ih _ c hc
    · rw [List.mem_singleton.mp hc, Radix.digit?_hexDigit (Nat.mod_lt n (by decide))]
      rfl

/-- A number written in hexadecimal digits, enough of them, reads back. -/
theorem value_hex {places n : Nat} (hplaces : places ≠ 0) (hn : n < 16 ^ places)
    (hbound : n < UInt32.size) : value ('$' :: Text.hex places n) = .ok n := by
  have hne : Text.hex places n ≠ [] := by
    intro hnil
    have := Text.length_hex places n
    rw [hnil, List.length_nil] at this
    exact hplaces this.symm
  simp only [value, ofText, badDigit?_hex, positional_hex, Nat.mod_eq_of_lt hn, if_neg hne,
    if_pos hbound]

theorem sized?_hexByte (b : UInt8) : sized? ('$' :: Text.hexByte b) = some (.byte, b.toNat) := by
  have hb : b.toNat < Width.byte.bound := b.toNat_lt
  have hvalue : value ('$' :: Text.hex 2 b.toNat) = .ok b.toNat :=
    value_hex (by decide) hb (Nat.lt_trans hb (by decide))
  simp [sized?, ofText, Text.hexByte, Width.ofDigits?, hvalue, Except.toOption, hb]

theorem sized?_hexWord (w : UInt16) : sized? ('$' :: Text.hexWord w) = some (.word, w.toNat) := by
  have hw : w.toNat < Width.word.bound := w.toNat_lt
  have hvalue : value ('$' :: Text.hex 4 w.toNat) = .ok w.toNat :=
    value_hex (by decide) hw (Nat.lt_trans hw (by decide))
  simp [sized?, ofText, Text.hexWord, Width.ofDigits?, hvalue, Except.toOption, hw]

/-! ## What a literal looks like -/

/-- All digits of a number are digits of its base. -/
theorem isSome_digit?_of_value {token : Text} {n : Nat} (h : value token = .ok n) :
    (ofText token).digits ≠ [] ∧
      ∀ c ∈ (ofText token).digits, ((ofText token).radix.digit? c).isSome = true := by
  simp only [value] at h
  split at h
  · cases h
  · rename_i hne
    refine ⟨hne, ?_⟩
    split at h
    · cases h
    · rename_i hgood
      exact badDigit?_eq_none_iff.mp hgood

theorem value_of_sized? {token : Text} {w : Width} {n : Nat} (h : sized? token = some (w, n)) :
    value token = .ok n ∧ n < w.bound := by
  unfold sized? at h
  simp only [Option.bind_eq_bind] at h
  obtain ⟨width, _, h⟩ := Option.bind_eq_some_iff.mp h
  obtain ⟨m, hm, h⟩ := Option.bind_eq_some_iff.mp h
  split at h
  · rename_i hlt
    cases h
    refine ⟨?_, hlt⟩
    cases hv : value token with
    | error e => rw [hv] at hm; cases hm
    | ok k => rw [hv] at hm; cases hm; rfl
  · cases h

/-- **A literal with a size is one numeral**: behind its first character, which starts a numeral,
there are letters and digits only. -/
theorem shape_of_sized? {token : Text} {w : Width} {n : Nat} (h : sized? token = some (w, n)) :
    ∃ c rest, token = c :: rest ∧ Piece.startsNumeral c = true ∧
      ∀ d ∈ rest, d.isAlphanum = true := by
  obtain ⟨hne, hdigits⟩ := isSome_digit?_of_value (value_of_sized? h).1
  unfold ofText at hne hdigits
  split at hdigits
  · rename_i rest
    exact ⟨'$', rest, rfl, rfl, fun d hd => Radix.isAlphanum_of_digit? (hdigits d hd)⟩
  · rename_i rest
    exact ⟨'%', rest, rfl, rfl, fun d hd => Radix.isAlphanum_of_digit? (hdigits d hd)⟩
  · cases token with
    | nil => exact absurd rfl hne
    | cons c rest =>
      refine ⟨c, rest, rfl, ?_, ?_⟩
      · have hc := Radix.isDigit_of_digit?_decimal (hdigits c List.mem_cons_self)
        simp [Piece.startsNumeral, hc]
      · intro d hd
        exact Radix.isAlphanum_of_digit? (hdigits d (List.mem_cons_of_mem c hd))

end Literal

end Micro65
