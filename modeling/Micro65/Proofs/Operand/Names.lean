import Mathlib.Data.List.Basic
import Micro65.Operand.Field
import Micro65.Operand.Identifier
import Micro65.Proofs.Text.Blank
/-!
# The names in an operand

The names of a text are its identifiers outside numerals, without the names of registers. They are
read from the text as a whole, before it is cut into tokens, so they say what an operand refers to
independently of how the operand is understood.

Everything about the names of a cut text follows from one equation, `Text.names_append_cons`:
blanks, commas and parentheses stand between pieces, so names can be read on their two sides
separately. Cutting at such characters and trimming therefore keeps the names
(`Field.flatMap_names_cut`, `Text.names_trim`). Taking closing parentheses out of the middle of a
token can join two names, but not in a token that is the index of an operand, which is one letter
(`Field.flatMap_names_of_ofText`).
-/

namespace Micro65

namespace Piece

/-- Whether the character stands between pieces: it starts neither a numeral nor an identifier. -/
def isSeparator (c : Char) : Bool :=
  !startsNumeral c && !startsIdentifier c

theorem isAlphanum_eq_false_of_isSeparator {c : Char} (h : isSeparator c = true) :
    c.isAlphanum = false := by
  simp only [isSeparator, startsNumeral, startsIdentifier, Bool.and_eq_true, Bool.not_eq_true',
    Bool.or_eq_false_iff] at h
  simp [Char.isAlphanum, h.1.2, h.2.1]

theorem isNameChar_eq_false_of_isSeparator {c : Char} (h : isSeparator c = true) :
    Label.isNameChar c = false := by
  have halpha := isAlphanum_eq_false_of_isSeparator h
  simp only [isSeparator, startsIdentifier, Bool.and_eq_true, Bool.not_eq_true',
    Bool.or_eq_false_iff] at h
  simp only [Label.isNameChar, halpha, h.2.2, Bool.or_self]

/-- The characters that start a piece are printable characters of ASCII. -/
theorem toNat_of_not_isSeparator {c : Char} (h : isSeparator c = false) :
    0x20 < c.toNat ∧ c.toNat < 0x80 := by
  have hdigit : c.isDigit = (decide (c.val ≥ 48) && decide (c.val ≤ 57)) := rfl
  have halpha : c.isAlpha = (decide (c.val ≥ 65 ∧ c.val ≤ 90) ||
    decide (c.val ≥ 97) && decide (c.val ≤ 122)) := rfl
  simp only [isSeparator, startsNumeral, startsIdentifier, hdigit, halpha,
    Bool.and_eq_false_iff, Bool.not_eq_false', Bool.or_eq_true,
    decide_eq_true_eq, Bool.and_eq_true, ge_iff_le, UInt32.le_iff_toNat_le] at h
  change (((c = '$' ∨ c = '%') ∨ (48 ≤ c.toNat ∧ c.toNat ≤ 57)) ∨
    (((65 ≤ c.toNat ∧ c.toNat ≤ 90) ∨ (97 ≤ c.toNat ∧ c.toNat ≤ 122)) ∨ c = '_')) at h
  rcases h with ((rfl | rfl) | h) | ((h | h) | rfl)
  · decide
  · decide
  · omega
  · omega
  · omega
  · decide

theorem isSeparator_of_isBlank {c : Char} (h : Text.isBlank c = true) : isSeparator c = true := by
  cases hc : isSeparator c with
  | true => rfl
  | false =>
    have hrange := toNat_of_not_isSeparator hc
    simp only [Text.isBlank, Text.blankRanges, List.any_cons, List.any_nil, Bool.or_false,
      Bool.or_eq_true, Bool.and_eq_true, decide_eq_true_eq] at h
    omega

/-! ## Scanning past a separator -/

/-- A piece ends before a separator, if not earlier. -/
theorem scan_append_cons {c : Char} (hc : isSeparator c = true) (d : Char) (s t : Text) :
    scan d (s ++ c :: t) = ((scan d s).1, (scan d s).2 ++ c :: t) := by
  have hwhile : ∀ p : Char → Bool, p c = false →
      (s ++ c :: t).takeWhile p = s.takeWhile p ∧
        (s ++ c :: t).dropWhile p = s.dropWhile p ++ c :: t := by
    intro p hp
    induction s with
    | nil => simp [hp]
    | cons e s ih =>
      cases he : p e with
      | false => simp [he]
      | true => simp [he, ih.1, ih.2]
  obtain ⟨htake, hdrop⟩ := hwhile _ (isAlphanum_eq_false_of_isSeparator hc)
  obtain ⟨htake', hdrop'⟩ := hwhile _ (isNameChar_eq_false_of_isSeparator hc)
  unfold scan
  rw [htake, hdrop, htake', hdrop']
  split
  · rfl
  · split <;> rfl

theorem scan_separator {c : Char} (hc : isSeparator c = true) (t : Text) :
    scan c t = (.other c, t) := by
  simp only [isSeparator, Bool.and_eq_true, Bool.not_eq_true'] at hc
  simp [scan, hc.1, hc.2]

/-- A separator is a piece of its own. -/
theorem pieces_append_cons {c : Char} (hc : isSeparator c = true) (s t : Text) :
    pieces (s ++ c :: t) = pieces s ++ .other c :: pieces t := by
  induction s using scan_induction with
  | nil => rw [List.nil_append, pieces_cons, scan_separator hc, pieces_nil, List.nil_append]
  | cons d s ih =>
    rw [List.cons_append, pieces_cons, scan_append_cons hc, pieces_cons, ih, List.cons_append]

/-- The name that a piece refers to, if it is an identifier other than a register. -/
def name? : Piece → Option Text
  | .identifier name => if Label.isRegister name then none else some name
  | .numeral _ | .other _ => none

end Piece

namespace Text

open Piece (isSeparator)

/-- The names that a text refers to, in order. -/
def names (t : Text) : List Text :=
  (Piece.pieces t).filterMap Piece.name?

@[simp] theorem names_nil : names [] = [] := by
  simp [names]

/-- **Names are read on the two sides of a separator independently.** -/
theorem names_append_cons {c : Char} (hc : isSeparator c = true) (s t : Text) :
    names (s ++ c :: t) = names s ++ names t := by
  unfold names
  rw [Piece.pieces_append_cons hc, List.filterMap_append, List.filterMap_cons_none rfl]

theorem names_cons {c : Char} (hc : isSeparator c = true) (t : Text) :
    names (c :: t) = names t := by
  simpa using names_append_cons hc [] t

theorem names_append_of_isSeparator (s : Text) {t : Text} (h : ∀ c ∈ t, isSeparator c = true) :
    names (s ++ t) = names s := by
  induction t generalizing s with
  | nil => rw [List.append_nil]
  | cons c t ih =>
    have ht := ih [] fun d hd => h d (List.mem_cons_of_mem c hd)
    rw [List.nil_append, names_nil] at ht
    rw [names_append_cons (h c List.mem_cons_self), ht, List.append_nil]

theorem names_append_right {s : Text} (t : Text) (h : ∀ c ∈ s, isSeparator c = true) :
    names (s ++ t) = names t := by
  induction s with
  | nil => rfl
  | cons c s ih =>
    rw [List.cons_append, names_cons (h c List.mem_cons_self)]
    exact ih fun d hd => h d (List.mem_cons_of_mem c hd)

/-- The blanks around a text hold no names. -/
@[simp] theorem names_trim (t : Text) : names (trim t) = names t := by
  obtain ⟨u, v, ht, hu, hv⟩ := exists_eq_append_trim t
  have hblank : ∀ w : Text, (∀ c ∈ w, isBlank c = true) → ∀ c ∈ w, isSeparator c = true :=
    fun w hw c hc => Piece.isSeparator_of_isBlank (hw c hc)
  calc names (trim t) = names (u ++ trim t) := (names_append_right _ (hblank u hu)).symm
    _ = names (u ++ trim t ++ v) := (names_append_of_isSeparator _ (hblank v hv)).symm
    _ = names t := by rw [← ht]

/-- What is read on the two sides of some characters independently is read from the parts between
them. -/
theorem flatMap_splitOnP {α : Type} {f : Text → List α} {p : Char → Bool}
    (hf : ∀ c, p c = true → ∀ s t, f (s ++ c :: t) = f s ++ f t) (t : Text) :
    (t.splitOnP p).flatMap f = f t := by
  induction hn : t.length using Nat.strongRecOn generalizing t with
  | _ n ih =>
    have hsplit := List.takeWhile_append_dropWhile (p := fun c => !p c) (l := t)
    have hbefore : ∀ c ∈ t.takeWhile (fun c => !p c), p c = false := by
      intro c hc
      simpa using List.all_eq_true.mp List.all_takeWhile c hc
    cases hrest : t.dropWhile (fun c => !p c) with
    | nil =>
      rw [hrest, List.append_nil] at hsplit
      rw [hsplit] at hbefore
      simp [List.splitOnP_eq_singleton hbefore]
    | cons c rest =>
      have hc : p c = true := by
        have hhead : c ∈ (t.dropWhile (fun c => !p c)).head? := by rw [hrest]; rfl
        simpa using Text.eq_false_of_mem_head?_dropWhile hhead
      have hlt : rest.length < n := by
        have := congrArg List.length hsplit
        rw [hrest, List.length_append, List.length_cons] at this
        omega
      rw [hrest] at hsplit
      rw [← hsplit, List.splitOnP_append_cons_of_forall_mem hbefore c hc, List.flatMap_cons,
        ih _ hlt rest rfl, hf c hc]

/-- What a text holds besides separators. -/
def kernel (t : Text) : Text :=
  t.filter fun c => !isSeparator c

theorem kernel_eq_nil_iff {t : Text} : kernel t = [] ↔ ∀ c ∈ t, isSeparator c = true := by
  simp [kernel]

@[simp] theorem kernel_trim (t : Text) : kernel (trim t) = kernel t := by
  obtain ⟨u, v, ht, hu, hv⟩ := exists_eq_append_trim t
  have hu' : kernel u = [] :=
    kernel_eq_nil_iff.mpr fun c hc => Piece.isSeparator_of_isBlank (hu c hc)
  have hv' : kernel v = [] :=
    kernel_eq_nil_iff.mpr fun c hc => Piece.isSeparator_of_isBlank (hv c hc)
  unfold kernel at hu' hv' ⊢
  calc (trim t).filter (fun c => !isSeparator c)
      = (u ++ trim t ++ v).filter fun c => !isSeparator c := by
        rw [List.filter_append, List.filter_append, hu', hv', List.nil_append, List.append_nil]
    _ = t.filter fun c => !isSeparator c := by rw [← ht]

/-- A text with at most one character between its separators has the names of that character. -/
theorem names_kernel {t : Text} (h : (kernel t).length ≤ 1) : names (kernel t) = names t := by
  cases hk : kernel t with
  | nil =>
    rw [kernel_eq_nil_iff] at hk
    exact (names_append_right (s := t) [] hk).symm.trans (by rw [List.append_nil])
  | cons c rest =>
    obtain rfl : rest = [] := by
      rw [hk, List.length_cons] at h
      exact List.eq_nil_of_length_eq_zero (by omega)
    obtain ⟨u, v, rfl, hu, _, hv⟩ := List.filter_eq_cons_iff.mp hk
    have hu' : ∀ d ∈ u, isSeparator d = true := by simpa using hu
    have hv' : ∀ d ∈ v, isSeparator d = true := by simpa using hv
    rw [names_append_right _ hu']
    exact (names_append_of_isSeparator [c] hv').symm

end Text

namespace Field

open Piece (isSeparator)
open Text (names names_trim kernel)

/-- What is read on the two sides of commas and blanks independently, and not from the blanks around
a text, is read from the tokens of a field. -/
theorem flatMap_cut {α : Type} {f : Text → List α}
    (hf : ∀ c, c = ',' ∨ Text.isBlank c = true → ∀ s t, f (s ++ c :: t) = f s ++ f t)
    (htrim : ∀ t, f (Text.trim t) = f t) (hnil : f [] = []) (field : Text) :
    (cut field).flatMap f = f field := by
  unfold cut
  split
  · rw [List.flatMap_map]
    simp only [htrim]
    exact Text.flatMap_splitOnP (fun c hc => hf c (.inl (beq_iff_eq.mp hc))) field
  · have hempty : ∀ words : List Text, (words.filter (· ≠ [])).flatMap f = words.flatMap f := by
      intro words
      induction words with
      | nil => rfl
      | cons word words ih => cases word <;> simpa [hnil] using ih
    unfold Text.words
    rw [hempty]
    exact Text.flatMap_splitOnP (fun c hc => hf c (.inr hc)) field

theorem isSeparator_of_cut {c : Char} (h : c = ',' ∨ Text.isBlank c = true) :
    isSeparator c = true := by
  rcases h with rfl | h
  · decide
  · exact Piece.isSeparator_of_isBlank h

/-- Cutting a field keeps its names. -/
theorem flatMap_names_cut (field : Text) : (cut field).flatMap names = names field :=
  flatMap_cut (fun _ hc => Text.names_append_cons (isSeparator_of_cut hc)) names_trim Text.names_nil
    field

/-- A token without its closing parentheses has the same names, if one letter is left of it. -/
theorem names_trim_filter {t : Text} (h : (Text.trim (t.filter (· ≠ ')'))).length = 1) :
    names (Text.trim (t.filter (· ≠ ')'))) = names t := by
  have hkernel : kernel (Text.trim (t.filter (· ≠ ')'))) = kernel t := by
    rw [Text.kernel_trim]
    unfold kernel
    rw [List.filter_filter]
    refine List.filter_congr fun c _ => ?_
    by_cases hc : c = ')'
    · subst hc
      decide
    · simp [hc]
  have hle : (kernel t).length ≤ 1 := by
    rw [← hkernel, ← h]
    exact List.length_filter_le _ _
  rw [← Text.names_kernel hle, ← hkernel]
  exact (Text.names_kernel (by rw [hkernel]; exact hle)).symm

/-- What it takes for the parentheses of a field to be taken off: there is a closing one,
the first token has it at its end or does not have it, and the index, if there is one, is on
the right side of it. -/
theorem exists_of_parenthesised {field inner : Text} {rest : List Text} {f : Field}
    (h : parenthesised field inner rest = .ok f) :
    ')' ∈ field ∧ ∃ value close, inner = value ++ close ∧ ')' ∉ value ∧
      (close = [] ∨ close = [')']) ∧
      f.tokens = Text.trim value :: rest.map (fun t => Text.trim (t.filter (· ≠ ')'))) ∧
      misplacedIndex? (!close.isEmpty) f.tokens = none := by
  unfold parenthesised at h
  split at h
  · cases h
  · rename_i hclose
    simp only at h
    split at h
    · cases h
    · rename_i hbehind
      split at h
      · cases h
      · rename_i hindex
        cases h
        refine ⟨by simpa using hclose, _, _, List.takeWhile_append_dropWhile.symm, ?_, ?_, rfl,
          hindex⟩
        · intro hmem
          simpa using List.all_eq_true.mp List.all_takeWhile _ hmem
        · cases hd : inner.dropWhile (· ≠ ')') with
          | nil => exact .inl rfl
          | cons c behind =>
            have hhead := List.head?_dropWhile_not (fun c => decide (c ≠ ')')) inner
            rw [hd, List.length_cons] at hbehind
            rw [hd] at hhead
            obtain rfl : behind = [] := List.eq_nil_of_length_eq_zero (by omega)
            obtain rfl : c = ')' := by simpa using hhead
            exact .inr rfl

/-- The tokens of a field in parentheses. -/
theorem tokens_of_parenthesised {field inner : Text} {rest : List Text} {f : Field}
    (h : parenthesised field inner rest = .ok f) :
    ∃ value, names value = names inner ∧
      f.tokens = Text.trim value :: rest.map fun t => Text.trim (t.filter (· ≠ ')')) := by
  obtain ⟨-, value, close, rfl, -, hclose, htokens, -⟩ := exists_of_parenthesised h
  refine ⟨value, (Text.names_append_of_isSeparator value ?_).symm, htokens⟩
  rcases hclose with rfl | rfl
  · exact nofun
  · simp only [List.mem_singleton, forall_eq]
    decide

theorem indirect_of_parenthesised {field inner : Text} {rest : List Text} {f : Field}
    (h : parenthesised field inner rest = .ok f) : f.indirect = true := by
  unfold parenthesised at h
  split at h
  · cases h
  · simp only at h
    split at h
    · cases h
    · split at h <;> cases h
      rfl

/-- **The tokens of a field** are its parts, unless it is indirect. Then they are the value in the
first part and the other parts without closing parentheses. -/
theorem tokens_of_ofText {text : Text} {f : Field} (h : ofText text = .ok f) :
    (f.indirect = false ∧ f.tokens = cut (Text.trim text)) ∨
      (f.indirect = true ∧ ∃ first rest value, cut (Text.trim text) = first :: rest ∧
        names value = names first ∧
        f.tokens = Text.trim value :: rest.map fun t => Text.trim (t.filter (· ≠ ')'))) := by
  unfold ofText at h
  simp only at h
  split at h
  · rename_i hnil
    cases h
    exact .inl ⟨rfl, hnil.symm⟩
  · rename_i first rest hcons
    split at h
    · split at h
      · rename_i inner _
        obtain ⟨value, hvalue, htokens⟩ := tokens_of_parenthesised h
        have hopen : names ('(' :: inner) = names inner := Text.names_cons (by decide) inner
        exact .inr ⟨indirect_of_parenthesised h, _, rest, value, hcons, hvalue.trans hopen.symm,
          htokens⟩
      · cases h
    · split at h
      · cases h
      · cases h
        exact .inl ⟨rfl, hcons.symm⟩

/-- **The tokens of a field have the names of the field**, if the tokens behind the first, which
hold an index, are single letters. -/
theorem flatMap_names_of_ofText {text : Text} {f : Field} (h : ofText text = .ok f)
    (hindex : ∀ t ∈ f.tokens.tail, t.length = 1) : f.tokens.flatMap names = names text := by
  have hcut := flatMap_names_cut (Text.trim text)
  rw [names_trim] at hcut
  obtain ⟨-, htokens⟩ | ⟨-, first, rest, value, hparts, hvalue, htokens⟩ := tokens_of_ofText h
  · rw [htokens, hcut]
  · rw [htokens, List.tail_cons] at hindex
    rw [htokens, ← hcut, hparts, List.flatMap_cons, List.flatMap_cons, names_trim, hvalue,
      List.flatMap_map]
    congr 1
    refine List.flatMap_congr fun t ht => ?_
    exact names_trim_filter (hindex _ (List.mem_map_of_mem ht))

end Field

end Micro65
