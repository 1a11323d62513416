import Micro65.Proofs.Literal
import Micro65.Proofs.Operand.Names
/-!
# Replacing labels in a token

In an operand every identifier other than a register becomes a literal with the sign `$`
(`Labelling`). A token that is one literal after this was one piece before it: a numeral, which has
not changed, or a single label (`Labelling.literal_token`). The reason is that a numeral and an
identifier take all the letters and digits they can get, so whatever follows one of them starts with
a character that no literal has after its first. An index, and the accumulator, are single letters
after the replacement only if they were before (`Labelling.register_token`).
-/

namespace Micro65

/-- Gives an identifier of an operand the text that stands for it. A register stands for itself. -/
def Label.replacement {ε : Type} (labelText : Text → Except ε Text) (name : Text) :
    Except ε (Option Text) :=
  if isRegister name then pure none else some <$> labelText name

/-- Labels are replaced by literals with the sign `$`. -/
def Labelling {ε : Type} (labelText : Text → Except ε Text) : Prop :=
  ∀ name x, labelText name = .ok x → ∃ digits, x = '$' :: digits

/-- The text that a piece becomes. -/
def Piece.Becomes {ε : Type} (labelText : Text → Except ε Text) : Piece → Text → Prop
  | .identifier name, x => if Label.isRegister name then x = name else labelText name = .ok x
  | .numeral t, x => x = t
  | .other c, x => x = [c]

section

variable {ε : Type} {labelText : Text → Except ε Text}

theorem Piece.substituted_eq_ok_iff {p : Piece} {x : Text} :
    p.substituted (Label.replacement labelText) = .ok x ↔ p.Becomes labelText x := by
  cases p with
  | numeral t => simp [substituted, Becomes, text, pure, Except.pure, eq_comm]
  | other c => simp [substituted, Becomes, text, pure, Except.pure, eq_comm]
  | identifier name =>
    cases hregister : Label.isRegister name with
    | true =>
      simp only [substituted, Becomes, Label.replacement, hregister, if_true]
      constructor
      · intro h
        cases h
        rfl
      · intro h
        rw [h]
        rfl
    | false =>
      cases hlabel : labelText name with
      | error e => simp [substituted, Becomes, Label.replacement, hregister, hlabel]
      | ok y => simp [substituted, Becomes, Label.replacement, hregister, hlabel]

/-! ## One piece at a time -/

@[simp] theorem substitute_nil : substitute (Label.replacement labelText) [] = .ok [] := by
  unfold substitute
  rw [Piece.pieces_nil]
  rfl

/-- A token becomes what its first piece becomes, and behind it what the rest becomes. -/
theorem substitute_cons_eq_ok_iff {c : Char} {rest out : Text} :
    substitute (Label.replacement labelText) (c :: rest) = .ok out ↔
      ∃ x y, (Piece.scan c rest).1.Becomes labelText x ∧
        substitute (Label.replacement labelText) (Piece.scan c rest).2 = .ok y ∧ out = x ++ y := by
  unfold substitute
  rw [Piece.pieces_cons, List.mapM_cons]
  cases hx : (Piece.scan c rest).1.substituted (Label.replacement labelText) with
  | error e =>
    constructor
    · intro h
      cases h
    · rintro ⟨x, y, hbecomes, -, -⟩
      rw [← Piece.substituted_eq_ok_iff, hx] at hbecomes
      cases hbecomes
  | ok x =>
    have hbecomes := Piece.substituted_eq_ok_iff.mp hx
    cases hy : (Piece.pieces (Piece.scan c rest).2).mapM
        (Piece.substituted (Label.replacement labelText)) with
    | error e =>
      constructor
      · intro h
        cases h
      · rintro ⟨x', y, -, h, -⟩
        cases h
    | ok texts =>
      constructor
      · intro h
        cases h
        exact ⟨x, texts.flatten, hbecomes, rfl, rfl⟩
      · rintro ⟨x', y, hbecomes', h, rfl⟩
        rw [← Piece.substituted_eq_ok_iff, hx] at hbecomes'
        cases hbecomes'
        cases h
        rfl

/-- What has been replaced is replaced by the same if more labels have a text. -/
theorem substitute_mono {labelText' : Text → Except ε Text}
    (h : ∀ name x, labelText name = .ok x → labelText' name = .ok x) {token out : Text}
    (htoken : substitute (Label.replacement labelText) token = .ok out) :
    substitute (Label.replacement labelText') token = .ok out := by
  induction token using Piece.scan_induction generalizing out with
  | nil => simpa using htoken
  | cons c rest ih =>
    obtain ⟨x, y, hx, hy, rfl⟩ := substitute_cons_eq_ok_iff.mp htoken
    refine substitute_cons_eq_ok_iff.mpr ⟨x, y, ?_, ih hy, rfl⟩
    cases hp : (Piece.scan c rest).1 with
    | numeral t => rwa [hp] at hx
    | other d => rwa [hp] at hx
    | identifier name =>
      rw [hp] at hx
      simp only [Piece.Becomes] at hx ⊢
      split at hx
      · rename_i hregister
        rwa [if_pos hregister]
      · rename_i hregister
        rw [if_neg hregister]
        exact h name x hx

/-- A token without names becomes itself. -/
theorem substitute_of_names_eq_nil {token : Text} (h : Text.names token = []) :
    substitute (Label.replacement labelText) token = .ok token := by
  induction token using Piece.scan_induction with
  | nil => exact substitute_nil
  | cons c rest ih =>
    unfold Text.names at h ih
    rw [Piece.pieces_cons, List.filterMap_cons] at h
    have htext := Piece.text_scan_append c rest
    split at h
    · rename_i hname
      refine substitute_cons_eq_ok_iff.mpr ⟨(Piece.scan c rest).1.text, _, ?_, ih h, htext.symm⟩
      cases hp : (Piece.scan c rest).1 with
      | numeral t => rfl
      | other d => rfl
      | identifier name =>
        rw [hp] at hname
        simp only [Piece.name?, ite_eq_left_iff, reduceCtorEq, imp_false] at hname
        simp only [Piece.Becomes]
        rw [if_pos (by simpa using hname)]
        rfl
    · cases h

end

namespace Piece

/-- A first piece that is one other character does not start a numeral. -/
theorem scan_eq_other {c d : Char} {rest : Text} (h : (scan c rest).1 = .other d) :
    d = c ∧ (scan c rest).2 = rest ∧ startsNumeral c = false := by
  unfold scan at h ⊢
  split at h
  · cases h
  · rename_i hnumeral
    split at h
    · cases h
    · rename_i hidentifier
      cases h
      simp [hnumeral, hidentifier]

theorem scan_eq_identifier {c : Char} {rest name : Text}
    (h : (scan c rest).1 = .identifier name) :
    startsNumeral c = false ∧ startsIdentifier c = true ∧ ∃ more, name = c :: more := by
  unfold scan at h
  split at h
  · cases h
  · rename_i hnumeral
    split at h
    · rename_i hidentifier
      cases h
      exact ⟨by simpa using hnumeral, hidentifier, _, rfl⟩
    · cases h

theorem scan_eq_numeral {c : Char} {rest t : Text} (h : (scan c rest).1 = .numeral t) :
    startsNumeral c = true ∧ ∃ more, t = c :: more := by
  unfold scan at h
  split at h
  · rename_i hnumeral
    cases h
    exact ⟨hnumeral, _, rfl⟩
  · split at h <;> cases h

/-- A letter or digit behind the first piece means that this is one other character: numerals and
identifiers take all letters and digits that follow. -/
theorem scan_eq_other_of_isAlphanum {c d : Char} {rest more : Text}
    (h : (scan c rest).2 = d :: more) (hd : d.isAlphanum = true) :
    (scan c rest).1 = .other c := by
  have hstop : ∀ p : Char → Bool, rest.dropWhile p = d :: more → p d = false := by
    intro p hp
    exact Text.eq_false_of_mem_head?_dropWhile (t := rest) (by rw [hp]; rfl)
  unfold scan at h ⊢
  split at h
  · have := hstop _ h
    rw [hd] at this
    cases this
  · split at h
    · have := hstop _ h
      simp [Label.isNameChar, hd] at this
    · rename_i hnumeral hidentifier
      simp [hnumeral, hidentifier]

end Piece

namespace Labelling

variable {ε : Type} {labelText : Text → Except ε Text}

/-- What a first piece becomes starts as the piece does, or with the sign of a replaced label. -/
theorem head_of_becomes (hl : Labelling labelText) {c : Char} {rest x : Text}
    (h : (Piece.scan c rest).1.Becomes labelText x) :
    (∃ y, x = c :: y) ∨ Piece.startsIdentifier c = true ∧ ∃ y, x = '$' :: y := by
  cases hp : (Piece.scan c rest).1 with
  | numeral t =>
    rw [hp] at h
    obtain ⟨_, more, rfl⟩ := Piece.scan_eq_numeral hp
    exact .inl ⟨more, h⟩
  | other d =>
    rw [hp] at h
    obtain ⟨rfl, _, _⟩ := Piece.scan_eq_other hp
    exact .inl ⟨[], h⟩
  | identifier name =>
    rw [hp] at h
    obtain ⟨_, hstart, more, rfl⟩ := Piece.scan_eq_identifier hp
    simp only [Piece.Becomes] at h
    split at h
    · exact .inl ⟨more, h⟩
    · exact .inr ⟨hstart, hl _ _ h⟩

/-- The second piece of what becomes a literal starts behind the first character of the literal, so
with a letter or a digit. -/
theorem isAlphanum_of_becomes (hl : Labelling labelText) {c d e : Char}
    {rest more x x' y tail : Text} (hx : (Piece.scan c rest).1.Becomes labelText x)
    (hx' : (Piece.scan d more).1.Becomes labelText x') (htoken : x ++ (x' ++ y) = e :: tail)
    (htail : ∀ z ∈ tail, z.isAlphanum = true) : d.isAlphanum = true := by
  have hhead : ∀ z z', x' = z :: z' → z.isAlphanum = true := by
    rintro z z' rfl
    refine htail z ?_
    rcases head_of_becomes hl hx with ⟨u, rfl⟩ | ⟨-, u, rfl⟩
    · obtain ⟨-, rfl⟩ := List.cons.inj htoken
      simp
    · obtain ⟨-, rfl⟩ := List.cons.inj htoken
      simp
  rcases head_of_becomes hl hx' with ⟨u, hu⟩ | ⟨-, u, hu⟩
  · exact hhead d u hu
  · have := hhead '$' u hu
    cases this

/-- A token that becomes a literal with a size is a single piece. -/
theorem exists_piece_of_sized? (hl : Labelling labelText) {token out : Text}
    (h : substitute (Label.replacement labelText) token = .ok out) {w : Width} {n : Nat}
    (hs : Literal.sized? out = some (w, n)) :
    ∃ p, Piece.pieces token = [p] ∧ p.Becomes labelText out := by
  obtain ⟨e, tail, htoken, hstart, htail⟩ := Literal.shape_of_sized? hs
  cases token with
  | nil =>
    rw [substitute_nil, htoken] at h
    cases h
  | cons c rest =>
    obtain ⟨x, y, hx, hy, rfl⟩ := substitute_cons_eq_ok_iff.mp h
    rw [Piece.pieces_cons]
    cases hrest : (Piece.scan c rest).2 with
    | nil =>
      rw [hrest, substitute_nil] at hy
      cases hy
      exact ⟨_, by rw [Piece.pieces_nil], by rw [List.append_nil]; exact hx⟩
    | cons d more =>
      -- The first piece would have taken the letter or digit that starts the second.
      exfalso
      rw [hrest] at hy
      obtain ⟨x', y', hx', -, rfl⟩ := substitute_cons_eq_ok_iff.mp hy
      have hd := isAlphanum_of_becomes hl hx hx' htoken htail
      have hother := Piece.scan_eq_other_of_isAlphanum hrest hd
      rw [hother] at hx
      obtain ⟨rfl, -⟩ := List.cons.inj ((congrArg (· ++ _) hx).symm.trans htoken)
      have hnumeral := (Piece.scan_eq_other hother).2.2
      rw [hstart] at hnumeral
      cases hnumeral

/-- **A token that becomes a literal with a size** has no names and stays as it is, or is a single
label. -/
theorem literal_token (hl : Labelling labelText) {token out : Text}
    (h : substitute (Label.replacement labelText) token = .ok out) {w : Width} {n : Nat}
    (hs : Literal.sized? out = some (w, n)) :
    (Text.names token = [] ∧ out = token) ∨
      ∃ name, Piece.pieces token = [.identifier name] ∧ Label.isRegister name = false ∧
        labelText name = .ok out := by
  obtain ⟨p, hp, hbecomes⟩ := exists_piece_of_sized? hl h hs
  have htext := Piece.flatMap_text_pieces token
  rw [hp, List.flatMap_cons, List.flatMap_nil, List.append_nil] at htext
  unfold Text.names
  rw [hp]
  cases p with
  | numeral t => exact .inl ⟨rfl, hbecomes.trans htext⟩
  | other c => exact .inl ⟨rfl, hbecomes.trans htext⟩
  | identifier name =>
    simp only [Piece.Becomes] at hbecomes
    cases hregister : Label.isRegister name with
    | false => exact .inr ⟨name, rfl, hregister, by simpa [hregister] using hbecomes⟩
    | true =>
      rw [if_pos hregister] at hbecomes
      exact .inl ⟨by simp [Piece.name?, hregister], hbecomes.trans htext⟩

/-- A label alone becomes its literal. -/
theorem substitute_of_pieces {token name : Text} (hp : Piece.pieces token = [.identifier name])
    (hregister : Label.isRegister name = false) :
    substitute (Label.replacement labelText) token = labelText name := by
  unfold substitute
  rw [hp, List.mapM_cons, List.mapM_nil]
  simp only [Piece.substituted, Label.replacement, hregister, Bool.false_eq_true, if_false]
  cases labelText name with
  | error e => rfl
  | ok x => exact congrArg Except.ok (List.append_nil x)

theorem substitute_immediate_eq_ok_iff {rest out : Text} :
    substitute (Label.replacement labelText) ('#' :: rest) = .ok out ↔
      ∃ value, substitute (Label.replacement labelText) rest = .ok value ∧ out = '#' :: value := by
  have hscan : Piece.scan '#' rest = (.other '#', rest) := Piece.scan_separator (by decide) rest
  rw [substitute_cons_eq_ok_iff, hscan]
  constructor
  · rintro ⟨x, y, rfl, hy, rfl⟩
    exact ⟨y, hy, rfl⟩
  · rintro ⟨value, hvalue, rfl⟩
    exact ⟨['#'], value, rfl, hvalue, rfl⟩

/-- A sign `#` at the start of a token was there before the replacement. -/
theorem immediate_token (hl : Labelling labelText) {token value : Text}
    (h : substitute (Label.replacement labelText) token = .ok ('#' :: value)) :
    ∃ rest, token = '#' :: rest ∧ substitute (Label.replacement labelText) rest = .ok value := by
  cases token with
  | nil =>
    rw [substitute_nil] at h
    cases h
  | cons c rest =>
    obtain ⟨x, y, hx, -, hxy⟩ := substitute_cons_eq_ok_iff.mp h
    rcases head_of_becomes hl hx with ⟨u, rfl⟩ | ⟨-, u, rfl⟩
    · obtain ⟨rfl, -⟩ := List.cons.inj hxy
      obtain ⟨value', hvalue, heq⟩ := substitute_immediate_eq_ok_iff.mp h
      cases heq
      exact ⟨rest, rfl, hvalue⟩
    · cases hxy

theorem eq_nil_of_substitute (hl : Labelling labelText) {token : Text}
    (h : substitute (Label.replacement labelText) token = .ok []) : token = [] := by
  cases token with
  | nil => rfl
  | cons c rest =>
    obtain ⟨x, y, hx, -, hxy⟩ := substitute_cons_eq_ok_iff.mp h
    obtain ⟨rfl, -⟩ := List.append_eq_nil_iff.mp hxy.symm
    rcases head_of_becomes hl hx with ⟨u, hu⟩ | ⟨-, u, hu⟩ <;> cases hu

/-- A piece that becomes something with another start than a label has not changed. -/
theorem eq_text_of_becomes (hl : Labelling labelText) {p : Piece} {c : Char} {x : Text}
    (h : p.Becomes labelText (c :: x)) (hc : c ≠ '$') : c :: x = p.text := by
  cases p with
  | numeral t => exact h
  | other d => exact h
  | identifier name =>
    simp only [Piece.Becomes] at h
    split at h
    · exact h
    · obtain ⟨digits, hdigits⟩ := hl _ _ h
      exact absurd (List.cons.inj hdigits).1 hc

/-- A single character, unless it is the sign of a label, was there before the replacement. -/
theorem single_token (hl : Labelling labelText) {token : Text} {c : Char}
    (h : substitute (Label.replacement labelText) token = .ok [c]) (hc : c ≠ '$') :
    token = [c] := by
  cases token with
  | nil =>
    rw [substitute_nil] at h
    cases h
  | cons d rest =>
    obtain ⟨x, y, hx, hy, hxy⟩ := substitute_cons_eq_ok_iff.mp h
    rcases head_of_becomes hl hx with ⟨u, rfl⟩ | ⟨-, u, rfl⟩
    · obtain ⟨rfl, huy⟩ := List.cons.inj hxy
      obtain ⟨rfl, rfl⟩ := List.append_eq_nil_iff.mp huy.symm
      rw [← Piece.text_scan_append c rest, eq_nil_of_substitute hl hy, List.append_nil]
      exact (eq_text_of_becomes hl hx hc).symm
    · exact absurd (List.cons.inj hxy).1 hc

/-- The name of a register after the replacement was there before it, and is no name of a label. -/
theorem register_token (hl : Labelling labelText) {token out : Text} {r : Char}
    (h : substitute (Label.replacement labelText) token = .ok out) (hr : r ∈ ['A', 'X', 'Y'])
    (hout : Text.SameLetters out [r]) :
    token = out ∧ token.length = 1 ∧ Text.names token = [] := by
  have hlength : out.length = 1 := by
    simpa [Text.upper] using congrArg List.length hout
  obtain ⟨c, rfl⟩ := List.length_eq_one_iff.mp hlength
  have hupper : c.toUpper = r.toUpper := by
    simpa [Text.SameLetters, Text.upper] using hout
  have hc : c ≠ '$' := by
    rintro rfl
    simp only [List.mem_cons, List.not_mem_nil, or_false] at hr
    rcases hr with rfl | rfl | rfl <;> exact absurd hupper (by decide)
  obtain rfl := single_token hl h hc
  refine ⟨rfl, rfl, ?_⟩
  have hregister : Label.isRegister [c] = true := by
    simp only [List.mem_cons, List.not_mem_nil, or_false] at hr
    unfold Label.isRegister
    rw [show Text.upper [c] = [c.toUpper] from rfl, hupper]
    rcases hr with rfl | rfl | rfl <;> decide
  unfold Text.names
  rw [Piece.pieces_cons]
  unfold Piece.scan
  split
  · simp [Piece.name?]
  · split <;> simp [Piece.name?, hregister]

end Labelling

end Micro65
