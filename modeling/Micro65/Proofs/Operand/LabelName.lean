import Micro65.Proofs.Operand.Grammar
/-!
# Operands with one name

What may name a label is said once, where labels are defined (`Label.check`), and what an operand
takes for a name is said elsewhere (`Piece.scan`). The two agree: a name that can be defined is one
identifier (`Label.pieces_of_check`). An operand that consists of a name and perhaps an index is cut
into the two, and whatever word is put in the place of the name, the mode of the operand is the one
that it is written in (`Label.Reference.exists_field`).
-/

namespace Micro65

/-! ## Names as tokens -/

/-- The names in a text are its identifiers, without those of registers. -/
theorem Text.mem_names_iff {t name : Text} :
    name ∈ names t ↔ name ∈ identifiers t ∧ Label.isRegister name = false := by
  unfold names identifiers
  simp only [List.mem_filterMap]
  constructor
  · rintro ⟨p, hp, hname⟩
    cases p with
    | numeral | other => cases hname
    | identifier found =>
      simp only [Piece.name?] at hname
      split at hname
      · cases hname
      · rename_i hregister
        cases hname
        exact ⟨⟨_, hp, rfl⟩, by simpa using hregister⟩
  · rintro ⟨⟨p, hp, hname⟩, hregister⟩
    cases p with
    | numeral | other => cases hname
    | identifier found =>
      cases hname
      exact ⟨_, hp, by simp [Piece.name?, hregister]⟩

namespace Label

variable {name : Text}

/-- A name starts with a letter and is not the name of a register. -/
theorem isAlpha_of_check {first : Char} {rest : Text} (h : check (first :: rest) = .ok ()) :
    first.isAlpha = true ∧ isRegister (first :: rest) = false := by
  obtain ⟨-, halpha, -, hregister⟩ := check_cons_eq_ok_iff.mp h
  exact ⟨halpha, hregister⟩

theorem isRegister_of_check (h : check name = .ok ()) : isRegister name = false := by
  cases name with
  | nil => cases h
  | cons first rest => exact (isAlpha_of_check h).2

/-- **A name that can be defined is one identifier.** -/
theorem pieces_of_check (h : check name = .ok ()) : Piece.pieces name = [.identifier name] := by
  have hname := (isNameChar_of_check h).2
  cases name with
  | nil => cases h
  | cons first rest =>
    rw [List.forall_mem_cons] at hname
    have hstart : Piece.startsIdentifier first = true := by
      simp [Piece.startsIdentifier, (isAlpha_of_check h).1]
    have hpieces : Piece.pieces ((Piece.identifier (first :: rest)).text ++ []) = _ :=
      Piece.pieces_text_append (.identifier first rest hstart hname.2) (by simp)
    rwa [List.append_nil, Piece.pieces_nil] at hpieces

end Label

/-! ## Fields with one name -/

namespace Field

variable {name : Text} (h : Label.check name = .ok ())
include h

theorem ofText_name : ofText name = .ok ⟨false, [name]⟩ := by
  have hblank := Label.isBlank_of_check h
  exact ofText_of_cut hblank
    (cut_of_solid (Label.isNameChar_of_check h).1 hblank (Label.not_mem_of_check h (by decide)))
    (Label.not_mem_of_check h (by decide)) (Label.not_mem_of_check h (by decide))

/-- **A name with an index** is cut into the two, whatever blanks stand around the comma. -/
theorem ofText_indexed_name {u v : Text} (hu : Text.AllBlank u) (hv : Text.AllBlank v)
    {register : Char} (hregister : Label.isNameChar register = true) :
    ofText (name ++ u ++ ',' :: (v ++ [register])) = .ok ⟨false, [name, [register]]⟩ := by
  have hblank := Label.isBlank_of_check h
  have hindex := Label.isBlank_of_isNameChar hregister
  have hne : ∀ c, Label.isNameChar c = false → c ≠ register := by
    rintro c hc rfl
    rw [hregister] at hc
    cases hc
  -- No mark of a field stands in the name, in the blanks or in the index.
  have hmark : ∀ c, Label.isNameChar c = false → Text.isBlank c = false →
      c ∉ name ++ u ∧ c ∉ v ++ [register] := by
    intro c hname hc
    simp only [List.mem_append, List.mem_singleton, not_or]
    exact ⟨⟨Label.not_mem_of_check h hname, hu.not_mem hc⟩, hv.not_mem hc, hne c hname⟩
  have hcomma := hmark ',' (by decide) (by decide)
  have hclose := hmark ')' (by decide) (by decide)
  have htrim : Text.trim (name ++ u ++ ',' :: (v ++ [register])) =
      name ++ u ++ ',' :: (v ++ [register]) := by
    obtain ⟨first, rest, rfl⟩ := List.exists_cons_of_ne_nil (Label.isNameChar_of_check h).1
    have htext : (first :: rest) ++ u ++ ',' :: (v ++ [register]) =
        first :: ((rest ++ u ++ ',' :: v) ++ [register]) := by simp
    rw [htext]
    exact Text.trim_eq_self (hblank first List.mem_cons_self) _ hindex
  have hcut : cut (name ++ u ++ ',' :: (v ++ [register])) = [name, [register]] := by
    rw [cut_append_comma hcomma.1 hcomma.2, Text.trim_append_of_allBlank name hu,
      Text.trim_append_left hv, Text.trim_of_forall hblank,
      Text.trim_of_forall (by simpa using hindex)]
  unfold ofText
  simp only [htrim, hcut,
    if_neg (Label.not_mem_of_check h (show Label.isNameChar '(' = false by decide))]
  rw [if_neg]
  simp only [List.mem_append, List.mem_cons, not_or] at hclose ⊢
  exact ⟨hclose.1, by decide, hclose.2⟩

end Field

namespace Label

/-- **An operand that refers to a name** without parentheses: the name alone, or with an
index behind a comma, which may have blanks on both sides. The mode is the one that the
operand is written in. -/
inductive Reference (name : Text) : Mode → Text → Prop
  | alone : Reference name .absolute name
  | indexX {u v : Text} {register : Char} (hregister : register ∈ ['X', 'x'])
      (hu : Text.AllBlank u) (hv : Text.AllBlank v) :
      Reference name .absoluteX (name ++ u ++ ',' :: (v ++ [register]))
  | indexY {u v : Text} {register : Char} (hregister : register ∈ ['Y', 'y'])
      (hu : Text.AllBlank u) (hv : Text.AllBlank v) :
      Reference name .absoluteY (name ++ u ++ ',' :: (v ++ [register]))

variable {name operand : Text} {mode : Mode}

/-- Tokens without a name that make an operand of the mode of every word that is put in front of
them. -/
structure Completes (behind : List Text) (mode : Mode) : Prop where
  names_eq_nil : ∀ t ∈ behind, Text.names t = []
  forms : ∀ (m : Mnemonic) (value : UInt16) (token : Text),
    Literal.Denotes token .word value.toNat →
      ModeChoice.Forms m mode (token :: behind) (some value)

/-- A register alone is a letter and holds no name. -/
theorem names_register {register : Char} (h : register ∈ ['X', 'x', 'Y', 'y']) :
    isNameChar register = true ∧ Text.names [register] = [] := by
  unfold Text.names
  rw [Piece.pieces_cons]
  simp only [List.mem_cons, List.not_mem_nil, or_false] at h
  rcases h with rfl | rfl | rfl | rfl <;>
    simp [Piece.scan, Piece.startsNumeral, Piece.startsIdentifier, Piece.name?, Label.isRegister,
      Label.registers, Text.upper, isNameChar]

theorem completes_register {register r : Char} (h : register ∈ ['X', 'x', 'Y', 'y'])
    (hletters : Text.SameLetters [register] [r]) (hindex : mode.index? = some r)
    (hwidth : mode.width? = some .word) : Completes [[register]] mode where
  names_eq_nil := by simpa using (names_register h).2
  forms _ _ _ hword := .indexed hindex hwidth hword hletters

/-- **The tokens of an operand that refers to a name**: the name, and what makes a word in its place
an operand of the mode. -/
theorem Reference.exists_field (hr : Reference name mode operand) (h : check name = .ok ()) :
    ∃ behind, Field.ofText operand = .ok ⟨false, name :: behind⟩ ∧ Completes behind mode := by
  cases hr with
  | alone =>
    exact ⟨[], Field.ofText_name h, nofun, fun _ _ _ hword => .address (by decide) rfl hword⟩
  | @indexX u v register hregister hu hv =>
    have hmem := List.mem_append_left ['Y', 'y'] hregister
    have hletters : Text.SameLetters [register] ['X'] := by
      obtain rfl | rfl := List.mem_pair.mp hregister <;> decide
    exact ⟨_, Field.ofText_indexed_name h hu hv (names_register hmem).1,
      completes_register hmem hletters rfl rfl⟩
  | @indexY u v register hregister hu hv =>
    have hmem := List.mem_append_right ['X', 'x'] hregister
    have hletters : Text.SameLetters [register] ['Y'] := by
      obtain rfl | rfl := List.mem_pair.mp hregister <;> decide
    exact ⟨_, Field.ofText_indexed_name h hu hv (names_register hmem).1,
      completes_register hmem hletters rfl rfl⟩

end Label

end Micro65
