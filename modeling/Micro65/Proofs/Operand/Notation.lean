import Micro65.Proofs.Operand.Pattern
import Micro65.Proofs.Operand.Substitution
import Micro65.Proofs.Statement.Line
import Micro65.Proofs.Text.Lines
/-!
# Operands written down

An operand is written as a hexadecimal literal with two digits for each of its bytes, and what its
mode puts around the literal (`Mode.written`). What is written reads back: the field is cut into the
literal and the index (`Field.ofText_written`), none of its tokens holds a name
(`Mode.names_of_mem_tokens`), and the first mode that accepts the tokens is the one that they were
written in, for every instruction that has this mode (`ModeChoice.ofTokens?_tokens`). The order of
the modes matters for one case, a byte without anything around it, which is a distance for a branch
and an address in the first page for any other instruction.
-/

namespace Micro65

namespace Text

/-- Whether the character stands in a literal, in a mnemonic or before an immediate byte. No text is
cut at such a character. -/
def isSolid (c : Char) : Bool :=
  c.isAlphanum || c = '$' || c = '#'

/-- A text of solid characters. -/
def Solid (t : Text) : Prop :=
  ∀ c ∈ t, isSolid c = true

theorem Solid.isBlank {t : Text} (h : Solid t) : ∀ c ∈ t, isBlank c = false := by
  intro c hc
  have hsolid := h c hc
  simp only [isSolid, Bool.or_eq_true, decide_eq_true_eq] at hsolid
  rcases hsolid with (halphanum | rfl) | rfl
  · exact Label.isBlank_of_isNameChar (by simp [Label.isNameChar, halphanum])
  · decide
  · decide

/-- A solid text has none of the characters that are not solid. -/
theorem Solid.not_mem {t : Text} (h : Solid t) {c : Char} (hc : isSolid c = false) : c ∉ t := by
  intro hmem
  rw [h c hmem] at hc
  cases hc

theorem isAlphanum_hexDigit {d : Nat} (h : d < 16) : (hexDigit d).isAlphanum = true := by
  have hall : ∀ d : Fin 16, (hexDigit d.val).isAlphanum = true := by decide
  exact hall ⟨d, h⟩

theorem isAlphanum_hex {places n : Nat} {c : Char} (h : c ∈ hex places n) :
    c.isAlphanum = true := by
  induction places generalizing n with
  | zero => cases h
  | succ places ih =>
    rw [hex] at h
    rcases List.mem_append.mp h with h | h
    · exact ih h
    · rw [List.mem_singleton.mp h]
      exact isAlphanum_hexDigit (Nat.mod_lt n (by decide))

end Text

/-! ## The notation -/

namespace Mode

/-- The index behind the literal. -/
def index? : Mode → Option Char
  | .zeroPageX | .absoluteX | .indirectX | .absoluteIndexedIndirect => some 'X'
  | .zeroPageY | .absoluteY | .indirectY => some 'Y'
  | _ => none

/-- What stands before the literal. -/
def before : Mode → Text
  | .immediate => ['#']
  | .indirect | .absoluteIndexedIndirect | .indirectX | .indirectY | .zeroPageIndirect => ['(']
  | _ => []

/-- What stands behind the literal. The index X stands before a closing parenthesis,
the index Y behind it. -/
def behind : Mode → Text
  | .zeroPageX | .absoluteX => [',', 'X']
  | .zeroPageY | .absoluteY => [',', 'Y']
  | .indirectX | .absoluteIndexedIndirect => [',', 'X', ')']
  | .indirectY => [')', ',', 'Y']
  | .indirect | .zeroPageIndirect => [')']
  | _ => []

/-- A value with two hexadecimal digits for each operand byte of the mode. -/
def literal (mode : Mode) (value : UInt16) : Text :=
  '$' :: Text.hex (2 * mode.operandSize) value.toNat

/-- An operand as it is written in the mode. -/
def written (mode : Mode) (value : UInt16) : Text :=
  mode.before ++ mode.literal value ++ mode.behind

/-- The tokens that an operand in the mode is cut into. -/
def tokens (mode : Mode) (value : UInt16) : List Text :=
  (if mode = .immediate then '#' :: mode.literal value else mode.literal value) ::
    mode.index?.toList.map fun register => [register]

theorem solid_literal (mode : Mode) (value : UInt16) : Text.Solid (mode.literal value) := by
  intro c hc
  rcases List.mem_cons.mp hc with rfl | hc
  · decide
  · simp [Text.isSolid, Text.isAlphanum_hex hc]

/-- A written operand has no blanks and none of the marks of a line. -/
theorem unmarked_written (mode : Mode) (value : UInt16) :
    mode.written value ≠ [] ∧ (mode.written value).Unmarked := by
  have hliteral := mode.solid_literal value
  have haround : mode.before.Unmarked ∧ mode.behind.Unmarked := by
    cases mode <;> decide
  refine ⟨by simp [written, literal], ?_⟩
  unfold written Text.Unmarked
  simp only [List.forall_mem_append]
  refine ⟨⟨haround.1, fun c hc => ⟨hliteral.isBlank c hc, ?_, ?_⟩⟩, haround.2⟩
  · rintro rfl
    exact hliteral.not_mem (by decide) hc
  · rintro rfl
    exact hliteral.not_mem (by decide) hc

end Mode

/-! ## Cutting -/

namespace Field

section

variable {s t : Text}

theorem cut_of_solid (hne : t ≠ []) (hblank : ∀ c ∈ t, Text.isBlank c = false) (hcomma : ',' ∉ t) :
    cut t = [t] := by
  unfold cut Text.words
  rw [if_neg hcomma, List.splitOnP_eq_singleton hblank]
  simp [hne]

/-- A text with one comma is cut there, and the blanks around the comma are taken away. -/
theorem cut_append_comma (hs : ',' ∉ s) (ht : ',' ∉ t) :
    cut (s ++ ',' :: t) = [Text.trim s, Text.trim t] := by
  unfold cut
  rw [if_pos (by simp), Text.splitOn_append_cons hs, List.splitOn_eq_singleton ht]
  rfl

theorem cut_of_comma (hs : ∀ c ∈ s, Text.isBlank c = false) (ht : ∀ c ∈ t, Text.isBlank c = false)
    (hcomma : ',' ∉ s) (hcomma' : ',' ∉ t) : cut (s ++ ',' :: t) = [s, t] := by
  rw [cut_append_comma hcomma hcomma', Text.trim_of_forall hs, Text.trim_of_forall ht]

/-- A field without parentheses has the tokens that it is cut into. -/
theorem ofText_of_cut {first : Text} {rest : List Text} (hblank : ∀ c ∈ t, Text.isBlank c = false)
    (hcut : cut t = first :: rest) (hopen : '(' ∉ first) (hclose : ')' ∉ t) :
    ofText t = .ok ⟨false, first :: rest⟩ := by
  unfold ofText
  simp only [Text.trim_of_forall hblank, hcut, if_neg hopen, if_neg hclose]

/-- A field whose first token opens a parenthesis. -/
theorem ofText_of_cut_open {inner : Text} {rest : List Text}
    (hblank : ∀ c ∈ t, Text.isBlank c = false) (hcut : cut t = ('(' :: inner) :: rest) :
    ofText t = parenthesised t inner rest := by
  unfold ofText
  simp only [Text.trim_of_forall hblank, hcut, List.mem_cons_self, if_true]

/-- A first token that has its closing parenthesis at its end, or does not have it. -/
theorem parenthesised_eq {field behind : Text} {rest tokens : List Text} (hfield : ')' ∈ field)
    (hblank : ∀ c ∈ t, Text.isBlank c = false) (hclose : ')' ∉ t)
    (hbehind : behind = [] ∨ behind = [')'])
    (hrest : (rest.map fun u => Text.trim (u.filter (· ≠ ')'))) = tokens)
    (hindex : misplacedIndex? (!behind.isEmpty) (t :: tokens) = none) :
    parenthesised field (t ++ behind) rest = .ok ⟨true, t :: tokens⟩ := by
  have hnone : ∀ c ∈ t, decide (c ≠ ')') = true := by
    intro c hc
    rw [decide_eq_true_eq]
    rintro rfl
    exact hclose hc
  have hvalue : (t ++ behind).takeWhile (· ≠ ')') = t := by
    rw [List.takeWhile_append_of_pos hnone]
    rcases hbehind with rfl | rfl <;> simp
  have hdrop : (t ++ behind).dropWhile (· ≠ ')') = behind := by
    rw [List.dropWhile_append_of_pos hnone]
    rcases hbehind with rfl | rfl <;> simp
  have hlength : ¬ 1 < behind.length := by
    rcases hbehind with rfl | rfl <;> decide
  unfold parenthesised
  simp only [hfield, not_true_eq_false, if_false, hvalue, hdrop, hlength,
    Text.trim_of_forall hblank, hrest, hindex]

theorem ofText_literal (hne : t ≠ []) (ht : Text.Solid t) : ofText t = .ok ⟨false, [t]⟩ :=
  ofText_of_cut ht.isBlank (cut_of_solid hne ht.isBlank (ht.not_mem (by decide)))
    (ht.not_mem (by decide)) (ht.not_mem (by decide))

theorem ofText_indexed (ht : Text.Solid t) {r : Char} (hr : r ∈ ['X', 'Y']) :
    ofText (t ++ [',', r]) = .ok ⟨false, [t, [r]]⟩ := by
  have hindex : Text.Unmarked [',', r] ∧ Text.Unmarked [r] ∧ ',' ∉ [r] ∧ ')' ∉ [',', r] := by
    simp only [List.mem_cons, List.not_mem_nil, or_false] at hr
    rcases hr with rfl | rfl <;> decide
  obtain ⟨hbehind, hregister, hcomma, hclose⟩ := hindex
  have hcut : cut (t ++ [',', r]) = [t, [r]] :=
    cut_of_comma ht.isBlank hregister.isBlank (ht.not_mem (by decide)) hcomma
  refine ofText_of_cut (List.forall_mem_append.mpr ⟨ht.isBlank, hbehind.isBlank⟩) hcut
    (ht.not_mem (by decide)) ?_
  rw [List.mem_append]
  exact not_or.mpr ⟨ht.not_mem (by decide), hclose⟩

theorem ofText_parenthesised (ht : Text.Solid t) :
    ofText ('(' :: (t ++ [')'])) = .ok ⟨true, [t]⟩ := by
  have hfield : ∀ c ∈ '(' :: (t ++ [')']), Text.isBlank c = false := by
    simp only [List.forall_mem_cons, List.forall_mem_append]
    exact ⟨by decide, ht.isBlank, by decide, nofun⟩
  have hcomma : ',' ∉ '(' :: (t ++ [')']) := by
    simpa using ht.not_mem (by decide)
  rw [ofText_of_cut_open hfield (cut_of_solid (List.cons_ne_nil _ _) hfield hcomma)]
  exact parenthesised_eq (by simp) ht.isBlank (ht.not_mem (by decide)) (.inr rfl) rfl rfl

theorem ofText_indexed_inside (ht : Text.Solid t) :
    ofText ('(' :: (t ++ [',', 'X', ')'])) = .ok ⟨true, [t, ['X']]⟩ := by
  have hvalue : ∀ c ∈ '(' :: t, Text.isBlank c = false := by
    simp only [List.forall_mem_cons]
    exact ⟨by decide, ht.isBlank⟩
  have hindex : Text.Unmarked [',', 'X', ')'] ∧ Text.Unmarked ['X', ')'] := by
    decide
  have hcut : cut ('(' :: t ++ ',' :: ['X', ')']) = ['(' :: t, ['X', ')']] :=
    cut_of_comma hvalue hindex.2.isBlank (by simpa using ht.not_mem (by decide)) (by decide)
  have hfield : ∀ c ∈ '(' :: t ++ ',' :: ['X', ')'], Text.isBlank c = false :=
    List.forall_mem_append.mpr ⟨hvalue, hindex.1.isBlank⟩
  have htokens : parenthesised ('(' :: t ++ ',' :: ['X', ')']) (t ++ []) [['X', ')']] =
      .ok ⟨true, [t, ['X']]⟩ :=
    parenthesised_eq (by simp) ht.isBlank (ht.not_mem (by decide)) (.inl rfl) rfl rfl
  rw [List.append_nil] at htokens
  exact (ofText_of_cut_open hfield hcut).trans htokens

theorem ofText_indexed_outside (ht : Text.Solid t) :
    ofText ('(' :: (t ++ [')', ',', 'Y'])) = .ok ⟨true, [t, ['Y']]⟩ := by
  have hvalue : ∀ c ∈ '(' :: (t ++ [')']), Text.isBlank c = false := by
    simp only [List.forall_mem_cons, List.forall_mem_append]
    exact ⟨by decide, ht.isBlank, by decide, nofun⟩
  have htext : '(' :: (t ++ [')', ',', 'Y']) = '(' :: (t ++ [')']) ++ ',' :: ['Y'] := by simp
  have hindex : Text.Unmarked [',', 'Y'] ∧ Text.Unmarked ['Y'] := by
    decide
  have hcut : cut ('(' :: (t ++ [')']) ++ ',' :: ['Y']) = ['(' :: (t ++ [')']), ['Y']] :=
    cut_of_comma hvalue hindex.2.isBlank (by simpa using ht.not_mem (by decide)) (by decide)
  have hfield : ∀ c ∈ '(' :: (t ++ [')']) ++ ',' :: ['Y'], Text.isBlank c = false :=
    List.forall_mem_append.mpr ⟨hvalue, hindex.1.isBlank⟩
  rw [htext, ofText_of_cut_open hfield hcut]
  exact parenthesised_eq (by simp) ht.isBlank (ht.not_mem (by decide)) (.inr rfl) rfl rfl

end

/-- **A written operand is cut into its tokens.** -/
theorem ofText_written {mode : Mode} (h : mode.operandSize ≠ 0) (value : UInt16) :
    ofText (mode.written value) = .ok ⟨mode.isIndirect, mode.tokens value⟩ := by
  have hliteral := mode.solid_literal value
  have hne : mode.literal value ≠ [] := List.cons_ne_nil _ _
  cases mode with
  | implied | accumulator | stack => exact absurd rfl h
  | immediate =>
    have himmediate : Text.Solid ('#' :: Mode.immediate.literal value) := by
      simp only [Text.Solid, List.forall_mem_cons]
      exact ⟨by decide, hliteral⟩
    simp only [Mode.written, Mode.before, Mode.behind, List.append_nil]
    exact ofText_literal (List.cons_ne_nil _ _) himmediate
  | zeroPage | relative | absolute =>
    simp only [Mode.written, Mode.before, Mode.behind, List.nil_append, List.append_nil]
    exact ofText_literal hne hliteral
  | zeroPageX | zeroPageY | absoluteX | absoluteY =>
    simp only [Mode.written, Mode.before, Mode.behind, List.nil_append]
    exact ofText_indexed hliteral (by decide)
  | indirect | zeroPageIndirect => exact ofText_parenthesised hliteral
  | absoluteIndexedIndirect | indirectX => exact ofText_indexed_inside hliteral
  | indirectY => exact ofText_indexed_outside hliteral

end Field

/-! ## Reading -/

namespace Mode

/-- A literal is one numeral, which holds no name. -/
theorem names_literal (mode : Mode) (value : UInt16) : Text.names (mode.literal value) = [] := by
  have hdigits : (Text.hex (2 * mode.operandSize) value.toNat).dropWhile Char.isAlphanum = [] :=
    List.dropWhile_eq_nil_iff.mpr fun _ hc => Text.isAlphanum_hex hc
  unfold Text.names literal
  rw [Piece.pieces_cons]
  unfold Piece.scan
  rw [if_pos (by decide), hdigits, Piece.pieces_nil]
  rfl

/-- No token of a written operand holds a name. -/
theorem names_of_mem_tokens {mode : Mode} {value : UInt16} {t : Text} (h : t ∈ mode.tokens value) :
    Text.names t = [] := by
  rcases List.mem_cons.mp h with rfl | h
  · split
    · rw [Text.names_cons (by decide), names_literal]
    · exact names_literal mode value
  · obtain ⟨register, hregister, rfl⟩ := List.mem_map.mp h
    have hindex : register = 'X' ∨ register = 'Y' := by
      cases mode <;> simp_all [index?]
    unfold Text.names
    rw [Piece.pieces_cons]
    rcases hindex with rfl | rfl <;>
      simp [Piece.scan, Piece.startsNumeral, Piece.startsIdentifier, Piece.name?, Label.isRegister,
        Label.registers, Text.upper]

end Mode

namespace ModeChoice

/-- The literal of a mode has the size of the mode and the value that it was written for. -/
theorem literal?_literal {mode : Mode} {value : UInt16} (h : mode.Fits (some value)) (w : Width) :
    literal? w (mode.literal value) = if mode.width? = some w then some value else none := by
  obtain ⟨hpos, hlt⟩ := h
  have hle := mode.operandSize_le_two
  unfold Mode.literal Mode.width?
  obtain hone | htwo : mode.operandSize = 1 ∨ mode.operandSize = 2 := by omega
  · rw [hone] at hlt ⊢
    have hlow : (Word.low value).toNat = value.toNat := by
      rw [Word.toNat_low]
      exact Nat.mod_eq_of_lt hlt
    have hbyte : Text.hex (2 * 1) value.toNat = Text.hexByte (Word.low value) := by
      unfold Text.hexByte
      rw [hlow]
    rw [hbyte, literal?_hexByte, hlow, UInt16.ofNat_toNat]
    simp [eq_comm]
  · rw [htwo]
    have hword : Text.hex (2 * 2) value.toNat = Text.hexWord value := rfl
    rw [hword, literal?_hexWord]
    simp [eq_comm]

/-- The modes are tried one after the other. -/
theorem first?_cons (mode : Mode) (modes : List Mode) (indirect : Bool) (m : Mnemonic)
    (tokens : List Text) :
    first? (mode :: modes) indirect m tokens =
      (if mode.isIndirect = indirect then
        (accept? m mode tokens).map fun operand => ⟨mode, operand⟩
      else none).or (first? modes indirect m tokens) := by
  unfold first?
  rw [List.findSome?_cons]
  generalize (if mode.isIndirect = indirect then
    (accept? m mode tokens).map fun operand => (⟨mode, operand⟩ : ModeChoice) else none) = choice
  cases choice <;> rfl

/-- **The mode of a written operand** is found again, with its value. -/
theorem ofTokens?_tokens {m : Mnemonic} {mode : Mode} {value : UInt16}
    (hmode : m.hasMode mode = true) (h : mode.Fits (some value)) :
    ofTokens? mode.isIndirect m (mode.tokens value) = some ⟨mode, some value⟩ := by
  have hbyte := literal?_literal h .byte
  have hword := literal?_literal h .word
  have hbranch := Mnemonic.isBranch_iff_of_hasMode hmode
  obtain ⟨digits, hdigits⟩ : ∃ digits, mode.literal value = '$' :: digits := ⟨_, rfl⟩
  -- Neither sign is a letter, so the token is not the accumulator, and an index is one register
  -- only.
  have haccumulator : ¬ Text.SameLetters ('$' :: digits) ['A'] ∧
      ¬ Text.SameLetters ('#' :: '$' :: digits) ['A'] := by
    constructor <;> exact fun hletters => absurd (List.cons.inj hletters).1 (by decide)
  have hindex : (Text.SameLetters ['X'] ['X'] ∧ ¬ Text.SameLetters ['X'] ['Y']) ∧
      Text.SameLetters ['Y'] ['Y'] ∧ ¬ Text.SameLetters ['Y'] ['X'] := by
    decide
  unfold Mode.tokens ofTokens? Mode.precedence
  rw [hdigits] at hbyte hword ⊢
  cases mode with
  | implied | accumulator | stack => exact absurd rfl h.1
  | immediate | zeroPage | zeroPageX | zeroPageY | relative | absolute | absoluteX | absoluteY
    | indirect | absoluteIndexedIndirect | indirectX | indirectY | zeroPageIndirect =>
    simp only [Mode.width?, Mode.operandSize, reduceCtorEq, iff_false, iff_true, Bool.not_eq_true,
      Option.some.injEq, if_true, if_false] at hbyte hword hbranch
    simp [first?_cons, Mode.index?, Mode.isIndirect, accept?, indexed?, haccumulator, hindex, hbyte,
      hword, hbranch]

/-- **The mode of an instruction without an operand** is the one that the instruction has. -/
theorem ofTokens?_nil {m : Mnemonic} {mode : Mode} (hmode : m.hasMode mode = true)
    (hsize : mode.operandSize = 0) : ofTokens? false m [] = some ⟨mode, none⟩ := by
  have hother : ∀ other : Mode, other.operandSize = 0 → other ≠ mode → m.hasMode other = false := by
    intro other hother hne
    rw [Bool.eq_false_iff]
    intro h
    exact hne ((Mnemonic.eq_bareMode_of_hasMode h hother).trans
      (Mnemonic.eq_bareMode_of_hasMode hmode hsize).symm)
  have haccumulator := hother .accumulator rfl
  have hstack := hother .stack rfl
  unfold ofTokens? Mode.precedence
  cases mode with
  | implied | accumulator | stack =>
    simp only [ne_eq, reduceCtorEq, not_false_eq_true, not_true_eq_false, true_implies,
      false_implies] at haccumulator hstack
    simp [first?_cons, Mode.isIndirect, accept?, hmode, haccumulator, hstack]
  | _ => cases hsize

end ModeChoice

end Micro65
