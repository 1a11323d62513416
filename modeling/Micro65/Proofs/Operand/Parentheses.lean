import Micro65.Proofs.Operand.Grammar
import Micro65.Proofs.Text.Words
/-!
# Where the parentheses of an operand stand

An operand in parentheses that a mode accepts opens with its only opening parenthesis. The closing
one stands directly behind the value, or behind the index X (`Field.Enclosed`). The text of the
index is not looked at more closely: all closing parentheses are taken out of it, wherever they
stand and however many there are. The parentheses are balanced and well placed if none of them is a
stray one (`Field.enclosed`), but `($20,X))` is accepted as well (`Field.not_wellPlaced_of_stray`).
-/

namespace Micro65

/-! ## Fields cut into tokens -/

namespace Field

/-- What stands between two tokens: blanks and a comma. -/
def IsGap (t : Text) : Prop :=
  ∀ c ∈ t, Text.isBlank c = true ∨ c = ','

theorem isGap_of_allBlank {t : Text} (h : Text.AllBlank t) : IsGap t :=
  fun c hc => .inl (h c hc)

/-- A text that is not cut has none of the characters at which it would be. -/
theorem eq_of_splitOn_eq_singleton {c : Char} {t x : Text} (h : t.splitOn c = [x]) :
    c ∉ t ∧ t = x := by
  by_cases hmem : c ∈ t
  · obtain ⟨s, u, rfl, hs⟩ := List.eq_append_cons_of_mem hmem
    rw [Text.splitOn_append_cons hs] at h
    exact absurd (List.cons.inj h).2 (List.splitOnP_ne_nil _ _)
  · rw [List.splitOn_eq_singleton hmem] at h
    exact ⟨hmem, (List.cons.inj h).1⟩

section

variable {field : Text} (hstart : Text.StartsSolid field) (hend : Text.EndsSolid field)
include hstart hend

/-- A trimmed field with one token is this token. -/
theorem eq_of_cut_eq_singleton {first : Text} (h : cut field = [first]) :
    field = first ∧ ∀ c ∈ first, Text.isBlank c = false := by
  unfold cut at h
  split at h
  · rename_i hcomma
    obtain ⟨x, hx, -⟩ := List.map_eq_singleton_iff.mp h
    exact absurd hcomma (eq_of_splitOn_eq_singleton hx).1
  · exact Text.eq_of_words_eq_singleton hstart hend h

/-- A trimmed field with two tokens is the first, a gap and the text of the second. -/
theorem eq_of_cut_eq_pair {first second : Text} (h : cut field = [first, second]) :
    ∃ gap last, field = first ++ gap ++ last ∧ IsGap gap ∧ Text.trim last = second := by
  unfold cut at h
  split at h
  · rename_i hcomma
    obtain ⟨s, t, rfl, hs⟩ := List.eq_append_cons_of_mem hcomma
    rw [Text.splitOn_append_cons hs, List.map_cons] at h
    obtain ⟨rfl, htail⟩ := List.cons.inj h
    obtain ⟨last, hlast, hsecond⟩ := List.map_eq_singleton_iff.mp htail
    obtain rfl := (eq_of_splitOn_eq_singleton hlast).2
    obtain ⟨u, v, hsplit, hu, hv⟩ := Text.exists_eq_append_trim s
    rw [hsplit, List.append_assoc, List.append_assoc] at hstart
    obtain rfl := hstart.eq_nil hu
    refine ⟨v ++ [','], t, ?_, ?_, hsecond⟩
    · conv => lhs; rw [hsplit]
      simp
    · intro c hc
      rcases List.mem_append.mp hc with hc | hc
      · exact .inl (hv c hc)
      · exact .inr (List.mem_singleton.mp hc)
  · obtain ⟨gap, hfield, hgap, hsecond⟩ := Text.eq_of_words_eq_pair hstart hend h
    exact ⟨gap, second, hfield, isGap_of_allBlank hgap, Text.trim_of_forall hsecond⟩

end

/-- An indirect field has a first token that opens a parenthesis. -/
theorem exists_of_indirect {text : Text} {f : Field} (h : ofText text = .ok f)
    (hindirect : f.indirect = true) : ∃ inner rest, cut (Text.trim text) = ('(' :: inner) :: rest ∧
      parenthesised (Text.trim text) inner rest = .ok f := by
  unfold ofText at h
  simp only at h
  split at h
  · cases h
    cases hindirect
  · rename_i first rest hcut
    split at h
    · split at h
      · exact ⟨_, rest, hcut, h⟩
      · cases h
    · split at h
      · cases h
      · cases h
        cases hindirect

/-! ## Fields that are accepted -/

/-- A token that is taken for an index: its letter, and perhaps blanks and closing parentheses. -/
def IsIndex (r : Char) (t : Text) : Prop :=
  Text.SameLetters (Text.trim (t.filter (· ≠ ')'))) [r]

/-- **How an operand in parentheses is made up** around its value, by its index. -/
inductive Enclosed (value : Text) : Option Char → Text → Prop
  /-- The parentheses are around the value. -/
  | alone : Enclosed value none ('(' :: (value ++ [')']))
  /-- The index Y stands behind them. -/
  | outer {u v gap last : Text} (hu : Text.AllBlank u) (hv : Text.AllBlank v) (hgap : IsGap gap)
      (hlast : IsIndex 'Y' last) :
      Enclosed value (some 'Y') ('(' :: (u ++ value ++ v ++ ')' :: (gap ++ last)))
  /-- The index X has the closing parenthesis. -/
  | inner {u v gap last : Text} (hu : Text.AllBlank u) (hv : Text.AllBlank v) (hgap : IsGap gap)
      (hlast : IsIndex 'X' last) (hclose : ')' ∈ last) :
      Enclosed value (some 'X') ('(' :: (u ++ value ++ v ++ (gap ++ last)))

/-- **Parentheses that are balanced and well placed**: one of each kind, the first in front, the
second directly behind the value, or at the end if the index is X. -/
structure WellPlaced (value : Text) (index : Option Char) (field : Text) : Prop where
  head_eq : field.head? = some '('
  count_open : field.count '(' = 1
  count_close : field.count ')' = 1
  close_behind : index ≠ some 'X' → ∃ u v behind, Text.AllBlank u ∧ Text.AllBlank v ∧
    field = '(' :: (u ++ value ++ v ++ ')' :: behind)
  close_last : index = some 'X' → field.getLast? = some ')'

variable {value field : Text} {index : Option Char}

theorem IsGap.not_mem {t : Text} (h : IsGap t) {c : Char} (hc : Text.isBlank c = false)
    (hcomma : c ≠ ',') : c ∉ t := by
  intro hmem
  rcases h c hmem with hblank | rfl
  · rw [hc] at hblank
    cases hblank
  · exact hcomma rfl

/-- Besides closing parentheses and blanks an index has its letter only. -/
theorem IsIndex.not_mem {r : Char} {t : Text} (h : IsIndex r t) {c : Char} (hclose : c ≠ ')')
    (hc : Text.isBlank c = false) (hr : c.toUpper ≠ r.toUpper) : c ∉ t := by
  intro hmem
  obtain ⟨u, v, hsplit, hu, hv⟩ := Text.exists_eq_append_trim (t.filter (· ≠ ')'))
  have hfilter : c ∈ t.filter (· ≠ ')') := List.mem_filter.mpr ⟨hmem, by simpa using hclose⟩
  rw [hsplit, List.mem_append, List.mem_append] at hfilter
  obtain (hcu | hct) | hcv := hfilter
  · exact hu.not_mem hc hcu
  · have hupper : c.toUpper ∈ Text.upper [r] := by
      rw [← show Text.upper _ = Text.upper [r] from h]
      exact List.mem_map_of_mem hct
    exact hr (List.mem_singleton.mp hupper)
  · exact hv.not_mem hc hcv

/-- An operand has no other opening parenthesis than the one in front. -/
theorem Enclosed.count_open (h : Enclosed value index field) (hopen : '(' ∉ value) :
    field.count '(' = 1 := by
  have hblank : Text.isBlank '(' = false := by decide
  cases h with
  | alone => simp [List.count_eq_zero_of_not_mem hopen]
  | outer hu hv hgap hlast | inner hu hv hgap hlast =>
    simp [List.count_eq_zero_of_not_mem hopen,
      List.count_eq_zero_of_not_mem (hu.not_mem hblank),
      List.count_eq_zero_of_not_mem (hv.not_mem hblank),
      List.count_eq_zero_of_not_mem (hgap.not_mem hblank (by decide)),
      List.count_eq_zero_of_not_mem (hlast.not_mem (by decide) hblank (by decide))]

/-- **Only closing parentheses in the token of the index can be too many or misplaced.** -/
theorem Enclosed.wellPlaced_iff (h : Enclosed value index field) (hopen : '(' ∉ value) :
    WellPlaced value index field ↔
      field.count ')' = 1 ∧ (index = some 'X' → field.getLast? = some ')') := by
  constructor
  · intro hplaced
    exact ⟨hplaced.count_close, hplaced.close_last⟩
  · rintro ⟨hclose, hlast⟩
    refine ⟨?_, h.count_open hopen, hclose, ?_, hlast⟩
    · cases h <;> rfl
    · intro hindex
      cases h with
      | alone => exact ⟨[], [], [], nofun, nofun, by simp⟩
      | outer hu hv _ _ => exact ⟨_, _, _, hu, hv, rfl⟩
      | inner _ _ _ _ _ => exact absurd rfl hindex

/-- The blanks around a token do not count when its closing parentheses are taken out. -/
theorem isIndex_of_trim {r : Char} {t : Text} (h : IsIndex r (Text.trim t)) : IsIndex r t := by
  obtain ⟨u, v, hsplit, hu, hv⟩ := Text.exists_eq_append_trim t
  have hblank : ∀ w : Text, Text.AllBlank w → Text.AllBlank (w.filter (· ≠ ')')) :=
    fun w hw c hc => hw c (List.mem_filter.mp hc).1
  unfold IsIndex at h ⊢
  rw [hsplit, List.filter_append, List.filter_append, Text.trim_append_of_allBlank _ (hblank v hv),
    Text.trim_append_left (hblank u hu)]
  exact h

/-- The index X stands in front of the closing parenthesis and the index Y behind it, as far as
the first token tells. -/
theorem close_of_misplacedIndex? {value register close : Text} {r : Char}
    (hregister : Text.SameLetters register [r])
    (h : misplacedIndex? (!close.isEmpty) [value, register] = none) :
    (r = 'X' → close = []) ∧ (r = 'Y' → close ≠ []) := by
  unfold misplacedIndex? at h
  simp only at h
  constructor
  · rintro rfl
    split at h
    · cases h
    · rename_i hplace
      simpa [hregister] using hplace
  · rintro rfl
    split at h
    · cases h
    · split at h
      · cases h
      · rename_i hplace
        simpa [hregister] using hplace

/-- An operand of one token is a value in parentheses. -/
theorem enclosed_alone {before close : Text} {field : Text} (hstart : Text.StartsSolid field)
    (hend : Text.EndsSolid field) (hcut : cut field = ['(' :: (before ++ close)])
    (hclose : ')' ∈ field) (hbefore : ')' ∉ before) (hcloses : close = [] ∨ close = [')']) :
    Enclosed (Text.trim before) none field := by
  obtain ⟨rfl, hblank⟩ := eq_of_cut_eq_singleton hstart hend hcut
  obtain rfl : close = [')'] := by
    refine hcloses.resolve_left ?_
    rintro rfl
    simp [hbefore] at hclose
  have htrim : Text.trim before = before :=
    Text.trim_of_forall fun c hc => hblank c (by simp [hc])
  rw [htrim]
  exact .alone

/-- An operand of two tokens is a value with an index. -/
theorem enclosed_indexed {before close second : Text} {field : Text} {r : Char}
    (hstart : Text.StartsSolid field) (hend : Text.EndsSolid field)
    (hcut : cut field = ['(' :: (before ++ close), second])
    (hclose : ')' ∈ field) (hbefore : ')' ∉ before) (hcloses : close = [] ∨ close = [')'])
    (hr : r = 'X' ∨ r = 'Y') (hsecond : IsIndex r second)
    (hplace : (r = 'X' → close = []) ∧ (r = 'Y' → close ≠ [])) :
    Enclosed (Text.trim before) (some r) field := by
  obtain ⟨gap, last, rfl, hgap, rfl⟩ := eq_of_cut_eq_pair hstart hend hcut
  obtain ⟨u, v, hsplit, hu, hv⟩ := Text.exists_eq_append_trim before
  have hlast := isIndex_of_trim hsecond
  rcases hr with rfl | rfl
  · obtain rfl := hplace.1 rfl
    have hmem : ')' ∈ last := by
      have hnot := hgap.not_mem (c := ')') (by decide) (by decide)
      simpa [hbefore, hnot] using hclose
    have hform : Enclosed (Text.trim before) _ _ := .inner hu hv hgap hlast hmem
    rw [← hsplit] at hform
    simpa using hform
  · obtain rfl := hcloses.resolve_left (hplace.2 rfl)
    have hform : Enclosed (Text.trim before) _ _ := .outer hu hv hgap hlast
    rw [← hsplit] at hform
    simpa using hform

/-- **Where the parentheses of an accepted operand stand.** They are around the value, or around the
value and the index X, and only one of them opens. They are balanced and well placed except for
closing parentheses that stand in the token of the index. -/
theorem enclosed {text : Text} {f : Field} (h : ofText text = .ok f) (hindirect : f.indirect = true)
    {m : Mnemonic} {choice : ModeChoice}
    (hchoice : ModeChoice.ofTokens? true m f.tokens = some choice) :
    ∃ value, f.tokens.head? = some value ∧
      Enclosed value choice.mode.index? (Text.trim text) ∧ (Text.trim text).count '(' = 1 ∧
      (WellPlaced value choice.mode.index? (Text.trim text) ↔ (Text.trim text).count ')' = 1 ∧
        (choice.mode.index? = some 'X' → (Text.trim text).getLast? = some ')')) := by
  obtain ⟨inner, rest, hcut, hparenthesised⟩ := exists_of_indirect h hindirect
  obtain ⟨hclose, before, close, rfl, hbefore, hcloses, htokens, hplace⟩ :=
    exists_of_parenthesised hparenthesised
  obtain ⟨hmode, hforms, -⟩ :=
    (ModeChoice.first?_eq_some_iff ModeChoice.ordered_precedence).mp hchoice
  have hstart := Text.startsSolid_trim text
  have hend := Text.endsSolid_trim text
  obtain ⟨mode, operand⟩ := choice
  generalize Text.trim text = field at hcut hclose hstart hend
  generalize f.tokens = tokens at htokens hplace hforms
  suffices henclosed : tokens.head? = some (Text.trim before) ∧ '(' ∉ Text.trim before ∧
      Enclosed (Text.trim before) mode.index? field by
    obtain ⟨hvalue, hopen, henclosed⟩ := henclosed
    exact ⟨_, hvalue, henclosed, henclosed.count_open hopen, henclosed.wellPlaced_iff hopen⟩
  refine ⟨by rw [htokens]; rfl, ?_⟩
  cases hforms with
  | bare hbare _ => cases htokens
  | register _ | immediate _ | distance _ _ => cases hmode
  | @address _ w token value haddress _ hliteral =>
    obtain ⟨rfl, hnil⟩ := List.cons.inj htokens
    obtain rfl := List.map_eq_nil_iff.mp hnil.symm
    have hindex : mode.index? = none := by
      simp only [List.mem_cons, List.not_mem_nil, or_false] at haddress
      rcases haddress with rfl | rfl | rfl | rfl <;> rfl
    rw [hindex]
    exact ⟨hliteral.not_mem (by decide),
      enclosed_alone hstart hend hcut hclose hbefore hcloses⟩
  | @indexed _ w r token register value hindex _ hliteral hregister =>
    obtain ⟨rfl, hrest⟩ := List.cons.inj htokens
    obtain ⟨second, rest, rfl, rfl, hnil⟩ := List.map_eq_cons_iff.mp hrest.symm
    obtain rfl := List.map_eq_nil_iff.mp hnil
    rw [hindex]
    exact ⟨hliteral.not_mem (by decide), enclosed_indexed hstart hend hcut hclose hbefore hcloses
      (Mode.index_cases hindex) hregister (close_of_misplacedIndex? hregister hplace)⟩

/-- Blanks around the value and around the comma do not matter. -/
theorem enclosed_of_blanks :
    ∃ f choice value, ofText " ( $20 ) , y".toList = .ok f ∧ f.indirect = true ∧
      ModeChoice.ofTokens? true .lda f.tokens = some choice ∧ choice.mode.index? = some 'Y' ∧
      f.tokens.head? = some value ∧
      Enclosed value choice.mode.index? (Text.trim " ( $20 ) , y".toList) ∧
      WellPlaced value choice.mode.index? (Text.trim " ( $20 ) , y".toList) := by
  have hfield : ofText " ( $20 ) , y".toList = .ok ⟨true, ["$20".toList, "y".toList]⟩ := by decide
  have hchoice : ModeChoice.ofTokens? true .lda ["$20".toList, "y".toList] =
      some ⟨.indirectY, some 0x20⟩ := by decide
  obtain ⟨value, hvalue, henclosed, -, hplaced⟩ := enclosed hfield rfl hchoice
  exact ⟨_, _, value, hfield, rfl, hchoice, rfl, hvalue, henclosed,
    hplaced.mpr ⟨by decide, by decide⟩⟩

/-- **A second closing parenthesis behind the index is accepted.** -/
theorem not_wellPlaced_of_stray :
    ∃ f, ofText "($20,X))".toList = .ok f ∧ f.indirect = true ∧
      ModeChoice.ofTokens? true .lda f.tokens = some ⟨.indirectX, some 0x20⟩ ∧
      ∀ value, ¬ WellPlaced value (some 'X') (Text.trim "($20,X))".toList) :=
  ⟨⟨true, ["$20".toList, "X".toList]⟩, by decide, rfl, by decide,
    fun _ h => absurd h.count_close (by decide)⟩

end Field

end Micro65
