import Mathlib.Data.List.Perm.Basic
import Micro65.Proofs.Operand.Literal
import Micro65.Proofs.Operand.Notation
/-!
# The grammar of operands

What the tokens of an operand look like in each mode is a grammar with six rules
(`ModeChoice.Forms`), and the patterns accept the tokens of this grammar and no others
(`ModeChoice.accept?_eq_some_iff`). Two modes of one indirection have no tokens in common, with one
exception: a branch reads a byte as a distance, and as an address in the first page too
(`ModeChoice.Forms.unique`). It follows that the order in which the modes are tried decides this
case only, so that every order in which distances come before addresses in the first page finds the
same modes and operands (`ModeChoice.followsGrammar`).
-/

namespace Micro65

namespace Mode

/-- The modes of an address alone are told apart by its size. -/
theorem eq_of_width? {mode mode' : Mode}
    (hmode : mode ∈ [zeroPage, zeroPageIndirect, absolute, indirect])
    (hmode' : mode' ∈ [zeroPage, zeroPageIndirect, absolute, indirect])
    (hwidth : mode.width? = mode'.width?) (hindirect : mode.isIndirect = mode'.isIndirect) :
    mode = mode' := by
  have hall : ∀ mode ∈ [zeroPage, zeroPageIndirect, absolute, indirect],
      ∀ mode' ∈ [zeroPage, zeroPageIndirect, absolute, indirect],
        mode.width? = mode'.width? → mode.isIndirect = mode'.isIndirect → mode = mode' := by
    decide
  exact hall mode hmode mode' hmode' hwidth hindirect

/-- The modes with an index are told apart by the index and the size of the address. -/
theorem eq_of_index? {mode mode' : Mode} {r : Char} (hindex : mode.index? = some r)
    (hindex' : mode'.index? = some r) (hwidth : mode.width? = mode'.width?)
    (hindirect : mode.isIndirect = mode'.isIndirect) : mode = mode' := by
  have hall : ∀ mode ∈ precedence, ∀ mode' ∈ precedence, mode.index?.isSome = true →
      mode.index? = mode'.index? → mode.width? = mode'.width? →
      mode.isIndirect = mode'.isIndirect → mode = mode' := by
    decide
  exact hall mode mode.mem_precedence mode' mode'.mem_precedence (by rw [hindex]; rfl)
    (hindex.trans hindex'.symm) hwidth hindirect

theorem index_cases {mode : Mode} {r : Char} (h : mode.index? = some r) : r = 'X' ∨ r = 'Y' := by
  cases mode <;> cases h <;> decide

/-- An index in either case is one index. -/
theorem eq_of_toUpper {mode mode' : Mode} {r r' : Char} (h : mode.index? = some r)
    (h' : mode'.index? = some r') (hletters : r.toUpper = r'.toUpper) : r = r' := by
  rcases index_cases h with rfl | rfl <;> rcases index_cases h' with rfl | rfl <;>
    first | rfl | exact absurd hletters (by decide)

end Mode

namespace Literal

variable {token : Text} {w : Width} {n : Nat}

/-- A literal is longer than the name of a register. -/
theorem Denotes.not_sameLetters (h : Denotes token w n) (r : Char) :
    ¬ Text.SameLetters token [r] := by
  obtain ⟨radix, w, _, hplaces, _⟩ := h
  intro hletters
  have hlength := congrArg List.length hletters
  have := radix.one_lt_places w
  simp only [Text.upper, List.length_map, List.length_append, List.length_cons, List.length_nil]
    at hlength
  omega

/-- A literal has none of the characters that stand between pieces. -/
theorem Denotes.not_mem (h : Denotes token w n) {c : Char}
    (hc : Piece.isSeparator c = true) : c ∉ token := by
  obtain ⟨d, rest, rfl, hd, hrest⟩ := shape_of_sized? (sized?_eq_some_iff.mpr h)
  intro hmem
  rcases List.mem_cons.mp hmem with rfl | hmem
  · simp [Piece.isSeparator, hd] at hc
  · have halphanum := Piece.isAlphanum_eq_false_of_isSeparator hc
    rw [hrest c hmem] at halphanum
    cases halphanum

/-- The sign of an immediate byte starts no literal. -/
theorem not_denotes_immediate : ¬ Denotes ('#' :: token) w n := by
  intro h
  exact h.not_mem (by decide) List.mem_cons_self

end Literal

namespace ModeChoice

/-- **The grammar of operands**: the tokens that an operand in the mode is written with, and the
value of the operand, for a mode that has operand bytes. -/
inductive Forms (m : Mnemonic) : Mode → List Text → Option UInt16 → Prop
  /-- Nothing is written in a mode without operand bytes that the instruction has. -/
  | bare {mode : Mode} (hmode : mode ∈ [.accumulator, .stack, .implied])
      (h : m.hasMode mode = true) : Forms m mode [] none
  /-- The accumulator may be named. -/
  | register {token : Text} (h : Text.SameLetters token ['A']) : Forms m .accumulator [token] none
  /-- An immediate byte stands behind a sign of its own. -/
  | immediate {token : Text} {value : UInt16} (h : Literal.Denotes token .byte value.toNat) :
      Forms m .immediate ['#' :: token] (some value)
  /-- A branch takes a byte as a distance. -/
  | distance {token : Text} {value : UInt16} (hbranch : m.isBranch = true)
      (h : Literal.Denotes token .byte value.toNat) : Forms m .relative [token] (some value)
  /-- An address is a literal of the size of the mode. -/
  | address {mode : Mode} {w : Width} {token : Text} {value : UInt16}
      (hmode : mode ∈ [.zeroPage, .zeroPageIndirect, .absolute, .indirect])
      (hwidth : mode.width? = some w) (h : Literal.Denotes token w value.toNat) :
      Forms m mode [token] (some value)
  /-- An address with an index is followed by the index of the mode. -/
  | indexed {mode : Mode} {w : Width} {r : Char} {token register : Text} {value : UInt16}
      (hindex : mode.index? = some r) (hwidth : mode.width? = some w)
      (h : Literal.Denotes token w value.toNat) (hregister : Text.SameLetters register [r]) :
      Forms m mode [token, register] (some value)

variable {m : Mnemonic} {mode mode' : Mode} {tokens : List Text} {operand : Option UInt16}

theorem literal?_eq_some_iff_denotes {w : Width} {token : Text} {value : UInt16} :
    literal? w token = some value ↔ Literal.Denotes token w value.toNat := by
  rw [literal?_eq_some_iff]
  constructor
  · rintro ⟨n, hsized, rfl⟩
    have hlt : n < UInt16.size := by
      have hn := (Literal.value_of_sized? hsized).2
      cases w with
      | byte => exact Nat.lt_trans hn (by decide)
      | word => exact hn
    rw [UInt16.toNat_ofNat', Nat.mod_eq_of_lt hlt]
    exact Literal.sized?_eq_some_iff.mp hsized
  · intro h
    exact ⟨value.toNat, Literal.sized?_eq_some_iff.mpr h, UInt16.ofNat_toNat.symm⟩

theorem indexed?_eq_some_iff_denotes {w : Width} {r : Char} {token register : Text}
    {value : UInt16} :
    indexed? w r token register = some value ↔
      Text.SameLetters register [r] ∧ Literal.Denotes token w value.toNat := by
  rw [indexed?_eq_some_iff, literal?_eq_some_iff_denotes]

/-- **The patterns accept the tokens of the grammar.** -/
theorem accept?_eq_some_iff :
    accept? m mode tokens = some operand ↔ Forms m mode tokens operand := by
  constructor
  · intro h
    unfold accept? at h
    split at h
    case h_1 | h_2 | h_3 =>
      split at h
      · rename_i hmode
        cases h
        exact .bare (by decide) hmode
      · cases h
    case h_4 =>
      split at h
      · rename_i hregister
        cases h
        exact .register hregister
      · cases h
    case h_5 =>
      obtain ⟨value, hvalue, rfl⟩ := Option.map_eq_some_iff.mp h
      exact .immediate (literal?_eq_some_iff_denotes.mp hvalue)
    case h_6 =>
      split at h
      · rename_i hbranch
        obtain ⟨value, hvalue, rfl⟩ := Option.map_eq_some_iff.mp h
        exact .distance hbranch (literal?_eq_some_iff_denotes.mp hvalue)
      · cases h
    case h_7 | h_8 | h_9 | h_10 =>
      obtain ⟨value, hvalue, rfl⟩ := Option.map_eq_some_iff.mp h
      exact .address (by decide) rfl (literal?_eq_some_iff_denotes.mp hvalue)
    case h_18 => cases h
    all_goals
      obtain ⟨value, hvalue, rfl⟩ := Option.map_eq_some_iff.mp h
      obtain ⟨hregister, hdenotes⟩ := indexed?_eq_some_iff_denotes.mp hvalue
      exact .indexed rfl rfl hdenotes hregister
  · intro h
    cases h with
    | bare hmode h =>
      simp only [List.mem_cons, List.not_mem_nil, or_false] at hmode
      rcases hmode with rfl | rfl | rfl <;> simp [accept?, h]
    | register h => simp [accept?, h]
    | immediate h => simp [accept?, literal?_eq_some_iff_denotes.mpr h]
    | distance hbranch h => simp [accept?, hbranch, literal?_eq_some_iff_denotes.mpr h]
    | address hmode hwidth h =>
      have hliteral := literal?_eq_some_iff_denotes.mpr h
      simp only [List.mem_cons, List.not_mem_nil, or_false] at hmode
      rcases hmode with rfl | rfl | rfl | rfl <;> cases hwidth <;> simp [accept?, hliteral]
    | indexed hindex hwidth h hregister =>
      have hindexed := indexed?_eq_some_iff_denotes.mpr ⟨hregister, h⟩
      cases mode <;> cases hindex <;> cases hwidth <;> simp [accept?, hindexed]

/-- **Two modes of one indirection have no tokens in common**, except that a branch reads a byte as
a distance and as an address in the first page. The operand is the same then too. -/
theorem Forms.unique {operand' : Option UInt16} (h : Forms m mode tokens operand)
    (h' : Forms m mode' tokens operand') (hindirect : mode.isIndirect = mode'.isIndirect) :
    operand = operand' ∧ (mode = mode' ∨ m.isBranch = true ∧
      (mode = .relative ∧ mode' = .zeroPage ∨ mode = .zeroPage ∧ mode' = .relative)) := by
  -- One literal has one size and one value.
  have hdenotes : ∀ {token : Text} {w w' : Width} {value value' : UInt16},
      Literal.Denotes token w value.toNat → Literal.Denotes token w' value'.toNat →
        w = w' ∧ some value = some value' := by
    intro token w w' value value' h h'
    obtain ⟨hw, hvalue⟩ := h.unique h'
    exact ⟨hw, congrArg some (UInt16.toNat_inj.mp hvalue)⟩
  have hnone : ∀ {token : Text}, ¬ Text.SameLetters ('#' :: token) ['A'] :=
    fun hletters => absurd (List.cons.inj hletters).1 (by decide)
  cases h with
  | bare hmode h =>
    cases h' with
    | bare hmode' h' =>
      have hsize : ∀ mode ∈ [Mode.accumulator, .stack, .implied], mode.operandSize = 0 := by
        decide
      exact ⟨rfl, .inl ((Mnemonic.eq_bareMode_of_hasMode h (hsize mode hmode)).trans
        (Mnemonic.eq_bareMode_of_hasMode h' (hsize mode' hmode')).symm)⟩
  | register h =>
    cases h' with
    | register _ => exact ⟨rfl, .inl rfl⟩
    | immediate _ => exact absurd h hnone
    | distance _ h' | address _ _ h' => exact absurd h (h'.not_sameLetters 'A')
  | immediate h =>
    cases h' with
    | register h' => exact absurd h' hnone
    | immediate h' => exact ⟨(hdenotes h h').2, .inl rfl⟩
    | distance _ h' | address _ _ h' => exact absurd h' Literal.not_denotes_immediate
  | distance hbranch h =>
    cases h' with
    | register h' => exact absurd h' (h.not_sameLetters 'A')
    | immediate _ => exact absurd h Literal.not_denotes_immediate
    | distance _ h' => exact ⟨(hdenotes h h').2, .inl rfl⟩
    | address hmode' hwidth' h' =>
      obtain ⟨rfl, hvalue⟩ := hdenotes h h'
      obtain rfl : Mode.zeroPage = mode' :=
        Mode.eq_of_width? (by decide) hmode' hwidth'.symm hindirect
      exact ⟨hvalue, .inr ⟨hbranch, .inl ⟨rfl, rfl⟩⟩⟩
  | address hmode hwidth h =>
    cases h' with
    | register h' => exact absurd h' (h.not_sameLetters 'A')
    | immediate _ => exact absurd h Literal.not_denotes_immediate
    | distance hbranch h' =>
      obtain ⟨rfl, hvalue⟩ := hdenotes h h'
      obtain rfl : mode = Mode.zeroPage :=
        Mode.eq_of_width? hmode (by decide) hwidth hindirect
      exact ⟨hvalue, .inr ⟨hbranch, .inr ⟨rfl, rfl⟩⟩⟩
    | address hmode' hwidth' h' =>
      obtain ⟨rfl, hvalue⟩ := hdenotes h h'
      exact ⟨hvalue, .inl (Mode.eq_of_width? hmode hmode' (hwidth.trans hwidth'.symm) hindirect)⟩
  | indexed hindex hwidth h hregister =>
    cases h' with
    | indexed hindex' hwidth' h' hregister' =>
      obtain ⟨rfl, hvalue⟩ := hdenotes h h'
      have hletters := (List.cons.inj (hregister.symm.trans hregister')).1
      obtain rfl := Mode.eq_of_toUpper hindex hindex' hletters
      exact ⟨hvalue, .inl (Mode.eq_of_index? hindex hindex' (hwidth.trans hwidth'.symm) hindirect)⟩

/-! ## The order of the modes -/

/-- Modes in an order in which an operand can be tried against them: each mode is there, and a
distance comes before an address in the first page. -/
structure Ordered (modes : List Mode) : Prop where
  complete : ∀ mode, mode ∈ modes
  distance_first : modes.idxOf .relative < modes.idxOf .zeroPage

theorem ordered_precedence : Ordered Mode.precedence where
  complete := Mode.mem_precedence
  distance_first := by decide

/-- An order keeps what it needs when other modes change their places. -/
theorem Ordered.of_perm {modes : List Mode} (h : modes.Perm Mode.precedence)
    (hfirst : modes.idxOf .relative < modes.idxOf .zeroPage) : Ordered modes where
  complete mode := h.mem_iff.mpr mode.mem_precedence
  distance_first := hfirst

variable {modes : List Mode} {indirect : Bool}

/-- What is first found before another mode stands before any place of this mode. -/
theorem mem_of_idxOf_lt {before behind : List Mode}
    (h : (before ++ mode :: behind).idxOf mode' < (before ++ mode :: behind).idxOf mode) :
    mode' ∈ before := by
  by_contra hnot
  have hle : (before ++ mode :: behind).idxOf mode ≤ before.length := by
    rw [List.idxOf_append]
    split
    · exact List.idxOf_le_length
    · simp
  rw [List.idxOf_append_of_notMem hnot] at h
  omega

/-- No mode that is found is an address in the first page for a branch, since the tokens of one
are a distance before. -/
theorem isBranch_of_first? (hfirst : modes.idxOf .relative < modes.idxOf .zeroPage)
    (h : first? modes indirect m tokens = some ⟨.zeroPage, operand⟩) : m.isBranch = false := by
  obtain ⟨before, mode, behind, rfl, hmode, hbefore⟩ := List.findSome?_eq_some_iff.mp h
  split at hmode
  · rename_i hindirect
    obtain ⟨_, haccept, heq⟩ := Option.map_eq_some_iff.mp hmode
    cases heq
    have hrelative := hbefore _ (mem_of_idxOf_lt hfirst)
    rw [if_pos (show Mode.relative.isIndirect = indirect from hindirect),
      Option.map_eq_none_iff] at hrelative
    rw [Bool.eq_false_iff]
    intro hbranch
    cases accept?_eq_some_iff.mp haccept with
    | bare hbare _ => exact absurd hbare (by decide)
    | indexed hindex _ _ _ => cases hindex
    | address _ hwidth h =>
      cases hwidth
      rw [accept?_eq_some_iff.mpr (.distance hbranch h)] at hrelative
      cases hrelative
  · cases hmode

theorem isIndirect_of_first? {choice : ModeChoice}
    (h : first? modes indirect m tokens = some choice) : choice.mode.isIndirect = indirect := by
  obtain ⟨mode, -, hmode⟩ := List.exists_of_findSome?_eq_some h
  split at hmode
  · obtain ⟨operand, -, rfl⟩ := Option.map_eq_some_iff.mp hmode
    assumption
  · cases hmode

/-- **The mode that is found** is the one with the tokens of the operand, in every order. -/
theorem first?_eq_some_iff (hmodes : Ordered modes) :
    first? modes indirect m tokens = some ⟨mode, operand⟩ ↔
      mode.isIndirect = indirect ∧ Forms m mode tokens operand ∧
        (mode = .zeroPage → m.isBranch = false) := by
  have hsound : ∀ {mode operand}, first? modes indirect m tokens = some ⟨mode, operand⟩ →
      mode.isIndirect = indirect ∧ Forms m mode tokens operand ∧
        (mode = .zeroPage → m.isBranch = false) := by
    intro mode operand h
    refine ⟨isIndirect_of_first? h, accept?_eq_some_iff.mp (accept?_of_first? h), ?_⟩
    rintro rfl
    exact isBranch_of_first? hmodes.distance_first h
  refine ⟨hsound, fun ⟨hindirect, hforms, hpage⟩ => ?_⟩
  have hsome : (first? modes indirect m tokens).isSome = true := by
    refine List.findSome?_isSome_iff.mpr ⟨mode, hmodes.complete mode, ?_⟩
    rw [if_pos hindirect, accept?_eq_some_iff.mpr hforms]
    rfl
  obtain ⟨⟨mode', operand'⟩, hfound⟩ := Option.isSome_iff_exists.mp hsome
  obtain ⟨hindirect', hforms', hpage'⟩ := hsound hfound
  obtain ⟨rfl, rfl | ⟨hbranch, ⟨-, rfl⟩ | ⟨rfl, -⟩⟩⟩ :=
    hforms.unique hforms' (hindirect.trans hindirect'.symm)
  · exact hfound
  · rw [hpage' rfl] at hbranch
    cases hbranch
  · rw [hpage rfl] at hbranch
    cases hbranch

/-- The order of the modes makes no difference otherwise. -/
theorem first?_eq_ofTokens? (hmodes : Ordered modes) (indirect : Bool) (m : Mnemonic)
    (tokens : List Text) : first? modes indirect m tokens = ofTokens? indirect m tokens := by
  ext ⟨mode, operand⟩
  unfold ofTokens?
  rw [first?_eq_some_iff hmodes, first?_eq_some_iff ordered_precedence]

/-- **What it is for the operands of an instruction to follow the grammar.** -/
structure FollowsGrammar (m : Mnemonic) : Prop where
  /-- A mode and an operand are found exactly if the mode has the indirection of the field, the
  tokens are those of this operand in this mode, and they are no distance. -/
  ofTokens?_iff : ∀ indirect tokens mode operand,
    ofTokens? indirect m tokens = some ⟨mode, operand⟩ ↔
      mode.isIndirect = indirect ∧ Forms m mode tokens operand ∧
        (mode = .zeroPage → m.isBranch = false)
  /-- There is an operand exactly if the mode has operand bytes, which hold its value. -/
  fits : ∀ indirect tokens mode operand, ofTokens? indirect m tokens = some ⟨mode, operand⟩ →
    (operand = none ↔ mode.operandSize = 0) ∧
      ∀ value, operand = some value → value.toNat < 256 ^ mode.operandSize
  /-- Two modes of one indirection accept the same tokens only if they are those of a distance and
  of an address in the first page, for a branch. -/
  exclusive : ∀ tokens mode mode', mode.isIndirect = mode'.isIndirect →
    (accept? m mode tokens).isSome = true → (accept? m mode' tokens).isSome = true →
      mode = mode' ∨ m.isBranch = true ∧
        (mode = .relative ∧ mode' = .zeroPage ∨ mode = .zeroPage ∧ mode' = .relative)
  /-- A branch does take a byte in both of these modes. -/
  overlap : ∀ token (value : UInt16), m.isBranch = true →
    Literal.Denotes token .byte value.toNat →
      accept? m .relative [token] = some (some value) ∧
        accept? m .zeroPage [token] = some (some value)
  /-- The modes can be tried in any order in which distances come before addresses in the first
  page. -/
  reorder : ∀ modes : List Mode, modes.Perm Mode.precedence →
    modes.idxOf .relative < modes.idxOf .zeroPage →
      ∀ indirect tokens, first? modes indirect m tokens = ofTokens? indirect m tokens

/-- **The operands of every instruction follow the grammar.** -/
theorem followsGrammar (m : Mnemonic) : FollowsGrammar m where
  ofTokens?_iff _ _ _ _ := first?_eq_some_iff ordered_precedence
  fits indirect tokens mode operand h := by
    have hfits := fits_of_accept? (accept?_of_first? h)
    cases operand with
    | none => exact ⟨iff_of_true rfl hfits, nofun⟩
    | some value =>
      refine ⟨iff_of_false nofun hfits.1, ?_⟩
      intro _ hvalue
      cases hvalue
      exact hfits.2
  exclusive tokens mode mode' hindirect h h' := by
    obtain ⟨operand, hoperand⟩ := Option.isSome_iff_exists.mp h
    obtain ⟨operand', hoperand'⟩ := Option.isSome_iff_exists.mp h'
    exact ((accept?_eq_some_iff.mp hoperand).unique (accept?_eq_some_iff.mp hoperand')
      hindirect).2
  overlap token value hbranch h :=
    ⟨accept?_eq_some_iff.mpr (.distance hbranch h),
      accept?_eq_some_iff.mpr (.address (by decide) rfl h)⟩
  reorder modes hperm hfirst indirect tokens :=
    first?_eq_ofTokens? (.of_perm hperm hfirst) indirect m tokens

end ModeChoice

end Micro65
