import Mathlib.Data.List.Forall2
import Micro65.Operand.ModeChoice
import Micro65.Proofs.Encoding
import Micro65.Proofs.Literal
/-!
# What a pattern accepts

The pattern of a mode looks at four things only: how many tokens there are, whether the first is a
literal of a size, perhaps behind the sign `#`, and whether the last names a register
(`ModeChoice.accept?_cases`). Its operand has the size of the mode (`ModeChoice.fits_of_accept?`).
Tokens that agree on these points (`Alike`) are therefore accepted by the same modes, and the same
mode is chosen for them (`ModeChoice.mode_first?_congr`), whatever the values of their literals. If
these agree too, the operand is the same (`ModeChoice.ofTokens?_congr`).
-/

namespace Micro65

/-- The size of the literal in an operand of the mode, if it has one. -/
def Mode.width? (mode : Mode) : Option Width :=
  match mode.operandSize with
  | 1 => some .byte
  | 2 => some .word
  | _ => none

namespace ModeChoice

theorem literal?_eq_some_iff {w : Width} {token : Text} {value : UInt16} :
    literal? w token = some value ↔
      ∃ n, Literal.sized? token = some (w, n) ∧ value = UInt16.ofNat n := by
  unfold literal?
  simp only [Option.bind_eq_bind]
  rw [Option.bind_eq_some_iff]
  constructor
  · rintro ⟨⟨found, n⟩, hsized, h⟩
    simp only at h
    split at h
    · rename_i hfound
      cases h
      exact ⟨n, hfound ▸ hsized, rfl⟩
    · cases h
  · rintro ⟨n, hsized, rfl⟩
    exact ⟨(w, n), hsized, if_pos rfl⟩

theorem toNat_lt_of_literal? {w : Width} {token : Text} {value : UInt16}
    (h : literal? w token = some value) : value.toNat < w.bound := by
  obtain ⟨n, hsized, rfl⟩ := literal?_eq_some_iff.mp h
  have hn := (Literal.value_of_sized? hsized).2
  exact Nat.lt_of_le_of_lt (Nat.mod_le _ _) (by simpa using hn)

theorem literal?_hexByte (w : Width) (b : UInt8) :
    literal? w ('$' :: Text.hexByte b) =
      if w = .byte then some (UInt16.ofNat b.toNat) else none := by
  unfold literal?
  rw [Literal.sized?_hexByte]
  cases w <;> rfl

theorem literal?_hexWord (w : Width) (value : UInt16) :
    literal? w ('$' :: Text.hexWord value) = if w = .word then some value else none := by
  unfold literal?
  rw [Literal.sized?_hexWord]
  cases w with
  | byte => rfl
  | word => exact congrArg some UInt16.ofNat_toNat

/-- The literal behind the sign `#`. -/
def immediate? : Text → Option UInt16
  | '#' :: value => literal? .byte value
  | _ => none

theorem indexed?_eq_some_iff {w : Width} {r : Char} {value index : Text} {n : UInt16} :
    indexed? w r value index = some n ↔
      Text.SameLetters index [r] ∧ literal? w value = some n := by
  unfold indexed?
  split
  · rename_i h
    simp [h]
  · rename_i h
    simp [h]

/-- **The forms of an operand.** There is no token; or one, which names the accumulator, is an
immediate byte or is a literal of the size of the mode; or there are two, the second of which names
an index. -/
theorem accept?_cases {m : Mnemonic} {mode : Mode} {tokens : List Text} {operand : Option UInt16}
    (h : accept? m mode tokens = some operand) :
    (tokens = [] ∧ mode.operandSize = 0 ∧ operand = none) ∨
    (∃ register, tokens = [register] ∧ Text.SameLetters register ['A'] ∧
      mode = .accumulator ∧ operand = none) ∨
    (∃ value n, tokens = ['#' :: value] ∧ mode = .immediate ∧
      literal? .byte value = some n ∧ operand = some n) ∨
    (∃ value w n, tokens = [value] ∧ mode.width? = some w ∧
      literal? w value = some n ∧ operand = some n) ∨
    ∃ value index r w n, tokens = [value, index] ∧ r ∈ ['A', 'X', 'Y'] ∧
      Text.SameLetters index [r] ∧ mode.width? = some w ∧
      literal? w value = some n ∧ operand = some n := by
  unfold accept? at h
  split at h
  case h_1 | h_2 | h_3 =>
    split at h
    · cases h
      exact .inl ⟨rfl, rfl, rfl⟩
    · cases h
  case h_4 register =>
    split at h
    · rename_i hregister
      cases h
      exact .inr (.inl ⟨register, rfl, hregister, rfl, rfl⟩)
    · cases h
  case h_5 value =>
    obtain ⟨n, hn, rfl⟩ := Option.map_eq_some_iff.mp h
    exact .inr (.inr (.inl ⟨value, n, rfl, rfl, hn, rfl⟩))
  case h_6 value =>
    split at h
    · obtain ⟨n, hn, rfl⟩ := Option.map_eq_some_iff.mp h
      exact .inr (.inr (.inr (.inl ⟨value, .byte, n, rfl, rfl, hn, rfl⟩)))
    · cases h
  case h_7 value | h_8 value =>
    obtain ⟨n, hn, rfl⟩ := Option.map_eq_some_iff.mp h
    exact .inr (.inr (.inr (.inl ⟨value, .byte, n, rfl, rfl, hn, rfl⟩)))
  case h_9 value | h_10 value =>
    obtain ⟨n, hn, rfl⟩ := Option.map_eq_some_iff.mp h
    exact .inr (.inr (.inr (.inl ⟨value, .word, n, rfl, rfl, hn, rfl⟩)))
  case h_18 => cases h
  all_goals
    obtain ⟨n, hn, rfl⟩ := Option.map_eq_some_iff.mp h
    obtain ⟨hindex, hn⟩ := indexed?_eq_some_iff.mp hn
    exact .inr (.inr (.inr (.inr ⟨_, _, _, _, n, rfl, by simp, hindex, rfl, hn, rfl⟩)))

theorem fits_of_width? {mode : Mode} {w : Width} {value : UInt16} (hw : mode.width? = some w)
    (hlt : value.toNat < w.bound) : mode.Fits (some value) := by
  unfold Mode.width? at hw
  split at hw
  · rename_i hsize
    cases hw
    exact ⟨by omega, by rw [hsize]; exact hlt⟩
  · rename_i hsize
    cases hw
    exact ⟨by omega, by rw [hsize]; exact hlt⟩
  · cases hw

/-- The operand that a pattern gives has the size of the mode. -/
theorem fits_of_accept? {m : Mnemonic} {mode : Mode} {tokens : List Text}
    {operand : Option UInt16} (h : accept? m mode tokens = some operand) : mode.Fits operand := by
  rcases accept?_cases h with ⟨-, hsize, rfl⟩ | ⟨_, -, -, rfl, rfl⟩ | ⟨_, n, -, rfl, hn, rfl⟩ |
    ⟨_, w, n, -, hw, hn, rfl⟩ | ⟨_, _, _, w, n, -, -, -, hw, hn, rfl⟩
  · exact hsize
  · rfl
  · exact fits_of_width? (w := .byte) rfl (toNat_lt_of_literal? hn)
  · exact fits_of_width? hw (toNat_lt_of_literal? hn)
  · exact fits_of_width? hw (toNat_lt_of_literal? hn)

end ModeChoice

/-! ## Tokens that patterns do not tell apart -/

/-- Two tokens are alike but for what `view` hides of the values of their literals: they are
literals of the same sizes, behind the sign `#` too, and name the same registers. -/
structure AlikeUnder {β : Type} (view : UInt16 → β) (s t : Text) : Prop where
  literal : ∀ w, (ModeChoice.literal? w s).map view = (ModeChoice.literal? w t).map view
  immediate : (ModeChoice.immediate? s).map view = (ModeChoice.immediate? t).map view
  register : ∀ r ∈ ['A', 'X', 'Y'], Text.SameLetters s [r] ↔ Text.SameLetters t [r]

/-- Two tokens are alike if they are literals of the same sizes, behind the sign `#` too, and name
the same registers. -/
structure Alike (s t : Text) : Prop where
  literal : ∀ w, (ModeChoice.literal? w s).isSome = (ModeChoice.literal? w t).isSome
  immediate : (ModeChoice.immediate? s).isSome = (ModeChoice.immediate? t).isSome
  register : ∀ r ∈ ['A', 'X', 'Y'], Text.SameLetters s [r] ↔ Text.SameLetters t [r]

theorem AlikeUnder.refl {β : Type} (view : UInt16 → β) (t : Text) : AlikeUnder view t t where
  literal _ := rfl
  immediate := rfl
  register _ _ := .rfl

/-- Alike tokens agree in all but the values of their literals. -/
theorem Alike.under {s t : Text} (h : Alike s t) : AlikeUnder (fun _ => ()) s t := by
  have hunit : ∀ {x y : Option UInt16}, x.isSome = y.isSome →
      x.map (fun _ => ()) = y.map fun _ => () := by
    intro x y hxy
    cases x <;> cases y <;> first | rfl | cases hxy
  exact ⟨fun w => hunit (h.literal w), hunit h.immediate, h.register⟩

namespace ModeChoice

theorem accept?_immediate (m : Mnemonic) (token : Text) :
    accept? m .immediate [token] = (immediate? token).map some := by
  unfold accept? immediate?
  split <;> simp_all

section

variable {β : Type} {view : UInt16 → β}

theorem map_indexed?_congr {w : Width} {r : Char} {value index value' index' : Text}
    (hr : r ∈ ['A', 'X', 'Y']) (hvalue : AlikeUnder view value value')
    (hindex : AlikeUnder view index index') :
    (indexed? w r value index).map view = (indexed? w r value' index').map view := by
  unfold indexed?
  by_cases h : Text.SameLetters index [r]
  · rw [if_pos h, if_pos ((hindex.register r hr).mp h), hvalue.literal]
  · rw [if_neg h, if_neg (mt (hindex.register r hr).mpr h)]

/-- **A pattern accepts both of two lists of alike tokens or neither**, and with operands that agree
in what is seen of their values. -/
theorem map_accept?_congr (m : Mnemonic) (mode : Mode) {ss ts : List Text}
    (h : List.Forall₂ (AlikeUnder view) ss ts) :
    (accept? m mode ss).map (Option.map view) = (accept? m mode ts).map (Option.map view) := by
  have hoperand : ∀ {x y : Option UInt16}, x.map view = y.map view →
      (x.map some).map (Option.map view) = (y.map some).map (Option.map view) := by
    intro x y hxy
    simpa [Option.map_map, Function.comp_def] using congrArg (Option.map some) hxy
  cases h with
  | nil => rfl
  | @cons s t ss ts hst h =>
    cases h with
    | nil =>
      cases mode with
      | immediate =>
        rw [accept?_immediate, accept?_immediate]
        exact hoperand hst.immediate
      | accumulator =>
        simp only [accept?]
        by_cases hregister : Text.SameLetters s ['A']
        · rw [if_pos hregister, if_pos ((hst.register _ (by simp)).mp hregister)]
        · rw [if_neg hregister, if_neg (mt (hst.register _ (by simp)).mpr hregister)]
      | relative =>
        simp only [accept?]
        split
        · exact hoperand (hst.literal _)
        · rfl
      | zeroPage | zeroPageIndirect | absolute | indirect => exact hoperand (hst.literal _)
      | _ => rfl
    | @cons s' t' ss ts hst' h =>
      cases h with
      | nil =>
        cases mode with
        | zeroPageX | zeroPageY | absoluteX | absoluteY | absoluteIndexedIndirect | indirectX
          | indirectY => exact hoperand (map_indexed?_congr (by simp) hst hst')
        | immediate => simp [accept?]
        | _ => rfl
      | cons _ _ =>
        cases mode with
        | immediate => simp [accept?]
        | _ => rfl

end

/-- Tokens that are alike in the values of their literals too are accepted with the same
operands. -/
theorem accept?_congr (m : Mnemonic) (mode : Mode) {ss ts : List Text}
    (h : List.Forall₂ (AlikeUnder id) ss ts) : accept? m mode ss = accept? m mode ts := by
  simpa using map_accept?_congr m mode h

theorem ofTokens?_congr (indirect : Bool) (m : Mnemonic) {ss ts : List Text}
    (h : List.Forall₂ (AlikeUnder id) ss ts) :
    ofTokens? indirect m ss = ofTokens? indirect m ts := by
  unfold ofTokens? first?
  simp only [accept?_congr m _ h]

theorem isSome_accept?_congr (m : Mnemonic) (mode : Mode) {ss ts : List Text}
    (h : List.Forall₂ Alike ss ts) :
    (accept? m mode ss).isSome = (accept? m mode ts).isSome := by
  simpa using congrArg Option.isSome (map_accept?_congr m mode (h.imp fun _ _ hst => hst.under))

/-- **The same mode is chosen for alike tokens.** -/
theorem mode_first?_congr (modes : List Mode) (indirect : Bool) (m : Mnemonic)
    {ss ts : List Text} (h : List.Forall₂ Alike ss ts) :
    (first? modes indirect m ss).map ModeChoice.mode =
      (first? modes indirect m ts).map ModeChoice.mode := by
  unfold first?
  induction modes with
  | nil => rfl
  | cons mode modes ih =>
    have hmode := isSome_accept?_congr m mode h
    simp only [List.findSome?_cons]
    by_cases hindirect : mode.isIndirect = indirect
    · simp only [if_pos hindirect]
      cases hs : accept? m mode ss with
      | none =>
        cases ht : accept? m mode ts with
        | none => exact ih
        | some operand => rw [hs, ht] at hmode; cases hmode
      | some operand =>
        cases ht : accept? m mode ts with
        | none => rw [hs, ht] at hmode; cases hmode
        | some operand' => rfl
    · simp only [if_neg hindirect]
      exact ih

theorem accept?_of_first? {modes : List Mode} {indirect : Bool} {m : Mnemonic}
    {tokens : List Text} {choice : ModeChoice}
    (h : first? modes indirect m tokens = some choice) :
    accept? m choice.mode tokens = some choice.operand := by
  unfold first? at h
  obtain ⟨mode, -, hmode⟩ := List.exists_of_findSome?_eq_some h
  split at hmode
  · obtain ⟨operand, hoperand, rfl⟩ := Option.map_eq_some_iff.mp hmode
    exact hoperand
  · cases hmode

end ModeChoice

end Micro65
