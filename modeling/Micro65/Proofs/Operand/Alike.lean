import Micro65.Proofs.Operand.Pattern
import Micro65.Proofs.Operand.Substitution
/-!
# Patterns and labels

What an accepted operand refers to. Two labellings that give every name a literal of the same size
make alike tokens (`Labelling.alike`), so the mode of an operand does not depend on the values of
its labels. An operand whose names are replaced by a labelling and which is then accepted has at
most one name, and if it has one, the literal of this label is its value
(`Labelling.names_of_accept?`).
-/

namespace Micro65

namespace Labelling

open ModeChoice (literal? immediate? accept?)

variable {ε ε' : Type} {labelText : Text → Except ε Text} {labelText' : Text → Except ε' Text}

/-- The texts of a name under two labellings are literals of the same size. -/
def SameSizes (labelText : Text → Except ε Text) (labelText' : Text → Except ε' Text) : Prop :=
  ∀ name x x', labelText name = .ok x → labelText' name = .ok x' →
    ∀ w, (literal? w x).isSome = (literal? w x').isSome

theorem SameSizes.symm (h : SameSizes labelText labelText') : SameSizes labelText' labelText :=
  fun name x x' hx hx' w => (h name x' x hx' hx w).symm

theorem isSome_literal?_of_sameSizes (hl : Labelling labelText)
    (hsizes : SameSizes labelText labelText') {token out out' : Text}
    (h : substitute (Label.replacement labelText) token = .ok out)
    (h' : substitute (Label.replacement labelText') token = .ok out') {w : Width}
    (hw : (literal? w out).isSome = true) : (literal? w out').isSome = true := by
  obtain ⟨n, hn⟩ := Option.isSome_iff_exists.mp hw
  obtain ⟨k, hsized, -⟩ := ModeChoice.literal?_eq_some_iff.mp hn
  rcases literal_token hl h hsized with ⟨hnames, rfl⟩ | ⟨name, hp, hregister, hx⟩
  · rw [substitute_of_names_eq_nil hnames] at h'
    cases h'
    exact hw
  · rw [substitute_of_pieces hp hregister] at h'
    rw [← hsizes name out out' hx h' w]
    exact hw

theorem isSome_immediate?_of_sameSizes (hl : Labelling labelText)
    (hsizes : SameSizes labelText labelText') {token out out' : Text}
    (h : substitute (Label.replacement labelText) token = .ok out)
    (h' : substitute (Label.replacement labelText') token = .ok out')
    (hout : (immediate? out).isSome = true) : (immediate? out').isSome = true := by
  unfold immediate? at hout
  split at hout
  · rename_i value
    obtain ⟨rest, rfl, hvalue⟩ := immediate_token hl h
    obtain ⟨value', hvalue', rfl⟩ := substitute_immediate_eq_ok_iff.mp h'
    exact isSome_literal?_of_sameSizes hl hsizes hvalue hvalue' hout
  · cases hout

theorem sameLetters_of_sameLetters (hl : Labelling labelText) {token out out' : Text}
    (h : substitute (Label.replacement labelText) token = .ok out)
    (h' : substitute (Label.replacement labelText') token = .ok out') {r : Char}
    (hr : r ∈ ['A', 'X', 'Y']) (hout : Text.SameLetters out [r]) : Text.SameLetters out' [r] := by
  obtain ⟨rfl, -, hnames⟩ := register_token hl h hr hout
  rw [substitute_of_names_eq_nil hnames] at h'
  cases h'
  exact hout

/-- **Labels of the same sizes make alike tokens.** -/
theorem alike (hl : Labelling labelText) (hl' : Labelling labelText')
    (hsizes : SameSizes labelText labelText') {token out out' : Text}
    (h : substitute (Label.replacement labelText) token = .ok out)
    (h' : substitute (Label.replacement labelText') token = .ok out') : Alike out out' where
  literal _ := Bool.eq_iff_iff.mpr
    ⟨isSome_literal?_of_sameSizes hl hsizes h h', isSome_literal?_of_sameSizes hl' hsizes.symm h' h⟩
  immediate := Bool.eq_iff_iff.mpr
    ⟨isSome_immediate?_of_sameSizes hl hsizes h h',
      isSome_immediate?_of_sameSizes hl' hsizes.symm h' h⟩
  register _ hr :=
    ⟨sameLetters_of_sameLetters hl h h' hr, sameLetters_of_sameLetters hl' h' h hr⟩

/-- A literal of an operand has no names, or it is the literal of a label. -/
theorem names_of_literal? (hl : Labelling labelText) {token out : Text}
    (h : substitute (Label.replacement labelText) token = .ok out) {w : Width} {n : UInt16}
    (hn : literal? w out = some n) :
    Text.names token = [] ∨
      ∃ name x, Text.names token = [name] ∧ labelText name = .ok x ∧ literal? w x = some n := by
  obtain ⟨k, hsized, -⟩ := ModeChoice.literal?_eq_some_iff.mp hn
  rcases literal_token hl h hsized with ⟨hnames, -⟩ | ⟨name, hp, hregister, hx⟩
  · exact .inl hnames
  · refine .inr ⟨name, out, ?_, hx, hn⟩
    unfold Text.names
    rw [hp]
    simp [Piece.name?, hregister]

/-- **An accepted operand has at most one name, and its value is the value of this label.** -/
theorem names_of_accept? (hl : Labelling labelText) {tokens outs : List Text}
    (h : List.Forall₂ (fun t out => substitute (Label.replacement labelText) t = .ok out)
      tokens outs)
    {m : Mnemonic} {mode : Mode} {operand : Option UInt16}
    (ha : accept? m mode outs = some operand) :
    (∀ t ∈ tokens.tail, t.length = 1) ∧
      (tokens.flatMap Text.names = [] ∨
        ∃ name x w n, tokens.flatMap Text.names = [name] ∧ labelText name = .ok x ∧
          mode.width? = some w ∧ literal? w x = some n ∧ operand = some n) := by
  rcases ModeChoice.accept?_cases ha with ⟨rfl, -, -⟩ | ⟨register, rfl, hregister, -, -⟩ |
    ⟨value, n, rfl, rfl, hn, rfl⟩ | ⟨value, w, n, rfl, hw, hn, rfl⟩ |
    ⟨value, index, r, w, n, rfl, hr, hindex, hw, hn, rfl⟩
  · obtain rfl := List.forall₂_nil_right_iff.mp h
    exact ⟨by simp, .inl rfl⟩
  · obtain ⟨token, ts, htoken, hts, rfl⟩ := List.forall₂_cons_right_iff.mp h
    obtain rfl := List.forall₂_nil_right_iff.mp hts
    obtain ⟨-, -, hnames⟩ := register_token hl htoken (by simp) hregister
    exact ⟨by simp, .inl (by simp [hnames])⟩
  · obtain ⟨token, ts, htoken, hts, rfl⟩ := List.forall₂_cons_right_iff.mp h
    obtain rfl := List.forall₂_nil_right_iff.mp hts
    obtain ⟨rest, rfl, hrest⟩ := immediate_token hl htoken
    have hsign : Text.names ('#' :: rest) = Text.names rest := Text.names_cons (by decide) rest
    refine ⟨by simp, ?_⟩
    rcases names_of_literal? hl hrest hn with hnames | ⟨name, x, hnames, hx, hxn⟩
    · exact .inl (by simp [hsign, hnames])
    · exact .inr ⟨name, x, .byte, n, by simp [hsign, hnames], hx, rfl, hxn, rfl⟩
  · obtain ⟨token, ts, htoken, hts, rfl⟩ := List.forall₂_cons_right_iff.mp h
    obtain rfl := List.forall₂_nil_right_iff.mp hts
    refine ⟨by simp, ?_⟩
    rcases names_of_literal? hl htoken hn with hnames | ⟨name, x, hnames, hx, hxn⟩
    · exact .inl (by simp [hnames])
    · exact .inr ⟨name, x, w, n, by simp [hnames], hx, hw, hxn, rfl⟩
  · obtain ⟨token, ts, htoken, hts, rfl⟩ := List.forall₂_cons_right_iff.mp h
    obtain ⟨token', ts', htoken', hts', rfl⟩ := List.forall₂_cons_right_iff.mp hts
    obtain rfl := List.forall₂_nil_right_iff.mp hts'
    obtain ⟨-, hlength, hnames'⟩ := register_token hl htoken' hr hindex
    refine ⟨by simpa using hlength, ?_⟩
    rcases names_of_literal? hl htoken hn with hnames | ⟨name, x, hnames, hx, hxn⟩
    · exact .inl (by simp [hnames, hnames'])
    · exact .inr ⟨name, x, w, n, by simp [hnames, hnames'], hx, hw, hxn, rfl⟩

end Labelling

end Micro65
