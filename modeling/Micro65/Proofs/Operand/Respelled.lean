import Micro65.Proofs.Assembly.Instruction
import Micro65.Proofs.Operand.LetterCase
import Micro65.Proofs.Operand.Pieces
/-!
# Operands in which names are spelled alike

Two texts that have the same letters and the same names (`Text.Respelled`) differ in the case of
letters outside names. Replacing the labels in them fails with the same label, or leaves texts with
the same letters (`Text.Respelled.map_upper_substitute`), so a statement has the same form whichever
way its operand is spelled (`Statement.Respelled.form_eq_ok`).

What is wrong with a statement is of the same kind too, with one exception. Taking closing
parentheses out of a token puts together what stands on their two sides (`Text.Joins`), and what
comes out may be a name with letters in it that did not belong to one. If nothing is put together,
no name is new (`Text.names_unclosed`).
-/

namespace Micro65

namespace Text

/-- Texts with the same letters and the same names. -/
structure Respelled (t t' : Text) : Prop where
  sameLetters : SameLetters t t'
  names_eq : names t = names t'

theorem Respelled.refl (t : Text) : Respelled t t :=
  ⟨rfl, rfl⟩

theorem Respelled.symm {t t' : Text} (h : Respelled t t') : Respelled t' t :=
  ⟨h.sameLetters.symm, h.names_eq.symm⟩

variable {t t' : Text} {ts ts' : List Text}

theorem SameLetters.length_names (h : SameLetters t t') : (names t).length = (names t').length := by
  have hnames : (names t).map upper = (names t').map upper := by
    rw [← names_upper, ← names_upper, show upper t = upper t' from h]
  simpa using congrArg List.length hnames

/-- Texts with the same letters are respelled one by one if their names together are the same. -/
theorem forall₂_respelled (h : List.Forall₂ SameLetters ts ts')
    (hnames : ts.flatMap names = ts'.flatMap names) : List.Forall₂ Respelled ts ts' := by
  induction h with
  | nil => exact .nil
  | cons ht _ ih =>
    rw [List.flatMap_cons, List.flatMap_cons] at hnames
    obtain ⟨hhead, htail⟩ := List.append_inj hnames ht.length_names
    exact .cons ⟨ht, hhead⟩ (ih htail)

end Text

/-! ## Replacing labels -/

section

variable {ε α β γ : Type}

theorem map_mapM (f : α → Except ε β) (g : β → γ) (xs : List α) :
    (xs.mapM f).map (List.map g) = xs.mapM fun x => (f x).map g := by
  induction xs with
  | nil => rfl
  | cons x xs ih =>
    rw [List.mapM_cons, List.mapM_cons, ← ih]
    cases f x with
    | error e => rfl
    | ok y => cases xs.mapM f <;> rfl

/-- Computations that come to the same for the elements of two lists come to the same for the
lists. -/
theorem map_mapM_congr {f : α → Except ε β} {g : β → γ} {xs ys : List α}
    (h : List.Forall₂ (fun x y => (f x).map g = (f y).map g) xs ys) :
    (xs.mapM f).map (List.map g) = (ys.mapM f).map (List.map g) := by
  rw [map_mapM, map_mapM]
  induction h with
  | nil => rfl
  | cons hxy _ ih => rw [List.mapM_cons, List.mapM_cons, hxy, ih]

end

namespace Piece

variable {ε : Type} {p p' : Piece} {ps ps' : List Piece}

/-- Pieces that have the same letters and name the same. -/
structure Respelled (p p' : Piece) : Prop where
  upper_eq : p.upper = p'.upper
  name?_eq : p.name? = p'.name?

/-- Pieces with the same letters are respelled one by one if all names in them are the same. -/
theorem forall₂_respelled (hupper : ps.map upper = ps'.map upper)
    (hnames : ps.filterMap name? = ps'.filterMap name?) : List.Forall₂ Respelled ps ps' := by
  induction ps generalizing ps' with
  | nil =>
    obtain rfl := List.map_eq_nil_iff.mp hupper.symm
    exact .nil
  | cons p ps ih =>
    obtain ⟨p', ps', rfl, hp, hps⟩ := List.map_eq_cons_iff.mp hupper.symm
    have hname := congrArg name? hp
    rw [name?_upper, name?_upper] at hname
    cases hn : p.name? with
    | none =>
      have hn' : p'.name? = none := by simpa [hn] using hname
      rw [List.filterMap_cons_none hn, List.filterMap_cons_none hn'] at hnames
      exact .cons ⟨hp.symm, hn.trans hn'.symm⟩ (ih hps.symm hnames)
    | some name =>
      rw [hn] at hname
      obtain ⟨name', hn', -⟩ := Option.map_eq_some_iff.mp hname
      rw [List.filterMap_cons_some hn, List.filterMap_cons_some hn'] at hnames
      obtain ⟨rfl, htail⟩ := List.cons.inj hnames
      exact .cons ⟨hp.symm, hn.trans hn'.symm⟩ (ih hps.symm htail)

/-- A piece becomes the same, apart from the case of letters. -/
theorem Respelled.map_upper_substituted (labelText : Text → Except ε Text) (h : Respelled p p') :
    (p.substituted (Label.replacement labelText)).map Text.upper =
      (p'.substituted (Label.replacement labelText)).map Text.upper := by
  obtain ⟨hupper, hname⟩ := h
  match p, p', hupper with
  | .numeral _, .numeral _, hupper => exact congrArg Except.ok (numeral.inj hupper)
  | .other _, .other _, hupper => exact congrArg (fun c => Except.ok [c]) (other.inj hupper)
  | .identifier name, .identifier name', hupper =>
    have hregister : Label.isRegister name = Label.isRegister name' := by
      rw [← Label.isRegister_upper, identifier.inj hupper, Label.isRegister_upper]
    cases hname' : Label.isRegister name' with
    | true =>
      simp only [substituted, Label.replacement, hregister, hname', if_true]
      exact congrArg Except.ok (identifier.inj hupper)
    | false =>
      obtain rfl : name = name' := by simpa [name?, hregister, hname'] using hname
      rfl

end Piece

namespace Text

variable {ε : Type} {t t' : Text} {ts ts' : List Text}

theorem Respelled.forall₂_pieces (h : Respelled t t') :
    List.Forall₂ Piece.Respelled (Piece.pieces t) (Piece.pieces t') := by
  refine Piece.forall₂_respelled ?_ h.names_eq
  rw [← Piece.pieces_upper, ← Piece.pieces_upper, show upper t = upper t' from h.sameLetters]

/-- **Replacing the labels in a respelled text** fails with the same label, or
leaves the same letters. -/
theorem Respelled.map_upper_substitute (labelText : Text → Except ε Text) (h : Respelled t t') :
    (substitute (Label.replacement labelText) t).map upper =
      (substitute (Label.replacement labelText) t').map upper := by
  have hpieces := map_mapM_congr
    (h.forall₂_pieces.imp fun _ _ hp => hp.map_upper_substituted labelText)
  have hflatten : ∀ t : Text, (substitute (Label.replacement labelText) t).map upper =
      (((Piece.pieces t).mapM (Piece.substituted (Label.replacement labelText))).map
        (List.map upper)).map List.flatten := by
    intro t
    unfold substitute upper
    cases (Piece.pieces t).mapM (Piece.substituted (Label.replacement labelText)) with
    | error e => rfl
    | ok texts => exact congrArg Except.ok List.map_flatten
  rw [hflatten, hflatten, hpieces]

theorem map_upper_mapM_substitute (labelText : Text → Except ε Text)
    (h : List.Forall₂ Respelled ts ts') :
    (ts.mapM (substitute (Label.replacement labelText))).map (List.map upper) =
      (ts'.mapM (substitute (Label.replacement labelText))).map (List.map upper) :=
  map_mapM_congr (h.imp fun _ _ ht => ht.map_upper_substitute labelText)

end Text

/-! ## Fields -/

namespace Text

variable {t t' : Text} {ts ts' : List Text}

theorem forall₂_sameLetters_iff :
    List.Forall₂ SameLetters ts ts' ↔ ts.map upper = ts'.map upper := by
  rw [← List.forall₂_eq_eq_eq, List.forall₂_map_left_iff, List.forall₂_map_right_iff]
  rfl

/-- The text without closing parentheses. -/
def unclosed (t : Text) : Text :=
  t.filter (· ≠ ')')

theorem unclosed_append (s t : Text) : unclosed (s ++ t) = unclosed s ++ unclosed t :=
  List.filter_append ..

theorem SameLetters.trim (h : SameLetters t t') : SameLetters (trim t) (Text.trim t') := by
  unfold SameLetters
  rw [← trim_upper, ← trim_upper, show upper t = upper t' from h]

theorem SameLetters.unclosed (h : SameLetters t t') :
    SameLetters (unclosed t) (Text.unclosed t') := by
  have hclose : Caseless fun c => decide (c ≠ ')') := caseless_ne (by decide)
  unfold SameLetters Text.unclosed
  rw [← filter_upper hclose, ← filter_upper hclose, show upper t = upper t' from h]

theorem Respelled.trim (h : Respelled t t') : Respelled (trim t) (Text.trim t') :=
  ⟨h.sameLetters.trim, by rw [names_trim, names_trim, h.names_eq]⟩

end Text

namespace Field

open Text (Respelled SameLetters unclosed names)

variable {t t' : Text} {f f' : Field}

/-- Texts with the same letters are cut into tokens with the same letters, or into none. -/
theorem ofText_of_sameLetters (h : SameLetters t t') :
    (∃ e e', ofText t = .error e ∧ ofText t' = .error e') ∨
      ∃ f f', ofText t = .ok f ∧ ofText t' = .ok f' ∧ f.indirect = f'.indirect ∧
        List.Forall₂ SameLetters f.tokens f'.tokens := by
  have hupper := ofText_upper t
  rw [show Text.upper t = Text.upper t' from h, ofText_upper] at hupper
  cases ht : ofText t with
  | error e =>
    cases ht' : ofText t' with
    | error e' => exact .inl ⟨e, e', rfl, rfl⟩
    | ok f' =>
      rw [ht, ht'] at hupper
      cases hupper
  | ok f =>
    cases ht' : ofText t' with
    | error e' =>
      rw [ht, ht'] at hupper
      cases hupper
    | ok f' =>
      rw [ht, ht'] at hupper
      have hfields : f'.upper = f.upper := Except.ok.inj hupper
      refine .inr ⟨f, f', rfl, rfl, (congrArg indirect hfields).symm, ?_⟩
      exact Text.forall₂_sameLetters_iff.mpr (congrArg tokens hfields).symm

theorem forall₂_sameLetters_cut (h : SameLetters t t') :
    List.Forall₂ SameLetters (cut t) (cut t') := by
  rw [Text.forall₂_sameLetters_iff, ← cut_upper, ← cut_upper,
    show Text.upper t = Text.upper t' from h]

/-- The parts of a respelled field are respelled. -/
theorem forall₂_cut (h : Respelled t t') : List.Forall₂ Respelled (cut t) (cut t') := by
  refine Text.forall₂_respelled (forall₂_sameLetters_cut h.sameLetters) ?_
  rw [flatMap_names_cut, flatMap_names_cut, h.names_eq]

theorem names_unclosed_append_cons {c : Char} (hc : c = ',' ∨ Text.isBlank c = true) (s t : Text) :
    names (unclosed (s ++ c :: t)) = names (unclosed s) ++ names (unclosed t) := by
  have hclose : c ≠ ')' := by
    rintro rfl
    exact absurd hc (by decide)
  have hcons : unclosed (c :: t) = c :: unclosed t :=
    List.filter_cons_of_pos (by simpa using hclose)
  rw [Text.unclosed_append, hcons]
  exact Text.names_append_cons (isSeparator_of_cut hc) _ _

theorem names_unclosed_trim (t : Text) : names (unclosed (Text.trim t)) = names (unclosed t) := by
  obtain ⟨u, v, ht, hu, hv⟩ := Text.exists_eq_append_trim t
  have hblank : ∀ w : Text, Text.AllBlank w → ∀ c ∈ unclosed w, Piece.isSeparator c = true :=
    fun w hw c hc => Piece.isSeparator_of_isBlank (hw c (List.mem_filter.mp hc).1)
  have hunclosed : unclosed t = unclosed u ++ unclosed (Text.trim t) ++ unclosed v := by
    conv => lhs; rw [ht]
    rw [Text.unclosed_append, Text.unclosed_append]
  rw [hunclosed, Text.names_append_of_isSeparator _ (hblank v hv),
    Text.names_append_right _ (hblank u hu)]

/-- The parts of fields that are respelled without closing parentheses are so, too. -/
theorem forall₂_unclosed_cut (h : Respelled (unclosed t) (unclosed t')) (hsame : SameLetters t t') :
    List.Forall₂ (fun u u' => Respelled (unclosed u) (unclosed u')) (cut t) (cut t') := by
  have hcut : ∀ t, ((cut t).map unclosed).flatMap names = names (unclosed t) := by
    intro t
    rw [List.flatMap_map]
    exact flatMap_cut (f := fun t => names (unclosed t)) (fun _ hc => names_unclosed_append_cons hc)
      names_unclosed_trim Text.names_nil t
  have hparts : List.Forall₂ Respelled ((cut t).map unclosed) ((cut t').map unclosed) := by
    refine Text.forall₂_respelled ?_ ?_
    · rw [List.forall₂_map_left_iff, List.forall₂_map_right_iff]
      exact (forall₂_sameLetters_cut hsame).imp fun _ _ hu => hu.unclosed
    · rw [hcut, hcut, h.names_eq]
  rwa [List.forall₂_map_left_iff, List.forall₂_map_right_iff] at hparts

/-- The first token of a respelled field has the same names. -/
theorem names_head?_tokens (h : Respelled t t') (hf : ofText t = .ok f) (hf' : ofText t' = .ok f') :
    f.tokens.head?.map names = f'.tokens.head?.map names := by
  have hhead : ∀ {t : Text} {f : Field}, ofText t = .ok f →
      f.tokens.head?.map names = (cut (Text.trim t)).head?.map names := by
    intro t f hf
    obtain ⟨-, htokens⟩ | ⟨-, first, rest, value, hparts, hvalue, htokens⟩ := tokens_of_ofText hf
    · rw [htokens]
    · rw [htokens, hparts]
      simp [hvalue]
  have hparts := forall₂_cut h.trim
  rw [hhead hf, hhead hf']
  generalize cut (Text.trim t) = parts at hparts
  generalize cut (Text.trim t') = parts' at hparts
  cases hparts with
  | nil => rfl
  | cons hfirst _ => exact congrArg some hfirst.names_eq

/-- **The tokens of a respelled field are respelled** if the field is respelled without closing
parentheses, too. -/
theorem forall₂_tokens (h : Respelled t t') (hunclosed : Respelled (unclosed t) (unclosed t'))
    (hf : ofText t = .ok f) (hf' : ofText t' = .ok f') (hindirect : f.indirect = f'.indirect)
    (hsame : List.Forall₂ SameLetters f.tokens f'.tokens) :
    List.Forall₂ Respelled f.tokens f'.tokens := by
  have htrim : Respelled (unclosed (Text.trim t)) (unclosed (Text.trim t')) := by
    refine ⟨h.sameLetters.trim.unclosed, ?_⟩
    rw [names_unclosed_trim, names_unclosed_trim, hunclosed.names_eq]
  have hcut := forall₂_cut h.trim
  have hcut' := forall₂_unclosed_cut htrim h.sameLetters.trim
  obtain ⟨hdirect, htokens⟩ | ⟨hin, first, rest, value, hparts, hvalue, htokens⟩ :=
    tokens_of_ofText hf
  · obtain ⟨-, htokens'⟩ | ⟨hin', -⟩ := tokens_of_ofText hf'
    · rwa [htokens, htokens']
    · rw [hdirect, hin'] at hindirect
      cases hindirect
  · obtain ⟨hdirect', -⟩ | ⟨-, first', rest', value', hparts', hvalue', htokens'⟩ :=
      tokens_of_ofText hf'
    · rw [hin, hdirect'] at hindirect
      cases hindirect
    · rw [hparts, hparts'] at hcut hcut'
      rw [htokens, htokens'] at hsame ⊢
      cases hsame with
      | cons hsame _ =>
        cases hcut with
        | cons hfirst _ =>
          cases hcut' with
          | cons _ hrest =>
            refine .cons ⟨hsame, ?_⟩ ?_
            · rw [Text.names_trim, Text.names_trim, hvalue, hvalue', hfirst.names_eq]
            · rw [List.forall₂_map_left_iff, List.forall₂_map_right_iff]
              exact hrest.imp fun _ _ hu => hu.trim

/-- Tokens with the same letters are respelled if the first has the same names and
the others have none. -/
theorem forall₂_respelled_of_tail {ts ts' : List Text} (h : List.Forall₂ SameLetters ts ts')
    (hhead : ts.head?.map names = ts'.head?.map names) (htail : ∀ t ∈ ts.tail, names t = []) :
    List.Forall₂ Respelled ts ts' := by
  cases h with
  | nil => exact .nil
  | cons ht hts =>
    refine .cons ⟨ht, Option.some.inj hhead⟩ (List.forall₂_iff_zip.mpr ⟨hts.length_eq, ?_⟩)
    intro u u' hu
    have hsame := (List.forall₂_iff_zip.mp hts).2 hu
    have hnone := htail u (List.of_mem_zip hu).1
    refine ⟨hsame, ?_⟩
    have hlength := hsame.length_names
    rw [hnone] at hlength ⊢
    exact (List.eq_nil_of_length_eq_zero hlength.symm).symm

end Field

/-! ## Closing parentheses between names -/

namespace Piece

variable {p : Piece} {s t : Text}

theorem isSeparator_eq_false_of_isNameChar {c : Char} (h : Label.isNameChar c = true) :
    isSeparator c = false := by
  cases hc : isSeparator c with
  | false => rfl
  | true =>
    rw [isNameChar_eq_false_of_isSeparator hc] at h
    cases h

/-- A piece does not go on where it ends in a separator or no character of a name follows. -/
theorem WellFormed.takes_eq_false (h : p.WellFormed) {c : Char}
    (hc : ∀ a ∈ p.text.getLast?, isSeparator a = true ∨ Label.isNameChar c = false) :
    p.takes c = false := by
  have hlast : ∀ first rest, (∀ a ∈ first :: rest, isSeparator a = false) →
      (∀ a ∈ (first :: rest).getLast?, isSeparator a = true ∨ Label.isNameChar c = false) →
        Label.isNameChar c = false := by
    intro first rest hsolid hc
    have hmem := List.getLast_mem (List.cons_ne_nil first rest)
    refine (hc _ (List.getLast?_eq_getLast_of_ne_nil (List.cons_ne_nil first rest))).resolve_left ?_
    simp [hsolid _ hmem]
  cases h with
  | numeral first rest hfirst hrest =>
    have hsolid : ∀ a ∈ first :: rest, isSeparator a = false := by
      refine List.forall_mem_cons.mpr ⟨by simp [isSeparator, hfirst], fun d hd => ?_⟩
      exact isSeparator_eq_false_of_isNameChar (by simp [Label.isNameChar, hrest d hd])
    have hnone := hlast first rest hsolid hc
    simp only [Label.isNameChar, Bool.or_eq_false_iff] at hnone
    exact hnone.1
  | identifier first rest hfirst hrest =>
    have hsolid : ∀ a ∈ first :: rest, isSeparator a = false :=
      List.forall_mem_cons.mpr ⟨by simp [isSeparator, hfirst],
        fun d hd => isSeparator_eq_false_of_isNameChar (hrest d hd)⟩
    exact hlast first rest hsolid hc
  | other d hd => rfl

/-- **Pieces are read on the two sides of a place independently** if no piece goes on across it. -/
theorem pieces_append (h : ∀ a ∈ s.getLast?, ∀ b ∈ t.head?,
    isSeparator a = true ∨ Label.isNameChar b = false) :
    pieces (s ++ t) = pieces s ++ pieces t := by
  refine (cuts_iff.mp ?_).symm
  have hs : Cuts (pieces s) s := cuts_iff.mpr rfl
  generalize pieces s = ps at hs
  induction hs with
  | nil => exact cuts_iff.mpr rfl
  | @cons p ps rest hp hstop _ ih =>
    rw [List.append_assoc, List.cons_append]
    refine .cons hp ?_ (ih fun a ha => h a ?_)
    · cases rest with
      | nil =>
        intro c hc
        exact hp.takes_eq_false fun a ha => h a (by simpa using ha) c hc
      | cons d rest => exact hstop
    · rw [List.getLast?_append_of_ne_nil _ (by rintro rfl; cases ha)]
      exact ha

end Piece

namespace Text

open Piece (isSeparator)

/-- Two characters of a name or a number are kept apart by nothing but closing parentheses. -/
inductive Joins : Text → Prop
  | intro (front : Text) (a : Char) (closes : Text) (b : Char) (behind : Text)
      (ha : isSeparator a = false) (hne : closes ≠ []) (hcloses : ∀ c ∈ closes, c = ')')
      (hb : Label.isNameChar b = true) : Joins (front ++ a :: (closes ++ b :: behind))

variable {s t t' : Text}

theorem Joins.append_left (h : Joins t) (s : Text) : Joins (s ++ t) := by
  obtain ⟨front, a, closes, b, behind, ha, hne, hcloses, hb⟩ := h
  rw [← List.append_assoc]
  exact .intro (s ++ front) a closes b behind ha hne hcloses hb

theorem unclosed_eq_self (h : ')' ∉ t) : unclosed t = t :=
  List.filter_eq_self.mpr fun _ hc => decide_eq_true fun hclose => h (hclose ▸ hc)

theorem unclosed_of_forall (h : ∀ c ∈ t, c = ')') : unclosed t = [] :=
  List.filter_eq_nil_iff.mpr fun c hc => by simp [h c hc]

/-- The first run of closing parentheses. -/
theorem exists_closes (h : ')' ∈ t) :
    ∃ front closes behind : Text, t = front ++ (closes ++ behind) ∧
    ')' ∉ front ∧ closes ≠ [] ∧ (∀ c ∈ closes, c = ')') ∧ ∀ c ∈ behind.head?, c ≠ ')' := by
  obtain ⟨front, rest, rfl, hfront⟩ := List.eq_append_cons_of_mem h
  refine ⟨front, ')' :: rest.takeWhile (· = ')'), rest.dropWhile (· = ')'), ?_, hfront,
    List.cons_ne_nil _ _, List.forall_mem_cons.mpr ⟨rfl, fun c hc => ?_⟩, fun c hc => ?_⟩
  · rw [List.cons_append, List.takeWhile_append_dropWhile]
  · simpa using List.all_eq_true.mp List.all_takeWhile c hc
  · simpa using eq_false_of_mem_head?_dropWhile hc

/-- Names are read apart on the two sides of closing parentheses that keep nothing apart, also
when these are left out. -/
theorem names_append_unclosed {front closes behind : Text}
    (h : ¬ Joins (front ++ (closes ++ behind))) (hne : closes ≠ [])
    (hcloses : ∀ c ∈ closes, c = ')') (hbehind : ∀ c ∈ behind.head?, c ≠ ')') :
    names (front ++ unclosed behind) = names front ++ names (unclosed behind) := by
  unfold names
  rw [← List.filterMap_append, Piece.pieces_append]
  intro a ha b hb
  cases behind with
  | nil => cases hb
  | cons d behind =>
    obtain rfl : d = b := by simpa [unclosed, hbehind d rfl] using hb
    obtain ⟨u, rfl⟩ := List.getLast?_eq_some_iff.mp ha
    cases hseparator : isSeparator a with
    | true => exact .inl rfl
    | false =>
      refine .inr (Bool.eq_false_iff.mpr fun hname => h ?_)
      have hjoins := Joins.intro u a closes d behind hseparator hne hcloses hname
      rwa [List.append_assoc, List.singleton_append]

/-- **Closing parentheses that keep nothing apart** can be left out without a change of the
names. -/
theorem names_unclosed (h : ¬ Joins t) : names (unclosed t) = names t := by
  -- from one run of closing parentheses to the next
  induction hn : t.length using Nat.strongRecOn generalizing t with
  | _ n ih =>
    by_cases hclose : ')' ∈ t
    · obtain ⟨front, closes, behind, rfl, hfront, hne, hcloses, hbehind⟩ := exists_closes hclose
      have hseparators : ∀ c ∈ closes, isSeparator c = true := fun c hc => hcloses c hc ▸ by decide
      have hnames : names (front ++ (closes ++ behind)) = names front ++ names behind := by
        obtain ⟨c, closes, rfl⟩ := List.exists_cons_of_ne_nil hne
        obtain ⟨hc, hrest⟩ := List.forall_mem_cons.mp hseparators
        rw [List.cons_append, names_append_cons hc, names_append_right _ hrest]
      have hbehind' : names (unclosed behind) = names behind := by
        refine ih behind.length ?_ (fun hjoins => h ?_) rfl
        · have hpos := List.length_pos_iff.mpr hne
          rw [← hn, List.length_append, List.length_append]
          omega
        · exact (hjoins.append_left closes).append_left front
      rw [hnames, unclosed_append, unclosed_append, unclosed_eq_self hfront,
        unclosed_of_forall hcloses, List.nil_append,
        names_append_unclosed h hne hcloses hbehind, hbehind']
    · rw [unclosed_eq_self hclose]

theorem caseless_isSeparator : Caseless isSeparator :=
  caseless_of_letters (by decide)

/-- Whether something is kept apart does not depend on the case of letters. -/
theorem Joins.of_sameLetters (h : Joins t) (hsame : SameLetters t t') : Joins t' := by
  obtain ⟨front, a, closes, b, behind, ha, hne, hcloses, hb⟩ := h
  have hupper : upper t' =
      upper front ++ a.toUpper :: (upper closes ++ b.toUpper :: upper behind) := by
    rw [← show upper _ = upper t' from hsame]
    simp
  unfold upper at hupper
  obtain ⟨front', rest, rfl, -, hrest⟩ := List.map_eq_append_iff.mp hupper
  obtain ⟨a', rest, rfl, ha', hrest⟩ := List.map_eq_cons_iff.mp hrest
  obtain ⟨closes', rest, rfl, hcloses', hrest⟩ := List.map_eq_append_iff.mp hrest
  obtain ⟨b', behind', rfl, hb', -⟩ := List.map_eq_cons_iff.mp hrest
  refine .intro front' a' closes' b' behind' ?_ ?_ ?_ ?_
  · rw [← caseless_isSeparator, ha', caseless_isSeparator, ha]
  · rintro rfl
    exact hne (List.map_eq_nil_iff.mp hcloses'.symm)
  · intro c hc
    have hmem : c.toUpper ∈ closes.map Char.toUpper := hcloses' ▸ List.mem_map_of_mem hc
    obtain ⟨d, hd, hdc⟩ := List.mem_map.mp hmem
    rw [hcloses d hd] at hdc
    exact (toUpper_eq_iff (by decide)).mp hdc.symm
  · rw [← caseless_isNameChar, hb', caseless_isNameChar, hb]

/-- A respelled text is respelled without its closing parentheses, if these keep nothing apart. -/
theorem Respelled.unclosed (h : Respelled t t') (hjoins : ¬ Joins t) :
    Respelled (unclosed t) (Text.unclosed t') := by
  have hjoins' : ¬ Joins t' := fun h' => hjoins (h'.of_sameLetters h.sameLetters.symm)
  exact ⟨h.sameLetters.unclosed, by rw [names_unclosed hjoins, names_unclosed hjoins', h.names_eq]⟩

end Text

/-! ## Statements -/

namespace Labelling

variable {ε : Type} {labelText : Text → Except ε Text}

/-- The tokens behind the first have no names if they are accepted. -/
theorem names_tail_of_accept? (hl : Labelling labelText) {tokens outs : List Text}
    (h : List.Forall₂ (fun t out => substitute (Label.replacement labelText) t = .ok out)
      tokens outs) {m : Mnemonic} {mode : Mode} {operand : Option UInt16}
    (ha : ModeChoice.accept? m mode outs = some operand) :
    ∀ t ∈ tokens.tail, Text.names t = [] := by
  have hshort : ∀ out, outs = [out] → ∀ t ∈ tokens.tail, Text.names t = [] := by
    rintro out rfl
    obtain ⟨token, ts, -, hts, rfl⟩ := List.forall₂_cons_right_iff.mp h
    obtain rfl := List.forall₂_nil_right_iff.mp hts
    exact nofun
  rcases ModeChoice.accept?_cases ha with ⟨rfl, -, -⟩ | ⟨register, houts, -⟩ |
    ⟨value, n, houts, -⟩ | ⟨value, w, n, houts, -⟩ | ⟨value, index, r, w, n, rfl, hr, hindex, -⟩
  · obtain rfl := List.forall₂_nil_right_iff.mp h
    exact nofun
  · exact hshort _ houts
  · exact hshort _ houts
  · exact hshort _ houts
  · obtain ⟨token, ts, -, hts, rfl⟩ := List.forall₂_cons_right_iff.mp h
    obtain ⟨token', ts', htoken', hts', rfl⟩ := List.forall₂_cons_right_iff.mp hts
    obtain rfl := List.forall₂_nil_right_iff.mp hts'
    obtain ⟨-, -, hnames⟩ := register_token hl htoken' hr hindex
    simpa using hnames

end Labelling

namespace Statement

open Diagnostic (Cause)

/-- **The same statement with another spelling of its word and its operand.** -/
structure Respelled (s s' : Statement) : Prop where
  line_eq : s.line = s'.line
  label_eq : s.label = s'.label
  span_eq : s.span = s'.span
  isSome_eq : s.mnemonic.isSome = s'.mnemonic.isSome
  word : Text.SameLetters (s.mnemonic.getD []) (s'.mnemonic.getD [])
  operand : Text.Respelled (s.operand.getD []) (s'.operand.getD [])

theorem Respelled.refl (s : Statement) : s.Respelled s :=
  ⟨rfl, rfl, rfl, rfl, rfl, .refl _⟩

theorem Respelled.symm {s s' : Statement} (h : s.Respelled s') : s'.Respelled s :=
  ⟨h.line_eq.symm, h.label_eq.symm, h.span_eq.symm, h.isSome_eq.symm, h.word.symm, h.operand.symm⟩

variable {s s' : Statement} {labelText : Mnemonic → Text → Except Cause Text}

/-- Why a token that looks like a number, apart from its signs `#`, cannot be read. -/
def numberFault? (token : Text) : Option LiteralError :=
  match Literal.value (token.dropWhile (· = '#')) with
  | .error e => if looksNumeric (token.dropWhile (· = '#')) then some e else none
  | .ok _ => none

/-- What is wrong with tokens is a number if there is one that cannot be read. -/
theorem kind_mismatch (m : Mnemonic) (tokens : List Text) : (s.mismatch m tokens).kind =
    if tokens.any (fun t => (numberFault? t).isSome) then .invalidNumber
    else .addressingModeMismatch := by
  unfold mismatch
  generalize hfaults : (List.filterMap _ tokens : List LiteralError) = faults
  change tokens.filterMap numberFault? = faults at hfaults
  cases faults with
  | nil =>
    have hnone := List.filterMap_eq_nil_iff.mp hfaults
    rw [if_neg fun hany => ?_]
    · rfl
    · obtain ⟨t, ht, hsome⟩ := List.any_eq_true.mp hany
      rw [hnone t ht] at hsome
      cases hsome
  | cons e faults =>
    obtain ⟨t, ht, hte⟩ := List.mem_filterMap.mp (hfaults ▸ List.mem_cons_self)
    rw [if_pos (List.any_eq_true.mpr ⟨t, ht, by rw [hte]; rfl⟩)]
    rfl

theorem isSome_numberFault?_upper (t : Text) :
    (numberFault? (Text.upper t)).isSome = (numberFault? t).isSome := by
  have hsign : Caseless fun c => decide (c = '#') := Text.caseless_eq (by decide)
  have hlooks : ∀ t, looksNumeric (Text.upper t) = looksNumeric t := by
    intro t
    cases t with
    | nil => rfl
    | cons c t => exact caseless_startsNumeral c
  have hisSome : ∀ t, (numberFault? t).isSome =
      ((Literal.value (t.dropWhile (· = '#'))).toOption.isNone &&
        looksNumeric (t.dropWhile (· = '#'))) := by
    intro t
    unfold numberFault?
    cases Literal.value (t.dropWhile (· = '#')) with
    | ok n => rfl
    | error e => cases looksNumeric (t.dropWhile (· = '#')) <;> rfl
  rw [hisSome, hisSome, Text.dropWhile_upper hsign, hlooks, Literal.toOption_value_upper]

/-- What is wrong with tokens is of the same kind for tokens with the same letters. -/
theorem kind_mismatch_congr (m : Mnemonic) {outs outs' : List Text}
    (h : outs.map Text.upper = outs'.map Text.upper) :
    (s.mismatch m outs).kind = (s'.mismatch m outs').kind := by
  have hany : ∀ outs : List Text, outs.any (fun t => (numberFault? t).isSome) =
      (outs.map Text.upper).any fun t => (numberFault? t).isSome := by
    intro outs
    rw [List.any_map]
    exact congrArg outs.any (funext fun t => (isSome_numberFault?_upper t).symm)
  rw [kind_mismatch, kind_mismatch, hany outs, hany outs', h]

/-- **A statement with other spellings of its tokens** has the same form, or faults of the same
kind. -/
theorem mapError_kind_form_eq (labelText : Mnemonic → Text → Except Cause Text) (h : s.Respelled s')
    (htokens : ∀ f f', Field.ofText (s.operand.getD []) = .ok f →
      Field.ofText (s'.operand.getD []) = .ok f' → f.indirect = f'.indirect →
        List.Forall₂ Text.SameLetters f.tokens f'.tokens →
          List.Forall₂ Text.Respelled f.tokens f'.tokens) :
    (s.form labelText).mapError Cause.kind = (s'.form labelText).mapError Cause.kind := by
  unfold form
  simp only [← Mnemonic.ofText?_eq_of_sameLetters h.word]
  cases Mnemonic.ofText? (s.mnemonic.getD []) with
  | none => rfl
  | some m =>
    obtain ⟨e, e', hf, hf'⟩ | ⟨f, f', hf, hf', hindirect, hsame⟩ :=
      Field.ofText_of_sameLetters h.operand.sameLetters
    · rw [hf, hf']
      rfl
    · have houts := Text.map_upper_mapM_substitute (labelText m)
        (htokens f f' hf hf' hindirect hsame)
      rw [hf, hf']
      unfold Label.replacement at houts
      simp only [Except.mapError, bind, Except.bind, hindirect]
      generalize (f.tokens.mapM _ : Except Cause (List Text)) = outcome at houts ⊢
      generalize (f'.tokens.mapM _ : Except Cause (List Text)) = outcome' at houts ⊢
      match outcome, outcome', houts with
      | .error _, .error _, houts =>
        exact congrArg (fun e => Except.error (Cause.kind e)) (Except.error.inj houts)
      | .ok outs, .ok outs', houts =>
        have hupper : outs.map Text.upper = outs'.map Text.upper := Except.ok.inj houts
        have hchoice : ModeChoice.ofTokens? f'.indirect m outs =
            ModeChoice.ofTokens? f'.indirect m outs' := by
          rw [← ModeChoice.ofTokens?_upper, hupper, ModeChoice.ofTokens?_upper]
        simp only [hchoice]
        cases ModeChoice.ofTokens? f'.indirect m outs' with
        | none => exact congrArg Except.error (kind_mismatch_congr m hupper)
        | some choice => rfl

/-- **A respelled statement has the same form**, if it has one. -/
theorem Respelled.form_eq_ok (h : s.Respelled s') (hl : ∀ m, Labelling (labelText m)) {f : Form}
    (hform : s.form labelText = .ok f) : s'.form labelText = .ok f := by
  obtain ⟨field, outs, -, hfield, houts, hchoice, -⟩ := form_eq_ok_iff.mp hform
  have hkind := mapError_kind_form_eq labelText h fun f f' hf hf' _ hsame => by
    rw [hfield] at hf
    cases hf
    exact Field.forall₂_respelled_of_tail hsame (Field.names_head?_tokens h.operand hfield hf')
      (Labelling.names_tail_of_accept? (hl _) houts (ModeChoice.accept?_of_first? hchoice))
  rw [hform] at hkind
  exact mapError_eq_ok_iff.mp hkind.symm

/-- **A respelled statement has the same form or a fault of the same kind**, if closing parentheses
keep nothing apart in its operand. -/
theorem Respelled.mapError_kind_form (labelText : Mnemonic → Text → Except Cause Text)
    (h : s.Respelled s') (hjoins : ¬ Text.Joins (s.operand.getD [])) :
    (s.form labelText).mapError Cause.kind = (s'.form labelText).mapError Cause.kind :=
  mapError_kind_form_eq labelText h fun _ _ hf hf' hindirect hsame =>
    Field.forall₂_tokens h.operand (h.operand.unclosed hjoins) hf hf' hindirect hsame

/-- The forms of a respelled statement: the same, or faults. -/
theorem Respelled.form_cases (labelText : Mnemonic → Text → Except Cause Text) (h : s.Respelled s')
    (hl : ∀ m, Labelling (labelText m)) :
    (∃ f, s.form labelText = .ok f ∧ s'.form labelText = .ok f) ∨
      ∃ c c', s.form labelText = .error c ∧ s'.form labelText = .error c' ∧
        (¬ Text.Joins (s.operand.getD []) → c.kind = c'.kind) := by
  cases hs : s.form labelText with
  | ok f => exact .inl ⟨f, rfl, h.form_eq_ok hl hs⟩
  | error c =>
    cases hs' : s'.form labelText with
    | ok f =>
      rw [h.symm.form_eq_ok hl hs'] at hs
      cases hs
    | error c' =>
      refine .inr ⟨c, c', rfl, rfl, fun hjoins => ?_⟩
      have hkind := h.mapError_kind_form labelText hjoins
      rw [hs, hs'] at hkind
      exact Except.error.inj hkind

end Statement

end Micro65
