import Micro65.Proofs.Operand.Respelled
import Micro65.Proofs.Statement.Delimited
/-!
# Sources in which letters have changed their case

Letter case has a meaning in labels only. A source is recased (`Text.Recased`) where letters have
changed their case in the words of instructions and, in operands, in numerals and in the names of
registers. The pieces of an operand stay what they were (`Piece.pieces_of_recased`), so its names
do, and every line is read as the same line with another spelling (`Line.forall₂_ofSource`).
-/

namespace Micro65

open Text (SameLetters byteLength byteLength_append)

/-! ## Operands -/

namespace Piece

variable {p p' : Piece} {ps ps' : List Piece} {t : Text}

/-- A piece with letters in another case, in a numeral or in the name of a register. -/
inductive Recased : Piece → Piece → Prop
  | numeral {t t' : Text} (h : SameLetters t t') : Recased (.numeral t) (.numeral t')
  | register {name name' : Text} (hregister : Label.isRegister name = true)
      (h : SameLetters name name') : Recased (.identifier name) (.identifier name')
  | same (p : Piece) : Recased p p

theorem Recased.respelled (h : Recased p p') : p.Respelled p' := by
  cases h with
  | numeral h => exact ⟨congrArg Piece.numeral h, rfl⟩
  | @register name name' hregister h =>
    have hregister' : Label.isRegister name' = true := by
      rw [← Label.isRegister_upper, ← show Text.upper name = Text.upper name' from h,
        Label.isRegister_upper, hregister]
    exact ⟨congrArg Piece.identifier h, by simp [name?, hregister, hregister']⟩
  | same => exact ⟨rfl, rfl⟩

theorem text_upper (p : Piece) : p.upper.text = Text.upper p.text := by
  cases p <;> rfl

theorem upper_flatMap_text (ps : List Piece) :
    Text.upper (ps.flatMap text) = (ps.map upper).flatMap text := by
  induction ps with
  | nil => rfl
  | cons p ps ih =>
    rw [List.flatMap_cons, Text.upper_append, ih, List.map_cons, List.flatMap_cons, text_upper]

/-- Pieces are told from their kinds, their sizes and their text together. -/
theorem eq_of_map_upper_eq (h : ps.map upper = ps'.map upper)
    (htext : ps.flatMap text = ps'.flatMap text) : ps = ps' := by
  induction ps generalizing ps' with
  | nil => exact (List.map_eq_nil_iff.mp h.symm).symm
  | cons p ps ih =>
    obtain ⟨p', ps', rfl, hp, hps⟩ := List.map_eq_cons_iff.mp h.symm
    rw [List.flatMap_cons, List.flatMap_cons] at htext
    have hlength : p.text.length = p'.text.length := by
      rw [← Text.length_upper, ← text_upper, ← hp, text_upper, Text.length_upper]
    obtain ⟨hhead, htail⟩ := List.append_inj htext hlength
    have hpiece : p = p' := by
      cases p <;> cases p' <;> simp_all [upper, text]
    rw [hpiece, ih hps.symm htail]

/-- Recased pieces have the same letters and the same names. -/
theorem map_eq_of_recased (h : List.Forall₂ Recased ps ps') :
    ps.map upper = ps'.map upper ∧ ps.filterMap name? = ps'.filterMap name? := by
  induction h with
  | nil => exact ⟨rfl, rfl⟩
  | cons hp _ ih =>
    obtain ⟨hupper, hname⟩ := hp.respelled
    rw [List.map_cons, List.map_cons, List.filterMap_cons, List.filterMap_cons, hupper, hname, ih.1,
      ih.2]
    exact ⟨rfl, rfl⟩

theorem sameLetters_of_recased (h : List.Forall₂ Recased (pieces t) ps) :
    SameLetters t (ps.flatMap text) := by
  unfold SameLetters
  rw [upper_flatMap_text, ← (map_eq_of_recased h).1, ← upper_flatMap_text, flatMap_text_pieces]

/-- **Recased pieces are the pieces of what they make.** -/
theorem pieces_of_recased (h : List.Forall₂ Recased (pieces t) ps) :
    pieces (ps.flatMap text) = ps := by
  refine eq_of_map_upper_eq ?_ (flatMap_text_pieces _)
  rw [← pieces_upper, ← show Text.upper t = _ from sameLetters_of_recased h, pieces_upper,
    (map_eq_of_recased h).1]

end Piece

/-- The operand with letters in another case, in its numerals and in its names of registers. -/
def Field.Recased (operand operand' : Text) : Prop :=
  ∃ ps, List.Forall₂ Piece.Recased (Piece.pieces operand) ps ∧ operand' = ps.flatMap Piece.text

/-- **A recased operand has the same letters and the same names.** -/
theorem Field.Recased.respelled {operand operand' : Text} (h : Field.Recased operand operand') :
    Text.Respelled operand operand' := by
  obtain ⟨ps, hps, rfl⟩ := h
  refine ⟨Piece.sameLetters_of_recased hps, ?_⟩
  unfold Text.names
  rw [Piece.pieces_of_recased hps, (Piece.map_eq_of_recased hps).2]

/-! ## Lines -/

namespace Text

variable {t t' : Text}

theorem SameLetters.startsSolid (h : SameLetters t t') (ht : StartsSolid t) : StartsSolid t' := by
  have hhead := congrArg List.head? (h.map_eq caseless_isBlank)
  rw [List.head?_map, List.head?_map] at hhead
  intro c hc
  obtain ⟨d, hd, hdc⟩ := Option.map_eq_some_iff.mp (hhead.trans (congrArg _ (Option.mem_def.mp hc)))
  rw [← hdc, ht d hd]

theorem SameLetters.endsSolid (h : SameLetters t t') (ht : EndsSolid t) : EndsSolid t' := by
  have hlast := congrArg List.getLast? (h.map_eq caseless_isBlank)
  rw [List.getLast?_map, List.getLast?_map] at hlast
  intro c hc
  obtain ⟨d, hd, hdc⟩ := Option.map_eq_some_iff.mp (hlast.trans (congrArg _ (Option.mem_def.mp hc)))
  rw [← hdc, ht d hd]

theorem SameLetters.ne_nil (h : SameLetters t t') (ht : t ≠ []) : t' ≠ [] := by
  rintro rfl
  exact ht (upper_eq_nil_iff.mp h)

theorem SameLetters.trimmed (h : SameLetters t t') (ht : Trimmed t) : Trimmed t' :=
  ⟨h.ne_nil ht.ne_nil, h.startsSolid ht.starts, h.endsSolid ht.ends⟩

/-- A word stays a word. -/
theorem SameLetters.word (h : SameLetters t t') (ht : t ≠ [] ∧ ∀ c ∈ t, isBlank c = false) :
    t' ≠ [] ∧ ∀ c ∈ t', isBlank c = false := by
  refine ⟨h.ne_nil ht.1, fun c hc => ?_⟩
  have hmem : isBlank c ∈ t.map isBlank := h.map_eq caseless_isBlank ▸ List.mem_map_of_mem hc
  obtain ⟨d, hd, hdc⟩ := List.mem_map.mp hmem
  rw [← hdc, ht.2 d hd]

end Text

theorem exists_of_rel {α β : Type} {r : α → β → Prop} {x : Option α} {y : Option β}
    (h : Option.Rel r x y) {b : β} (hb : b ∈ y) : ∃ a ∈ x, r a b := by
  cases h with
  | none => cases hb
  | some h =>
    cases hb
    exact ⟨_, rfl, h⟩

theorem isSome_eq_of_rel {α β : Type} {r : α → β → Prop} {x : Option α} {y : Option β}
    (h : Option.Rel r x y) : x.isSome = y.isSome := by
  cases h <;> rfl

/-- What holds of the texts in two options holds of them with the empty text in the place of
none. -/
theorem rel_getD {r : Text → Text → Prop} (hnil : r [] []) {x y : Option Text}
    (h : Option.Rel r x y) : r (x.getD []) (y.getD []) := by
  cases h with
  | none => exact hnil
  | some h => exact h

namespace Written

variable {w w' : Written}

/-- A line with letters in another case, in the word and in the operand of its instruction. -/
inductive Recased (w : Written) : Written → Prop
  | intro {mnemonic operand : Option Text} (hmnemonic : Option.Rel SameLetters w.mnemonic mnemonic)
      (hoperand : Option.Rel Field.Recased w.operand operand) :
      Recased w { w with mnemonic, operand }

/-- The instruction has the same letters. -/
theorem Recased.sameLetters_instruction (h : w.Recased w') :
    SameLetters w.instruction w'.instruction := by
  cases h with
  | intro hmnemonic hoperand =>
    unfold instruction
    generalize w.mnemonic = word at hmnemonic
    generalize w.operand = operand at hoperand
    cases hmnemonic with
    | none => rfl
    | some hword =>
      cases hoperand with
      | none => exact hword
      | some hoperand =>
        unfold SameLetters at hword ⊢
        simp only [Text.upper_append]
        rw [hword, show Text.upper _ = Text.upper _ from hoperand.respelled.sameLetters]

theorem WellFormed.recased (h : w.WellFormed) (hrecased : w.Recased w') : w'.WellFormed := by
  have hinstruction := hrecased.sameLetters_instruction
  cases hrecased with
  | @intro mnemonic operand hmnemonic hoperand =>
    exact
      { indent := h.indent
        beforeColon := h.beforeColon
        beforeWord := h.beforeWord
        beforeOperand := h.beforeOperand
        trail := h.trail
        label := h.label
        mnemonic := fun word' hword' => by
          obtain ⟨word, hword, hsame⟩ := exists_of_rel hmnemonic hword'
          exact hsame.word (h.mnemonic word hword)
        operand := fun operand' hoperand' => by
          obtain ⟨operand, hoperand, hrecased⟩ := exists_of_rel hoperand hoperand'
          obtain ⟨htrimmed, hgap, hsome⟩ := h.operand operand hoperand
          exact ⟨hrecased.respelled.sameLetters.trimmed htrimmed, hgap,
            isSome_eq_of_rel hmnemonic ▸ hsome⟩
        not_blank := by
          have hnot := h.not_blank
          rwa [isSome_eq_of_rel hmnemonic] at hnot
        semicolon := by
          have hmark := h.semicolon
          rwa [hinstruction.mem_iff (by decide)] at hmark
        colon := fun hlabel => by
          have hmark := h.colon hlabel
          rwa [hinstruction.mem_iff (by decide)] at hmark }

/-- **A recased line is read as the same statement with another spelling.** -/
theorem Recased.respelled (h : w.Recased w') (number : Nat) :
    (w.statement number).Respelled (w'.statement number) := by
  have hinstruction := h.sameLetters_instruction
  cases h with
  | @intro mnemonic operand hmnemonic hoperand =>
    have hnil : Field.Recased [] [] := ⟨[], by rw [Piece.pieces_nil]; exact .nil, rfl⟩
    refine ⟨rfl, rfl, ?_, isSome_eq_of_rel hmnemonic, rel_getD (r := SameLetters) rfl hmnemonic,
      (rel_getD hnil hoperand).respelled⟩
    have hlength := hinstruction.byteLength_eq
    unfold statement span
    simp only [byteLength_append, hlength]
    generalize w.mnemonic = word at hmnemonic
    cases hmnemonic <;> rfl

end Written

namespace Line

/-- A line with letters in another case: in its instruction, or anywhere behind a
label that is at fault. -/
inductive Recased : Text → Text → Prop
  | same (raw : Text) : Recased raw raw
  | written {w w' : Written} (h : w.WellFormed) (hrecased : w.Recased w') : Recased w.text w'.text
  | badLabel {before behind behind' : Text} {e : LabelError} (hcolon : ':' ∉ before)
      (hsemicolon : ';' ∉ before) (hcheck : Label.check (Text.trim before) = .error e)
      (h : SameLetters behind behind') :
      Recased (before ++ ':' :: behind) (before ++ ':' :: behind')

/-- An instruction that stands alone in its line, with an operand of one word. -/
theorem Recased.instruction {word word' operand operand' : Text} (hword : word ≠ [] ∧ word.Unmarked)
    (hne : operand ≠ [] ∧ operand.Unmarked) (h : SameLetters word word')
    (hoperand : Field.Recased operand operand') :
    Recased (word ++ ' ' :: operand) (word' ++ ' ' :: operand') := by
  have hspace : Text.AllBlank [' '] := by simp [Text.AllBlank]; decide
  let w : Written := ⟨[], none, [], [], some word, [' '], some operand, [], none⟩
  have hmark : ∀ c ∈ w.instruction, c ≠ ';' ∧ c ≠ ':' := by
    intro c hc
    have hcases : c ∈ word ∨ c = ' ' ∨ c ∈ operand := by simpa [w, Written.instruction] using hc
    rcases hcases with hc | rfl | hc
    · exact (hword.2 c hc).2
    · decide
    · exact (hne.2 c hc).2
  have hw : w.WellFormed :=
    { indent := Text.allBlank_nil
      beforeColon := Text.allBlank_nil
      beforeWord := Text.allBlank_nil
      beforeOperand := hspace
      trail := Text.allBlank_nil
      label := by simp [w]
      mnemonic := by simpa [w] using ⟨hword.1, hword.2.isBlank⟩
      operand := by
        simpa [w] using (⟨hne.1, Text.startsSolid_of_forall hne.2.isBlank,
          Text.endsSolid_of_forall hne.2.isBlank⟩ : Text.Trimmed operand)
      not_blank := .inr rfl
      semicolon := fun hmem => (hmark _ hmem).1 rfl
      colon := fun _ hmem => (hmark _ hmem).2 rfl }
  have htext : ∀ word operand : Text,
      Written.text { w with mnemonic := some word, operand := some operand } =
        word ++ ' ' :: operand := by
    simp [w, Written.text, Written.code, Written.heading, Written.instruction, Text.remark]
  rw [← htext word operand, ← htext word' operand']
  exact .written hw (.intro (.some h) (.some hoperand))

/-- The same line with another spelling of its instruction. -/
inductive Respelled : Line → Line → Prop
  | fault (d : Diagnostic) : Respelled (.error d) (.error d)
  | statement {s s' : Statement} (h : s.Respelled s') : Respelled (.ok s) (.ok s')

variable {raw raw' : Text}

/-- A label that is at fault is the fault of its line, whatever follows. -/
theorem ofText?_badLabel {number : Nat} {before : Text} {e : LabelError} (hcolon : ':' ∉ before)
    (hsemicolon : ';' ∉ before) (hcheck : Label.check (Text.trim before) = .error e)
    (behind : Text) :
    ofText? number (before ++ ':' :: behind) = some (.error ⟨number,
      ⟨byteLength (before.takeWhile Text.isBlank), byteLength before⟩, .badLabel e⟩) := by
  have hcode : codeOf (before ++ ':' :: behind) = before ++ ':' :: codeOf behind := by
    unfold codeOf
    rw [List.takeWhile_append_of_pos (forall_ne_of_not_mem hsemicolon),
      List.takeWhile_cons_of_pos (by decide)]
  obtain ⟨hok, -⟩ | ⟨-, d, hd⟩ := label_cases number hcode hcolon
  · rw [hcheck] at hok
    cases hok
  · obtain ⟨indent, core, behind', e', hcode', hindent, hstarts, hcore, hcheck', rfl⟩ :=
      exists_fault hd
    have hfront : ':' ∉ indent ++ core := by
      rw [List.mem_append, not_or]
      exact ⟨hindent.not_mem (by decide), hcore⟩
    obtain rfl := front_unique hfront hcolon (hcode'.symm.trans hcode)
    have hindent' : (indent ++ core).takeWhile Text.isBlank = indent := by
      have hsolid : Text.StartsSolid core := by
        intro c hc
        refine hstarts c ?_
        rw [List.head?_append, hc]
        rfl
      rw [List.takeWhile_append_of_pos hindent, hsolid.takeWhile_eq, List.append_nil]
    rw [Text.trim_append_left hindent, hcheck'] at hcheck
    cases hcheck
    rw [hd, hindent']

theorem Recased.respelled (h : Recased raw raw') (number : Nat) :
    Option.Rel Respelled (ofText? number raw) (ofText? number raw') := by
  cases h with
  | same =>
    cases ofText? number raw with
    | none => exact .none
    | some line =>
      cases line with
      | error d => exact .some (.fault d)
      | ok s => exact .some (.statement (.refl s))
  | written hw hrecased =>
    rw [Written.ofText?_text hw, Written.ofText?_text (hw.recased hrecased)]
    exact .some (.statement (hrecased.respelled number))
  | badLabel hcolon hsemicolon hcheck =>
    rw [ofText?_badLabel hcolon hsemicolon hcheck, ofText?_badLabel hcolon hsemicolon hcheck]
    exact .some (.fault _)

end Line

/-! ## Sources -/

/-- The source with letters in another case. -/
def Text.Recased (source source' : Text) : Prop :=
  List.Forall₂ Line.Recased (source.splitOn '\n') (source'.splitOn '\n')

theorem Text.Recased.of_lines {source source' : Text} {raws raws' : List Text}
    (h : List.Forall₂ Line.Recased raws raws') (hsource : source.splitOn '\n' = raws)
    (hsource' : source'.splitOn '\n' = raws') : Text.Recased source source' := by
  unfold Text.Recased
  rwa [hsource, hsource']

namespace Line

/-- **The lines of a recased source** are the same lines with other spellings. -/
theorem forall₂_ofSource {source source' : Text} (h : Text.Recased source source') :
    List.Forall₂ Respelled (ofSource source) (ofSource source') := by
  have hfields : ∀ source, ofSource source = ((source.splitOn '\n').zipIdx 1).filterMap
      fun (raw, number) => ofText? number raw := by
    intro source
    unfold ofSource
    rw [Text.lines_eq_linesOf]
    exact Text.filterMap_linesOf (g := ofText?) (fun _ => rfl) ofText?_dropReturn _ 1
  rw [hfields, hfields]
  refine List.rel_filterMap (R := fun x x' => Recased x.1 x'.1 ∧ x.2 = x'.2) ?_ ?_
  · rintro ⟨raw, number⟩ ⟨raw', _⟩ ⟨hraw, rfl⟩
    exact hraw.respelled number
  · generalize 1 = number
    have hraws : List.Forall₂ Recased _ _ := h
    generalize source.splitOn '\n' = raws at hraws
    generalize source'.splitOn '\n' = raws' at hraws
    induction hraws generalizing number with
    | nil => exact .nil
    | cons hraw _ ih => exact .cons ⟨hraw, rfl⟩ (ih (number + 1))

end Line

end Micro65
