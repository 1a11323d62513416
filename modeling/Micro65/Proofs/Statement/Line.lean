import Mathlib.Data.List.TakeWhile
import Micro65.Proofs.Operand.Names
import Micro65.Statement.Line
/-!
# The parts of a line

A line gets as its label only what may name one (`Line.check_of_ofText?`), and the other way round a
name with a colon behind it is a line with this label and nothing else (`Line.ofText?_label`). A
word, with an operand behind a blank or without one, is a line with this instruction and nothing
else (`Line.ofText?_instruction`).
-/

namespace Micro65

namespace Label

/-- What passes the check, in the order in which it is checked. -/
theorem check_cons_eq_ok_iff {first : Char} {rest : Text} :
    check (first :: rest) = .ok () ↔ Text.byteLength (first :: rest) ≤ maxLength ∧
      first.isAlpha = true ∧ (∀ c ∈ rest, isNameChar c = true) ∧
        isRegister (first :: rest) = false := by
  have hfind : (rest.find? fun c => !isNameChar c) = none ↔ ∀ c ∈ rest, isNameChar c = true := by
    simp
  simp only [check]
  by_cases hlong : maxLength < Text.byteLength (first :: rest)
  · rw [if_pos hlong]
    simp [Nat.not_le_of_lt hlong, -Text.byteLength_cons]
  · rw [if_neg hlong]
    cases halpha : first.isAlpha with
    | false => simp
    | true =>
      rw [← hfind]
      cases hrest : rest.find? fun c => !isNameChar c with
      | some c => simp
      | none => simp [Nat.le_of_not_lt hlong, -Text.byteLength_cons]

variable {name : Text}

theorem isNameChar_of_check (h : check name = .ok ()) :
    name ≠ [] ∧ ∀ c ∈ name, isNameChar c = true := by
  cases name with
  | nil => cases h
  | cons first rest =>
    obtain ⟨-, halpha, hrest, -⟩ := check_cons_eq_ok_iff.mp h
    exact ⟨List.cons_ne_nil _ _,
      List.forall_mem_cons.mpr ⟨by simp [isNameChar, Char.isAlphanum, halpha], hrest⟩⟩

theorem isBlank_of_isNameChar {c : Char} (h : isNameChar c = true) : Text.isBlank c = false := by
  cases hblank : Text.isBlank c with
  | false => rfl
  | true =>
    rw [Piece.isNameChar_eq_false_of_isSeparator (Piece.isSeparator_of_isBlank hblank)] at h
    cases h

theorem isBlank_of_check (h : check name = .ok ()) : ∀ c ∈ name, Text.isBlank c = false :=
  fun c hc => isBlank_of_isNameChar ((isNameChar_of_check h).2 c hc)

/-- A name has none of the characters at which a line or an operand is cut. -/
theorem not_mem_of_check (h : check name = .ok ()) {c : Char} (hc : isNameChar c = false) :
    c ∉ name := by
  intro hmem
  rw [(isNameChar_of_check h).2 c hmem] at hc
  cases hc

end Label

namespace Line

theorem label_statement (number : Nat) (label comment : Option Text) (whole : Span) (start : Nat)
    (rest : Text) : (statement number label comment whole start rest).label = label := by
  unfold statement
  split <;> rfl

/-- The label of a line is a label name. -/
theorem check_of_ofText? {number : Nat} {raw : Text} {s : Statement} {name : Text}
    (h : ofText? number raw = some (.ok s)) (hlabel : s.label = some name) :
    Label.check name = .ok () := by
  unfold ofText? at h
  simp only at h
  split at h
  · cases h
  · simp only [Option.some.injEq, ofCode] at h
    split at h
    · cases h
      rw [label_statement] at hlabel
      cases hlabel
    · split at h
      · cases h
      · rename_i hcheck
        cases h
        rw [label_statement] at hlabel
        cases hlabel
        exact hcheck

/-- A name with a colon behind it is read as a label and nothing else. -/
theorem ofText?_label {name : Text} (h : Label.check name = .ok ()) (number : Nat) :
    ∃ s, ofText? number (name ++ [':']) = some (.ok s) ∧ s.line = number ∧ s.label = some name ∧
      s.mnemonic = none := by
  have hmark : ∀ c ∈ name, c ≠ ':' ∧ c ≠ ';' := by
    intro c hc
    constructor
    · rintro rfl
      exact Label.not_mem_of_check h (by decide) hc
    · rintro rfl
      exact Label.not_mem_of_check h (by decide) hc
  have hblank := Label.isBlank_of_check h
  have hcode : codeOf (name ++ [':']) = name ++ [':'] := by
    unfold codeOf
    rw [List.takeWhile_eq_self_iff]
    intro c hc
    rcases List.mem_append.mp hc with hc | hc
    · simp [(hmark c hc).2]
    · simp [List.mem_singleton.mp hc]
  have htrim : Text.trim (name ++ [':']) = name ++ [':'] := by
    refine Text.trim_of_forall fun c hc => ?_
    rcases List.mem_append.mp hc with hc | hc
    · exact hblank c hc
    · rw [List.mem_singleton.mp hc]
      decide
  have hbefore : (name ++ [':']).takeWhile (· ≠ ':') = name := by
    rw [List.takeWhile_append_of_pos (by simpa using fun c hc => (hmark c hc).1)]
    simp
  have hbehind : (name ++ [':']).dropWhile (· ≠ ':') = [':'] := by
    rw [List.dropWhile_append_of_pos (by simpa using fun c hc => (hmark c hc).1)]
    simp
  unfold ofText?
  simp only [hcode, htrim, List.append_eq_nil_iff, List.cons_ne_nil, and_false, if_false, ofCode,
    hbefore, hbehind, Text.trim_of_forall hblank, h, Option.some.injEq, Except.ok.injEq]
  exact ⟨_, rfl, rfl, rfl, rfl⟩

end Line

/-! ## The instruction of a line -/

namespace Text

/-- A text without blanks and without the marks at which the code of a line is cut. -/
def Unmarked (t : Text) : Prop :=
  ∀ c ∈ t, isBlank c = false ∧ c ≠ ';' ∧ c ≠ ':'

instance (t : Text) : Decidable t.Unmarked :=
  List.decidableBAll (fun c => isBlank c = false ∧ c ≠ ';' ∧ c ≠ ':') t

/-- An instruction as it is written: its word, and its operand behind a blank if it has one. -/
def instruction (word : Text) : Option Text → Text
  | none => word
  | some operand => word ++ ' ' :: operand

section

variable {word operand : Text}

theorem Unmarked.isBlank (h : word.Unmarked) : ∀ c ∈ word, isBlank c = false :=
  fun c hc => (h c hc).1

theorem Unmarked.trim (h : word.Unmarked) : Text.trim word = word :=
  trim_of_forall h.isBlank

/-- An instruction neither starts nor ends with a blank. -/
theorem trim_append_blank (hword : word ≠ []) (hoperand : operand ≠ []) (hw : word.Unmarked)
    (ho : operand.Unmarked) : Text.trim (word ++ ' ' :: operand) = word ++ ' ' :: operand := by
  obtain ⟨first, others, hfirst⟩ := List.exists_cons_of_ne_nil hword
  obtain ⟨last, before, hlast⟩ := List.exists_cons_of_ne_nil (List.reverse_ne_nil_iff.mpr hoperand)
  have hfirst' : isBlank first = false := (hw first (by simp [hfirst])).1
  have hlast' : isBlank last = false :=
    (ho last (List.mem_reverse.mp (by rw [hlast]; exact List.mem_cons_self))).1
  have hstart : trimStart (word ++ ' ' :: operand) = word ++ ' ' :: operand := by
    unfold trimStart
    rw [hfirst, List.cons_append, List.dropWhile_cons_of_neg (by simp [hfirst'])]
  unfold Text.trim trimEnd
  rw [hstart, List.reverse_append, List.reverse_cons, hlast, List.cons_append, List.cons_append,
    List.dropWhile_cons_of_neg (by simp [hlast']), ← List.cons_append, ← List.cons_append, ← hlast,
    ← List.reverse_cons, ← List.reverse_append, List.reverse_reverse]

/-- The only blank of an instruction is the one before its operand. -/
theorem eq_space_of_mem_instruction {operand : Option Text} (hw : word.Unmarked)
    (ho : ∀ t ∈ operand, t.Unmarked) {c : Char} (hc : c ∈ instruction word operand)
    (hblank : isBlank c = true) : c = ' ' := by
  have hword : c ∉ word := fun hmem => by simp [(hw c hmem).1] at hblank
  cases operand with
  | none => exact absurd hc hword
  | some t =>
    have hoperand : c ∉ t := fun hmem => by simp [(ho t rfl c hmem).1] at hblank
    simpa [instruction, hword, hoperand] using hc

/-- The word of an instruction ends at the first blank. -/
theorem takeWhile_append_blank (hw : word.Unmarked) (operand : Text) :
    (word ++ ' ' :: operand).takeWhile (fun c => !isBlank c) = word ∧
      (word ++ ' ' :: operand).dropWhile (fun c => !isBlank c) = ' ' :: operand := by
  have hall : ∀ c ∈ word, (!isBlank c) = true := fun c hc => by simp [(hw c hc).1]
  have hblank : isBlank ' ' = true := by decide
  rw [List.takeWhile_append_of_pos hall, List.dropWhile_append_of_pos hall]
  simp [hblank]

end

end Text

namespace Line

/-- The code of an instruction is cut into its word and its operand. -/
theorem statement_instruction (number : Nat) (label comment : Option Text) (whole : Span)
    (start : Nat) {word : Text} {operand : Option Text} (hword : word ≠ []) (hw : word.Unmarked)
    (ho : ∀ t ∈ operand, t ≠ [] ∧ t.Unmarked) :
    statement number label comment whole start (Text.instruction word operand) =
      ⟨number, label, some word, operand, comment,
        ⟨start, start + Text.byteLength (Text.instruction word operand)⟩⟩ := by
  have hne : Text.instruction word operand ≠ [] := by
    cases operand <;> simp [Text.instruction, hword]
  unfold statement
  rw [if_neg hne]
  cases operand with
  | none =>
    have hall : ∀ c ∈ word, (!Text.isBlank c) = true := fun c hc => by simp [(hw c hc).1]
    simp only [Text.instruction, List.takeWhile_eq_self_iff.mpr hall,
      List.dropWhile_eq_nil_iff.mpr hall]
    rfl
  | some t =>
    obtain ⟨hne, ht⟩ := ho t rfl
    obtain ⟨htake, hdrop⟩ := Text.takeWhile_append_blank hw t
    have hblank : Text.trim (' ' :: t) = t := by
      have htrim := ht.trim
      unfold Text.trim Text.trimStart at htrim ⊢
      rwa [List.dropWhile_cons_of_pos (by decide)]
    simp only [Text.instruction, htake, hdrop, hblank, if_neg hne]

/-- **A word, alone or with an operand**, is read as an instruction and nothing else. -/
theorem ofText?_instruction (number : Nat) {word : Text} {operand : Option Text} (hword : word ≠ [])
    (hw : word.Unmarked) (ho : ∀ t ∈ operand, t ≠ [] ∧ t.Unmarked) :
    ofText? number (Text.instruction word operand) =
      some (.ok ⟨number, none, some word, operand, none,
        ⟨0, Text.byteLength (Text.instruction word operand)⟩⟩) := by
  have hmark : ∀ c ∈ Text.instruction word operand, c ≠ ';' ∧ c ≠ ':' := by
    cases operand with
    | none => exact fun c hc => (hw c hc).2
    | some t =>
      simp only [Text.instruction, List.forall_mem_append, List.forall_mem_cons]
      exact ⟨fun c hc => (hw c hc).2, by decide, fun c hc => ((ho t rfl).2 c hc).2⟩
  have hne : Text.instruction word operand ≠ [] := by
    cases operand <;> simp [Text.instruction, hword]
  have htrim : Text.trim (Text.instruction word operand) = Text.instruction word operand := by
    cases operand with
    | none => exact hw.trim
    | some t => exact Text.trim_append_blank hword (ho t rfl).1 hw (ho t rfl).2
  have hcode : codeOf (Text.instruction word operand) = Text.instruction word operand := by
    unfold codeOf
    rw [List.takeWhile_eq_self_iff]
    intro c hc
    simp [(hmark c hc).1]
  have hcomment : commentOf (Text.instruction word operand) = none := by
    have hnone : (Text.instruction word operand).dropWhile (· ≠ ';') = [] := by
      rw [List.dropWhile_eq_nil_iff]
      intro c hc
      simp [(hmark c hc).1]
    unfold commentOf
    rw [hnone]
  have hcolon : (Text.instruction word operand).dropWhile (· ≠ ':') = [] := by
    rw [List.dropWhile_eq_nil_iff]
    intro c hc
    simp [(hmark c hc).2]
  have hstart : (Text.instruction word operand).takeWhile Text.isBlank = [] := by
    obtain ⟨first, others, rfl⟩ := List.exists_cons_of_ne_nil hword
    have hfirst : Text.isBlank first = false := (hw first List.mem_cons_self).1
    cases operand <;> simp [Text.instruction, hfirst]
  unfold ofText?
  simp only [hcode, htrim, hne, if_false, hcomment, hstart, ofCode, hcolon,
    statement_instruction number none none _ _ hword hw ho, Text.byteLength_nil, Nat.zero_add]

end Line

end Micro65
