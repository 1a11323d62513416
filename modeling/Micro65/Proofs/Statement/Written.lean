import Micro65.Proofs.Statement.Joined
import Micro65.Proofs.Operand.Pieces
import Micro65.Proofs.Text.Words
/-!
# How a line is written

A line that holds a statement is written as blanks, the label with its colon, the word of the
instruction, its operand and a comment, each of them with blanks around it and each of them optional
(`Written`). Reading such a line finds these parts again, whatever they contain besides the marks
that end them (`Line.ofText?_text`). Every line is blank, has a label that is not a name, or is
written in this way (`Line.exists_reads`), so these are all outcomes that reading can have.

A statement can therefore be written again with single blanks. Reading what has been written finds
the same statement (`Line.ofText?_rendered`).
-/

namespace Micro65

namespace Text

/-- A comment as it is written, behind a semicolon. -/
def remark : Option Text → Text
  | none => []
  | some comment => ';' :: comment

/-- A text that is not empty and neither starts nor ends with a blank. -/
structure Trimmed (t : Text) : Prop where
  ne_nil : t ≠ []
  starts : StartsSolid t
  ends : EndsSolid t

theorem StartsSolid.trimStart_eq {t : Text} (h : StartsSolid t) : trimStart t = t := by
  cases t with
  | nil => rfl
  | cons c t => exact List.dropWhile_cons_of_neg (by simp [h c rfl])

theorem StartsSolid.takeWhile_eq {t : Text} (h : StartsSolid t) : t.takeWhile isBlank = [] := by
  cases t with
  | nil => rfl
  | cons c t => exact List.takeWhile_cons_of_neg (by simp [h c rfl])

theorem StartsSolid.append {s : Text} (h : StartsSolid s) (hs : s ≠ []) (t : Text) :
    StartsSolid (s ++ t) := by
  intro c hc
  rw [List.head?_append_of_ne_nil s hs] at hc
  exact h c hc

theorem EndsSolid.append {t : Text} (h : EndsSolid t) (ht : t ≠ []) (s : Text) :
    EndsSolid (s ++ t) := by
  intro c hc
  rw [List.getLast?_append_of_ne_nil s ht] at hc
  exact h c hc

theorem startsSolid_of_forall {t : Text} (h : ∀ c ∈ t, isBlank c = false) : StartsSolid t :=
  fun c hc => h c (List.mem_of_mem_head? hc)

theorem endsSolid_of_forall {t : Text} (h : ∀ c ∈ t, isBlank c = false) : EndsSolid t :=
  fun c hc => h c (List.mem_of_getLast? hc)

theorem endsSolid_colon : EndsSolid [':'] := by
  intro c hc
  obtain rfl : ':' = c := Option.some.inj hc
  decide

/-- A text without blanks at its ends is found between blanks. -/
theorem Trimmed.trim_eq {t u v : Text} (h : Trimmed t) (hu : AllBlank u) (hv : AllBlank v) :
    trim (u ++ t ++ v) = t := by
  rw [trim_append_of_allBlank _ hv, trim_append_left hu, h.ends.trim_eq, h.starts.trimStart_eq]

theorem Trimmed.takeWhile_eq {t u : Text} (h : Trimmed t) (hu : AllBlank u) (v : Text) :
    (u ++ t ++ v).takeWhile isBlank = u := by
  rw [List.append_assoc, List.takeWhile_append_of_pos hu, (h.starts.append h.ne_nil v).takeWhile_eq,
    List.append_nil]

/-- **A text is blank, or it is a trimmed text between blanks.** -/
theorem exists_trimmed (t : Text) :
    AllBlank t ∨ ∃ u core v, t = u ++ core ++ v ∧ AllBlank u ∧ Trimmed core ∧ AllBlank v := by
  obtain ⟨u, v, ht, hu, hv⟩ := exists_eq_append_trim t
  by_cases hcore : trim t = []
  · left
    rw [ht, hcore, List.append_nil]
    exact hu.append hv
  · exact .inr ⟨u, trim t, v, ht, hu, ⟨hcore, startsSolid_trim t, endsSolid_trim t⟩, hv⟩

end Text

open Text (AllBlank StartsSolid EndsSolid Trimmed byteLength remark)

theorem Label.trimmed_of_check {name : Text} (h : Label.check name = .ok ()) : Trimmed name := by
  have hsolid := Label.isBlank_of_check h
  exact ⟨(Label.isNameChar_of_check h).1, Text.startsSolid_of_forall hsolid,
    Text.endsSolid_of_forall hsolid⟩

/-- A statement as it is written in a line: its parts, and the blanks around them. -/
structure Written where
  indent : Text
  label : Option Text
  /-- The blanks between the label and its colon. -/
  beforeColon : Text
  /-- The blanks in front of the instruction. -/
  beforeWord : Text
  mnemonic : Option Text
  /-- The blanks between the word of the instruction and its operand. -/
  beforeOperand : Text
  operand : Option Text
  /-- The blanks at the end of the code. -/
  trail : Text
  /-- What stands behind the semicolon. -/
  comment : Option Text

namespace Written

variable (w : Written)

/-- The label with its colon, if there is one. -/
def heading : Text :=
  match w.label with
  | none => []
  | some name => name ++ w.beforeColon ++ [':']

/-- The instruction, if there is one. -/
def instruction : Text :=
  match w.mnemonic, w.operand with
  | none, _ => []
  | some word, none => word
  | some word, some operand => word ++ w.beforeOperand ++ operand

/-- The code of the line. -/
def code : Text :=
  w.indent ++ w.heading ++ w.beforeWord ++ w.instruction ++ w.trail

/-- The line. -/
def text : Text :=
  w.code ++ remark w.comment

/-- Where the instruction stands in the line, or the label if there is no instruction. -/
def span : Span :=
  match w.mnemonic with
  | none => ⟨byteLength w.indent, byteLength (w.indent ++ w.heading)⟩
  | some _ => ⟨byteLength (w.indent ++ w.heading ++ w.beforeWord),
      byteLength (w.indent ++ w.heading ++ w.beforeWord ++ w.instruction)⟩

/-- The statement that is written. -/
def statement (number : Nat) : Statement where
  line := number
  label := w.label
  mnemonic := w.mnemonic
  operand := w.operand
  comment := w.comment.map Text.trim
  span := w.span

/-- What makes the parts of a line recognisable: blanks are blank, a label is a name, the word ends
at a blank, the operand does not start or end with one, and the marks that end the code and the
label do not stand in what they end. -/
structure WellFormed : Prop where
  indent : AllBlank w.indent
  beforeColon : AllBlank w.beforeColon
  beforeWord : AllBlank w.beforeWord
  beforeOperand : AllBlank w.beforeOperand
  trail : AllBlank w.trail
  label : ∀ name ∈ w.label, Label.check name = .ok ()
  mnemonic : ∀ word ∈ w.mnemonic, word ≠ [] ∧ ∀ c ∈ word, Text.isBlank c = false
  operand : ∀ operand ∈ w.operand, Trimmed operand ∧ w.beforeOperand ≠ [] ∧ w.mnemonic.isSome = true
  not_blank : w.label.isSome = true ∨ w.mnemonic.isSome = true
  semicolon : ';' ∉ w.instruction
  colon : w.label = none → ':' ∉ w.instruction

end Written

namespace Line

variable {number start : Nat} {label comment : Option Text} {whole : Span}

/-! ## One cut after the other -/

/-- The first semicolon cuts a line into its code and its comment. -/
theorem codeOf_append_remark {code : Text} (h : ';' ∉ code) (comment : Option Text) :
    codeOf (code ++ remark comment) = code ∧
      commentOf (code ++ remark comment) = comment.map Text.trim := by
  cases comment with
  | none =>
    rw [remark, List.append_nil]
    exact codeOf_eq_self h
  | some comment => exact codeOf_append_mark h comment

/-- **The code of a line is what stands between the blanks** in front of the comment. -/
theorem ofText?_of_code (number : Nat) {indent core trail : Text} (hindent : AllBlank indent)
    (hcore : Trimmed core) (htrail : AllBlank trail) (hmark : ';' ∉ core) (comment : Option Text) :
    ofText? number (indent ++ core ++ trail ++ remark comment) =
      some (ofCode number (comment.map Text.trim) (byteLength indent) core) := by
  have hblank : ∀ t, AllBlank t → ';' ∉ t := fun t ht => ht.not_mem (by decide)
  have hsemicolon : ';' ∉ indent ++ core ++ trail := by
    simp [hblank _ hindent, hmark, hblank _ htrail]
  obtain ⟨hcode, hcomment⟩ := codeOf_append_remark hsemicolon comment
  unfold ofText?
  simp only [hcode, hcomment, hcore.trim_eq hindent htrail, if_neg hcore.ne_nil,
    hcore.takeWhile_eq hindent]

/-- Nothing is read from blanks and a comment. -/
theorem ofText?_of_allBlank {blanks : Text} (h : AllBlank blanks) (comment : Option Text) :
    ofText? number (blanks ++ remark comment) = none := by
  obtain ⟨hcode, -⟩ := codeOf_append_remark (h.not_mem (by decide)) comment
  have htrim : Text.trim blanks = [] := Text.trim_append_of_allBlank [] h
  unfold ofText?
  simp only [hcode, htrim, if_true]

/-- The code of a line without a colon is an instruction. -/
theorem ofCode_unlabelled {code : Text} (h : ':' ∉ code) :
    ofCode number comment start code =
      .ok (statement number none comment ⟨start, start + byteLength code⟩ start code) := by
  unfold ofCode
  rw [List.dropWhile_eq_nil_iff.mpr (forall_ne_of_not_mem h)]

/-- The first colon of the code ends the label. -/
theorem ofCode_label {before behind : Text} (h : ':' ∉ before)
    (hcheck : Label.check (Text.trim before) = .ok ()) :
    ofCode number comment start (before ++ ':' :: behind) =
      .ok (statement number (some (Text.trim before)) comment
        ⟨start, start + byteLength (before ++ ':' :: behind)⟩
        (start + byteLength before + 1 + byteLength (behind.takeWhile Text.isBlank))
        (Text.trimStart behind)) := by
  unfold ofCode
  rw [List.takeWhile_append_of_pos (forall_ne_of_not_mem h),
    List.dropWhile_append_of_pos (forall_ne_of_not_mem h)]
  simp [hcheck]

/-- **The code of a line with a label** is cut at the colon, and the blanks around
the name do not count. -/
theorem ofText?_of_label {indent name gap behind trail : Text} (hindent : AllBlank indent)
    (hname : Label.check name = .ok ()) (hgap : AllBlank gap) (hends : EndsSolid (':' :: behind))
    (htrail : AllBlank trail) (hmark : ';' ∉ behind) (comment : Option Text) :
    ofText? number (indent ++ (name ++ gap ++ ':' :: behind) ++ trail ++ remark comment) =
      some (.ok (statement number (some name) (comment.map Text.trim)
        ⟨byteLength indent, byteLength indent + byteLength (name ++ gap ++ ':' :: behind)⟩
        (byteLength indent + byteLength (name ++ gap) + 1 +
          byteLength (behind.takeWhile Text.isBlank)) (Text.trimStart behind))) := by
  have htrimmed := Label.trimmed_of_check hname
  have hfree : ∀ c, Label.isNameChar c = false → Text.isBlank c = false → c ∉ name ++ gap := by
    intro c hc hblank
    rw [List.mem_append, not_or]
    exact ⟨Label.not_mem_of_check hname hc, hgap.not_mem hblank⟩
  have htrim : Text.trim (name ++ gap) = name := by
    rw [Text.trim_append_of_allBlank name hgap, Text.trim_of_forall (Label.isBlank_of_check hname)]
  have hcore : Trimmed (name ++ gap ++ ':' :: behind) := by
    refine ⟨by simp, ?_, hends.append (List.cons_ne_nil _ _) _⟩
    rw [List.append_assoc]
    exact htrimmed.starts.append htrimmed.ne_nil _
  have hsemicolon : ';' ∉ name ++ gap ++ ':' :: behind := by
    rw [List.mem_append, List.mem_cons, not_or, not_or]
    exact ⟨hfree ';' (by decide) (by decide), by decide, hmark⟩
  rw [ofText?_of_code number hindent hcore htrail hsemicolon,
    ofCode_label (hfree ':' (by decide) (by decide)) (by rw [htrim]; exact hname), htrim]

/-- What stands in front of the first colon is at fault if it is not a name. -/
theorem ofCode_badLabel {before : Text} (h : ':' ∉ before) (behind : Text) {e : LabelError}
    (hcheck : Label.check (Text.trim before) = .error e) :
    ofCode number comment start (before ++ ':' :: behind) =
      .error ⟨number, ⟨start, start + byteLength before⟩, .badLabel e⟩ := by
  unfold ofCode
  rw [List.takeWhile_append_of_pos (forall_ne_of_not_mem h),
    List.dropWhile_append_of_pos (forall_ne_of_not_mem h)]
  simp [hcheck]

/-- The first blank of an instruction ends its word. -/
theorem statement_word {word : Text} (hword : word ≠ []) (hw : ∀ c ∈ word, Text.isBlank c = false) :
    statement number label comment whole start word =
      ⟨number, label, some word, none, comment, ⟨start, start + byteLength word⟩⟩ := by
  have hall : ∀ c ∈ word, (!Text.isBlank c) = true := fun c hc => by simp [hw c hc]
  unfold statement
  rw [if_neg hword, List.takeWhile_eq_self_iff.mpr hall, List.dropWhile_eq_nil_iff.mpr hall]
  rfl

theorem statement_operand {word gap operand : Text} (hword : word ≠ [])
    (hw : ∀ c ∈ word, Text.isBlank c = false) (hne : gap ≠ []) (hgap : AllBlank gap)
    (ho : Trimmed operand) :
    statement number label comment whole start (word ++ gap ++ operand) =
      ⟨number, label, some word, some operand, comment,
        ⟨start, start + byteLength (word ++ gap ++ operand)⟩⟩ := by
  have hall : ∀ c ∈ word, (!Text.isBlank c) = true := fun c hc => by simp [hw c hc]
  have hbehind : ∀ c ∈ (gap ++ operand).head?, (!Text.isBlank c) = false := by
    intro c hc
    rw [List.head?_append_of_ne_nil gap hne] at hc
    simp [hgap c (List.mem_of_mem_head? hc)]
  obtain ⟨htake, hdrop⟩ := Piece.takeWhile_append_of_stop hall hbehind
  have htrim : Text.trim (gap ++ operand) = operand := by
    have htrim := ho.trim_eq hgap (v := []) (by simp [AllBlank])
    rwa [List.append_nil] at htrim
  unfold statement
  rw [if_neg (by simp [hword]), List.append_assoc, htake, hdrop, htrim]
  simp only [if_neg ho.ne_nil]

end Line

/-! ## The line as a whole -/

namespace Written

variable {w : Written} (h : w.WellFormed)
include h

theorem WellFormed.instruction_ne_nil (hword : w.mnemonic.isSome = true) : w.instruction ≠ [] := by
  obtain ⟨word, hw⟩ := Option.isSome_iff_exists.mp hword
  have hne := (h.mnemonic word hw).1
  unfold instruction
  rw [hw]
  cases w.operand with
  | none => exact hne
  | some operand => simp [hne]

/-- An instruction has no blanks around it. -/
theorem WellFormed.trimmed_instruction (hword : w.mnemonic.isSome = true) :
    Trimmed w.instruction := by
  have hne := h.instruction_ne_nil hword
  obtain ⟨word, hw⟩ := Option.isSome_iff_exists.mp hword
  obtain ⟨hword, hsolid⟩ := h.mnemonic word hw
  have hstart := Text.startsSolid_of_forall hsolid
  cases ho : w.operand with
  | none =>
    have hinstruction : w.instruction = word := by simp [instruction, hw, ho]
    rw [hinstruction] at hne ⊢
    exact ⟨hne, hstart, Text.endsSolid_of_forall hsolid⟩
  | some operand =>
    obtain ⟨htrimmed, -⟩ := h.operand operand ho
    have hinstruction : w.instruction = word ++ (w.beforeOperand ++ operand) := by
      simp [instruction, hw, ho]
    rw [hinstruction] at hne ⊢
    refine ⟨hne, hstart.append hword _, ?_⟩
    rw [← List.append_assoc]
    exact htrimmed.ends.append htrimmed.ne_nil _

/-- The code of an instruction is cut into its word and its operand. -/
theorem WellFormed.statement_instruction (hword : w.mnemonic.isSome = true) (number start : Nat)
    (label comment : Option Text) (whole : Span) :
    Line.statement number label comment whole start w.instruction =
      ⟨number, label, w.mnemonic, w.operand, comment,
        ⟨start, start + byteLength w.instruction⟩⟩ := by
  obtain ⟨word, hw⟩ := Option.isSome_iff_exists.mp hword
  obtain ⟨hne, hsolid⟩ := h.mnemonic word hw
  unfold instruction
  cases ho : w.operand with
  | none =>
    rw [hw]
    exact Line.statement_word hne hsolid
  | some operand =>
    obtain ⟨htrimmed, hgap, -⟩ := h.operand operand ho
    rw [hw]
    exact Line.statement_operand hne hsolid hgap h.beforeOperand htrimmed

theorem WellFormed.operand_eq_none (hword : w.mnemonic = none) : w.operand = none := by
  refine Option.eq_none_iff_forall_not_mem.mpr fun operand ho => ?_
  obtain ⟨-, -, hsome⟩ := h.operand operand ho
  rw [hword] at hsome
  cases hsome

/-- A line with an instruction and no label. -/
theorem WellFormed.ofText?_unlabelled (hlabel : w.label = none) (hword : w.mnemonic.isSome = true)
    (number : Nat) : Line.ofText? number w.text = some (.ok (w.statement number)) := by
  have hread := Line.ofText?_of_code number (h.indent.append h.beforeWord)
    (h.trimmed_instruction hword) h.trail h.semicolon w.comment
  rw [Line.ofCode_unlabelled (h.colon hlabel), h.statement_instruction hword] at hread
  have htext : w.text =
      w.indent ++ w.beforeWord ++ w.instruction ++ w.trail ++ remark w.comment := by
    simp [text, code, heading, hlabel]
  obtain ⟨word, hw⟩ := Option.isSome_iff_exists.mp hword
  rw [htext, hread]
  simp [statement, span, heading, hlabel, hw, Nat.add_assoc]

/-- A line with a label. -/
theorem WellFormed.ofText?_labelled {name : Text} (hlabel : w.label = some name) (number : Nat) :
    Line.ofText? number w.text = some (.ok (w.statement number)) := by
  have hcheck := h.label name hlabel
  have hsize : ':'.utf8Size = 1 := by decide
  cases hword : w.mnemonic with
  | none =>
    have htext : w.text = w.indent ++ (name ++ w.beforeColon ++ ':' :: []) ++
        (w.beforeWord ++ w.trail) ++ remark w.comment := by
      simp [text, code, heading, instruction, hlabel, hword]
    rw [htext, Line.ofText?_of_label h.indent hcheck h.beforeColon
      Text.endsSolid_colon (h.beforeWord.append h.trail) (by simp)]
    simp [Line.statement, statement, span, heading, hlabel, hword, h.operand_eq_none hword,
      Text.trimStart]
  | some word =>
    have hinstruction := h.trimmed_instruction (by simp [hword])
    have hends : EndsSolid (':' :: (w.beforeWord ++ w.instruction)) := by
      rw [← List.cons_append]
      exact hinstruction.ends.append hinstruction.ne_nil _
    have hmark : ';' ∉ w.beforeWord ++ w.instruction := by
      simp [h.semicolon, h.beforeWord.not_mem (c := ';') (by decide)]
    have hgap := hinstruction.takeWhile_eq h.beforeWord []
    rw [List.append_nil] at hgap
    have hbehind : Text.trimStart (w.beforeWord ++ w.instruction) = w.instruction := by
      unfold Text.trimStart
      rw [List.dropWhile_append_of_pos h.beforeWord]
      exact hinstruction.starts.trimStart_eq
    have htext : w.text = w.indent ++
        (name ++ w.beforeColon ++ ':' :: (w.beforeWord ++ w.instruction)) ++ w.trail ++
          remark w.comment := by
      simp [text, code, heading, hlabel]
    rw [htext, Line.ofText?_of_label h.indent hcheck h.beforeColon hends h.trail hmark, hgap,
      hbehind, h.statement_instruction (by simp [hword])]
    simp [statement, span, heading, hlabel, hword, hsize, Nat.add_assoc]

/-- **A line that is written is read.** -/
theorem ofText?_text (number : Nat) :
    Line.ofText? number w.text = some (.ok (w.statement number)) := by
  cases hlabel : w.label with
  | none =>
    have hword : w.mnemonic.isSome = true := by simpa [hlabel] using h.not_blank
    exact h.ofText?_unlabelled hlabel hword number
  | some name => exact h.ofText?_labelled hlabel number

end Written

namespace Line

/-- A line is its code and, behind the first semicolon, its comment. -/
theorem exists_remark (raw : Text) : ∃ code comment, raw = code ++ remark comment ∧ ';' ∉ code := by
  by_cases h : ';' ∈ raw
  · obtain ⟨code, comment, rfl, hcode⟩ := List.eq_append_cons_of_mem h
    exact ⟨code, some comment, rfl, hcode⟩
  · exact ⟨raw, none, (List.append_nil raw).symm, h⟩

/-- A text that is not blank is a word, alone or with an operand behind blanks. -/
theorem exists_word {t : Text} (h : Trimmed t) :
    ∃ word gap, ∃ operand : Option Text, (word ≠ [] ∧ ∀ c ∈ word, Text.isBlank c = false) ∧
      AllBlank gap ∧ (∀ o ∈ operand, Trimmed o ∧ gap ≠ []) ∧
      t = word ++ (operand.map fun o => gap ++ o).getD [] := by
  have hcut :
      t.takeWhile (fun c => !Text.isBlank c) ++ t.dropWhile (fun c => !Text.isBlank c) = t :=
    List.takeWhile_append_dropWhile
  have hword : ∀ c ∈ t.takeWhile (fun c => !Text.isBlank c), Text.isBlank c = false := by
    intro c hc
    simpa using List.all_eq_true.mp List.all_takeWhile c hc
  have hne : t.takeWhile (fun c => !Text.isBlank c) ≠ [] := by
    obtain ⟨c, rest, rfl⟩ := List.exists_cons_of_ne_nil h.ne_nil
    simp [h.starts c rfl]
  have hbehind : ∀ c ∈ (t.dropWhile fun c => !Text.isBlank c).head?, Text.isBlank c = true := by
    intro c hc
    simpa using Text.eq_false_of_mem_head?_dropWhile hc
  generalize t.takeWhile (fun c => !Text.isBlank c) = word at hcut hword hne
  generalize t.dropWhile (fun c => !Text.isBlank c) = behind at hcut hbehind
  cases behind with
  | nil =>
    refine ⟨word, [], none, ⟨hne, hword⟩, by simp [AllBlank], by simp, ?_⟩
    simpa using hcut.symm
  | cons c behind =>
    have hends : EndsSolid (c :: behind) := by
      have hsolid := h.ends
      rw [← hcut] at hsolid
      exact hsolid.of_append
    have hoperand : EndsSolid (Text.trimStart (c :: behind)) := by
      rw [← Text.takeWhile_append_trimStart (c :: behind)] at hends
      exact hends.of_append
    refine ⟨word, (c :: behind).takeWhile Text.isBlank, some (Text.trimStart (c :: behind)),
      ⟨hne, hword⟩, Text.allBlank_takeWhile _, ?_, ?_⟩
    · rintro o ho
      cases ho
      refine ⟨⟨hends.trimStart_ne_nil (List.cons_ne_nil _ _), Text.startsSolid_trimStart _,
        hoperand⟩, ?_⟩
      rw [List.takeWhile_cons_of_pos (hbehind c rfl)]
      exact List.cons_ne_nil _ _
    · simpa [Text.takeWhile_append_trimStart] using hcut.symm

/-- **What reading a line can come to**, with the text of the line: nothing is read from blanks, a
label that is not a name is a fault, and everything else is a statement as it is written. -/
inductive Reads (number : Nat) : Text → Option Line → Prop
  | blank {blanks : Text} (comment : Option Text) (hblanks : AllBlank blanks) :
      Reads number (blanks ++ remark comment) none
  | badLabel {indent before behind trail : Text} {e : LabelError} (comment : Option Text)
      (hindent : AllBlank indent) (hcore : Trimmed (before ++ ':' :: behind))
      (htrail : AllBlank trail) (hcolon : ':' ∉ before)
      (hsemicolon : ';' ∉ before ++ ':' :: behind)
      (hcheck : Label.check (Text.trim before) = .error e) :
      Reads number (indent ++ (before ++ ':' :: behind) ++ trail ++ remark comment)
        (some (.error ⟨number, ⟨byteLength indent, byteLength (indent ++ before)⟩, .badLabel e⟩))
  | statement {w : Written} (h : w.WellFormed) :
      Reads number w.text (some (.ok (w.statement number)))

variable {number : Nat} {raw : Text} {outcome : Option Line}

theorem Reads.ofText?_eq (h : Reads number raw outcome) : ofText? number raw = outcome := by
  cases h with
  | blank comment hblanks => exact ofText?_of_allBlank hblanks comment
  | badLabel comment hindent hcore htrail hcolon hsemicolon hcheck =>
    rw [ofText?_of_code number hindent hcore htrail hsemicolon, ofCode_badLabel hcolon _ hcheck,
      Text.byteLength_append]
  | statement h => exact Written.ofText?_text h number

section

variable {indent gap blanks trail : Text} (hindent : AllBlank indent) (hgap : AllBlank gap)
  (hblanks : AllBlank blanks) (htrail : AllBlank trail)
include hindent hgap hblanks htrail

/-- A name with a colon is a label. -/
theorem exists_reads_label {name : Text} (hname : Label.check name = .ok ())
    (comment : Option Text) :
    ∃ outcome, Reads number (indent ++ (name ++ gap ++ ':' :: blanks) ++ trail ++ remark comment)
      outcome := by
  let w : Written := ⟨indent, some name, gap, blanks, none, [], none, trail, comment⟩
  have hw : w.WellFormed :=
    { indent := hindent
      beforeColon := hgap
      beforeWord := hblanks
      beforeOperand := Text.allBlank_nil
      trail := htrail
      label := by simpa [w] using hname
      mnemonic := by simp [w]
      operand := by simp [w]
      not_blank := .inl rfl
      semicolon := List.not_mem_nil
      colon := by simp [w] }
  have htext : w.text = indent ++ (name ++ gap ++ ':' :: blanks) ++ trail ++ remark comment := by
    simp [Written.text, Written.code, Written.heading, Written.instruction, w]
  rw [← htext]
  exact ⟨_, .statement hw⟩

/-- Behind a label or without one stands an instruction. Only behind a label it may have colons. -/
theorem exists_reads_instruction {rest : Text} (hrest : Trimmed rest) (hsemicolon : ';' ∉ rest)
    (label comment : Option Text) (hlabel : ∀ name ∈ label, Label.check name = .ok ())
    (hcolon : label = none → ':' ∉ rest) :
    ∃ outcome, Reads number (indent ++ (label.map fun name => name ++ gap ++ [':']).getD [] ++
      blanks ++ rest ++ trail ++ remark comment) outcome := by
  obtain ⟨word, gap', operand, hword, hgap', hoperand, hcut⟩ := exists_word hrest
  let w : Written := ⟨indent, label, gap, blanks, some word, gap', operand, trail, comment⟩
  have hinstruction : w.instruction = rest := by
    rw [hcut]
    cases operand <;> simp [w, Written.instruction]
  have hw : w.WellFormed :=
    { indent := hindent
      beforeColon := hgap
      beforeWord := hblanks
      beforeOperand := hgap'
      trail := htrail
      label := hlabel
      mnemonic := by simpa [w] using hword
      operand := fun o ho => ⟨(hoperand o ho).1, (hoperand o ho).2, rfl⟩
      not_blank := .inr rfl
      semicolon := by rwa [hinstruction]
      colon := fun hnone => by rw [hinstruction]; exact hcolon hnone }
  have htext : w.text = indent ++ (label.map fun name => name ++ gap ++ [':']).getD [] ++ blanks ++
      rest ++ trail ++ remark comment := by
    unfold Written.text Written.code
    rw [hinstruction]
    cases label <;> rfl
  rw [← htext]
  exact ⟨_, .statement hw⟩

end

/-- Code with a colon has a label, if it is a name. -/
theorem exists_reads_labelled {indent before behind trail : Text} (hindent : AllBlank indent)
    (hcore : Trimmed (before ++ ':' :: behind)) (htrail : AllBlank trail)
    (hsemicolon : ';' ∉ before ++ ':' :: behind) (hcolon : ':' ∉ before) (comment : Option Text) :
    ∃ outcome, Reads number (indent ++ (before ++ ':' :: behind) ++ trail ++ remark comment)
      outcome := by
  cases hcheck : Label.check (Text.trim before) with
  | error e => exact ⟨_, .badLabel comment hindent hcore htrail hcolon hsemicolon hcheck⟩
  | ok _ =>
    obtain ⟨u, gap, hbefore, hu, hgap⟩ := Text.exists_eq_append_trim before
    have hstarts := hcore.starts
    rw [hbefore, List.append_assoc, List.append_assoc] at hstarts
    obtain rfl := hstarts.eq_nil hu
    rw [List.nil_append] at hbefore
    have hbehind := Text.takeWhile_append_trimStart behind
    have hblanks := Text.allBlank_takeWhile behind
    rw [hbefore]
    by_cases hrest : Text.trimStart behind = []
    · rw [hrest, List.append_nil] at hbehind
      rw [hbehind] at hblanks
      exact exists_reads_label hindent hgap hblanks htrail hcheck comment
    · have hends : EndsSolid (Text.trimStart behind) := by
        have hends := hcore.ends
        rw [← hbehind, ← List.cons_append, ← List.append_assoc] at hends
        exact hends.of_append
      have hmark : ';' ∉ Text.trimStart behind := by
        rw [← hbehind] at hsemicolon
        exact fun hmem => hsemicolon (by simp [hmem])
      have hreads : ∃ outcome, Reads number _ outcome :=
        exists_reads_instruction hindent hgap hblanks htrail
          ⟨hrest, Text.startsSolid_trimStart behind, hends⟩ hmark (some (Text.trim before)) comment
          (by simpa using hcheck) (by simp)
      rw [← hbehind]
      simpa using hreads

/-- **Every line is of one of these kinds.** -/
theorem reads_ofText? (number : Nat) (raw : Text) : Reads number raw (ofText? number raw) := by
  suffices h : ∃ outcome, Reads number raw outcome by
    obtain ⟨outcome, houtcome⟩ := h
    rwa [houtcome.ofText?_eq]
  obtain ⟨code, comment, rfl, hsemicolon⟩ := exists_remark raw
  obtain hblank | ⟨indent, core, trail, rfl, hindent, hcore, htrail⟩ := Text.exists_trimmed code
  · exact ⟨_, .blank comment hblank⟩
  · have hmark : ';' ∉ core := fun hmem => hsemicolon (by simp [hmem])
    by_cases hcolon : ':' ∈ core
    · obtain ⟨before, behind, rfl, hbefore⟩ := List.eq_append_cons_of_mem hcolon
      exact exists_reads_labelled hindent hcore htrail hmark hbefore comment
    · simpa using exists_reads_instruction hindent Text.allBlank_nil Text.allBlank_nil htrail hcore
        hmark none comment (by simp) fun _ => hcolon

/-- **A statement that is read is written in its line.** -/
theorem exists_written {s : Statement} (h : ofText? number raw = some (.ok s)) :
    ∃ w : Written, w.WellFormed ∧ raw = w.text ∧ s = w.statement number := by
  have hreads := reads_ofText? number raw
  rw [h] at hreads
  cases hreads with
  | statement hw => exact ⟨_, hw, rfl, rfl⟩

end Line

/-! ## Lines written again -/

/-- The statement as a line with single blanks. -/
def Statement.rendered (s : Statement) : Text :=
  (s.label.map fun name => name ++ [':']).getD [] ++ (s.mnemonic.map (' ' :: ·)).getD [] ++
    (s.operand.map (' ' :: ·)).getD [] ++
      (s.comment.map fun comment => ' ' :: ';' :: comment).getD []

namespace Written

/-- The same statement with single blanks. -/
def tidied (w : Written) : Written where
  indent := []
  label := w.label
  beforeColon := []
  beforeWord := if w.mnemonic.isSome then [' '] else []
  mnemonic := w.mnemonic
  beforeOperand := [' ']
  operand := w.operand
  trail := if w.comment.isSome then [' '] else []
  comment := w.comment.map Text.trim

variable {w : Written}

theorem WellFormed.tidied (h : w.WellFormed) : w.tidied.WellFormed := by
  have hblank : AllBlank [' '] := by simp [AllBlank]; decide
  have hblanks : ∀ b : Bool, AllBlank (if b then [' '] else []) := by
    intro b
    cases b with
    | false => exact Text.allBlank_nil
    | true => exact hblank
  have hmark : ∀ c, Text.isBlank c = false → c ∉ w.instruction → c ∉ w.tidied.instruction := by
    intro c hc hmem
    have hspace : c ∉ [' '] := hblank.not_mem hc
    unfold instruction at hmem ⊢
    simp only [Written.tidied]
    split at hmem <;> simp_all
  exact
    { indent := Text.allBlank_nil
      beforeColon := Text.allBlank_nil
      beforeWord := hblanks _
      beforeOperand := hblank
      trail := hblanks _
      label := h.label
      mnemonic := h.mnemonic
      operand := fun o ho => ⟨(h.operand o ho).1, List.cons_ne_nil _ _, (h.operand o ho).2.2⟩
      not_blank := h.not_blank
      semicolon := hmark ';' (by decide) h.semicolon
      colon := fun hlabel => hmark ':' (by decide) (h.colon hlabel) }

/-- What is written with single blanks is the statement as a line. -/
theorem text_tidied (h : w.WellFormed) (number : Nat) :
    w.tidied.text = (w.statement number).rendered := by
  have hoperand := h.operand_eq_none
  unfold Statement.rendered text code heading instruction
  simp only [Written.tidied, statement]
  cases hword : w.mnemonic with
  | none =>
    rw [hoperand hword]
    cases w.label <;> cases w.comment <;> simp [remark]
  | some word => cases w.label <;> cases w.operand <;> cases w.comment <;> simp [remark]

end Written

namespace Line

theorem trim_trim (t : Text) : Text.trim (Text.trim t) = Text.trim t := by
  rw [(Text.endsSolid_trim t).trim_eq, (Text.startsSolid_trim t).trimStart_eq]

/-- **A statement that has been read is read again** from the line that it is written as: the same
label, word, operand and comment, whatever they contain. -/
theorem ofText?_rendered {number : Nat} {raw : Text} {s : Statement}
    (h : ofText? number raw = some (.ok s)) (number' : Nat) :
    ∃ span, ofText? number' s.rendered = some (.ok { s with line := number', span }) := by
  obtain ⟨w, hw, -, rfl⟩ := exists_written h
  refine ⟨w.tidied.span, ?_⟩
  rw [← Written.text_tidied hw number, Written.ofText?_text hw.tidied]
  have hcomment : w.tidied.comment.map Text.trim = w.comment.map Text.trim := by
    unfold Written.tidied
    cases w.comment <;> simp [trim_trim]
  unfold Written.statement
  rw [hcomment]
  rfl

/-- A word with a colon, an operand with blanks in it and a comment with marks in it. -/
theorem ofText?_rendered_of_marks :
    ∃ s, ofText? 1 "\tgo :a:b\t(x ,  y:z) ; one;two: ".toList = some (.ok s) ∧
      s.rendered = "go: a:b (x ,  y:z) ;one;two:".toList ∧
      ∃ span, ofText? 7 s.rendered = some (.ok { s with line := 7, span }) := by
  have h : ofText? 1 "\tgo :a:b\t(x ,  y:z) ; one;two: ".toList =
      some (.ok ⟨1, some "go".toList, some "a:b".toList, some "(x ,  y:z)".toList,
        some "one;two:".toList, ⟨5, 19⟩⟩) := by decide
  exact ⟨_, h, by decide, ofText?_rendered h 7⟩

end Line

end Micro65
