import Micro65.Proofs.Statement.Written
import Micro65.Proofs.Text.LetterCase
/-!
# What the spans of a line delimit

The span of a statement lies in the code of its line, between characters, and what stands there is
the instruction, or the label of a line without one. The span of a fault is the text in front of the
first colon. Nothing is read exactly from the lines whose code is blank, and a label is accepted
exactly if it is a name (`Line.delimits`).
-/

namespace Micro65

namespace Label

/-- **A name that a label can have**: a letter, then at most thirty-one letters, digits and
underscores, and not the name of a register. -/
structure IsName (name : Text) : Prop where
  letter : ∃ first rest, name = first :: rest ∧ first.isAlpha = true ∧ rest.length ≤ 31 ∧
    ∀ c ∈ rest, c.isAlphanum = true ∨ c = '_'
  not_register : name ∉ [['A'], ['a'], ['X'], ['x'], ['Y'], ['y']]

/-- The letters of the registers, in either case. -/
theorem toUpper_mem_iff {c : Char} :
    c.toUpper ∈ ['A', 'X', 'Y'] ↔ c ∈ ['A', 'a', 'X', 'x', 'Y', 'y'] := by
  obtain ⟨n, hn, rfl⟩ | hc := small_or_capital c
  · have hletters : ∀ n < 26, (Char.ofNat (97 + n)).toUpper ∈ ['A', 'X', 'Y'] ↔
        Char.ofNat (97 + n) ∈ ['A', 'a', 'X', 'x', 'Y', 'y'] := by
      decide
    exact hletters n hn
  · rw [hc]
    simp only [List.mem_cons, List.not_mem_nil, or_false]
    constructor
    · rintro (rfl | rfl | rfl) <;> simp
    · -- a small letter is not its own capital
      rintro (rfl | rfl | rfl | rfl | rfl | rfl)
      · exact .inl rfl
      · exact absurd hc (by decide)
      · exact .inr (.inl rfl)
      · exact absurd hc (by decide)
      · exact .inr (.inr rfl)
      · exact absurd hc (by decide)

theorem isRegister_iff {name : Text} :
    isRegister name = true ↔ name ∈ [['A'], ['a'], ['X'], ['x'], ['Y'], ['y']] := by
  unfold isRegister registers
  match name with
  | [] => decide
  | [c] =>
    have hletter := toUpper_mem_iff (c := c)
    simp only [List.mem_cons, List.not_mem_nil, or_false] at hletter
    simpa [Text.upper] using hletter
  | c :: d :: rest => simp [Text.upper]

theorem byteLength_eq_length {t : Text} (h : ∀ c ∈ t, isNameChar c = true) :
    Text.byteLength t = t.length := by
  induction t with
  | nil => rfl
  | cons c t ih =>
    obtain ⟨hc, ht⟩ := List.forall_mem_cons.mp h
    rw [Text.byteLength_cons, List.length_cons, ih ht,
      (Text.encode_of_lt (Piece.inAscii_isNameChar c hc)).2, Nat.add_comm]

/-- **The names are the texts that pass the check.** -/
theorem check_eq_ok_iff {name : Text} : check name = .ok () ↔ IsName name := by
  cases name with
  | nil =>
    constructor
    · intro h
      cases h
    · rintro ⟨⟨first, rest, h, -⟩, -⟩
      cases h
  | cons first rest =>
    have hname : first.isAlpha = true → isNameChar first = true :=
      fun h => by simp [isNameChar, Char.isAlphanum, h]
    have hchar : ∀ c : Char, isNameChar c = true ↔ c.isAlphanum = true ∨ c = '_' :=
      fun c => by simp [isNameChar]
    rw [check_cons_eq_ok_iff, ← Bool.not_eq_true, isRegister_iff]
    constructor
    · rintro ⟨hlength, halpha, hrest, hregister⟩
      rw [byteLength_eq_length (List.forall_mem_cons.mpr ⟨hname halpha, hrest⟩)] at hlength
      refine ⟨⟨first, rest, rfl, halpha, Nat.le_of_succ_le_succ hlength, ?_⟩, hregister⟩
      exact fun c hc => (hchar c).mp (hrest c hc)
    · rintro ⟨⟨_, _, heq, halpha, hlength, hrest⟩, hregister⟩
      obtain ⟨rfl, rfl⟩ := List.cons.inj heq
      have hchars : ∀ c ∈ rest, isNameChar c = true := fun c hc => (hchar c).mpr (hrest c hc)
      refine ⟨?_, halpha, hchars, hregister⟩
      rw [byteLength_eq_length (List.forall_mem_cons.mpr ⟨hname halpha, hchars⟩)]
      exact Nat.succ_le_succ hlength

end Label

open Text (AllBlank StartsSolid Trimmed byteLength)

/-- **How the part of a statement is written that its span delimits**: the word of the instruction,
the word, blanks and the operand, or the label with its colon if there is no instruction. -/
inductive Statement.Shows (s : Statement) : Text → Prop
  | word {word : Text} (mnemonic_eq : s.mnemonic = some word) (operand_eq : s.operand = none)
      (hword : word ≠ [] ∧ ∀ c ∈ word, Text.isBlank c = false) : Shows s word
  | operand {word gap operand : Text} (mnemonic_eq : s.mnemonic = some word)
      (operand_eq : s.operand = some operand)
      (hword : word ≠ [] ∧ ∀ c ∈ word, Text.isBlank c = false)
      (hgap : gap ≠ [] ∧ AllBlank gap) (hoperand : Trimmed operand) :
      Shows s (word ++ gap ++ operand)
  | label {name gap : Text} (mnemonic_eq : s.mnemonic = none) (operand_eq : s.operand = none)
      (label_eq : s.label = some name) (hgap : AllBlank gap) : Shows s (name ++ gap ++ [':'])

namespace Line

/-- **A part of a line stands at a span**: the ends of the span are between characters and not
behind the code of the line, and the bytes between them are those of the part. -/
structure StandsAt (raw : Text) (span : Span) (part : Text) : Prop where
  start_le : span.start ≤ span.stop
  stop_le : span.stop ≤ byteLength (codeOf raw)
  start_boundary : raw.IsBoundary span.start
  stop_boundary : raw.IsBoundary span.stop
  utf8_eq : (raw.utf8.take span.stop).drop span.start = part.utf8

theorem standsAt_of_codeOf {raw front part behind : Text}
    (h : codeOf raw = front ++ part ++ behind) :
    StandsAt raw ⟨byteLength front, byteLength (front ++ part)⟩ part := by
  have hraw : raw = front ++ part ++ (behind ++ raw.dropWhile (· ≠ ';')) := by
    rw [← List.append_assoc, ← h]
    exact List.takeWhile_append_dropWhile.symm
  refine ⟨by simp, by simp [h], ?_, ⟨_, _, hraw, rfl⟩, ?_⟩
  · exact ⟨front, _, by rw [← List.append_assoc]; exact hraw, rfl⟩
  · rw [hraw]
    exact Text.slice_utf8 _ _ _

/-- What stands in front of the first mark is determined. -/
theorem front_unique {mark : Char} {front front' behind behind' : Text} (h : mark ∉ front)
    (h' : mark ∉ front') (heq : front ++ mark :: behind = front' ++ mark :: behind') :
    front = front' := by
  have htake := congrArg (List.takeWhile (· ≠ mark)) heq
  rw [List.takeWhile_append_of_pos (forall_ne_of_not_mem h),
    List.takeWhile_append_of_pos (forall_ne_of_not_mem h')] at htake
  simpa using htake

end Line

namespace Written

variable {w : Written} (h : w.WellFormed)
include h

/-- The code of a line that is written ends in front of the comment. -/
theorem WellFormed.codeOf_text : Line.codeOf w.text = w.code := by
  have hblank : ∀ t, AllBlank t → ';' ∉ t := fun t ht => ht.not_mem (by decide)
  have hheading : ';' ∉ w.heading := by
    unfold heading
    cases hlabel : w.label with
    | none => exact List.not_mem_nil
    | some name =>
      have hname : ';' ∉ name := Label.not_mem_of_check (h.label name hlabel) (by decide)
      simp [hname, hblank _ h.beforeColon]
  refine (Line.codeOf_append_remark ?_ w.comment).1
  simp [code, hblank _ h.indent, hheading, hblank _ h.beforeWord, h.semicolon, hblank _ h.trail]

/-- A label and its colon have no blanks around them. -/
theorem WellFormed.trimmed_heading (hlabel : w.label.isSome = true) : Trimmed w.heading := by
  obtain ⟨name, hname⟩ := Option.isSome_iff_exists.mp hlabel
  have hlabel := Label.trimmed_of_check (h.label name hname)
  have hheading : w.heading = name ++ (w.beforeColon ++ [':']) := by simp [heading, hname]
  rw [hheading]
  refine ⟨by simp, hlabel.starts.append hlabel.ne_nil _, ?_⟩
  rw [← List.append_assoc]
  exact Text.endsSolid_colon.append (List.cons_ne_nil _ _) _

/-- The span of a statement is where its instruction stands, or its label. -/
theorem WellFormed.exists_shows (number : Nat) :
    ∃ front part behind, w.code = front ++ part ++ behind ∧ AllBlank behind ∧
      w.span = ⟨byteLength front, byteLength (front ++ part)⟩ ∧ (w.statement number).Shows part ∧
      Trimmed part ∧ (w.mnemonic = none → AllBlank front) := by
  cases hword : w.mnemonic with
  | none =>
    obtain ⟨name, hname⟩ : ∃ name, w.label = some name := by
      simpa [hword, Option.isSome_iff_exists] using h.not_blank
    refine ⟨w.indent, w.heading, w.beforeWord ++ w.trail, ?_, h.beforeWord.append h.trail, ?_, ?_,
      h.trimmed_heading (by simp [hname]), fun _ => h.indent⟩
    · simp [code, instruction, hword]
    · simp [span, hword]
    · unfold heading
      rw [hname]
      exact .label hword (h.operand_eq_none hword) hname h.beforeColon
  | some word =>
    refine ⟨w.indent ++ w.heading ++ w.beforeWord, w.instruction, w.trail, rfl, h.trail, ?_, ?_,
      h.trimmed_instruction (by simp [hword]), fun hnone => by cases hnone⟩
    · simp [span, hword]
    · unfold instruction
      rw [hword]
      cases hoperand : w.operand with
      | none => exact .word hword hoperand (h.mnemonic word hword)
      | some operand =>
        obtain ⟨htrimmed, hne, -⟩ := h.operand operand hoperand
        exact .operand hword hoperand (h.mnemonic word hword) ⟨hne, h.beforeOperand⟩ htrimmed

/-- What stands in front of the first colon of the code is the label. -/
theorem WellFormed.label_of_code {before behind : Text} (hcode : w.code = before ++ ':' :: behind)
    (hbefore : ':' ∉ before) : w.label = some (Text.trim before) := by
  have hblank : ∀ t, AllBlank t → ':' ∉ t := fun t ht => ht.not_mem (by decide)
  cases hlabel : w.label with
  | none =>
    have hfree : ':' ∉ w.code := by
      simp [code, heading, hlabel, hblank _ h.indent, hblank _ h.beforeWord, h.colon hlabel,
        hblank _ h.trail]
    exact absurd (by rw [hcode]; simp) hfree
  | some name =>
    have hname : ':' ∉ name := Label.not_mem_of_check (h.label name hlabel) (by decide)
    have hfront : ':' ∉ w.indent ++ name ++ w.beforeColon := by
      simp [hblank _ h.indent, hname, hblank _ h.beforeColon]
    have hcut : w.code =
        w.indent ++ name ++ w.beforeColon ++ ':' :: (w.beforeWord ++ w.instruction ++ w.trail) := by
      simp [code, heading, hlabel]
    obtain rfl := Line.front_unique hfront hbefore (hcut.symm.trans hcode)
    rw [(Label.trimmed_of_check (h.label name hlabel)).trim_eq h.indent h.beforeColon]

end Written

namespace Line

/-- **What the reading of a line comes to, and where it says so.** -/
structure Delimits (number : Nat) (raw : Text) : Prop where
  /-- Nothing is read from blanks and a comment, and from nothing else. -/
  none_iff : ofText? number raw = none ↔ AllBlank (codeOf raw)
  /-- The span of a statement is where the instruction stands, or the trimmed code
  if that is a label. -/
  statement : ∀ s, ofText? number raw = some (.ok s) → s.line = number ∧
    ∃ part, StandsAt raw s.span part ∧ s.Shows part ∧
      (s.mnemonic = none → part = Text.trim (codeOf raw))
  /-- The span of a fault starts at the first character that is not blank and ends
  at the first colon. -/
  fault : ∀ d, ofText? number raw = some (.error d) → d.line = number ∧ d.kind = .invalidLabel ∧
    d.column = d.span.start ∧
    ∃ indent before behind, codeOf raw = indent ++ before ++ ':' :: behind ∧
      AllBlank indent ∧ StartsSolid (before ++ [':']) ∧ ':' ∉ before ∧
      d.span = ⟨byteLength indent, byteLength (indent ++ before)⟩ ∧ StandsAt raw d.span before
  /-- A label is accepted if what stands in front of the first colon is a name, apart from
  blanks. -/
  label_iff : ∀ before behind, codeOf raw = before ++ ':' :: behind → ':' ∉ before →
    ((∃ s, ofText? number raw = some (.ok s) ∧ s.label = some (Text.trim before)) ↔
      Label.IsName (Text.trim before)) ∧
    (¬ Label.IsName (Text.trim before) → ∃ d, ofText? number raw = some (.error d))
  /-- Without a colon there is no label. -/
  unlabelled : ∀ s, ofText? number raw = some (.ok s) → ':' ∉ codeOf raw → s.label = none

variable {number : Nat} {raw : Text}

theorem ofText?_eq_none_iff : ofText? number raw = none ↔ AllBlank (codeOf raw) := by
  have htrim : Text.trim (codeOf raw) = [] ↔ AllBlank (codeOf raw) := by
    constructor
    · intro h
      obtain hblank | ⟨u, core, v, heq, hu, hcore, hv⟩ := Text.exists_trimmed (codeOf raw)
      · exact hblank
      · rw [heq, hcore.trim_eq hu hv] at h
        exact absurd h hcore.ne_nil
    · exact fun h => Text.trim_append_of_allBlank [] h
  rw [← htrim]
  simp [ofText?]

/-- Where a statement stands, and what stands there. -/
theorem exists_shows {s : Statement} (h : ofText? number raw = some (.ok s)) :
    s.line = number ∧ ∃ part, StandsAt raw s.span part ∧ s.Shows part ∧
      (s.mnemonic = none → part = Text.trim (codeOf raw)) := by
  obtain ⟨w, hw, rfl, rfl⟩ := exists_written h
  obtain ⟨front, part, behind, hcode, hbehind, hspan, hshows, hpart, hfront⟩ :=
    hw.exists_shows number
  have hcodeOf : codeOf w.text = front ++ part ++ behind := by rw [hw.codeOf_text, hcode]
  refine ⟨rfl, part, ?_, hshows, fun hword => ?_⟩
  · change StandsAt w.text w.span part
    rw [hspan]
    exact standsAt_of_codeOf hcodeOf
  · rw [hcodeOf, hpart.trim_eq (hfront hword) hbehind]

/-- Where a fault stands. -/
theorem exists_fault {d : Diagnostic} (h : ofText? number raw = some (.error d)) :
    ∃ indent before behind, ∃ e : LabelError, codeOf raw = indent ++ before ++ ':' :: behind ∧
      AllBlank indent ∧ StartsSolid (before ++ [':']) ∧ ':' ∉ before ∧
      Label.check (Text.trim before) = .error e ∧
      d = ⟨number, ⟨byteLength indent, byteLength (indent ++ before)⟩, .badLabel e⟩ := by
  have hreads := reads_ofText? number raw
  rw [h] at hreads
  cases hreads with
  | @badLabel indent before behind trail e comment hindent hcore htrail hcolon hsemicolon hcheck =>
    have hmark : ∀ t, AllBlank t → ';' ∉ t := fun t ht => ht.not_mem (by decide)
    have hcode : ';' ∉ indent ++ (before ++ ':' :: behind) ++ trail := by
      simp only [List.mem_append, not_or] at hsemicolon ⊢
      exact ⟨⟨hmark _ hindent, hsemicolon⟩, hmark _ htrail⟩
    refine ⟨indent, before, behind ++ trail, e, ?_, hindent, ?_, hcolon, hcheck, rfl⟩
    · rw [(codeOf_append_remark hcode comment).1]
      simp
    · have hstarts := hcore.starts
      cases before with
      | nil => exact hstarts
      | cons c before => exact hstarts

/-- A colon in the code makes a label or a fault of what stands in front of it. -/
theorem label_cases (number : Nat) {before behind : Text}
    (hcode : codeOf raw = before ++ ':' :: behind) (hbefore : ':' ∉ before) :
    (Label.check (Text.trim before) = .ok () ∧
      ∃ s, ofText? number raw = some (.ok s) ∧ s.label = some (Text.trim before)) ∨
    ((∃ e, Label.check (Text.trim before) = .error e) ∧
      ∃ d, ofText? number raw = some (.error d)) := by
  cases hread : ofText? number raw with
  | none =>
    have hblank : AllBlank (before ++ ':' :: behind) := hcode ▸ ofText?_eq_none_iff.mp hread
    exact absurd (List.mem_append_right before (List.mem_cons_self ..))
      (hblank.not_mem (c := ':') (by decide))
  | some line =>
    cases line with
    | ok s =>
      obtain ⟨w, hw, rfl, rfl⟩ := exists_written hread
      rw [hw.codeOf_text] at hcode
      have hlabel := hw.label_of_code hcode hbefore
      exact .inl ⟨hw.label _ hlabel, _, rfl, hlabel⟩
    | error d =>
      obtain ⟨indent, before', behind', e, hcode', hindent, -, hbefore', hcheck, -⟩ :=
        exists_fault hread
      have hfront : ':' ∉ indent ++ before' := by
        rw [List.mem_append, not_or]
        exact ⟨hindent.not_mem (by decide), hbefore'⟩
      obtain rfl := front_unique hfront hbefore (hcode'.symm.trans hcode)
      rw [Text.trim_append_left hindent]
      exact .inr ⟨⟨e, hcheck⟩, d, rfl⟩

/-- Only a colon makes a label. -/
theorem label_eq_none {s : Statement} (h : ofText? number raw = some (.ok s))
    (hcolon : ':' ∉ codeOf raw) :
    s.label = none := by
  obtain ⟨w, hw, rfl, rfl⟩ := exists_written h
  rw [hw.codeOf_text] at hcolon
  cases hlabel : w.label with
  | none => exact hlabel
  | some name => exact absurd (by simp [Written.code, Written.heading, hlabel]) hcolon

/-- **The span of a statement delimits exactly the statement**, in every line: what is read from it,
where the parts stand and which labels are accepted. -/
theorem delimits (number : Nat) (raw : Text) : Delimits number raw where
  none_iff := ofText?_eq_none_iff
  statement _ h := exists_shows h
  fault d h := by
    obtain ⟨indent, before, behind, e, hcode, hindent, hstarts, hcolon, -, rfl⟩ := exists_fault h
    exact ⟨rfl, rfl, rfl, indent, before, behind, hcode, hindent, hstarts, hcolon, rfl,
      standsAt_of_codeOf hcode⟩
  label_iff before behind hcode hbefore := by
    rw [← Label.check_eq_ok_iff]
    obtain ⟨hcheck, s, hread, hlabel⟩ | ⟨⟨e, hcheck⟩, d, hread⟩ :=
      label_cases number hcode hbefore
    · simp [hcheck, hread, hlabel]
    · simp [hcheck, hread]
  unlabelled _ h hcolon := label_eq_none h hcolon

end Line

end Micro65
