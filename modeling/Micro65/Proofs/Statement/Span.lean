import Micro65.Proofs.Statement.Line
/-!
# Where an instruction stands in its line

The span of a statement that has an instruction is where the instruction is written: its word and
its operand, with blanks between them. What stands in front of it is the label with its colon, if
there is one, and what stands behind it is a comment, if there is one; the rest is blank
(`Line.exists_parts_of_ofText?`).
-/

namespace Micro65

namespace Line

open Text (AllBlank EndsSolid)

/-- **How a line with an instruction is made up**: what stands in front of the instruction, the
instruction as it is written, and what stands behind it. -/
structure Parts (raw : Text) (s : Statement) (front written behind : Text) : Prop where
  raw_eq : raw = front ++ written ++ behind
  /-- In front stands the label with its colon, or nothing. -/
  front_eq : s.label = none ∧ AllBlank front ∨ ∃ name indent gap gap', s.label = some name ∧
    front = indent ++ name ++ gap ++ ':' :: gap' ∧ AllBlank indent ∧ AllBlank gap ∧ AllBlank gap'
  /-- The instruction is its word and its operand, if it has one. -/
  written_eq : ∃ word, s.mnemonic = some word ∧ (s.operand = none ∧ written = word ∨
    ∃ operand gap, s.operand = some operand ∧ written = word ++ gap ++ operand ∧ gap ≠ [] ∧
      AllBlank gap)
  /-- Behind it stands a comment, or nothing. -/
  behind_eq : AllBlank behind ∨ ∃ gap comment, behind = gap ++ ';' :: comment ∧ AllBlank gap
  span_eq : s.span = ⟨Text.byteLength front, Text.byteLength front + Text.byteLength written⟩

variable {number start : Nat} {label comment : Option Text} {whole : Span} {s : Statement}

/-! ## From the instruction to the line -/

/-- The code behind a label is an instruction, if it is not empty. -/
theorem mnemonic_statement_isSome {rest : Text} :
    (statement number label comment whole start rest).mnemonic.isSome = true ↔ rest ≠ [] := by
  unfold statement
  split <;> simp_all

/-- An instruction is cut at its first blank. -/
theorem written_of_statement {rest : Text} (hrest : rest ≠ []) (hsolid : EndsSolid rest) :
    (∃ word, (statement number label comment whole start rest).mnemonic = some word ∧
      ((statement number label comment whole start rest).operand = none ∧ rest = word ∨
        ∃ operand gap, (statement number label comment whole start rest).operand = some operand ∧
          rest = word ++ gap ++ operand ∧ gap ≠ [] ∧ AllBlank gap)) ∧
      (statement number label comment whole start rest).span =
        ⟨start, start + Text.byteLength rest⟩ := by
  unfold statement
  rw [if_neg hrest]
  refine ⟨⟨_, rfl, ?_⟩, rfl⟩
  have hcut : rest.takeWhile (fun c => !Text.isBlank c) ++
      rest.dropWhile (fun c => !Text.isBlank c) = rest := List.takeWhile_append_dropWhile
  have hhead := List.head?_dropWhile_not (fun c => !Text.isBlank c) rest
  generalize rest.takeWhile (fun c => !Text.isBlank c) = word at hcut
  generalize rest.dropWhile (fun c => !Text.isBlank c) = behind at hcut hhead
  rw [← hcut] at hsolid
  have htrim := hsolid.of_append.trim_eq
  have hbehind := Text.takeWhile_append_trimStart behind
  cases behind with
  | nil =>
    left
    rw [List.append_nil] at hcut
    exact ⟨by simp [Text.trim, Text.trimStart, Text.trimEnd], hcut.symm⟩
  | cons c behind =>
    right
    have hblank : Text.isBlank c = true := by simpa using hhead
    refine ⟨_, (c :: behind).takeWhile Text.isBlank,
      if_neg (htrim ▸ hsolid.of_append.trimStart_ne_nil (List.cons_ne_nil _ _)), ?_, ?_,
      Text.allBlank_takeWhile _⟩
    · rw [htrim, List.append_assoc, hbehind, hcut]
    · rw [List.takeWhile_cons_of_pos hblank]
      exact List.cons_ne_nil _ _

/-- The code of a line with an instruction is made up of its label and its instruction. -/
theorem exists_parts_of_ofCode {indent code : Text} (hindent : AllBlank indent)
    (hsolid : EndsSolid code) (h : ofCode number comment (Text.byteLength indent) code = .ok s)
    (hs : s.mnemonic.isSome = true) :
    ∃ front written, Parts (indent ++ code) s front written [] := by
  have hcut : code.takeWhile (· ≠ ':') ++ code.dropWhile (· ≠ ':') = code :=
    List.takeWhile_append_dropWhile
  have hhead := List.head?_dropWhile_not (· ≠ ':') code
  unfold ofCode at h
  simp only at h
  generalize code.takeWhile (· ≠ ':') = before at h hcut
  split at h
  · cases h
    obtain ⟨hwritten, hspan⟩ := written_of_statement (mnemonic_statement_isSome.mp hs) hsolid
    exact ⟨indent, code, (List.append_nil _).symm, .inl ⟨label_statement .., hindent⟩, hwritten,
      .inl (by simp [AllBlank]), hspan⟩
  · rename_i mark behind hmark
    split at h
    · cases h
    · cases h
      rw [hmark] at hcut hhead
      have hcolon : mark = ':' := by simpa using hhead
      obtain ⟨indent', gap, hbefore, hindent', hgap⟩ := Text.exists_eq_append_trim before
      have hbehind := Text.takeWhile_append_trimStart behind
      have hcode : code =
          before ++ ':' :: behind.takeWhile Text.isBlank ++ Text.trimStart behind := by
        rw [← hcut, hcolon, List.append_assoc, List.cons_append, hbehind]
      rw [hcode] at hsolid
      obtain ⟨hwritten, hspan⟩ :=
        written_of_statement (mnemonic_statement_isSome.mp hs) hsolid.of_append
      refine ⟨indent ++ before ++ ':' :: behind.takeWhile Text.isBlank, Text.trimStart behind, ?_,
        .inr ⟨Text.trim before, indent ++ indent', gap, behind.takeWhile Text.isBlank,
          label_statement .., ?_, hindent.append hindent', hgap, Text.allBlank_takeWhile _⟩,
        hwritten, .inl (by simp [AllBlank]), ?_⟩
      · rw [hcode]
        simp
      · conv => lhs; rw [hbefore]
        simp
      · rw [hspan]
        have hsize : ':'.utf8Size = 1 := by decide
        simp [hsize, Nat.add_assoc]

/-- **A line with an instruction is made up of** its label, its instruction, at its span, and a
comment. -/
theorem exists_parts_of_ofText? {raw : Text} (h : ofText? number raw = some (.ok s))
    (hs : s.mnemonic.isSome = true) : ∃ front written behind, Parts raw s front written behind := by
  have hraw : codeOf raw ++ raw.dropWhile (· ≠ ';') = raw := List.takeWhile_append_dropWhile
  have hhead := List.head?_dropWhile_not (· ≠ ';') raw
  unfold ofText? at h
  simp only at h
  split at h
  · cases h
  · simp only [Option.some.injEq] at h
    obtain ⟨front, written, hparts⟩ :=
      exists_parts_of_ofCode (Text.allBlank_takeWhile _) (Text.endsSolid_trim _) h hs
    obtain ⟨trail, htrail, hblank⟩ := Text.exists_trimStart_eq (codeOf raw)
    have hcode : codeOf raw = front ++ written ++ trail := by
      rw [← List.append_nil (front ++ written), ← hparts.raw_eq, List.append_assoc, ← htrail,
        Text.takeWhile_append_trimStart]
    refine ⟨front, written, trail ++ raw.dropWhile (· ≠ ';'),
      { hparts with raw_eq := ?_, behind_eq := ?_ }⟩
    · conv => lhs; rw [← hraw, hcode]
      rw [List.append_assoc]
    · cases htail : raw.dropWhile (· ≠ ';') with
      | nil =>
        rw [List.append_nil]
        exact .inl hblank
      | cons mark comment =>
        rw [htail] at hhead
        have hsemicolon : mark = ';' := by simpa using hhead
        exact .inr ⟨trail, comment, by rw [hsemicolon], hblank⟩

end Line

end Micro65
