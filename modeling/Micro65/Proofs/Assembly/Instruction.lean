import Micro65.Assembly.Instruction
import Micro65.Proofs.Operand.Alike
import Micro65.Proofs.SymbolTable
/-!
# The two readings of a statement

A statement is read twice, once with a placeholder for each label and once with the labels' values.
Wherever the second reading succeeds the first finds the same length
(`Statement.size?_of_instruction`), because a placeholder and a value are literals of the same size.

What the second reading finds is an instruction that the table has and whose operand fits its mode
(`Statement.wellFormed_of_instruction`). If the operand of the statement refers to a name, it refers
to one only, a defined label, and the instruction carries its value: as an address, or in a branch
as the distance from the next instruction (`Statement.refersTo_of_instruction`).
-/

namespace Micro65

section

variable {ε α β : Type}

/-- Two computations in a row succeed if the first does and the second does with its result. -/
theorem bind_eq_ok_iff {x : Except ε α} {f : α → Except ε β} {b : β} :
    (x >>= f) = .ok b ↔ ∃ a, x = .ok a ∧ f a = .ok b := by
  cases x with
  | error e => simp [bind, Except.bind]
  | ok a =>
    constructor
    · intro h
      exact ⟨a, rfl, h⟩
    · rintro ⟨a', h, hb⟩
      cases h
      exact hb

theorem mapError_eq_ok_iff {ε' : Type} {f : ε → ε'} {x : Except ε α} {a : α} :
    x.mapError f = .ok a ↔ x = .ok a := by
  cases x with
  | error e => simp [Except.mapError]
  | ok a' => simp [Except.mapError]

theorem map_eq_error_iff {x : Except ε α} {f : α → β} {e : ε} :
    x.map f = .error e ↔ x = .error e := by
  cases x <;> simp [Except.map]

theorem exists_of_map_toOption {x : Except ε α} {f : α → β} {b : β}
    (h : x.toOption.map f = some b) : ∃ a, x = .ok a ∧ f a = b := by
  cases x with
  | error e => cases h
  | ok a => exact ⟨a, rfl, Option.some.inj h⟩

/-- The elements become the results one by one. -/
theorem mapM_eq_ok_iff {f : α → Except ε β} {xs : List α} {ys : List β} :
    xs.mapM f = .ok ys ↔ List.Forall₂ (fun x y => f x = .ok y) xs ys := by
  induction xs generalizing ys with
  | nil =>
    rw [List.mapM_nil, List.forall₂_nil_left_iff]
    simp [pure, Except.pure, eq_comm]
  | cons x xs ih =>
    rw [List.mapM_cons, List.forall₂_cons_left_iff, bind_eq_ok_iff]
    constructor
    · rintro ⟨y, hy, h⟩
      obtain ⟨ys', hys, h⟩ := bind_eq_ok_iff.mp h
      cases h
      exact ⟨y, ys', hy, ih.mp hys, rfl⟩
    · rintro ⟨y, ys', hy, hys, rfl⟩
      exact ⟨y, hy, bind_eq_ok_iff.mpr ⟨ys', ih.mpr hys, rfl⟩⟩

/-- What goes wrong with a list goes wrong with one of its elements. -/
theorem exists_of_mapM_eq_error {f : α → Except ε β} {xs : List α} {e : ε}
    (h : xs.mapM f = .error e) : ∃ x ∈ xs, f x = .error e := by
  induction xs with
  | nil => cases h
  | cons x xs ih =>
    rw [List.mapM_cons] at h
    cases hx : f x with
    | error e' =>
      rw [hx] at h
      cases h
      exact ⟨x, List.mem_cons_self, hx⟩
    | ok y =>
      cases hxs : xs.mapM f with
      | ok ys =>
        rw [hx, hxs] at h
        cases h
      | error e' =>
        rw [hx, hxs] at h
        cases h
        obtain ⟨x', hx', hfault⟩ := ih hxs
        exact ⟨x', List.mem_cons_of_mem x hx', hfault⟩

end

namespace Labelling

variable {ε : Type} {labelText : Text → Except ε Text}

/-- Replacing the labels of a token fails only with what is wrong with one of its names. -/
theorem exists_of_substitute_eq_error {token : Text} {e : ε}
    (h : substitute (Label.replacement labelText) token = .error e) :
    ∃ name ∈ Text.names token, labelText name = .error e := by
  have hpieces : (Piece.pieces token).mapM (Piece.substituted (Label.replacement labelText)) =
      .error e := by
    unfold substitute at h
    cases hx : (Piece.pieces token).mapM (Piece.substituted (Label.replacement labelText)) with
    | error e' =>
      rw [hx] at h
      cases h
      rfl
    | ok texts =>
      rw [hx] at h
      cases h
  obtain ⟨p, hp, hfault⟩ := exists_of_mapM_eq_error hpieces
  cases p with
  | numeral t => cases hfault
  | other c => cases hfault
  | identifier name =>
    cases hregister : Label.isRegister name with
    | true =>
      simp only [Piece.substituted, Label.replacement, hregister, if_true] at hfault
      cases hfault
    | false =>
      refine ⟨name, List.mem_filterMap.mpr ⟨_, hp, by simp [Piece.name?, hregister]⟩, ?_⟩
      cases hname : labelText name with
      | error e' =>
        simp only [Piece.substituted, Label.replacement, hregister, hname] at hfault
        cases hfault
        rfl
      | ok x =>
        simp only [Piece.substituted, Label.replacement, hregister, hname] at hfault
        cases hfault

end Labelling

/-! ## What stands for a label -/

namespace LabelRule

variable {rule : LabelRule} {symbols : SymbolTable} {address : UInt16} {m : Mnemonic}

/-- **The text of a label**: its distance as a byte or its value as a word. -/
theorem reference_cases {name x : Text} (h : rule.reference symbols address m name = .ok x) :
    ∃ symbol, symbols.find? name = some symbol ∧
      if rule.isRelative m = true then
        ∃ d : Int, d = symbol.address.toNat - (address.toNat + 2) ∧ -128 ≤ d ∧ d ≤ 127 ∧
          x = '$' :: Text.hexByte (UInt8.ofInt d)
      else x = '$' :: Text.hexWord symbol.address := by
  unfold reference at h
  split at h
  · cases h
  · rename_i symbol hfind
    refine ⟨symbol, hfind, ?_⟩
    split at h
    · rename_i hrelative
      rw [if_pos hrelative]
      simp only at h
      split at h
      · rename_i hreach
        cases h
        exact ⟨_, rfl, hreach.1, hreach.2, rfl⟩
      · cases h
    · rename_i hrelative
      rw [if_neg hrelative]
      cases h
      rfl

/-- The placeholder as the text of every label. -/
def placeholderText (rule : LabelRule) (m : Mnemonic) (_ : Text) : Except Diagnostic.Cause Text :=
  .ok (rule.placeholder m)

theorem labelling_placeholderText : Labelling (rule.placeholderText m) := by
  intro name x h
  unfold placeholderText placeholder at h
  cases h
  split
  · exact ⟨_, rfl⟩
  · exact ⟨_, rfl⟩

theorem labelling_reference : Labelling (rule.reference symbols address m) := by
  intro name x h
  obtain ⟨symbol, -, hx⟩ := reference_cases h
  split at hx
  · obtain ⟨d, -, -, -, rfl⟩ := hx
    exact ⟨_, rfl⟩
  · exact ⟨_, hx⟩

/-- **A placeholder has the size of what it stands for.** -/
theorem sameSizes_placeholderText_reference :
    Labelling.SameSizes (rule.placeholderText m) (rule.reference symbols address m) := by
  intro name x x' hx hx' w
  unfold placeholderText placeholder at hx
  cases hx
  obtain ⟨symbol, -, hx'⟩ := reference_cases hx'
  by_cases hrelative : rule.isRelative m = true
  · rw [if_pos hrelative] at hx' ⊢
    obtain ⟨d, -, -, -, rfl⟩ := hx'
    rw [ModeChoice.literal?_hexByte, ModeChoice.literal?_hexByte]
    split <;> rfl
  · rw [if_neg hrelative] at hx' ⊢
    rw [hx', ModeChoice.literal?_hexWord, ModeChoice.literal?_hexWord]
    split <;> rfl

/-- Whether a branch at an address reaches a value: the distance from the instruction behind
it fits a signed byte. -/
def Reaches (address value : UInt16) : Prop :=
  -128 ≤ (value.toNat - (address.toNat + 2) : Int) ∧
    (value.toNat - (address.toNat + 2) : Int) ≤ 127

/-- **When a label has a text**: it is defined, and a branch that asks for its distance reaches
it. -/
theorem exists_reference_iff {name : Text} :
    (∃ x, rule.reference symbols address m name = .ok x) ↔
      ∃ symbol, symbols.find? name = some symbol ∧
        (rule.isRelative m = true → Reaches address symbol.address) := by
  constructor
  · rintro ⟨x, hx⟩
    obtain ⟨symbol, hfind, hx⟩ := reference_cases hx
    refine ⟨symbol, hfind, fun hrelative => ?_⟩
    rw [if_pos hrelative] at hx
    obtain ⟨d, rfl, hlow, hhigh, -⟩ := hx
    exact ⟨hlow, hhigh⟩
  · rintro ⟨symbol, hfind, hreaches⟩
    unfold reference
    simp only [hfind]
    by_cases hrelative : rule.isRelative m = true
    · rw [if_pos hrelative, if_pos (show _ ∧ _ from hreaches hrelative)]
      exact ⟨_, rfl⟩
    · rw [if_neg hrelative]
      exact ⟨_, rfl⟩

/-- Why a label has no text: it is not defined, or a branch does not reach it. -/
theorem reference_error_cases {name : Text} {cause : Diagnostic.Cause}
    (h : rule.reference symbols address m name = .error cause) :
    symbols.find? name = none ∧ cause = .undefinedLabel name ∨
      ∃ symbol, symbols.find? name = some symbol ∧ rule.isRelative m = true ∧
        ¬ Reaches address symbol.address ∧
        cause = .branchTooFar name (symbol.address.toNat - (address.toNat + 2)) := by
  unfold reference at h
  cases hfind : symbols.find? name with
  | none =>
    rw [hfind] at h
    cases h
    exact .inl ⟨rfl, rfl⟩
  | some symbol =>
    rw [hfind] at h
    simp only at h
    split at h
    · rename_i hrelative
      split at h
      · cases h
      · rename_i hfar
        cases h
        exact .inr ⟨symbol, rfl, hrelative, hfar, rfl⟩
    · cases h

/-- The text of a label stays if labels are added. -/
theorem reference_mono {symbols' : SymbolTable} (h : symbols.Extends symbols') {name x : Text}
    (hx : rule.reference symbols address m name = .ok x) :
    rule.reference symbols' address m name = .ok x := by
  obtain ⟨symbol, hfind, -⟩ := reference_cases hx
  unfold reference at hx ⊢
  rw [h name symbol hfind]
  rwa [hfind] at hx

theorem isRelative_iff : rule.isRelative m = true ↔ m.isBranch = true ∧ rule = .byteOffset := by
  simp [isRelative]

end LabelRule

/-- How an instruction carries the value of a label under a rule: as an address, or in a branch as
the distance from the instruction behind it, without any wrapping. -/
inductive Instruction.Carries (rule : LabelRule) (i : Instruction) (value : UInt16) : Prop where
  | address (mode_mem : i.mode ∈ [Mode.absolute, .absoluteX, .absoluteY])
      (operand_eq : i.operand = some value)
  | distance (isBranch : i.mnemonic.isBranch = true) (rule_eq : rule = .byteOffset)
      (mode_eq : i.mode = .relative) (operand : UInt16) (operand_eq : i.operand = some operand)
      (target_eq : (i.address.toNat : Int) + 2 + Word.signed (Word.low operand) = value.toNat)

/-- An instruction that the table has, with an operand of the size of its mode. -/
structure Instruction.WellFormed (i : Instruction) : Prop where
  hasMode : i.mnemonic.hasMode i.mode = true
  fits : i.mode.Fits i.operand

theorem Mode.mem_absolute_of_width? {mode : Mode} (hw : mode.width? = some .word)
    (hpointer : mode ≠ .indirect ∧ mode ≠ .absoluteIndexedIndirect) :
    mode ∈ [absolute, absoluteX, absoluteY] := by
  cases mode with
  | absolute | absoluteX | absoluteY => simp
  | indirect => exact absurd rfl hpointer.1
  | absoluteIndexedIndirect => exact absurd rfl hpointer.2
  | _ => cases hw

namespace Statement

/-- The names that the operand of the statement refers to. -/
def names (s : Statement) : List Text :=
  Text.names (s.operand.getD [])

variable {s : Statement}

/-- **What it takes for a statement to have a form**: an instruction that exists, a field that
can be cut, labels that can be replaced in every token, and a mode that accepts the tokens and
that the instruction has. -/
theorem form_eq_ok_iff {labelText : Mnemonic → Text → Except Diagnostic.Cause Text} {f : Form} :
    s.form labelText = .ok f ↔
      ∃ field outs, Mnemonic.ofText? (s.mnemonic.getD []) = some f.mnemonic ∧
        Field.ofText (s.operand.getD []) = .ok field ∧
        List.Forall₂ (fun t out =>
          substitute (Label.replacement (labelText f.mnemonic)) t = .ok out) field.tokens outs ∧
        ModeChoice.ofTokens? field.indirect f.mnemonic outs = some ⟨f.mode, f.operand⟩ ∧
        f.mnemonic.hasMode f.mode = true := by
  unfold form
  simp only
  cases hword : Mnemonic.ofText? (s.mnemonic.getD []) with
  | none => simp
  | some mnemonic =>
    simp only [bind_eq_ok_iff]
    constructor
    · rintro ⟨field, hfield, outs, houts, h⟩
      split at h
      · rename_i choice hchoice
        split at h
        · rename_i hmode
          cases h
          exact ⟨field, outs, rfl, mapError_eq_ok_iff.mp hfield, mapM_eq_ok_iff.mp houts, hchoice,
            hmode⟩
        · cases h
      · cases h
    · rintro ⟨field, outs, hm, hfield, houts, hchoice, hmode⟩
      cases hm
      refine ⟨field, mapError_eq_ok_iff.mpr hfield, outs, mapM_eq_ok_iff.mpr houts, ?_⟩
      rw [hchoice]
      exact if_pos hmode

/-! ## From the first reading to the second -/

variable {rule : LabelRule} {symbols : SymbolTable} {address : UInt16} {i : Instruction}

/-- A form that is placed at an address is an instruction, and nothing else is. -/
theorem map_form_eq_ok_iff {x : Except Diagnostic.Cause Form} {line : Nat} :
    (x.map fun f => (⟨f.mnemonic, f.mode, f.operand, address, line⟩ : Instruction)) = .ok i ↔
      x = .ok ⟨i.mnemonic, i.mode, i.operand⟩ ∧ i.address = address ∧ i.line = line := by
  cases x with
  | error e => simp [Except.map]
  | ok f =>
    constructor
    · intro h
      cases h
      exact ⟨rfl, rfl, rfl⟩
    · rintro ⟨h, rfl, hline⟩
      cases h
      rw [← hline]
      rfl

theorem instruction_eq_ok_iff :
    s.instruction rule symbols address = .ok i ↔
      s.form (rule.reference symbols address) = .ok ⟨i.mnemonic, i.mode, i.operand⟩ ∧
        i.address = address ∧ i.line = s.line :=
  map_form_eq_ok_iff

theorem instruction_eq_error_iff {cause : Diagnostic.Cause} :
    s.instruction rule symbols address = .error cause ↔
      s.form (rule.reference symbols address) = .error cause :=
  map_eq_error_iff

/-- **What a statement is read as stays** if more labels have a text. -/
theorem form_mono {labelText labelText' : Mnemonic → Text → Except Diagnostic.Cause Text}
    (h : ∀ m name x, labelText m name = .ok x → labelText' m name = .ok x) {f : Form}
    (hf : s.form labelText = .ok f) : s.form labelText' = .ok f := by
  obtain ⟨field, outs, hword, hfield, houts, hchoice, hmode⟩ := form_eq_ok_iff.mp hf
  refine form_eq_ok_iff.mpr ⟨field, outs, hword, hfield, ?_, hchoice, hmode⟩
  exact houts.imp fun token out htoken => substitute_mono (h f.mnemonic) htoken

/-- An instruction stays what it is if labels are added. -/
theorem instruction_mono {symbols' : SymbolTable} (h : symbols.Extends symbols')
    (hi : s.instruction rule symbols address = .ok i) :
    s.instruction rule symbols' address = .ok i := by
  obtain ⟨hform, hplace⟩ := instruction_eq_ok_iff.mp hi
  exact instruction_eq_ok_iff.mpr
    ⟨form_mono (fun _ _ _ hx => LabelRule.reference_mono h hx) hform, hplace⟩

/-- The tokens of an accepted operand have the names of the statement. -/
theorem flatMap_names_tokens {ε : Type} {labelText : Text → Except ε Text}
    (hl : Labelling labelText) {field : Field} {outs : List Text} {m : Mnemonic}
    {choice : ModeChoice} (hfield : Field.ofText (s.operand.getD []) = .ok field)
    (houts : List.Forall₂ (fun t out => substitute (Label.replacement labelText) t = .ok out)
      field.tokens outs)
    (hchoice : ModeChoice.ofTokens? field.indirect m outs = some choice) :
    field.tokens.flatMap Text.names = s.names :=
  Field.flatMap_names_of_ofText hfield
    (Labelling.names_of_accept? hl houts (ModeChoice.accept?_of_first? hchoice)).1

/-- **What other labels do to a statement that has a form.** It has a form with them too, in the
same mode, or one of its names has none of them, and that is all that is wrong with it. -/
theorem form_or_error {labelText labelText' : Mnemonic → Text → Except Diagnostic.Cause Text}
    (hl : ∀ m, Labelling (labelText m)) (hl' : ∀ m, Labelling (labelText' m))
    (hsizes : ∀ m, Labelling.SameSizes (labelText m) (labelText' m)) {f : Form}
    (h : s.form labelText = .ok f) :
    (∃ f', s.form labelText' = .ok f' ∧ f'.mnemonic = f.mnemonic ∧ f'.mode = f.mode) ∨
      ∃ name ∈ s.names, ∃ cause, labelText' f.mnemonic name = .error cause ∧
        s.form labelText' = .error cause := by
  obtain ⟨field, outs, hword, hfield, houts, hchoice, hmode⟩ := form_eq_ok_iff.mp h
  cases htokens : field.tokens.mapM
      (substitute (Label.replacement (labelText' f.mnemonic))) with
  | ok outs' =>
    have houts' := mapM_eq_ok_iff.mp htokens
    have halike : List.Forall₂ Alike outs outs' := by
      refine List.forall₂_iff_get.mpr ⟨houts.length_eq.symm.trans houts'.length_eq, ?_⟩
      intro i hi hi'
      have hlt : i < field.tokens.length := houts.length_eq ▸ hi
      exact Labelling.alike (hl f.mnemonic) (hl' f.mnemonic) (hsizes f.mnemonic)
        (houts.get hlt hi) (houts'.get hlt hi')
    have hcongr := ModeChoice.mode_first?_congr Mode.precedence field.indirect f.mnemonic halike
    unfold ModeChoice.ofTokens? at hchoice
    rw [hchoice] at hcongr
    obtain ⟨choice', hchoice', hmode'⟩ := Option.map_eq_some_iff.mp hcongr.symm
    exact .inl ⟨⟨f.mnemonic, choice'.mode, choice'.operand⟩,
      form_eq_ok_iff.mpr ⟨field, _, hword, hfield, houts', hchoice', by rw [hmode']; exact hmode⟩,
      rfl, hmode'⟩
  | error cause =>
    obtain ⟨token, htoken, hfault⟩ := exists_of_mapM_eq_error htokens
    obtain ⟨name, hname, hcause⟩ := Labelling.exists_of_substitute_eq_error hfault
    refine .inr ⟨name, ?_, cause, hcause, ?_⟩
    · rw [← flatMap_names_tokens (hl f.mnemonic) hfield houts hchoice]
      exact List.mem_flatMap.mpr ⟨token, htoken, hname⟩
    · unfold Label.replacement at htokens
      unfold form
      simp only [hword, hfield, Except.mapError, htokens, bind, Except.bind]

/-- **The first reading finds the length of the second.** -/
theorem size?_of_instruction (h : s.instruction rule symbols address = .ok i) :
    s.size? rule = some i.size := by
  obtain ⟨hform, -, -⟩ := instruction_eq_ok_iff.mp h
  rcases form_or_error (fun _ => LabelRule.labelling_reference)
    (fun _ => LabelRule.labelling_placeholderText)
    (fun _ => LabelRule.sameSizes_placeholderText_reference.symm) hform with
    ⟨f', hform', -, hmode⟩ | ⟨name, -, cause, hcause, -⟩
  · unfold size?
    unfold LabelRule.placeholderText at hform'
    rw [hform']
    simp only [hmode]
    rfl
  · cases hcause

theorem wellFormed_of_instruction (h : s.instruction rule symbols address = .ok i) :
    i.WellFormed := by
  obtain ⟨hform, -, -⟩ := instruction_eq_ok_iff.mp h
  obtain ⟨field, outs, -, -, -, hchoice, hmode⟩ := form_eq_ok_iff.mp hform
  exact ⟨hmode, ModeChoice.fits_of_accept? (ModeChoice.accept?_of_first? hchoice)⟩

/-- **The names of a statement that has a form**: none, or one, whose text is the literal of the
operand. -/
theorem names_of_form {labelText : Mnemonic → Text → Except Diagnostic.Cause Text}
    (hl : ∀ m, Labelling (labelText m)) {f : Form} (h : s.form labelText = .ok f) :
    s.names = [] ∨ ∃ name x w n, s.names = [name] ∧ labelText f.mnemonic name = .ok x ∧
      f.mode.width? = some w ∧ ModeChoice.literal? w x = some n ∧ f.operand = some n := by
  obtain ⟨field, outs, -, hfield, houts, hchoice, -⟩ := form_eq_ok_iff.mp h
  obtain ⟨-, hnames⟩ := Labelling.names_of_accept? (hl f.mnemonic) houts
    (ModeChoice.accept?_of_first? hchoice)
  rwa [flatMap_names_tokens (hl f.mnemonic) hfield houts hchoice] at hnames

/-- An operand without names, or with one only, whose value the instruction carries. -/
theorem refersTo_of_instruction (h : s.instruction rule symbols address = .ok i) :
    s.names = [] ∨ ∃ name symbol, s.names = [name] ∧ symbols.find? name = some symbol ∧
      i.Carries rule symbol.address := by
  obtain ⟨hform, haddress, -⟩ := instruction_eq_ok_iff.mp h
  have hmode := (wellFormed_of_instruction h).hasMode
  rcases names_of_form (fun _ => LabelRule.labelling_reference) hform with
    hnames | ⟨name, x, w, n, hnames, hx, hw, hn, hoperand⟩
  · exact .inl hnames
  · obtain ⟨symbol, hfind, hx⟩ := LabelRule.reference_cases hx
    refine .inr ⟨name, symbol, hnames, hfind, ?_⟩
    by_cases hrelative : rule.isRelative i.mnemonic = true
    · rw [if_pos hrelative] at hx
      obtain ⟨d, hd, hlow, hhigh, rfl⟩ := hx
      rw [ModeChoice.literal?_hexByte] at hn
      split at hn
      · obtain ⟨hbranch, hrule⟩ := LabelRule.isRelative_iff.mp hrelative
        cases hn
        refine .distance hbranch hrule ((Mnemonic.isBranch_iff_of_hasMode hmode).mp hbranch) _
          hoperand ?_
        rw [Word.low_ofNat, Word.signed_ofInt hlow hhigh, hd, haddress]
        omega
      · cases hn
    · rw [if_neg hrelative] at hx
      rw [hx, ModeChoice.literal?_hexWord] at hn
      split at hn
      · rename_i hword
        cases hn
        exact .address (Mode.mem_absolute_of_width? (hword ▸ hw)
          (Mnemonic.ne_pointer_of_hasMode hmode)) hoperand
      · cases hn

/-! ## What the second reading can find wrong -/

variable {symbols' : SymbolTable} {address' : UInt16} {cause : Diagnostic.Cause}

theorem isSome_size?_of_instruction (h : s.instruction rule symbols address = .ok i) :
    (s.size? rule).isSome = true := by
  rw [size?_of_instruction h]
  rfl

/-- **What can be wrong with a statement that has a length** is what is wrong with the one name that
it refers to. -/
theorem reference_of_instruction_eq_error (hsize : (s.size? rule).isSome = true)
    (h : s.instruction rule symbols address = .error cause) :
    ∃ m name, Mnemonic.ofText? (s.mnemonic.getD []) = some m ∧ name ∈ s.names ∧
      rule.reference symbols address m name = .error cause := by
  have hform := instruction_eq_error_iff.mp h
  obtain ⟨f, hf⟩ : ∃ f, s.form (rule.placeholderText ·) = .ok f := by
    unfold size? at hsize
    split at hsize
    · rename_i f hf
      exact ⟨f, hf⟩
    · cases hsize
  obtain ⟨-, -, hword, -⟩ := form_eq_ok_iff.mp hf
  rcases form_or_error (fun _ => LabelRule.labelling_placeholderText)
    (fun _ => LabelRule.labelling_reference)
    (fun _ => LabelRule.sameSizes_placeholderText_reference) hf with
    ⟨f', hf', -⟩ | ⟨name, hname, cause', hcause, hfault⟩
  · rw [hform] at hf'
    cases hf'
  · rw [hform] at hfault
    cases hfault
    exact ⟨f.mnemonic, name, hword, hname, hcause⟩

/-- The names that an instruction refers to have values, which it can reach. -/
theorem reference_of_instruction_eq_ok (h : s.instruction rule symbols address = .ok i)
    {m : Mnemonic} (hm : Mnemonic.ofText? (s.mnemonic.getD []) = some m) {name : Text}
    (hname : name ∈ s.names) :
    ∃ x, rule.reference symbols address m name = .ok x := by
  obtain ⟨hform, -, -⟩ := instruction_eq_ok_iff.mp h
  obtain ⟨-, -, hword, -⟩ := form_eq_ok_iff.mp hform
  rw [hm] at hword
  cases hword
  rcases names_of_form (fun _ => LabelRule.labelling_reference) hform with
    hnames | ⟨name', x, -, -, hnames, hx, -⟩
  · rw [hnames] at hname
    cases hname
  · rw [hnames, List.mem_singleton] at hname
    subst hname
    exact ⟨x, hx⟩

/-- An instruction that has a length can be read where the names that it refers to have texts. -/
theorem exists_instruction_eq_ok (hsize : (s.size? rule).isSome = true)
    (h : ∀ m name, Mnemonic.ofText? (s.mnemonic.getD []) = some m → name ∈ s.names →
      ∃ x, rule.reference symbols address m name = .ok x) :
    ∃ i, s.instruction rule symbols address = .ok i := by
  cases hreads : s.instruction rule symbols address with
  | ok i => exact ⟨i, rfl⟩
  | error cause =>
    obtain ⟨m, name, hm, hname, hcause⟩ := reference_of_instruction_eq_error hsize hreads
    obtain ⟨x, hx⟩ := h m name hm hname
    rw [hcause] at hx
    cases hx

end Statement

end Micro65
