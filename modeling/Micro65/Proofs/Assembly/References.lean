import Micro65.Proofs.Assembly.Accounts
import Micro65.Proofs.Assembly.Appended
import Micro65.Proofs.Assembly.Labels
import Micro65.Proofs.Operand.LabelName
/-!
# Names that can be referred to

Every name that can be defined can be referred to (`Label.referable_or_unassembled`). The value of
the label is put into the operand as a literal, and the literal survives the reading of the operand:
an instruction gets the value if it has the mode (`Statement.instruction_of_reference`), and a
branch gets the distance if it reaches the label (`Statement.instruction_of_branch`). An identifier
that cannot be defined is in no table, so a line that refers to one is not assembled
(`Assembly.line_ne_of_not_check`).
-/

namespace Micro65

/-! ## Instructions with one name -/

/-- A name that can be defined is replaced as a whole. -/
theorem Label.substitute_of_check {labelText : Text → Except Diagnostic.Cause Text} {name : Text}
    (h : check name = .ok ()) : substitute (replacement labelText) name = labelText name :=
  Labelling.substitute_of_pieces (pieces_of_check h) (isRegister_of_check h)

namespace LabelRule

variable {rule : LabelRule} {symbols : SymbolTable} {address : UInt16} {m : Mnemonic} {name : Text}
  {symbol : Symbol}

/-- The text of a defined label, where no distance is asked for. -/
theorem reference_of_isRelative_eq_false (hfind : symbols.find? name = some symbol)
    (hrelative : rule.isRelative m = false) :
    rule.reference symbols address m name = .ok ('$' :: Text.hexWord symbol.address) := by
  unfold reference
  simp only [hfind, hrelative, Bool.false_eq_true, if_false]

/-- The text of a defined label in a branch that reaches it. -/
theorem reference_of_reaches (hfind : symbols.find? name = some symbol)
    (hbranch : m.isBranch = true) (h : Reaches address symbol.address) :
    reference .byteOffset symbols address m name =
      .ok ('$' :: Text.hexByte (UInt8.ofInt (symbol.address.toNat - (address.toNat + 2)))) := by
  unfold reference
  simp only [hfind, isRelative_iff.mpr ⟨hbranch, rfl⟩, if_true]
  exact if_pos h

/-- The fault of a branch that does not reach a label. -/
theorem reference_of_not_reaches (hfind : symbols.find? name = some symbol)
    (hbranch : m.isBranch = true) (h : ¬ Reaches address symbol.address) :
    reference .byteOffset symbols address m name =
      .error (.branchTooFar name (symbol.address.toNat - (address.toNat + 2))) := by
  unfold reference
  simp only [hfind, isRelative_iff.mpr ⟨hbranch, rfl⟩, if_true]
  exact if_neg h

end LabelRule

namespace Statement

variable {s : Statement} {labelText : Mnemonic → Text → Except Diagnostic.Cause Text} {m : Mnemonic}
  {field : Field}

/-- What a statement is read as, from the mode of its tokens. -/
theorem form_eq_of_choice (hword : Mnemonic.ofText? (s.mnemonic.getD []) = some m)
    (hfield : Field.ofText (s.operand.getD []) = .ok field) {outs : List Text}
    (houts : List.Forall₂ (fun t out => substitute (Label.replacement (labelText m)) t = .ok out)
      field.tokens outs) {choice : ModeChoice}
    (hchoice : ModeChoice.ofTokens? field.indirect m outs = some choice) :
    s.form labelText =
      if m.hasMode choice.mode then .ok ⟨m, choice.mode, choice.operand⟩
      else .error (.lacksMode m choice.mode) := by
  have htokens := mapM_eq_ok_iff.mpr houts
  unfold Label.replacement at htokens
  unfold form
  simp only [hword, hfield, Except.mapError, htokens, hchoice, bind, Except.bind]
  rfl

/-- A fault in the labels of the tokens is what is wrong with the statement. -/
theorem form_eq_error_of_tokens (hword : Mnemonic.ofText? (s.mnemonic.getD []) = some m)
    (hfield : Field.ofText (s.operand.getD []) = .ok field) {cause : Diagnostic.Cause}
    (hfault : field.tokens.mapM (substitute (Label.replacement (labelText m))) = .error cause) :
    s.form labelText = .error cause := by
  unfold Label.replacement at hfault
  unfold form
  simp only [hword, hfield, Except.mapError, hfault, bind, Except.bind]

variable {rule : LabelRule} {symbols : SymbolTable} {address : UInt16} {symbol : Symbol}
  {name operand : Text} {mode : Mode}

/-- **An instruction that is no branch gets the value of the name that it refers to**, if it has the
mode. -/
theorem instruction_of_reference (h : Label.check name = .ok ())
    (hfind : symbols.find? name = some symbol)
    (hword : Mnemonic.ofText? (s.mnemonic.getD []) = some m) (hbranch : m.isBranch = false)
    (hoperand : s.operand = some operand) (hr : Label.Reference name mode operand) :
    s.instruction rule symbols address =
      if m.hasMode mode then .ok ⟨m, mode, some symbol.address, address, s.line⟩
      else .error (.lacksMode m mode) := by
  have hrelative : rule.isRelative m = false := by simp [LabelRule.isRelative, hbranch]
  have hreference : rule.reference symbols address m name = .ok _ :=
    LabelRule.reference_of_isRelative_eq_false hfind hrelative
  obtain ⟨behind, hfield, hbehind⟩ := hr.exists_field h
  have hvalue := hbehind.forms m symbol.address _ (Literal.denotes_hexWord symbol.address)
  have hchoice : ModeChoice.ofTokens? false m (('$' :: Text.hexWord symbol.address) :: behind) =
      some ⟨mode, some symbol.address⟩ := by
    refine (ModeChoice.first?_eq_some_iff ModeChoice.ordered_precedence).mpr ⟨?_, hvalue, ?_⟩
    · cases hr <;> rfl
    · rintro rfl
      cases hr
  have houts : List.Forall₂
      (fun t out => substitute (Label.replacement (rule.reference symbols address m)) t = .ok out)
      (name :: behind) (('$' :: Text.hexWord symbol.address) :: behind) := by
    refine .cons ?_ (List.forall₂_same.mpr fun t ht =>
      substitute_of_names_eq_nil (hbehind.names_eq_nil t ht))
    exact (Label.substitute_of_check h).trans hreference
  unfold instruction
  rw [form_eq_of_choice hword (by rw [hoperand]; exact hfield) houts hchoice]
  split <;> rfl

/-- **A branch gets the distance to the name that it refers to**, if it reaches it. -/
theorem instruction_of_branch (h : Label.check name = .ok ())
    (hfind : symbols.find? name = some symbol)
    (hword : Mnemonic.ofText? (s.mnemonic.getD []) = some m) (hbranch : m.isBranch = true)
    (hoperand : s.operand = some name) (hreaches : LabelRule.Reaches address symbol.address) :
    ∃ distance : UInt8, Word.signed distance = symbol.address.toNat - (address.toNat + 2) ∧
      s.instruction .byteOffset symbols address =
        .ok ⟨m, .relative, some (UInt16.ofNat distance.toNat), address, s.line⟩ := by
  have hreference := LabelRule.reference_of_reaches hfind hbranch hreaches
  refine ⟨_, Word.signed_ofInt hreaches.1 hreaches.2, ?_⟩
  generalize UInt8.ofInt (symbol.address.toNat - (address.toNat + 2)) = distance at hreference
  have hvalue : (UInt16.ofNat distance.toNat).toNat = distance.toNat := by
    have := distance.toNat_lt
    rw [UInt16.toNat_ofNat']
    omega
  have hchoice : ModeChoice.ofTokens? false m ['$' :: Text.hexByte distance] =
      some ⟨.relative, some (UInt16.ofNat distance.toNat)⟩ := by
    refine (ModeChoice.first?_eq_some_iff ModeChoice.ordered_precedence).mpr
      ⟨rfl, .distance hbranch ?_, nofun⟩
    rw [hvalue]
    exact Literal.denotes_hexByte distance
  have houts : List.Forall₂ (fun t out =>
      substitute (Label.replacement (LabelRule.reference .byteOffset symbols address m)) t =
        .ok out)
      [name] ['$' :: Text.hexByte distance] :=
    .cons ((Label.substitute_of_check h).trans hreference) .nil
  unfold instruction
  rw [form_eq_of_choice hword (by rw [hoperand]; exact Field.ofText_name h) houts hchoice,
    if_pos (Mnemonic.hasMode_relative hbranch)]
  rfl

/-- A branch that does not reach the name that it refers to is at fault. -/
theorem instruction_of_far_branch (h : Label.check name = .ok ())
    (hfind : symbols.find? name = some symbol)
    (hword : Mnemonic.ofText? (s.mnemonic.getD []) = some m) (hbranch : m.isBranch = true)
    (hoperand : s.operand = some name) (hfar : ¬ LabelRule.Reaches address symbol.address) :
    s.instruction .byteOffset symbols address =
      .error (.branchTooFar name (symbol.address.toNat - (address.toNat + 2))) := by
  have hfault : [name].mapM
      (substitute (Label.replacement (LabelRule.reference .byteOffset symbols address m))) =
        .error (.branchTooFar name (symbol.address.toNat - (address.toNat + 2))) := by
    rw [List.mapM_cons, Label.substitute_of_check h,
      LabelRule.reference_of_not_reaches hfind hbranch hfar]
    rfl
  exact instruction_eq_error_iff.mpr
    (form_eq_error_of_tokens hword (by rw [hoperand]; exact Field.ofText_name h) hfault)

end Statement

/-! ## Names that cannot be defined -/

/-- An operand stands behind a mnemonic. -/
theorem Line.mnemonic_isSome_of_operand {number : Nat} {raw : Text} {s : Statement}
    (h : ofText? number raw = some (.ok s)) (hs : s.operand.isSome = true) :
    s.mnemonic.isSome = true := by
  have hstatement : ∀ label comment whole start rest,
      (statement number label comment whole start rest).operand.isSome = true →
        (statement number label comment whole start rest).mnemonic.isSome = true := by
    intro label comment whole start rest
    unfold statement
    split
    · exact nofun
    · exact fun _ => rfl
  unfold ofText? at h
  simp only at h
  split at h
  · cases h
  · simp only [Option.some.injEq, ofCode] at h
    split at h
    · cases h
      exact hstatement _ _ _ _ _ hs
    · split at h
      · cases h
      · cases h
        exact hstatement _ _ _ _ _ hs

namespace Assembly

variable {settings : AssemblerSettings} {source : Text} {a : Assembly}

/-- The symbols of an assembly have names that may name a label. -/
theorem check_of_mem_symbols (h : assemble settings source = .ok a) {symbol : Symbol}
    (hsymbol : symbol ∈ a.symbols.toList) : Label.check symbol.name = .ok () := by
  have hmem : (symbol.name, symbol.line) ∈ a.labels source := by
    rw [← map_symbols_eq_labels h]
    exact List.mem_map_of_mem hsymbol
  unfold labels at hmem
  obtain ⟨line, hline, hlabel⟩ := List.mem_filterMap.mp hmem
  obtain ⟨-, hlabel⟩ := Option.ite_none_left_eq_some.mp hlabel
  obtain ⟨⟨raw, number⟩, -, hread⟩ := List.mem_filterMap.mp hline
  cases line with
  | error d => cases hlabel
  | ok s =>
    obtain ⟨name, hname, heq⟩ := Option.map_eq_some_iff.mp hlabel
    obtain ⟨rfl, -⟩ := Prod.mk.inj heq
    exact Line.check_of_ofText? hread hname

/-- **A statement that refers to a name that no label can have is not assembled.** -/
theorem line_ne_of_not_check (h : assemble settings source = .ok a) {s : Statement}
    (hs : .ok s ∈ Line.ofSource source) {name : Text} (hname : name ∈ s.names)
    (hcheck : Label.check name ≠ .ok ()) : ∀ i ∈ a.instructions, i.line ≠ s.line := by
  intro i hi hline
  obtain ⟨s', hs', hline', hrefers⟩ := exists_mem_of_forall₂ (forall₂_carries h).flip hi
  obtain rfl : s' = s := by
    obtain ⟨line, hmem, hstatement⟩ := List.mem_filterMap.mp hs'
    obtain ⟨-, hstatement⟩ := Option.ite_none_left_eq_some.mp hstatement
    have hnumber : line.number = Line.number (.ok s) :=
      (Line.line_of_statement? hstatement).symm.trans (hline'.symm.trans hline)
    obtain rfl := eq_of_number_eq hmem hs hnumber
    exact (Option.some.inj (Option.ite_none_right_eq_some.mp hstatement).2).symm
  rcases hrefers with hnames | ⟨symbol, hsymbol, hnames, -⟩
  · rw [hnames] at hname
    cases hname
  · rw [hnames, List.mem_singleton] at hname
    subst hname
    exact hcheck (check_of_mem_symbols h hsymbol)

/-- Where every fault ends the assembly, nothing is assembled then. -/
theorem exists_error_of_not_check {rule : LabelRule} {s : Statement}
    (hs : .ok s ∈ Line.ofSource source) {name : Text} (hname : name ∈ s.names)
    (hcheck : Label.check name ≠ .ok ()) :
    ∃ faults, assemble ⟨rule, .halt⟩ source = .error faults := by
  cases hresult : assemble ⟨rule, .halt⟩ source with
  | error faults => exact ⟨faults, rfl⟩
  | ok a =>
    exfalso
    obtain ⟨⟨raw, number⟩, -, hread⟩ := List.mem_filterMap.mp hs
    have hoperand : s.operand.isSome = true := by
      unfold Statement.names at hname
      cases hoperand : s.operand with
      | none =>
        rw [hoperand, Option.getD_none, Text.names_nil] at hname
        cases hname
      | some operand => rfl
    have hwarnings : a.warnings = [] := by
      rw [(assemble_halt_eq_ok_iff.mp hresult).2]
      rfl
    have hmem : s ∈ a.statements source := by
      refine List.mem_filterMap.mpr ⟨.ok s, hs, ?_⟩
      rw [hwarnings]
      exact if_pos (Line.mnemonic_isSome_of_operand hread hoperand)
    obtain ⟨i, hi, hreads⟩ := exists_mem_of_forall₂ (forall₂_statements hresult) hmem
    exact line_ne_of_not_check hresult hs hname hcheck i hi
      (Statement.instruction_eq_ok_iff.mp hreads).2.2

end Assembly

namespace Label

/-- **What a label name refers to in an operand**: the label, wherever it is defined. -/
structure Referable (name : Text) : Prop where
  /-- An instruction that is no branch gets the value of the label, if it has the mode. -/
  address (rule : LabelRule) {symbols : SymbolTable} {symbol : Symbol} (address : UInt16)
    {s : Statement} {m : Mnemonic} {mode : Mode} {operand : Text}
    (hfind : symbols.find? name = some symbol)
    (hword : Mnemonic.ofText? (s.mnemonic.getD []) = some m) (hbranch : m.isBranch = false)
    (hoperand : s.operand = some operand) (hr : Reference name mode operand) :
    s.instruction rule symbols address =
      if m.hasMode mode then .ok ⟨m, mode, some symbol.address, address, s.line⟩
      else .error (.lacksMode m mode)
  /-- A branch gets the distance of the label from the next instruction, if a byte can hold it. -/
  distance {symbols : SymbolTable} {symbol : Symbol} {address : UInt16} {s : Statement}
    {m : Mnemonic} (hfind : symbols.find? name = some symbol)
    (hword : Mnemonic.ofText? (s.mnemonic.getD []) = some m) (hbranch : m.isBranch = true)
    (hoperand : s.operand = some name) (hreaches : LabelRule.Reaches address symbol.address) :
    ∃ byte : UInt8, Word.signed byte = symbol.address.toNat - (address.toNat + 2) ∧
      s.instruction .byteOffset symbols address =
        .ok ⟨m, .relative, some (UInt16.ofNat byte.toNat), address, s.line⟩
  /-- Farther away a branch is at fault. -/
  far {symbols : SymbolTable} {symbol : Symbol} {address : UInt16} {s : Statement} {m : Mnemonic}
    (hfind : symbols.find? name = some symbol)
    (hword : Mnemonic.ofText? (s.mnemonic.getD []) = some m) (hbranch : m.isBranch = true)
    (hoperand : s.operand = some name) (hfar : ¬ LabelRule.Reaches address symbol.address) :
    s.instruction .byteOffset symbols address =
      .error (.branchTooFar name (symbol.address.toNat - (address.toNat + 2)))

/-- **What becomes of a line that refers to a name**, if the name is no label. -/
structure Unassembled (name : Text) : Prop where
  /-- No instruction comes from the line. -/
  skipped {settings : AssemblerSettings} {source : Text} {a : Assembly}
    (h : assemble settings source = .ok a) {s : Statement} (hs : .ok s ∈ Line.ofSource source)
    (hname : name ∈ Text.identifiers (s.operand.getD [])) : ∀ i ∈ a.instructions, i.line ≠ s.line
  /-- Nothing is assembled from the source, if a fault ends the assembly. -/
  rejected (rule : LabelRule) {source : Text} {s : Statement} (hs : .ok s ∈ Line.ofSource source)
    (hname : name ∈ Text.identifiers (s.operand.getD [])) :
    ∃ faults, assemble ⟨rule, .halt⟩ source = .error faults

/-- **Every name that can be a label can be referred to**, and no other identifier can, except for
the names of the registers. -/
theorem referable_or_unassembled (name : Text) :
    (check name = .ok () → Referable name) ∧
      (check name ≠ .ok () → isRegister name = false → Unassembled name) := by
  refine ⟨fun h => ⟨?_, Statement.instruction_of_branch h, Statement.instruction_of_far_branch h⟩,
    fun hcheck hregister => ⟨?_, ?_⟩⟩
  · intro rule symbols symbol address s m mode operand hfind hword hbranch hoperand hr
    exact Statement.instruction_of_reference h hfind hword hbranch hoperand hr
  · intro settings source a h s hs hname
    exact Assembly.line_ne_of_not_check h hs (Text.mem_names_iff.mpr ⟨hname, hregister⟩) hcheck
  · intro rule source s hs hname
    exact Assembly.exists_error_of_not_check hs (Text.mem_names_iff.mpr ⟨hname, hregister⟩) hcheck

/-- An address with an index in lower case and blanks around the comma, and a name that
starts with an underscore. -/
theorem referable_or_unassembled_of_index :
    (∃ s symbols, (.ok s : Line) ∈ Line.ofSource "STA lo_1 , x".toList ∧
      s.instruction .byteOffset symbols 7 = .ok ⟨.sta, .absoluteX, some 0x1234, 7, 1⟩) ∧
      ∃ faults, assemble ⟨.byteOffset, .halt⟩ "STA _lo".toList = .error faults := by
  constructor
  · have hfind : ((∅ : SymbolTable).push ⟨"lo_1".toList, 0x1234, 2⟩).find? "lo_1".toList =
        some ⟨"lo_1".toList, 0x1234, 2⟩ :=
      (SymbolTable.indexed_empty.push (SymbolTable.find?_empty _)).find?_eq_some_iff.mpr
        ⟨by simp, rfl⟩
    have hblank : Text.AllBlank [' '] := by simp [Text.AllBlank]; decide
    have hindex : Reference "lo_1".toList .absoluteX "lo_1 , x".toList :=
      .indexX (by decide) hblank hblank
    have hreads := ((referable_or_unassembled "lo_1".toList).1 (by decide)).address .byteOffset 7
      (s := ⟨1, none, some "STA".toList, some "lo_1 , x".toList, none, ⟨0, 12⟩⟩) (m := .sta) hfind
      (by decide) rfl rfl hindex
    rw [if_pos (by decide +kernel)] at hreads
    exact ⟨_, _, by decide +kernel, hreads⟩
  · exact ((referable_or_unassembled "_lo".toList).2 (by decide) (by decide)).rejected .byteOffset
      (s := ⟨1, none, some "STA".toList, some "_lo".toList, none, ⟨0, 7⟩⟩) (by decide +kernel)
      (by decide +kernel)

end Label

end Micro65
