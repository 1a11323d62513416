import Micro65.Proofs.Assembly.Instruction
/-!
# Placeholders and labels

A program is laid out before its labels have values, so an instruction is read with placeholders
first. This provisional reading and the final one are two cases of one reading (`Statement.read`).
They agree on the instruction, its mode and its size wherever the final reading succeeds, and a
statement that has no provisional reading has no final one. A provisional reading can lack the final
one for one reason only: the operand has a label that is not defined, or a branch does not reach its
label (`LabelRule.Refuses`). What the provisional reading finds depends on the statement alone
(`Statement.sizesAhead`).
-/

namespace Micro65

/-- The two readings of a statement. -/
inductive Reading where
  /-- Every label is its placeholder. -/
  | provisional
  /-- Every label is its value, or its distance. -/
  | final
  deriving DecidableEq, Repr

/-- What the layout has to know of an instruction: what it is, in which mode, and how long. -/
def Instruction.shape (i : Instruction) : Mnemonic × Mode × Nat :=
  (i.mnemonic, i.mode, i.size)

/-- The literal that stands for a label in a reading of an instruction at this address. -/
def LabelRule.text (rule : LabelRule) (symbols : SymbolTable) (address : UInt16) (reading : Reading)
    (m : Mnemonic) (name : Text) : Except Diagnostic.Cause Text :=
  match reading with
  | .provisional => .ok (rule.placeholder m)
  | .final => rule.reference symbols address m name

/-- Why a label has no value, or no distance, in an instruction at this address. -/
inductive LabelRule.Refuses (rule : LabelRule) (symbols : SymbolTable) (address : UInt16)
    (m : Mnemonic) (name : Text) : Diagnostic.Cause → Prop
  | undefined (hfind : symbols.find? name = none) :
      Refuses rule symbols address m name (.undefinedLabel name)
  /-- The label is out of the reach of the branch. -/
  | tooFar {symbol : Symbol} (hfind : symbols.find? name = some symbol) (hrule : rule = .byteOffset)
      (hbranch : m.isBranch = true) (hfar : ¬ LabelRule.Reaches address symbol.address) :
      Refuses rule symbols address m name
        (.branchTooFar name (symbol.address.toNat - (address.toNat + 2)))

theorem LabelRule.refuses_of_reference {rule : LabelRule} {symbols : SymbolTable} {address : UInt16}
    {m : Mnemonic} {name : Text} {cause : Diagnostic.Cause}
    (h : rule.reference symbols address m name = .error cause) :
    rule.Refuses symbols address m name cause := by
  rcases LabelRule.reference_error_cases h with ⟨hfind, rfl⟩ | ⟨symbol, hfind, hrelative, hfar, rfl⟩
  · exact .undefined hfind
  · obtain ⟨hbranch, hrule⟩ := LabelRule.isRelative_iff.mp hrelative
    exact .tooFar hfind hrule hbranch hfar

namespace Statement

/-- The instruction that a reading of the statement finds at an address. -/
def read (rule : LabelRule) (symbols : SymbolTable) (address : UInt16) (reading : Reading)
    (s : Statement) : Except Diagnostic.Cause Instruction :=
  (s.form (rule.text symbols address reading)).map fun f =>
    ⟨f.mnemonic, f.mode, f.operand, address, s.line⟩

variable {rule : LabelRule} {symbols symbols' : SymbolTable} {address address' : UInt16}
  {reading : Reading} {s : Statement} {i i' : Instruction}

/-- The final reading finds the instruction of the statement. -/
theorem read_final : s.read rule symbols address .final = s.instruction rule symbols address := rfl

/-- The provisional reading finds the size of the statement. -/
theorem size?_eq_read :
    s.size? rule = (s.read rule symbols address .provisional).toOption.map Instruction.size := by
  unfold size? read LabelRule.text
  simp only
  cases s.form fun m _ => .ok (rule.placeholder m) <;> rfl

theorem read_eq_ok_iff :
    s.read rule symbols address reading = .ok i ↔
      s.form (rule.text symbols address reading) = .ok ⟨i.mnemonic, i.mode, i.operand⟩ ∧
        i.address = address ∧ i.line = s.line :=
  map_form_eq_ok_iff

/-- A form of the statement is a reading of it at every address. -/
theorem exists_read_of_form {f : Form} (h : s.form (rule.text symbols address reading) = .ok f)
    (hmnemonic : f.mnemonic = i.mnemonic) (hmode : f.mode = i.mode) :
    ∃ i', s.read rule symbols address reading = .ok i' ∧ i'.shape = i.shape := by
  refine ⟨⟨f.mnemonic, f.mode, f.operand, address, s.line⟩,
    read_eq_ok_iff.mpr ⟨h, rfl, rfl⟩, ?_⟩
  simp only [Instruction.shape, Instruction.size, hmnemonic, hmode]

/-- **What the final reading finds, the provisional one has found**, whatever it knew. -/
theorem exists_provisional (h : s.read rule symbols address .final = .ok i) :
    ∃ i', s.read rule symbols' address' .provisional = .ok i' ∧ i'.shape = i.shape := by
  obtain ⟨hform, -, -⟩ := read_eq_ok_iff.mp h
  rcases form_or_error (fun _ => LabelRule.labelling_reference)
    (fun _ => LabelRule.labelling_placeholderText)
    (fun _ => LabelRule.sameSizes_placeholderText_reference.symm) hform with
    ⟨f', hform', hmnemonic, hmode⟩ | ⟨_, -, _, hcause, -⟩
  · exact exists_read_of_form hform' hmnemonic hmode
  · cases hcause

/-- **What can become of a provisional reading**: the final reading finds the same, or the one label
of the operand is refused. -/
theorem final_cases (h : s.read rule symbols' address' .provisional = .ok i') :
    (∃ i, s.read rule symbols address .final = .ok i ∧ i.shape = i'.shape) ∨
      ∃ name cause, s.names = [name] ∧ rule.Refuses symbols address i'.mnemonic name cause ∧
        s.read rule symbols address .final = .error cause := by
  obtain ⟨hform, -, -⟩ := read_eq_ok_iff.mp h
  rcases form_or_error (fun _ => LabelRule.labelling_placeholderText)
    (fun _ => LabelRule.labelling_reference)
    (fun _ => LabelRule.sameSizes_placeholderText_reference) hform with
    ⟨f, hfinal, hmnemonic, hmode⟩ | ⟨name, hname, cause, hcause, hfault⟩
  · exact .inl (exists_read_of_form hfinal hmnemonic hmode)
  · have hnames : s.names = [name] := by
      rcases names_of_form (fun _ => LabelRule.labelling_placeholderText) hform with
        hnone | ⟨name', _, _, _, hone, -⟩
      · rw [hnone] at hname
        cases hname
      · rw [hone, List.mem_singleton] at hname
        rw [hone, hname]
    exact .inr ⟨name, cause, hnames, LabelRule.refuses_of_reference hcause,
      map_eq_error_iff.mpr hfault⟩

/-- The provisional reading knows no labels and no addresses. -/
theorem map_shape_provisional :
    (s.read rule symbols address .provisional).map Instruction.shape =
      (s.read rule symbols' address' .provisional).map Instruction.shape := by
  unfold read LabelRule.text
  simp only
  cases s.form fun m _ => .ok (rule.placeholder m) <;> rfl

/-- **What it is for a statement to be sized ahead** of the values of its labels. -/
structure SizesAhead (rule : LabelRule) (s : Statement) : Prop where
  /-- What the final reading finds, the provisional one has found. -/
  exists_provisional : ∀ symbols symbols' address address' i,
    s.read rule symbols address .final = .ok i →
      ∃ i', s.read rule symbols' address' .provisional = .ok i' ∧ i'.shape = i.shape
  /-- What has no provisional reading has no final one. -/
  exists_error : ∀ symbols symbols' address address' cause,
    s.read rule symbols' address' .provisional = .error cause →
      ∃ cause', s.read rule symbols address .final = .error cause'
  /-- What has a provisional reading has a final one that agrees with it, or its one label is not
  defined or is out of the reach of a branch. Nothing else can go wrong. -/
  final_cases : ∀ symbols symbols' address address' i',
    s.read rule symbols' address' .provisional = .ok i' →
      (∃ i, s.read rule symbols address .final = .ok i ∧ i.shape = i'.shape) ∨
        ∃ name cause, s.names = [name] ∧ rule.Refuses symbols address i'.mnemonic name cause ∧
          s.read rule symbols address .final = .error cause
  /-- The provisional reading depends neither on the labels nor on the address. -/
  map_shape_provisional : ∀ symbols symbols' address address',
    (s.read rule symbols address .provisional).map Instruction.shape =
      (s.read rule symbols' address' .provisional).map Instruction.shape
  /-- The provisional reading is the one that sizes the statement, and the final one
  gives its instruction. -/
  size?_eq : ∀ symbols address,
    s.size? rule = (s.read rule symbols address .provisional).toOption.map Instruction.size
  instruction_eq : ∀ symbols address,
    s.instruction rule symbols address = s.read rule symbols address .final

/-- **Every statement is sized ahead** of the values of its labels. -/
theorem sizesAhead (rule : LabelRule) (s : Statement) : SizesAhead rule s where
  exists_provisional _ _ _ _ _ h := exists_provisional h
  exists_error symbols symbols' address address' cause h := by
    cases hfinal : s.read rule symbols address .final with
    | error cause' => exact ⟨cause', rfl⟩
    | ok i =>
      obtain ⟨i', hprovisional, -⟩ := exists_provisional hfinal
      rw [h] at hprovisional
      cases hprovisional
  final_cases _ _ _ _ _ h := final_cases h
  map_shape_provisional _ _ _ _ := map_shape_provisional
  size?_eq _ _ := size?_eq_read
  instruction_eq _ _ := read_final.symm

end Statement

end Micro65
