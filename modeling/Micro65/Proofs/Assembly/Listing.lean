import Micro65.Proofs.Assembly.Exact
import Micro65.Proofs.Assembly.Rounds
import Micro65.Proofs.Operand.Notation
/-!
# Programs written down

Every list of instructions that have codes can be written as a source, one instruction to a line,
with numbers for operands and no labels (`Form.listing`). Each line reads back as the instruction
that it was written for (`Form.form_statement`), wherever it stands and whatever labels there are,
so the lines are laid out one behind the other and no pass finds a fault (`Form.failures_listing`).
As long as the codes fit into memory, the source therefore assembles to the instructions and their
codes, under every rule for labels and for faults (`Form.writesBack`).
-/

namespace Micro65

open Layout (Puts Runs hasInstruction addressBound)

/-- The instruction without its place. -/
def Instruction.form (i : Instruction) : Form :=
  ⟨i.mnemonic, i.mode, i.operand⟩

namespace Form

/-- An instruction of the table, with an operand of the size of its mode. -/
structure Encodable (f : Form) : Prop where
  hasMode : f.mnemonic.hasMode f.mode = true
  fits : f.mode.Fits f.operand

instance (f : Form) : Decidable f.Encodable :=
  decidable_of_iff (f.mnemonic.hasMode f.mode = true ∧ f.mode.Fits f.operand)
    ⟨fun h => ⟨h.1, h.2⟩, fun h => ⟨h.hasMode, h.fits⟩⟩

/-- The code of the instruction. -/
def bytes (f : Form) : List UInt8 :=
  (f.mnemonic.encode? f.mode f.operand).getD []

/-- The instruction as it is written. -/
def text (f : Form) : Text :=
  Text.instruction f.mnemonic.letters (f.operand.map f.mode.written)

/-- A source with one instruction to a line. -/
def listing (forms : List Form) : Text :=
  forms.flatMap fun f => f.text ++ ['\n']

/-- The statement that the instruction is on the line of this number. -/
def statement (f : Form) (number : Nat) : Statement :=
  ⟨number, none, some f.mnemonic.letters, f.operand.map f.mode.written, none,
    ⟨0, Text.byteLength f.text⟩⟩

variable {f : Form}

theorem Encodable.encode?_eq (h : f.Encodable) :
    f.mnemonic.encode? f.mode f.operand = some f.bytes ∧
      f.bytes.length = 1 + f.mode.operandSize := by
  obtain ⟨code, hcode, hlength⟩ := Mnemonic.exists_encode? h.hasMode f.operand
  have hbytes : f.bytes = code := by
    unfold bytes
    rw [hcode]
    rfl
  rw [hbytes]
  exact ⟨hcode, hlength⟩

/-! ## One line -/

theorem unmarked_letters (m : Mnemonic) : m.letters ≠ [] ∧ m.letters.Unmarked := by
  cases m <;> decide

/-- **A written instruction is read as its statement.** -/
theorem ofText?_text (f : Form) (number : Nat) :
    Line.ofText? number f.text = some (.ok (f.statement number)) := by
  obtain ⟨hne, hletters⟩ := unmarked_letters f.mnemonic
  refine Line.ofText?_instruction number hne hletters ?_
  intro t ht
  obtain ⟨value, -, rfl⟩ := Option.map_eq_some_iff.mp ht
  exact f.mode.unmarked_written value

/-- **The statement of an instruction has its form**, whatever stands for the labels. -/
theorem form_statement (h : f.Encodable) (number : Nat)
    (labelText : Mnemonic → Text → Except Diagnostic.Cause Text) :
    (f.statement number).form labelText = .ok f := by
  obtain ⟨mnemonic, mode, operand⟩ := f
  obtain ⟨hmode, hfits⟩ := h
  rw [Statement.form_eq_ok_iff]
  cases operand with
  | none =>
    exact ⟨⟨false, []⟩, [], mnemonic.ofText?_letters, rfl, .nil,
      ModeChoice.ofTokens?_nil hmode hfits, hmode⟩
  | some value =>
    refine ⟨⟨mode.isIndirect, mode.tokens value⟩, mode.tokens value, mnemonic.ofText?_letters,
      Field.ofText_written hfits.1 value, ?_, ModeChoice.ofTokens?_tokens hmode hfits, hmode⟩
    rw [List.forall₂_same]
    exact fun t ht => substitute_of_names_eq_nil (Mode.names_of_mem_tokens ht)

theorem size?_statement (h : f.Encodable) (rule : LabelRule) (number : Nat) :
    (f.statement number).size? rule = some f.bytes.length := by
  unfold Statement.size?
  rw [form_statement h, h.encode?_eq.2]

theorem instruction_statement (h : f.Encodable) (rule : LabelRule) (table : SymbolTable)
    (address : UInt16) (number : Nat) :
    (f.statement number).instruction rule table address =
      .ok ⟨f.mnemonic, f.mode, f.operand, address, number⟩ := by
  unfold Statement.instruction
  rw [form_statement h]
  rfl

/-! ## All lines -/

/-- A written instruction has no blank that could end a line. -/
theorem eq_space_of_mem_text {c : Char} (hc : c ∈ f.text) (hblank : Text.isBlank c = true) :
    c = ' ' := by
  refine Text.eq_space_of_mem_instruction (unmarked_letters f.mnemonic).2 ?_ hc hblank
  intro t ht
  obtain ⟨value, -, rfl⟩ := Option.map_eq_some_iff.mp ht
  exact (f.mode.unmarked_written value).2

theorem not_feed_mem_text (f : Form) : '\n' ∉ f.text := by
  intro hmem
  exact absurd (eq_space_of_mem_text hmem (by decide)) (by decide)

theorem dropReturn_text (f : Form) : Text.dropReturn f.text = f.text := by
  unfold Text.dropReturn
  rw [if_neg]
  intro hlast
  exact absurd (eq_space_of_mem_text (List.mem_of_getLast? hlast) (by decide)) (by decide)

theorem lines_listing (forms : List Form) : Text.lines (listing forms) = forms.map text := by
  induction forms with
  | nil => rfl
  | cons f forms ih =>
    have hfirst : listing (f :: forms) = f.text ++ '\n' :: listing forms := by
      simp [listing]
    rw [hfirst, Text.lines_append_feed f.not_feed_mem_text, dropReturn_text, ih, List.map_cons]

example :
    listing [⟨.clc, .implied, none⟩, ⟨.lda, .indirectY, some 0x10⟩,
        ⟨.sta, .absoluteX, some 0x20A⟩] =
      "CLC\nLDA ($10),Y\nSTA $020A,X\n".toList := by
  decide +kernel

/-- The lines of a listing are the statements of its instructions, numbered from one. -/
theorem ofSource_listing (forms : List Form) :
    Line.ofSource (listing forms) =
      (forms.zipIdx 1).map fun (f, number) => .ok (f.statement number) := by
  unfold Line.ofSource
  rw [lines_listing, List.zipIdx_map, List.filterMap_map, ← List.filterMap_eq_map]
  refine List.filterMap_congr ?_
  rintro ⟨f, number⟩ -
  exact f.ofText?_text number

/-- The statement of an instruction stands alone on its line. -/
theorem standsAlone_statement (h : f.Encodable) (rule : LabelRule) (index number : Nat) :
    Pass.StandsAlone rule ⟨index, .ok (f.statement number), .whole⟩ f.bytes.length :=
  .statement rfl rfl (size?_statement h rule number) fun table address =>
    ⟨_, instruction_statement h rule table address number⟩

/-- An entry is a line that was written for an instruction that has a code. -/
inductive WrittenFor : Entry → Form → Prop where
  | statement (f : Form) (encodable : f.Encodable) (index number : Nat) :
      WrittenFor ⟨index, .ok (f.statement number), .whole⟩ f

variable {forms : List Form}

theorem writtenFor_listing (h : ∀ f ∈ forms, f.Encodable) :
    List.Forall₂ WrittenFor (Entry.ofLines (Line.ofSource (listing forms))) forms := by
  unfold Entry.ofLines
  rw [ofSource_listing]
  generalize 1 = number
  rw [List.zipIdx_map, List.map_map, List.forall₂_map_left_iff]
  generalize 0 = index
  induction forms generalizing index number with
  | nil => exact .nil
  | cons f forms ih =>
    obtain ⟨hf, hforms⟩ := List.forall_mem_cons.mp h
    exact .cons (.statement f hf index number) (ih hforms (number + 1) (index + 1))

/-- **No pass over a listing finds a fault**, if the codes fit into memory. -/
theorem failures_listing (rule : LabelRule) (h : ∀ f ∈ forms, f.Encodable)
    (hsize : (forms.flatMap bytes).length ≤ addressBound) :
    (Pass.ofEntries rule (Entry.ofLines (Line.ofSource (listing forms)))).failures = [] := by
  have halone : List.Forall₂ (Pass.StandsAlone rule)
      (Entry.ofLines (Line.ofSource (listing forms))) (forms.map fun f => f.bytes.length) := by
    rw [List.forall₂_map_right_iff]
    refine (writtenFor_listing h).imp ?_
    rintro e f ⟨f, hf, index, number⟩
    exact standsAlone_statement hf rule index number
  rw [List.length_flatMap] at hsize
  obtain ⟨placements, hruns, hjudge⟩ :=
    Pass.exists_runs_of_standsAlone (x := 0) halone ∅ (by rwa [Nat.zero_add])
  rw [Pass.ofEntries_of_runs hruns]
  have hnone := hjudge ∅ [] []
  rw [List.append_nil, List.append_nil] at hnone
  exact hnone

/-- The lines of a listing are read as its instructions, and define no labels. -/
theorem forms_of_reads {rule : LabelRule} {table t t' : SymbolTable} {address stop : Nat}
    {entries : List Entry} {instructions : List (Instruction × Location)}
    (hreads : Pass.Reads rule table address t entries instructions stop t')
    (hentries : List.Forall₂ WrittenFor entries forms) :
    instructions.map (fun x => x.1.form) = forms ∧ t' = t := by
  induction hreads generalizing forms with
  | nil =>
    cases hentries
    exact ⟨rfl, rfl⟩
  -- Every line has an instruction.
  | bare _ hlacks _ _ =>
    obtain _ | ⟨⟨f, hf, index, number⟩, hentries⟩ := hentries
    cases hlacks
  | instruction hdefines _ hreads _ _ _ ih =>
    obtain _ | ⟨⟨f, hf, index, number⟩, hentries⟩ := hentries
    obtain ⟨hforms, rfl⟩ := ih hentries
    rw [instruction_statement hf] at hreads
    have hi := Except.ok.inj hreads
    refine ⟨?_, ?_⟩
    · rw [List.map_cons, hforms, ← hi]
      rfl
    · cases hdefines with
      | unlabelled _ => rfl
      | labelled _ hlabel _ _ => cases hlabel

/-! ## The assembly of a listing -/

/-- What it means that a source, written for a list of instructions, assembles to them. -/
structure WritesBack (settings : AssemblerSettings) (forms : List Form) (a : Assembly) : Prop where
  assembles : assemble settings (listing forms) = .ok a
  warnings_eq : a.warnings = []
  symbols_eq : a.symbols.toList = []
  /-- The instructions are those of the list, in its order. -/
  instructions_eq : a.instructions.map Instruction.form = forms
  /-- Each of them has a code, and the machine code is made of these codes. -/
  encodes : ∀ f ∈ forms, f.mnemonic.encode? f.mode f.operand = some f.bytes
  bytes_eq : a.bytes.toList = forms.flatMap bytes

/-- **Every program can be written down and assembles to itself**, up to the size of memory. -/
theorem writesBack (settings : AssemblerSettings) (h : ∀ f ∈ forms, f.Encodable)
    (hsize : (forms.flatMap bytes).length ≤ 0x10000) : ∃ a, WritesBack settings forms a := by
  have hfaultless := failures_listing settings.labels h hsize
  have hassembles := Assembly.assemble_of_failures_eq_nil hfaultless
  obtain ⟨stop, hreads⟩ := Pass.reads_ofEntries hfaultless
  generalize Pass.ofEntries settings.labels (Entry.ofLines (Line.ofSource (listing forms))) = pass
    at hassembles hreads
  obtain ⟨hforms, hsymbols⟩ := forms_of_reads hreads (writtenFor_listing h)
  refine ⟨pass.assembly [], hassembles, rfl, ?_, ?_, fun f hf => (h f hf).encode?_eq.1, ?_⟩
  · rw [show (pass.assembly []).symbols = pass.symbols from rfl, hsymbols]
    exact SymbolTable.toList_empty
  · rw [← hforms]
    exact List.map_map
  · rw [← hforms, List.flatMap_map]
    exact List.toList_toArray

/-- Instructions of three sizes, one of them a branch. -/
theorem writesBack_of_branch :
    ∃ a, WritesBack ⟨.lineIndex, .skip⟩
      [⟨.inx, .implied, none⟩, ⟨.lda, .indirectY, some 0x10⟩, ⟨.bne, .relative, some 0xFB⟩,
        ⟨.sta, .absoluteX, some 0x0200⟩] a :=
  writesBack _ (by decide +kernel) (by decide +kernel)

end Form

end Micro65
