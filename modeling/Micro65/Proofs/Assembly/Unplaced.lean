import Micro65.Assembly.Source
import Micro65.Proofs.Assembly.Rounds
/-!
# Only what the lines say matters

What a line says is its code without the blanks around it (`Line.codes`). Everything else about it,
which is its number, its place and its comment, is only carried along: into the places of
diagnostics, labels and instructions, and nowhere else. `unplaced` takes it away from each kind of
data, and each step of the assembly does with what is left what it does with the whole
(`Layout.put_unplaced`, `Entry.verdict_unplaced`, `Pass.ofEntries_unplaced`,
`Pass.survivors_unplaced`). So sources whose lines say the same are assembled alike
(`Assembly.agrees_of_codes_eq`): blank lines, comments and the blanks around the code do not matter.
-/

namespace Micro65

/-! ## Data without places -/

/-- The cause without the number of the line of a first definition. -/
def Diagnostic.Cause.unplaced : Cause → Cause
  | .duplicateLabel name _ => .duplicateLabel name 0
  | cause => cause

/-- The diagnostic without its place. -/
def Diagnostic.unplaced (d : Diagnostic) : Diagnostic :=
  ⟨0, ⟨0, 0⟩, d.cause.unplaced⟩

/-- The label, the word and the operand of the statement. -/
def Statement.unplaced (s : Statement) : Statement :=
  { s with line := 0, comment := none, span := ⟨0, 0⟩ }

def Line.unplaced : Line → Line
  | .ok s => .ok s.unplaced
  | .error d => .error d.unplaced

def Entry.unplaced (e : Entry) : Entry :=
  { e with line := e.line.unplaced }

def Symbol.unplaced (s : Symbol) : Symbol :=
  { s with line := 0 }

def SymbolTable.unplaced (t : SymbolTable) : SymbolTable :=
  { t with symbols := t.symbols.map Symbol.unplaced }

def Failure.unplaced (f : Failure) : Failure :=
  { f with diagnostic := f.diagnostic.unplaced }

def Placement.unplaced : Placement → Placement
  | .failed f => .failed f.unplaced
  | .bare => .bare
  | .placed address => .placed address

def Layout.unplaced (l : Layout) : Layout where
  address := l.address
  symbols := l.symbols.unplaced
  placements := l.placements.map Placement.unplaced

def Instruction.unplaced (i : Instruction) : Instruction :=
  { i with line := 0 }

def Verdict.unplaced (v : Verdict) : Verdict :=
  (v.mapError Failure.unplaced).map fun i => i.map Instruction.unplaced

def Pass.unplaced (p : Pass) : Pass where
  symbols := p.symbols.unplaced
  verdicts := p.verdicts.map fun (e, v) => (e.unplaced, v.unplaced)

/-! ## What a line says -/

namespace Line

/-- What the lines of a source say, where they say something: their codes without the blanks around
them. -/
def codes (source : Text) : List Text :=
  ((Text.lines source).map fun raw => Text.trim (codeOf raw)).filter (· ≠ [])

variable {number number' start start' : Nat} {comment comment' : Option Text}

theorem unplaced_statement (label : Option Text) (whole whole' : Span) (rest : Text) :
    (statement number label comment whole start rest).unplaced =
      (statement number' label comment' whole' start' rest).unplaced := by
  unfold statement
  split <;> rfl

/-- A line is read from its code, wherever it stands. -/
theorem unplaced_ofCode (code : Text) : unplaced (ofCode number comment start code) =
    unplaced (ofCode number' comment' start' code) := by
  unfold ofCode
  simp only
  split
  · exact congrArg Except.ok (unplaced_statement ..)
  · split
    · rfl
    · exact congrArg Except.ok (unplaced_statement ..)

theorem map_unplaced_ofText? (number : Nat) (raw : Text) :
    (ofText? number raw).map unplaced =
      if Text.trim (codeOf raw) = [] then none
      else some (unplaced (ofCode 0 none 0 (Text.trim (codeOf raw)))) := by
  unfold ofText?
  simp only
  split
  · rfl
  · exact congrArg some (unplaced_ofCode _)

/-- **The lines of a source are read from what they say.** -/
theorem map_unplaced_ofSource (source : Text) :
    (ofSource source).map unplaced = (codes source).map fun code =>
      unplaced (ofCode 0 none 0 code) := by
  unfold ofSource codes
  rw [List.map_filterMap]
  generalize 1 = number
  induction Text.lines source generalizing number with
  | nil => rfl
  | cons raw lines ih =>
    rw [List.zipIdx_cons, List.filterMap_cons, ih, map_unplaced_ofText?]
    by_cases hblank : Text.trim (codeOf raw) = []
    · simp [hblank]
    · simp [hblank]

end Line

/-! ## Labels -/

namespace SymbolTable

variable (t : SymbolTable)

@[simp] theorem unplaced_empty : unplaced ∅ = ∅ := by
  simp [unplaced, EmptyCollection.emptyCollection]

@[simp] theorem find?_unplaced (name : Text) :
    t.unplaced.find? name = (t.find? name).map Symbol.unplaced := by
  unfold find? unplaced
  cases t.places[name]? with
  | none => rfl
  | some place => simp

@[simp] theorem push_unplaced (s : Symbol) : t.unplaced.push s.unplaced = (t.push s).unplaced := by
  simp [push, unplaced, Symbol.unplaced]

/-- The names and the values of the labels. -/
theorem toList_unplaced : t.unplaced.toList = t.toList.map Symbol.unplaced := by
  simp [toList, unplaced]

end SymbolTable

namespace Layout

variable (rule : LabelRule)

theorem define_unplaced (address index : Nat) (s : Statement) (t : SymbolTable) :
    define rule address index s.unplaced t.unplaced =
      ((define rule address index s t).mapError Failure.unplaced).map SymbolTable.unplaced := by
  have hsame : s.unplaced.label = s.label := rfl
  unfold define
  rw [hsame]
  cases s.label with
  | none => rfl
  | some name =>
    simp only
    split
    · rfl
    · have hpush := t.push_unplaced ⟨name, UInt16.ofNat (labelValue rule address index), s.line⟩
      unfold SymbolTable.define
      rw [SymbolTable.find?_unplaced]
      simp only
      cases t.find? name with
      | none => exact congrArg Except.ok hpush
      | some first => rfl

theorem putInstruction_unplaced (s : Statement) (address : Nat) :
    putInstruction rule s.unplaced address =
      ((putInstruction rule s address).1, (putInstruction rule s address).2.unplaced) := by
  have hsize : s.unplaced.size? rule = s.size? rule := rfl
  unfold putInstruction
  rw [hsize]
  split
  · rfl
  · simp only
    split <;> rfl

/-- **A line is laid out as it is without its place.** -/
theorem put_unplaced (l : Layout) (e : Entry) :
    put rule l.unplaced e.unplaced = (put rule l e).unplaced := by
  obtain ⟨address, t, placements⟩ := l
  obtain ⟨index, line, retention⟩ := e
  cases line with
  | error d => simp [put, Layout.unplaced, Entry.unplaced, Line.unplaced, Placement.unplaced,
      Failure.unplaced]
  | ok s =>
    have hhas : hasInstruction s.unplaced retention = hasInstruction s retention := rfl
    simp only [put, Layout.unplaced, Entry.unplaced, Line.unplaced, define_unplaced]
    cases define rule address index s t with
    | error f => simp [Except.mapError, Except.map, Placement.unplaced]
    | ok t' =>
      simp only [Except.mapError, Except.map, hhas, putInstruction_unplaced]
      split <;> simp [Placement.unplaced]

/-- **The layout is that of the lines without their places.** -/
theorem ofEntries_unplaced (entries : List Entry) :
    ofEntries rule (entries.map Entry.unplaced) = (ofEntries rule entries).unplaced := by
  unfold ofEntries
  rw [List.foldl_map]
  have hstart : ({} : Layout) = unplaced {} := by simp [unplaced]
  conv => lhs; rw [hstart]
  exact List.foldl_hom unplaced fun l e => put_unplaced rule l e

end Layout

/-! ## Verdicts -/

namespace Statement

variable {s : Statement} {cause : Diagnostic.Cause}

/-- What is wrong with a statement is wrong with one of its labels, or has no place. -/
theorem form_error_cases {labelText : Mnemonic → Text → Except Diagnostic.Cause Text}
    (h : s.form labelText = .error cause) :
    (∃ m name, labelText m name = .error cause) ∨ cause.unplaced = cause := by
  unfold form at h
  simp only at h
  split at h
  · rename_i mnemonic _
    cases hfield : Field.ofText (s.operand.getD []) with
    | error e =>
      rw [hfield] at h
      cases h
      exact .inr rfl
    | ok field =>
      rw [hfield] at h
      cases htokens : field.tokens.mapM (substitute (Label.replacement (labelText mnemonic))) with
      | error e =>
        obtain ⟨token, -, htoken⟩ := exists_of_mapM_eq_error htokens
        obtain ⟨name, -, hname⟩ := Labelling.exists_of_substitute_eq_error htoken
        unfold Label.replacement at htokens
        simp only [Except.mapError, bind, Except.bind, htokens] at h
        cases h
        exact .inl ⟨mnemonic, name, hname⟩
      | ok tokens =>
        unfold Label.replacement at htokens
        simp only [Except.mapError, bind, Except.bind, htokens] at h
        split at h
        · split at h
          · cases h
          · cases h
            exact .inr rfl
        · cases h
          unfold mismatch
          simp only
          split <;> exact .inr rfl
  · cases h
    exact .inr rfl

/-- The second reading finds nothing wrong with other lines. -/
theorem unplaced_of_instruction_eq_error {rule : LabelRule} {t : SymbolTable} {address : UInt16}
    (h : s.instruction rule t address = .error cause) : cause.unplaced = cause := by
  rcases form_error_cases (instruction_eq_error_iff.mp h) with ⟨m, name, hname⟩ | hsame
  · rcases LabelRule.reference_error_cases hname with ⟨-, rfl⟩ | ⟨symbol, -, -, -, rfl⟩
    · rfl
    · rfl
  · exact hsame

/-- A label has the same text. -/
theorem reference_unplaced (rule : LabelRule) (t : SymbolTable) :
    rule.reference t.unplaced = rule.reference t := by
  funext address m name
  unfold LabelRule.reference
  rw [SymbolTable.find?_unplaced]
  cases t.find? name <;> rfl

theorem instruction_unplaced (rule : LabelRule) (t : SymbolTable) (address : UInt16)
    (s : Statement) : s.unplaced.instruction rule t.unplaced address =
      (s.instruction rule t address).map Instruction.unplaced := by
  have hform : s.unplaced.form (rule.reference t address) = s.form (rule.reference t address) := rfl
  unfold instruction
  rw [reference_unplaced, hform]
  cases s.form (rule.reference t address) <;> rfl

end Statement

/-- **A line is judged as it is without its place.** -/
theorem Entry.verdict_unplaced (rule : LabelRule) (t : SymbolTable) (e : Entry) (p : Placement) :
    e.unplaced.verdict rule t.unplaced p.unplaced = Verdict.unplaced (e.verdict rule t p) := by
  cases p with
  | failed f => rfl
  | bare => rfl
  | placed address =>
    obtain ⟨index, line, retention⟩ := e
    cases line with
    | error d => rfl
    | ok s =>
      simp only [verdict, Placement.unplaced, Entry.unplaced, Line.unplaced,
        Statement.instruction_unplaced]
      cases hi : s.instruction rule t address with
      | ok i => rfl
      | error cause =>
        have hcause := Statement.unplaced_of_instruction_eq_error hi
        show Except.error (Failure.ofInstruction s.unplaced cause) =
          .error (Failure.ofInstruction s cause).unplaced
        unfold Failure.ofInstruction Failure.unplaced Statement.diagnostic Diagnostic.unplaced
        rw [hcause]
        rfl

namespace Pass

/-- **A pass is that over the lines without their places.** -/
theorem ofEntries_unplaced (rule : LabelRule) (entries : List Entry) :
    ofEntries rule (entries.map Entry.unplaced) = (ofEntries rule entries).unplaced := by
  unfold ofEntries unplaced
  simp only [Layout.ofEntries_unplaced]
  congr 1
  simp only [Layout.unplaced, Array.toList_map, List.zip_map, List.map_map]
  refine List.map_congr_left fun x _ => ?_
  simp only [Function.comp_apply, Prod.map, Entry.verdict_unplaced]

variable (p : Pass)

theorem failures_unplaced :
    p.unplaced.failures = p.failures.map fun (e, f) => (e.unplaced, f.unplaced) := by
  unfold failures unplaced
  rw [List.filterMap_map, List.map_filterMap]
  refine List.filterMap_congr ?_
  rintro ⟨e, v⟩ -
  cases v <;> rfl

theorem map_fst_instructions_unplaced : p.unplaced.instructions.map Prod.fst =
    p.instructions.map fun x => x.1.unplaced := by
  unfold instructions unplaced
  rw [List.filterMap_map, List.map_filterMap, List.map_filterMap]
  refine List.filterMap_congr ?_
  rintro ⟨⟨index, line, retention⟩, v⟩ -
  cases line with
  | error d => rfl
  | ok s =>
    cases v with
    | error f => rfl
    | ok i => cases i <;> rfl

theorem survivors_unplaced : p.unplaced.survivors = p.survivors.map Entry.unplaced := by
  unfold survivors unplaced
  rw [List.filterMap_map, List.map_filterMap]
  refine List.filterMap_congr ?_
  rintro ⟨e, v⟩ -
  cases v with
  | ok i => rfl
  | error f =>
    have hkept : (f.unplaced.labelStands && decide (e.unplaced.retention = .whole)) =
        (f.labelStands && decide (e.retention = .whole)) := rfl
    show e.unplaced.salvage f.unplaced = (e.salvage f).map Entry.unplaced
    unfold Entry.salvage
    rw [hkept]
    split <;> rfl

end Pass

/-! ## Assemblies -/

namespace Assembly

/-- Two assemblies are alike if they differ in places only: they have the same machine
code, labels with the same names and values, the same instructions apart from their lines,
and as many warnings. -/
structure Alike (a b : Assembly) : Prop where
  bytes : a.bytes = b.bytes
  symbols : a.symbols.toList.map (fun s => (s.name, s.address)) =
    b.symbols.toList.map fun s => (s.name, s.address)
  instructions : a.instructions.map (fun i => { i with line := 0 }) =
    b.instructions.map fun i => { i with line := 0 }
  warnings : a.warnings.length = b.warnings.length

/-- What two answers have in common that differ in places only: they are alike, or have as many
faults of the same kinds. -/
inductive Agrees :
    Except (List Diagnostic) Assembly → Except (List Diagnostic) Assembly → Prop where
  | ok {a b : Assembly} (alike : Alike a b) : Agrees (.ok a) (.ok b)
  | error {faults faults' : List Diagnostic}
      (kinds : faults.map Diagnostic.kind = faults'.map Diagnostic.kind) :
      Agrees (.error faults) (.error faults')

variable {p p' : Pass} {warnings warnings' : List Warning}

theorem alike_assembly (h : p.unplaced = p'.unplaced)
    (hwarnings : warnings.length = warnings'.length) :
    Alike (p.assembly warnings) (p'.assembly warnings') := by
  have hsymbols := congrArg (fun p : Pass => p.symbols.toList) h
  have hinstructions := congrArg (fun p : Pass => p.instructions.map Prod.fst) h
  simp only [Pass.map_fst_instructions_unplaced] at hinstructions
  simp only [Pass.unplaced, SymbolTable.toList_unplaced] at hsymbols
  refine { bytes := ?_, symbols := ?_, instructions := ?_, warnings := hwarnings }
  · have hbytes := congrArg (List.flatMap Instruction.bytes) hinstructions
    simp only [List.flatMap_map] at hbytes
    exact congrArg List.toArray hbytes
  · have hvalues := congrArg (List.map fun s : Symbol => (s.name, s.address)) hsymbols
    simp only [List.map_map] at hvalues
    exact hvalues
  · unfold Pass.assembly
    simp only [List.map_map]
    exact hinstructions

/-- The faults are of the same kinds. -/
theorem map_kind_failures (h : p.unplaced = p'.unplaced) :
    p.failures.map (fun x => x.2.diagnostic.kind) =
      p'.failures.map fun x => x.2.diagnostic.kind := by
  have hkind : ∀ d : Diagnostic, d.unplaced.kind = d.kind := by
    rintro ⟨line, span, cause⟩
    cases cause <;> rfl
  have hfailures := congrArg (fun p : Pass => p.failures.map fun x => x.2.diagnostic.kind) h
  simp only [Pass.failures_unplaced, List.map_map] at hfailures
  simpa only [Function.comp_def, Failure.unplaced, hkind] using hfailures

theorem length_failures_eq (h : p.unplaced = p'.unplaced) :
    p.failures.length = p'.failures.length := by
  have hkinds := congrArg List.length (map_kind_failures h)
  rwa [List.length_map, List.length_map] at hkinds

/-- Both passes find faults, or neither does. -/
theorem failures_eq_nil_iff (h : p.unplaced = p'.unplaced) :
    p.failures = [] ↔ p'.failures = [] := by
  rw [← List.length_eq_zero_iff, ← List.length_eq_zero_iff, length_failures_eq h]

/-- Passes over lines that differ in places only differ in places only. -/
theorem unplaced_ofEntries_eq (rule : LabelRule) {entries entries' : List Entry}
    (h : entries.map Entry.unplaced = entries'.map Entry.unplaced) :
    (Pass.ofEntries rule entries).unplaced = (Pass.ofEntries rule entries').unplaced := by
  rw [← Pass.ofEntries_unplaced, h, Pass.ofEntries_unplaced]

/-- **Rounds over lines that differ in places only** go side by side. -/
theorem Recovers.exists_alike {rule : LabelRule} {entries entries' : List Entry} {passes : Nat}
    {a : Assembly} (h : Recovers rule entries warnings passes a)
    (hentries : entries.map Entry.unplaced = entries'.map Entry.unplaced)
    (hwarnings : warnings.length = warnings'.length) :
    ∃ b, Recovers rule entries' warnings' passes b ∧ Alike a b := by
  induction h generalizing entries' warnings' with
  | last hfaultless =>
    have hpass := unplaced_ofEntries_eq rule hentries
    exact ⟨_, .last ((failures_eq_nil_iff hpass).mp hfaultless), alike_assembly hpass hwarnings⟩
  | @next entries warnings _ _ hfault _ ih =>
    have hpass := unplaced_ofEntries_eq rule hentries
    have hsurvivors : (Pass.ofEntries rule entries).survivors.map Entry.unplaced =
        (Pass.ofEntries rule entries').survivors.map Entry.unplaced := by
      rw [← Pass.survivors_unplaced, hpass, Pass.survivors_unplaced]
    have hmore : (warnings ++ (Pass.ofEntries rule entries).warnings).length =
        (warnings' ++ (Pass.ofEntries rule entries').warnings).length := by
      simp [Pass.warnings, hwarnings, length_failures_eq hpass]
    obtain ⟨b, hb, halike⟩ := ih hsurvivors hmore
    exact ⟨b, .next (mt (failures_eq_nil_iff hpass).mpr hfault) hb, halike⟩

/-- The lines of two sources that say the same differ in places only. -/
theorem map_unplaced_ofLines {source source' : Text} (h : Line.codes source = Line.codes source') :
    (Entry.ofLines (Line.ofSource source)).map Entry.unplaced =
      (Entry.ofLines (Line.ofSource source')).map Entry.unplaced := by
  have hentries : ∀ lines, (Entry.ofLines lines).map Entry.unplaced =
      Entry.ofLines (lines.map Line.unplaced) := by
    intro lines
    unfold Entry.ofLines
    rw [List.zipIdx_map, List.map_map, List.map_map]
    rfl
  rw [hentries, hentries, Line.map_unplaced_ofSource, Line.map_unplaced_ofSource, h]

/-- **Only what the lines say matters**, under every rule for labels and for faults. -/
theorem agrees_of_codes_eq (settings : AssemblerSettings) {source source' : Text}
    (h : Line.codes source = Line.codes source') :
    Agrees (assemble settings source) (assemble settings source') := by
  have hentries := map_unplaced_ofLines h
  obtain ⟨rule, onFault⟩ := settings
  cases onFault with
  | skip =>
    obtain ⟨passes, -, -, hrecovers⟩ :=
      exists_recovers rule (Entry.ofLines (Line.ofSource source)) []
    obtain ⟨b, hb, halike⟩ := hrecovers.exists_alike hentries (Eq.refl ([] : List Warning).length)
    rw [hb.eq_recover] at halike
    exact .ok halike
  | halt =>
    have hpass := unplaced_ofEntries_eq rule hentries
    have hfaults := failures_eq_nil_iff hpass
    by_cases hnone : (Pass.ofEntries rule (Entry.ofLines (Line.ofSource source))).failures = []
    · rw [assemble_halt_eq_ok_iff.mpr ⟨hnone, rfl⟩,
        assemble_halt_eq_ok_iff.mpr ⟨hfaults.mp hnone, rfl⟩]
      exact .ok (alike_assembly hpass rfl)
    · rw [assemble_halt_eq_error_iff.mpr ⟨hnone, rfl⟩,
        assemble_halt_eq_error_iff.mpr ⟨mt hfaults.mpr hnone, rfl⟩]
      refine .error ?_
      rw [List.map_map, List.map_map]
      exact map_kind_failures hpass

/-- Comments, blank lines and blanks around the code, in a source with a line at fault. -/
theorem agrees_of_comments :
    Line.codes "go: LDA #$01 ; one\n\n\tBNE go\nFOO".toList =
        Line.codes ";\n  go: LDA #$01\nBNE go;back\n \nFOO ".toList ∧
      Agrees (assemble { onFault := .skip } "go: LDA #$01 ; one\n\n\tBNE go\nFOO".toList)
        (assemble { onFault := .skip } ";\n  go: LDA #$01\nBNE go;back\n \nFOO ".toList) :=
  ⟨by decide +kernel, agrees_of_codes_eq _ (by decide +kernel)⟩

end Assembly

end Micro65
