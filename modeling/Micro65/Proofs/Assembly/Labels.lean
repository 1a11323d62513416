import Micro65.Proofs.Assembly.Exact
/-!
# Labels mean what they say

The labels of an assembly are the labels of the lines that it keeps, and each has the value of the
place where it stands: the address of the first instruction that is not above it, or the index of
its line. An instruction whose operand refers to a name refers to one label and carries the value of
this label (`Assembly.exactLabels`). The value is read from the table of all labels, so it does not
matter whether the label stands above the instruction or below it.
-/

namespace Micro65

namespace Assembly

variable {settings : AssemblerSettings} {source : Text} {a : Assembly}

theorem indexed_symbols (h : assemble settings source = .ok a) : a.symbols.Indexed := by
  obtain ⟨instructions, -, -, hreads⟩ := exists_reads h
  exact hreads.indexed SymbolTable.indexed_empty

/-- The labels are defined in the order of their lines. -/
theorem map_symbols_eq_labels (h : assemble settings source = .ok a) :
    a.symbols.toList.map (fun symbol => (symbol.name, symbol.line)) = a.labels source := by
  obtain ⟨instructions, -, -, hreads⟩ := exists_reads h
  rw [hreads.symbols, filterMap_label?_entries]
  rfl

/-- A label that counts bytes stands in front of the first instruction that is not above it. -/
theorem address_of_byteOffset (h : assemble settings source = .ok a)
    (hrule : settings.labels = .byteOffset) {symbol : Symbol} (hs : symbol ∈ a.symbols.toList) :
    symbol.address.toNat =
      ((a.instructions.find? fun i => symbol.line ≤ i.line).map (·.address.toNat)).getD
        a.bytes.size := by
  obtain ⟨instructions, hinstructions, -, hreads⟩ := exists_reads h
  rw [hrule] at hreads
  rw [hinstructions]
  exact hreads.address_of_byteOffset (Pass.pairwise_retained (Line.pairwise_ofSource source)) hs
    List.not_mem_nil

/-- A label that counts lines has the index of its line. -/
theorem address_of_lineIndex (h : assemble settings source = .ok a)
    (hrule : settings.labels = .lineIndex) {symbol : Symbol} (hs : symbol ∈ a.symbols.toList) :
    ∃ line, (Line.ofSource source)[symbol.address.toNat]? = some line ∧
      line.number = symbol.line := by
  obtain ⟨instructions, -, -, hreads⟩ := exists_reads h
  rw [hrule] at hreads
  obtain ⟨e, he, hindex, hline⟩ := hreads.address_of_lineIndex hs List.not_mem_nil
  rw [← hindex]
  exact ⟨e.line, (Pass.mem_retained.mp he).1, hline⟩

/-- An instruction carries the value of the only label that its operand refers to. -/
theorem forall₂_carries (h : assemble settings source = .ok a) :
    List.Forall₂ (fun s i => i.line = s.line ∧ (s.names = [] ∨ ∃ symbol ∈ a.symbols.toList,
        s.names = [symbol.name] ∧ i.Carries settings.labels symbol.address))
      (a.statements source) a.instructions := by
  refine (forall₂_statements h).imp fun s i hs => ?_
  refine ⟨(Statement.instruction_eq_ok_iff.mp hs).2.2, ?_⟩
  rcases Statement.refersTo_of_instruction hs with hnames | ⟨name, symbol, hnames, hfind, hcarries⟩
  · exact .inl hnames
  · obtain ⟨hmem, rfl⟩ := (indexed_symbols h).find?_eq_some_iff.mp hfind
    exact .inr ⟨symbol, hmem, hnames, hcarries⟩

/-- What a program that branches to itself is assembled to. -/
theorem exists_assemble_loop :
    ∃ a, assemble {} "lo:\nBNE lo".toList = .ok a ∧ a.bytes = #[0xD0, 0xFE] ∧
      a.instructions = [⟨.bne, .relative, some 0xFE, 0, 2⟩] ∧ a.warnings = [] := by
  have hlines : Line.ofSource "lo:\nBNE lo".toList =
      [.ok ⟨1, some "lo".toList, none, none, none, ⟨0, 3⟩⟩,
        .ok ⟨2, none, some "BNE".toList, some "lo".toList, none, ⟨0, 6⟩⟩] := by
    decide +kernel
  have h : (assemble {} "lo:\nBNE lo".toList).toOption.map
      (fun a => (a.bytes, a.instructions, a.warnings)) =
        some (#[0xD0, 0xFE], [⟨.bne, .relative, some 0xFE, 0, 2⟩], []) := by
    -- Looking a name up does not compute, so the one label is looked up by a lemma.
    simp only [assemble, Pass.ofEntries_of_label hlines (by simp [Line.label?])]
    unfold Pass.judge Entry.verdict Statement.instruction LabelRule.reference
    simp only [SymbolTable.find?_push_empty]
    decide +kernel
  obtain ⟨a, ha, hparts⟩ := exists_of_map_toOption h
  simp only [Prod.mk.injEq] at hparts
  exact ⟨a, ha, hparts⟩

/-- **What it is for labels to mean what they say.** -/
structure ExactLabels (settings : AssemblerSettings) (source : Text) (a : Assembly) : Prop where
  /-- The symbols are the labels of the lines that are not skipped, in order. -/
  symbols_eq : a.symbols.toList.map (fun symbol => (symbol.name, symbol.line)) = a.labels source
  nodup_names : (a.symbols.toList.map Symbol.name).Nodup
  byteOffset : settings.labels = .byteOffset → ∀ symbol ∈ a.symbols.toList,
    symbol.address.toNat =
      ((a.instructions.find? fun i => symbol.line ≤ i.line).map (·.address.toNat)).getD
        a.bytes.size
  lineIndex : settings.labels = .lineIndex → ∀ symbol ∈ a.symbols.toList,
    ∃ line, (Line.ofSource source)[symbol.address.toNat]? = some line ∧ line.number = symbol.line
  /-- The operand of an instruction refers to no label, or to one, whose value the instruction
  carries. -/
  references : List.Forall₂ (fun s i => i.line = s.line ∧ (s.names = [] ∨
      ∃ symbol ∈ a.symbols.toList,
        s.names = [symbol.name] ∧ i.Carries settings.labels symbol.address))
    (a.statements source) a.instructions

/-- **The labels of every assembly mean what they say.** -/
theorem exactLabels (h : assemble settings source = .ok a) : ExactLabels settings source a where
  symbols_eq := map_symbols_eq_labels h
  nodup_names := (indexed_symbols h).nodup_names
  byteOffset hrule _ hs := address_of_byteOffset h hrule hs
  lineIndex hrule _ hs := address_of_lineIndex h hrule hs
  references := forall₂_carries h

/-- A program that branches to itself. -/
theorem exactLabels_of_loop :
    ∃ a, assemble {} "lo:\nBNE lo".toList = .ok a ∧ a.bytes = #[0xD0, 0xFE] ∧
      ExactLabels {} "lo:\nBNE lo".toList a := by
  obtain ⟨a, ha, hbytes, -⟩ := exists_assemble_loop
  exact ⟨a, ha, hbytes, exactLabels ha⟩

end Assembly

end Micro65
