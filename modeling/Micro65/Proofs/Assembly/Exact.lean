import Micro65.Proofs.Assembly.Recovery
/-!
# The layout of an assembly is exact

An assembly is the reading of the lines that it keeps (`Assembly.exists_reads`). Everything that the
layout promises follows (`Assembly.exactLayout`): no statement is lost and none is read twice, each
instruction starts where the one before it ends, and the machine code is made of the instructions'
bytes and nothing else.
-/

namespace Micro65

namespace Assembly

variable {settings : AssemblerSettings} {source : Text} {a : Assembly}

/-- **An assembly is a reading** of the lines that it keeps, which ends where its bytes end. -/
theorem exists_reads (h : assemble settings source = .ok a) :
    ∃ instructions, a.instructions = instructions.map Prod.fst ∧
      a.bytes.toList = image a.instructions ∧
      Pass.Reads settings.labels a.symbols 0 ∅ (a.entries source) instructions a.bytes.size
        a.symbols := by
  obtain ⟨hfaultless, hassembly⟩ := of_assemble h
  obtain ⟨stop, hreads⟩ := Pass.reads_ofEntries hfaultless
  generalize Pass.ofEntries settings.labels (a.entries source) = pass at hassembly hreads
  have hinstructions : a.instructions = pass.instructions.map Prod.fst := by rw [hassembly]; rfl
  have hsymbols : a.symbols = pass.symbols := by rw [hassembly]; rfl
  have hbytes : a.bytes.toList = image a.instructions := by
    rw [hinstructions, hassembly]
    unfold image
    rw [List.flatMap_map]
    rfl
  have hstop : stop = a.bytes.size := by
    rw [← Array.length_toList, hbytes, hinstructions,
      ← hreads.contiguous.length_image hreads.wellFormed, Nat.zero_add]
  rw [← hsymbols, hstop] at hreads
  exact ⟨pass.instructions, hinstructions, hbytes, hreads⟩

theorem wellFormed (h : assemble settings source = .ok a) :
    ∀ i ∈ a.instructions, i.WellFormed := by
  obtain ⟨instructions, hinstructions, -, hreads⟩ := exists_reads h
  rw [hinstructions]
  exact hreads.wellFormed

/-- The instructions fill the machine code. -/
theorem contiguous (h : assemble settings source = .ok a) :
    Contiguous 0 a.instructions a.bytes.size := by
  obtain ⟨instructions, hinstructions, -, hreads⟩ := exists_reads h
  rw [hinstructions]
  exact hreads.contiguous

theorem size_bytes_le (h : assemble settings source = .ok a) : a.bytes.size ≤ 0x10000 := by
  obtain ⟨instructions, -, -, hreads⟩ := exists_reads h
  exact hreads.stop_le (Nat.zero_le _)

/-- The instructions are read from the statements that have no warning, one by one. -/
theorem forall₂_statements (h : assemble settings source = .ok a) :
    List.Forall₂ (fun s i => s.instruction settings.labels a.symbols i.address = .ok i)
      (a.statements source) a.instructions := by
  obtain ⟨instructions, hinstructions, -, hreads⟩ := exists_reads h
  rw [hinstructions, ← filterMap_statement?_entries, List.forall₂_map_right_iff]
  exact hreads.statements.imp fun _ _ hs => hs.1

theorem map_line_instructions (h : assemble settings source = .ok a) :
    a.instructions.map Instruction.line = (a.statements source).map Statement.line := by
  have hlines : List.Forall₂ (fun (i : Instruction) (s : Statement) => i.line = s.line)
      a.instructions (a.statements source) :=
    (forall₂_statements h).flip.imp fun _ _ hs => (Statement.instruction_eq_ok_iff.mp hs).2.2
  rw [← List.forall₂_eq_eq_eq, List.forall₂_map_left_iff, List.forall₂_map_right_iff]
  exact hlines

/-- The statements that have no warning ascend in the source. -/
theorem pairwise_statements (a : Assembly) (source : Text) :
    (a.statements source).Pairwise fun s s' => s.line < s'.line := by
  unfold statements
  refine List.Pairwise.filterMap _ ?_ (Line.pairwise_ofSource source)
  intro line line' hlt s hs s' hs'
  obtain ⟨-, hs⟩ := Option.ite_none_left_eq_some.mp hs
  obtain ⟨-, hs'⟩ := Option.ite_none_left_eq_some.mp hs'
  rw [Line.line_of_statement? hs, Line.line_of_statement? hs']
  exact hlt

/-- **What an exact layout is.** -/
structure ExactLayout (settings : AssemblerSettings) (source : Text) (a : Assembly) : Prop where
  /-- The instructions correspond to the statements one by one. -/
  reads : List.Forall₂ (fun s i => s.instruction settings.labels a.symbols i.address = .ok i)
    (a.statements source) a.instructions
  lines_eq : a.instructions.map Instruction.line = (a.statements source).map Statement.line
  lines_ascend : (a.instructions.map Instruction.line).Pairwise (· < ·)
  /-- The first instruction starts at address 0. -/
  head_address : ∀ i ∈ a.instructions.head?, i.address = 0
  /-- Every later one starts where the one before it ends. -/
  next_address : a.instructions.IsChain fun i j => j.address.toNat = i.address.toNat + i.size
  /-- Every instruction has a code of its size, and the machine code is made of these codes. -/
  codes : ∃ codes, List.Forall₂ (fun i code =>
      i.mnemonic.encode? i.mode i.operand = some code ∧ i.size = code.length) a.instructions codes ∧
    a.bytes.toList = codes.flatten
  size_bytes : a.bytes.size =
    (a.instructions.getLast?.map fun i => i.address.toNat + i.size).getD 0
  size_bytes_le : a.bytes.size ≤ 0x10000
  /-- The running address stays in its range in front of every line of every pass. -/
  inRange : ∀ before e, Layout.InRange settings.labels before e

/-- **The layout of every assembly is exact.** -/
theorem exactLayout (h : assemble settings source = .ok a) : ExactLayout settings source a where
  reads := forall₂_statements h
  lines_eq := map_line_instructions h
  lines_ascend := by
    rw [map_line_instructions h, List.pairwise_map]
    exact pairwise_statements a source
  head_address := by
    intro i hi
    have hcontiguous := contiguous h
    obtain ⟨rest, hrest⟩ := List.head?_eq_some_iff.mp hi
    rw [hrest] at hcontiguous
    exact UInt16.toNat_inj.mp hcontiguous.1
  next_address := (contiguous h).isChain
  codes := by
    obtain ⟨instructions, -, hbytes, -⟩ := exists_reads h
    refine ⟨a.instructions.map Instruction.bytes, ?_, ?_⟩
    · rw [List.forall₂_map_right_iff, List.forall₂_same]
      intro i hi
      have hwell := wellFormed h i hi
      exact ⟨hwell.encode?_eq, hwell.length_bytes.symm⟩
    · rw [hbytes, ← List.flatMap_def]
      rfl
  size_bytes := (contiguous h).eq_getLast?
  size_bytes_le := size_bytes_le h
  inRange := Layout.inRange settings.labels

/-- A line that cannot be assembled is skipped, and the layout of the others is exact. -/
theorem exactLayout_of_skipped_line :
    ∃ a, assemble { onFault := .skip } "LDX #$03\nFOO\nDEX\n".toList = .ok a ∧
      a.bytes = #[0xA2, 0x03, 0xCA] ∧
      ExactLayout { onFault := .skip } "LDX #$03\nFOO\nDEX\n".toList a :=
  ⟨_, rfl, by decide +kernel, exactLayout rfl⟩

end Assembly

end Micro65
