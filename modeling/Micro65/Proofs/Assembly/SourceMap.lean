import Micro65.Proofs.Assembly.Listing
import Micro65.Proofs.SourceMap
import Micro65.Proofs.Statement.Span
/-!
# The source map of an assembly

Every instruction of an assembly is recorded in its source map, with the range of its bytes and with
the place where it is written. Addresses and lines are different, so every look-up finds the
instruction that it asks for, and nothing where there is none (`Assembly.mapsBack`). The ranges of
the lines tile the machine code.
-/

namespace Micro65

namespace SourceMap

/-! ## Maps of instructions -/

variable {located : List (Instruction × Location)}

/-- What is recorded of an instruction with its place. -/
def Record.ofLocated (x : Instruction × Location) : Record :=
  ⟨x.1.address, x.1.size, x.2⟩

/-- The map of instructions with their places is sorted, and holds each. -/
theorem exists_ofInstructions_eq (located : List (Instruction × Location)) :
    ∃ m : SourceMap, ofInstructions located = m.sort ∧ m.Holds (located.map Record.ofLocated) := by
  refine ⟨_, ?_, holds_empty.foldl_record _⟩
  unfold ofInstructions
  rw [List.foldl_map]
  rfl

theorem size_ofInstructions (located : List (Instruction × Location)) :
    (ofInstructions located).size = located.length := by
  obtain ⟨m, hm, hholds⟩ := exists_ofInstructions_eq located
  rw [hm, size_sort, hholds.size_eq, List.length_map]

/-- **An address has the place of the instruction that starts there.** -/
theorem location?_ofInstructions_eq_some_iff (h : (located.map fun x => x.1.address).Nodup)
    {address : UInt16} {location : Location} :
    (ofInstructions located).location? address = some location ↔
      ∃ x ∈ located, x.1.address = address ∧ x.2 = location := by
  obtain ⟨m, hm, hholds⟩ := exists_ofInstructions_eq located
  rw [hm, hholds.location?_sort (by rwa [List.map_map])]
  simp only [List.mem_map, exists_exists_and_eq_and]
  rfl

/-- **A line has the range of the instruction that is written there.** -/
theorem range?_ofInstructions_eq_some_iff (h : (located.map fun x => x.2.line).Nodup) {line : Nat}
    {range : Extent} :
    (ofInstructions located).range? line = some range ↔
      ∃ x ∈ located, x.2.line = line ∧ ⟨x.1.address, x.1.stop⟩ = range := by
  obtain ⟨m, hm, hholds⟩ := exists_ofInstructions_eq located
  rw [hm, hholds.range?_sort (by rwa [List.map_map])]
  simp only [List.mem_map, exists_exists_and_eq_and]
  rfl

end SourceMap

/-- The ranges stand one behind the other from an address on, up to another, and none is empty. -/
def Extent.Tile : (start : Nat) → List Extent → (stop : Nat) → Prop
  | start, [], stop => start = stop
  | start, e :: rest, stop => e.start.toNat = start ∧ start < e.stop ∧ Tile e.stop rest stop

/-- The range of the bytes of an instruction. -/
def Instruction.extent (i : Instruction) : Extent :=
  ⟨i.address, i.stop⟩

theorem Contiguous.tile {start stop : Nat} {instructions : List Instruction}
    (h : Contiguous start instructions stop) :
    Extent.Tile start (instructions.map Instruction.extent) stop := by
  induction instructions generalizing start with
  | nil => exact h
  | cons i rest ih => exact ⟨h.1, h.1 ▸ i.address_lt_stop, ih h.2⟩

namespace Assembly

variable {settings : AssemblerSettings} {source : Text} {a : Assembly}

/-- The lines of the instructions ascend. -/
theorem pairwise_lines (h : assemble settings source = .ok a) :
    (a.instructions.map Instruction.line).Pairwise (· < ·) := by
  rw [map_line_instructions h, List.pairwise_map]
  exact pairwise_statements a source

/-- What the source map of an assembly is made of: its instructions, each with the place of its
statement. No two of them have one address, and no two have one line. -/
structure Located (source : Text) (a : Assembly) (located : List (Instruction × Location)) :
    Prop where
  instructions_eq : a.instructions = located.map Prod.fst
  sourceMap_eq : a.sourceMap = .ofInstructions located
  statements : List.Forall₂ (fun s (x : Instruction × Location) => x.2 = s.location)
    (a.statements source) located
  line_eq : ∀ x ∈ located, x.2.line = x.1.line
  nodup_addresses : (located.map fun x => x.1.address).Nodup
  nodup_lines : (located.map fun x => x.2.line).Nodup

theorem located (h : assemble settings source = .ok a) :
    Located source a (Pass.ofEntries settings.labels (a.entries source)).instructions := by
  obtain ⟨hfaultless, hassembly⟩ := of_assemble h
  obtain ⟨stop, hreads⟩ := Pass.reads_ofEntries hfaultless
  have hstatements := hreads.statements
  rw [filterMap_statement?_entries] at hstatements
  generalize (Pass.ofEntries settings.labels (a.entries source)) = pass at hassembly hstatements
  have hinstructions : a.instructions = pass.instructions.map Prod.fst := by rw [hassembly]; rfl
  have hline : ∀ x ∈ pass.instructions, x.2.line = x.1.line := by
    intro x hx
    obtain ⟨s, -, hs, hlocation⟩ := exists_mem_of_forall₂ hstatements.flip hx
    rw [hlocation, (Statement.instruction_eq_ok_iff.mp hs).2.2]
    rfl
  refine { instructions_eq := hinstructions, sourceMap_eq := by rw [hassembly]; rfl,
           statements := hstatements.imp fun _ _ hs => hs.2, line_eq := hline,
           nodup_addresses := ?_, nodup_lines := ?_ }
  · have hnodup := (contiguous h).nodup_addresses
    rwa [hinstructions, List.map_map] at hnodup
  · have hascend := pairwise_lines h
    rw [hinstructions, List.map_map] at hascend
    rw [List.map_congr_left hline]
    exact hascend.imp Nat.ne_of_lt

/-- The range of an instruction is recorded for its line. -/
theorem range?_line (h : assemble settings source = .ok a) {i : Instruction}
    (hi : i ∈ a.instructions) : a.sourceMap.range? i.line = some i.extent := by
  have hlocated := located h
  rw [hlocated.instructions_eq] at hi
  obtain ⟨x, hx, rfl⟩ := List.mem_map.mp hi
  rw [hlocated.sourceMap_eq, SourceMap.range?_ofInstructions_eq_some_iff hlocated.nodup_lines]
  exact ⟨x, hx, hlocated.line_eq x hx, rfl⟩

/-- The statement of an instruction is read from a line of the source. -/
theorem exists_raw_of_mem_statements {s : Statement} (hs : s ∈ a.statements source) :
    s.mnemonic.isSome = true ∧
      ∃ raw, (raw, s.line) ∈ (Text.lines source).zipIdx 1 ∧
        Line.ofText? s.line raw = some (.ok s) := by
  obtain ⟨line, hline, hs⟩ := List.mem_filterMap.mp hs
  obtain ⟨-, hs⟩ := Option.ite_none_left_eq_some.mp hs
  obtain ⟨⟨raw, number⟩, hraw, hread⟩ := List.mem_filterMap.mp hline
  cases line with
  | error d => cases hs
  | ok s' =>
    obtain ⟨hmnemonic, hs⟩ := Option.ite_none_right_eq_some.mp hs
    cases hs
    have hnumber : s.line = number := Line.number_of_ofText? hread
    rw [← hnumber] at hraw hread
    exact ⟨hmnemonic, raw, hraw, hread⟩

/-- The location of an instruction is the place in its line where its word and its operand are
written. -/
theorem forall₂_location? (h : assemble settings source = .ok a) :
    List.Forall₂ (fun s i => ∃ raw front written behind,
        (raw, i.line) ∈ (Text.lines source).zipIdx 1 ∧ Line.Parts raw s front written behind ∧
        a.sourceMap.location? i.address =
          some ⟨i.line, Text.byteLength front, Text.byteLength written⟩)
      (a.statements source) a.instructions := by
  have hlocated := located h
  have hmem := (List.forall₂_and_left _ _).mpr ⟨fun x hx => hx, hlocated.statements.flip⟩
  rw [hlocated.instructions_eq, List.forall₂_map_right_iff]
  refine ((List.forall₂_and_left _ _).mpr ⟨fun s hs => hs, hmem.flip⟩).imp ?_
  rintro s x ⟨hs, hx, hlocation⟩
  have hnumber : s.line = x.1.line := by
    rw [← hlocated.line_eq x hx, hlocation]
    rfl
  obtain ⟨hmnemonic, raw, hraw, hread⟩ := exists_raw_of_mem_statements hs
  obtain ⟨front, written, behind, hparts⟩ := Line.exists_parts_of_ofText? hread hmnemonic
  refine ⟨raw, front, written, behind, hnumber ▸ hraw, hparts, ?_⟩
  rw [hlocated.sourceMap_eq,
    SourceMap.location?_ofInstructions_eq_some_iff hlocated.nodup_addresses]
  refine ⟨x, hx, rfl, ?_⟩
  rw [hlocation, Statement.location, hparts.span_eq, hnumber]
  simp [Span.length]

/-- A location is that of an instruction at the address. -/
theorem exists_of_location?_eq_some (h : assemble settings source = .ok a) {address : UInt16}
    {location : Location} (hfound : a.sourceMap.location? address = some location) :
    ∃ i ∈ a.instructions, i.address = address := by
  have hlocated := located h
  rw [hlocated.sourceMap_eq,
    SourceMap.location?_ofInstructions_eq_some_iff hlocated.nodup_addresses] at hfound
  obtain ⟨x, hx, haddress, -⟩ := hfound
  exact ⟨x.1, hlocated.instructions_eq ▸ List.mem_map_of_mem hx, haddress⟩

/-- A range is that of an instruction on the line. -/
theorem exists_of_range?_eq_some (h : assemble settings source = .ok a) {line : Nat}
    {range : Extent} (hfound : a.sourceMap.range? line = some range) :
    ∃ i ∈ a.instructions, i.line = line := by
  have hlocated := located h
  rw [hlocated.sourceMap_eq,
    SourceMap.range?_ofInstructions_eq_some_iff hlocated.nodup_lines] at hfound
  obtain ⟨x, hx, hline, -⟩ := hfound
  rw [hlocated.line_eq x hx] at hline
  exact ⟨x.1, hlocated.instructions_eq ▸ List.mem_map_of_mem hx, hline⟩

/-- A listing of instructions that fit into the memory assembles to as many bytes as they have. -/
theorem exists_assemble_listing (settings : AssemblerSettings) {forms : List Form}
    (h : ∀ f ∈ forms, f.Encodable) (hsize : (forms.flatMap Form.bytes).length ≤ 0x10000) :
    ∃ a, assemble settings (Form.listing forms) = .ok a ∧
      a.bytes.size = (forms.flatMap Form.bytes).length := by
  have hfaultless := Form.failures_listing settings.labels h hsize
  have hassembles := assemble_of_failures_eq_nil hfaultless
  obtain ⟨stop, hreads⟩ := Pass.reads_ofEntries hfaultless
  generalize Pass.ofEntries settings.labels
    (Entry.ofLines (Line.ofSource (Form.listing forms))) = pass at hassembles hreads
  obtain ⟨hforms, -⟩ := Form.forms_of_reads hreads (Form.writtenFor_listing h)
  refine ⟨_, hassembles, ?_⟩
  rw [← hforms, List.flatMap_map]
  exact List.size_toArray

/-- Some program fills the memory. -/
theorem exists_size_bytes_eq (settings : AssemblerSettings) :
    ∃ source a, assemble settings source = .ok a ∧ a.bytes.size = 0x10000 := by
  have hnop : (⟨.nop, .implied, none⟩ : Form).Encodable := by decide +kernel
  have hsize : ∀ n, ((List.replicate n (⟨.nop, .implied, none⟩ : Form)).flatMap
      Form.bytes).length = n := by
    intro n
    have hone := hnop.encode?_eq.2
    rw [List.length_flatMap, List.map_replicate, hone, List.sum_replicate_nat]
    exact Nat.mul_one n
  have hencodable : ∀ f ∈ List.replicate 0x10000 (⟨.nop, .implied, none⟩ : Form), f.Encodable := by
    intro f hf
    rwa [(List.mem_replicate.mp hf).2]
  obtain ⟨a, ha, hbytes⟩ := exists_assemble_listing settings hencodable (Nat.le_of_eq (hsize _))
  exact ⟨_, a, ha, hbytes.trans (hsize _)⟩

/-- Where the code fills the memory, a range ends behind the last address. -/
theorem exists_range?_stop_eq (h : assemble settings source = .ok a)
    (hsize : a.bytes.size = 0x10000) :
    ∃ line range, a.sourceMap.range? line = some range ∧ range.stop = 0x10000 := by
  have hlast := (contiguous h).eq_getLast?
  rw [hsize] at hlast
  cases hi : a.instructions.getLast? with
  | none =>
    rw [hi] at hlast
    cases hlast
  | some i =>
    rw [hi] at hlast
    exact ⟨i.line, i.extent, range?_line h (List.mem_of_getLast? hi), hlast.symm⟩

/-- **What it is for a source map to map back and forth** between the instructions of an assembly
and the places where they are written. -/
structure MapsBack (source : Text) (a : Assembly) : Prop where
  size_eq : a.sourceMap.size = a.instructions.length
  /-- The location of an instruction is the place in its line where its word and its operand are
  written, and nothing else. -/
  location : List.Forall₂ (fun s i => ∃ raw front written behind,
      (raw, i.line) ∈ (Text.lines source).zipIdx 1 ∧ Line.Parts raw s front written behind ∧
      a.sourceMap.location? i.address =
        some ⟨i.line, Text.byteLength front, Text.byteLength written⟩)
    (a.statements source) a.instructions
  location_eq_none : ∀ address, (∀ i ∈ a.instructions, i.address ≠ address) →
    a.sourceMap.location? address = none
  range : ∀ i ∈ a.instructions,
    a.sourceMap.range? i.line = some ⟨i.address, i.address.toNat + i.size⟩
  range_eq_none : ∀ line, (∀ i ∈ a.instructions, i.line ≠ line) → a.sourceMap.range? line = none
  lines_ascend : (a.instructions.map Instruction.line).Pairwise (· < ·)
  /-- The ranges of the lines, in their order, tile the machine code. -/
  tile : ∃ ranges, a.instructions.map (fun i => a.sourceMap.range? i.line) = ranges.map some ∧
    Extent.Tile 0 ranges a.bytes.size

/-- **The source map of every assembly maps back and forth**, up to the end of the memory, which the
range of a line can reach. -/
theorem mapsBack (settings : AssemblerSettings) :
    (∀ source a, assemble settings source = .ok a → MapsBack source a) ∧
      ∃ source a, assemble settings source = .ok a ∧
        ∃ line range, a.sourceMap.range? line = some range ∧ range.stop = 0x10000 := by
  constructor
  · intro source a h
    refine { size_eq := ?_, location := forall₂_location? h, location_eq_none := ?_,
             range := fun i => range?_line h, range_eq_none := ?_,
             lines_ascend := pairwise_lines h, tile := ?_ }
    · rw [(located h).sourceMap_eq, SourceMap.size_ofInstructions, (located h).instructions_eq,
        List.length_map]
    · intro address hnone
      refine Option.eq_none_iff_forall_ne_some.mpr fun location hfound => ?_
      obtain ⟨i, hi, haddress⟩ := exists_of_location?_eq_some h hfound
      exact hnone i hi haddress
    · intro line hnone
      refine Option.eq_none_iff_forall_ne_some.mpr fun range hfound => ?_
      obtain ⟨i, hi, hline⟩ := exists_of_range?_eq_some h hfound
      exact hnone i hi hline
    · refine ⟨a.instructions.map Instruction.extent, ?_, (contiguous h).tile⟩
      rw [List.map_map]
      exact List.map_congr_left fun i hi => range?_line h hi
  · obtain ⟨source, a, h, hsize⟩ := exists_size_bytes_eq settings
    exact ⟨source, a, h, exists_range?_stop_eq h hsize⟩

/-- A comment, odd blanks and a line that is skipped. -/
theorem mapsBack_of_skipped_line :
    ∃ a, assemble { onFault := .skip } "LDX\t #$03 ;x\nFOO\n\n  DEX;".toList = .ok a ∧
      a.instructions.map (fun i => (i.line, i.extent)) = [(1, ⟨0, 2⟩), (4, ⟨2, 3⟩)] ∧
      MapsBack "LDX\t #$03 ;x\nFOO\n\n  DEX;".toList a := by
  have h : (assemble { onFault := .skip } "LDX\t #$03 ;x\nFOO\n\n  DEX;".toList).toOption.map
      (fun a => a.instructions.map fun i => (i.line, i.extent)) =
        some [(1, ⟨0, 2⟩), (4, ⟨2, 3⟩)] := by
    decide +kernel
  obtain ⟨a, ha, hextents⟩ := exists_of_map_toOption h
  exact ⟨a, ha, hextents, (mapsBack _).1 _ a ha⟩

end Assembly

end Micro65
