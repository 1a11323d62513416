import Micro65.Proofs.Assembly.Labels
import Micro65.Proofs.Machine.Counter
import Micro65.Proofs.Machine.Simulation
/-!
# Programs that branch to labels only

The value of a label is the address of an instruction or the end of the program
(`Assembly.isBoundary_label`), and the distance in a branch is the one that the machine adds up to
this value. So when no branch has a distance of its own, every turn leads from such a place to
another (`Machine.isBoundary_of_executed`), and a run never comes to an address within an
instruction, whatever the machine holds and however long the run is (`Machine.onCourse`).
-/

namespace Micro65

namespace Assembly

/-- Every branch of an assembly has its operand from a label. -/
def BranchesToLabels (source : Text) (a : Assembly) : Prop :=
  List.Forall₂ (fun s i => i.mnemonic.isBranch = true → s.names ≠ [])
    (a.statements source) a.instructions

instance (source : Text) (a : Assembly) : Decidable (BranchesToLabels source a) :=
  inferInstanceAs (Decidable (List.Forall₂ _ _ _))

/-- An instruction starts at the address, or the program ends there. -/
def IsBoundary (a : Assembly) (address : UInt16) : Prop :=
  (∃ i ∈ a.instructions, i.address = address) ∨ address.toNat = a.bytes.size

variable {settings : AssemblerSettings} {source : Text} {a : Assembly}

/-- Every instruction has its statement. -/
theorem BranchesToLabels.exists_mem_zip (h : BranchesToLabels source a) {i : Instruction}
    (hi : i ∈ a.instructions) : ∃ s, (s, i) ∈ (a.statements source).zip a.instructions := by
  rw [← List.map_snd_zip (Nat.le_of_eq h.length_eq.symm)] at hi
  obtain ⟨⟨s, i⟩, hmem, rfl⟩ := List.mem_map.mp hi
  exact ⟨s, hmem⟩

theorem isBoundary_zero (h : assemble settings source = .ok a) : a.IsBoundary 0 := by
  have hcontiguous := contiguous h
  unfold IsBoundary
  cases hinstructions : a.instructions with
  | nil =>
    rw [hinstructions] at hcontiguous
    exact .inr hcontiguous
  | cons i rest =>
    rw [hinstructions] at hcontiguous
    exact .inl ⟨i, List.mem_cons_self, UInt16.toNat_inj.mp hcontiguous.1⟩

/-- Behind an instruction is a boundary: the address behind the last one of a program that fills the
whole machine is 0 again. -/
theorem isBoundary_stop (h : assemble settings source = .ok a) {i : Instruction}
    (hi : i ∈ a.instructions) {address : UInt16} (haddress : address.toNat = i.stop % 0x10000) :
    a.IsBoundary address := by
  have hsize := size_bytes_le h
  rcases (contiguous h).stop_eq_or_exists hi with hstop | ⟨j, hj, hnext⟩
  · by_cases hfull : a.bytes.size = 0x10000
    · have hzero : address = 0 := by
        apply UInt16.toNat_inj.mp
        rw [haddress, hstop, hfull]
        rfl
      rw [hzero]
      exact isBoundary_zero h
    · exact .inr (by omega)
  · refine .inl ⟨j, hj, UInt16.toNat_inj.mp ?_⟩
    have hlt := j.address.toNat_lt
    omega

/-- **A label that counts bytes is a boundary.** -/
theorem isBoundary_label (h : assemble settings source = .ok a)
    (hrule : settings.labels = .byteOffset) {symbol : Symbol} (hs : symbol ∈ a.symbols.toList) :
    a.IsBoundary symbol.address := by
  have haddress := address_of_byteOffset h hrule hs
  cases hfind : a.instructions.find? fun i => symbol.line ≤ i.line with
  | none =>
    rw [hfind] at haddress
    exact .inr haddress
  | some i =>
    rw [hfind] at haddress
    exact .inl ⟨i, List.mem_of_find?_eq_some hfind, UInt16.toNat_inj.mp haddress.symm⟩

end Assembly

namespace Machine

open Assembly (BranchesToLabels)

variable {μ : Type} [Memory μ] {settings : AssemblerSettings} {source : Text} {a : Assembly}
  {i : Instruction} {s : Statement} {m m' : Machine μ} {p : Place}

/-- **A branch that is taken leads to its label.** -/
theorem pc_of_taken (h : assemble settings source = .ok a) (hlabels : BranchesToLabels source a)
    (hmem : (s, i) ∈ (a.statements source).zip a.instructions) (hpc : i.address = m.pc)
    (hp : m.place? i.mode i.operand = some p) {flag : Flag} {value : Bool}
    (hbranch : i.mnemonic.operation = .branch flag value) (htaken : m.status.get flag = value) :
    settings.labels = .byteOffset ∧ ∃ symbol ∈ a.symbols.toList, s.names = [symbol.name] ∧
      ((m.advance i.size).apply i.mnemonic.operation p).pc = symbol.address := by
  have hisBranch : i.mnemonic.isBranch = true := i.mnemonic.isBranch_iff.mpr ⟨flag, value, hbranch⟩
  have hnames := (List.forall₂_iff_zip.mp hlabels).2 hmem hisBranch
  have hi : i ∈ a.instructions := (List.of_mem_zip hmem).2
  have hmode := (Mnemonic.isBranch_iff_of_hasMode (Assembly.wellFormed h i hi).hasMode).mp hisBranch
  rcases ((List.forall₂_iff_zip.mp (Assembly.forall₂_carries h)).2 hmem).2 with hnone |
    ⟨symbol, hsymbol, hname, hcarries⟩
  · exact absurd hnone hnames
  · cases hcarries with
    | address hmem _ =>
      rw [hmode] at hmem
      simp at hmem
    | distance _ hrule _ operand hoperand htarget =>
      refine ⟨hrule, symbol, hsymbol, hname, ?_⟩
      rw [hmode, hoperand] at hp
      cases hp
      rw [hbranch]
      show ((m.advance i.size).branch flag value (.distance (Word.signed (Word.low operand)))).pc =
        symbol.address
      have htaken : (m.advance i.size).status.get flag = value := htaken
      rw [pc_branch_of_eq htaken]
      apply UInt16.toNat_inj.mp
      have hoffset := Word.toNat_offset (m.advance i.size).pc (Word.signed (Word.low operand))
      have hadvance : (m.advance i.size).pc.toNat = (i.address.toNat + 2) % 0x10000 := by
        unfold Instruction.size
        rw [toNat_pc_advance, hpc, hmode]
        rfl
      have hlt := symbol.address.toNat_lt
      omega

/-- **From boundary to boundary.** -/
theorem isBoundary_of_executed (h : assemble settings source = .ok a)
    (hlabels : BranchesToLabels source a) (hi : i ∈ a.instructions) (hpc : i.address = m.pc)
    (hp : m.place? i.mode i.operand = some p) :
    a.IsBoundary ((m.advance i.size).apply i.mnemonic.operation p).pc := by
  have hnext : a.IsBoundary (m.advance i.size).pc :=
    Assembly.isBoundary_stop h hi (by rw [toNat_pc_advance, ← hpc]; rfl)
  by_cases hbranch : ∃ flag value, i.mnemonic.operation = .branch flag value
  · obtain ⟨flag, value, hbranch⟩ := hbranch
    by_cases htaken : m.status.get flag = value
    · obtain ⟨s, hmem⟩ := hlabels.exists_mem_zip hi
      obtain ⟨hrule, symbol, hsymbol, -, htarget⟩ :=
        pc_of_taken h hlabels hmem hpc hp hbranch htaken
      rw [htarget]
      exact Assembly.isBoundary_label h hrule hsymbol
    · rw [hbranch]
      show a.IsBoundary ((m.advance i.size).branch flag value p).pc
      have htaken : (m.advance i.size).status.get flag ≠ value := htaken
      rw [branch_of_ne htaken]
      exact hnext
  · rw [pc_apply fun flag value heq => hbranch ⟨flag, value, heq⟩]
    exact hnext

omit [Memory μ] in
/-- At a boundary the program counter does not lie within an instruction. -/
theorem fetchProgram_of_isBoundary (h : assemble settings source = .ok a)
    (hm : a.IsBoundary m.pc) : fetchProgram (.ofAssembly a) m ≠ .fault (.misaligned m.pc) := by
  rcases fetchProgram_cases h m with ⟨-, hfetch⟩ | ⟨i, -, -, hfetch⟩ | ⟨hlt, hinside, -⟩
  · rw [hfetch]
    simp
  · rw [hfetch]
    simp
  · rcases hm with ⟨i, hi, hpc⟩ | hend
    · exact absurd hpc (hinside i hi)
    · omega

/-- A run that keeps to the boundaries of an assembly, in which branches lead to their labels, and
which only the end of the program or the limit ends. -/
structure OnCourse (source : Text) (a : Assembly) (fetch : Machine μ → Fetch) (m : Machine μ) :
    Prop where
  boundary : ∀ k m', after fetch k m = some m' → a.IsBoundary m'.pc
  taken : ∀ k m' m'' s i, after fetch k m = some m' → turn fetch k m' = .ok m'' →
    (s, i) ∈ (a.statements source).zip a.instructions → i.address = m'.pc →
    ∀ flag value, i.mnemonic.operation = .branch flag value → m'.status.get flag = value →
    ∃ symbol ∈ a.symbols.toList, s.names = [symbol.name] ∧ m''.pc = symbol.address
  result : ∀ fuel o, run fetch fuel m = some o →
    (∃ n, o.result = .ok ⟨n, .finished⟩) ∨ ∃ limit, o.result = .error (.limitReached limit)

/-- A run whose turns at boundaries are those from the instructions stays on course. -/
theorem onCourse_of_turn (h : assemble settings source = .ok a)
    (hlabels : BranchesToLabels source a) {fetch : Machine μ → Fetch}
    (hturn : ∀ n m, a.IsBoundary m.pc →
      turn fetch n m = turn (fetchProgram (.ofAssembly a)) n m) (m : Machine μ) :
    OnCourse source a fetch m := by
  have hboundary : ∀ k m', after fetch k m = some m' → a.IsBoundary m'.pc := by
    intro k
    induction k with
    | zero =>
      intro m' hafter
      cases hafter
      exact Assembly.isBoundary_zero h
    | succ k ih =>
      intro m' hafter
      obtain ⟨m₁, hafter, hlast⟩ := after_succ.mp hafter
      have hturns := turns_fetchProgram h k m₁
      rw [← hturn k m₁ (ih m₁ hafter), hlast] at hturns
      cases hturns with
      | executed i hi hpc p hp => exact isBoundary_of_executed h hlabels hi hpc hp
  refine ⟨hboundary, ?_, ?_⟩
  · intro k m' m'' s i hafter hlast hmem hpc flag value hbranch htaken
    have hturns := turns_fetchProgram h k m'
    rw [← hturn k m' (hboundary k m' hafter), hlast] at hturns
    cases hturns with
    | executed j hj hpc' p hp =>
      cases List.inj_on_of_nodup_map (Assembly.contiguous h).nodup_addresses hj
        (List.of_mem_zip hmem).2 (hpc'.trans hpc.symm)
      exact (pc_of_taken h hlabels hmem hpc hp hbranch htaken).2
  · intro fuel o hrun
    obtain ⟨k, -, m', hafter, hlast⟩ := run_eq_some_iff.mp hrun
    have hturns := turns_fetchProgram h k m'
    rw [← hturn k m' (hboundary k m' hafter), hlast] at hturns
    cases hturns with
    | misaligned _ _ hfetch =>
      exact absurd hfetch (fetchProgram_of_isBoundary h (hboundary k m' hafter))
    | finished _ => exact .inl ⟨k, rfl⟩
    | limited limit _ _ _ _ _ => exact .inr ⟨limit, rfl⟩

/-- **A program that branches to labels only stays on course**, from its instructions and from its
bytes. -/
theorem onCourse (h : assemble settings source = .ok a) (hlabels : BranchesToLabels source a)
    (m : Machine μ) :
    OnCourse source a (fetchProgram (.ofAssembly a)) m ∧ OnCourse source a (fetchRom a.bytes) m :=
  ⟨onCourse_of_turn h hlabels (fun _ _ _ => rfl) m,
    onCourse_of_turn h hlabels
      (fun n m hm => turn_fetchRom_eq h n m (fetchProgram_of_isBoundary h hm)) m⟩

/-- A program that branches to its start. -/
theorem onCourse_of_loop :
    ∃ a, assemble {} "lo:\nBNE lo".toList = .ok a ∧
      BranchesToLabels "lo:\nBNE lo".toList a ∧
      OnCourse "lo:\nBNE lo".toList a (fetchRom a.bytes)
        ({ memory := Ram.zeroed } : Machine Ram) := by
  obtain ⟨a, ha, -, hinstructions, hwarnings⟩ := Assembly.exists_assemble_loop
  have hlabels : BranchesToLabels "lo:\nBNE lo".toList a := by
    unfold BranchesToLabels Assembly.statements
    rw [hinstructions, hwarnings]
    decide +kernel
  exact ⟨a, ha, hlabels, (onCourse ha hlabels _).2⟩

end Machine

end Micro65
