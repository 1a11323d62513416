import Micro65.Proofs.Assembly.Restored
/-!
# What is skipped for nothing

A line that was skipped is put back into the cleaned source, and the source is assembled without
skipping. All faults of the first pass are found in one layout, in which the lines at fault still
take room, so a branch may be skipped over a distance that the cleaned source does not have
(`Assembly.exists_skipped_not_rejected`). Such lines are exactly those at which nothing is wrong
without the bytes of the other lines that were skipped, and no other fault than one of the range can
come from these bytes (`Assembly.rejects_iff_not_crowded`).
-/

namespace Micro65

open Layout (Puts Runs addressBound)

namespace Assembly

variable {source : Text} {a : Assembly}

/-- The source in which the line of one warning is back, and nothing else that was skipped. -/
def restored (a : Assembly) (source : Text) (w : Warning) : Text :=
  source.cleaned (a.warnings.filter fun w' => w'.line ≠ w.line)

/-- Whether the line of a warning is at fault when it is back. -/
def Rejects (source : Text) (a : Assembly) (w : Warning) : Prop :=
  ∃ faults, assemble ⟨.byteOffset, .halt⟩ (a.restored source w) = .error faults ∧
    ∃ d ∈ faults, d.line = w.line

/-- A line is at fault if the pass that decides finds it at fault. -/
theorem rejects_iff (h : assemble ⟨.byteOffset, .skip⟩ source = .ok a) {w : Warning} :
    Rejects source a w ↔ w.line ∈ (Pass.ofEntries .byteOffset (Entry.retained
      (a.warnings.filter fun w' => w'.line ≠ w.line) (Line.ofSource source))).faultLines := by
  obtain ⟨-, -, hfaults⟩ := Pass.ofEntries_of_similar
    (Entry.forall₂_similar_cleaned fun _ => isSome_label?_of_skip h List.filter_sublist.subset)
  rw [← hfaults]
  constructor
  · rintro ⟨faults, hhalt, d, hd, hline⟩
    obtain ⟨-, rfl⟩ := assemble_halt_eq_error_iff.mp hhalt
    obtain ⟨x, hx, rfl⟩ := List.mem_map.mp hd
    exact List.mem_map.mpr ⟨x, hx, hline⟩
  · intro hmem
    obtain ⟨x, hx, hline⟩ := List.mem_map.mp hmem
    exact ⟨_, assemble_halt_eq_error_iff.mpr ⟨List.ne_nil_of_mem hx, rfl⟩, x.2.diagnostic,
      List.mem_map_of_mem (f := fun x : Entry × Failure => x.2.diagnostic) hx, hline⟩

/-- **A skipped line is at fault on its own**, exactly unless nothing is wrong with it without the
bytes that the other skipped lines took. Then its fault was one of the range. -/
theorem rejects_iff_not_crowded (source : Text) :
    ∃ a, assemble ⟨.byteOffset, .skip⟩ source = .ok a ∧
      ∀ w ∈ a.warnings, (Rejects source a w ↔ ¬ Crowded source a w) ∧
        (Crowded source a w → w.diagnostic.cause.isRange = true) := by
  have h := assemble_skip .byteOffset source
  generalize recover .byteOffset (Entry.ofLines (Line.ofSource source)) [] = a at h
  refine ⟨a, h, fun w hw => ⟨?_, isRange_of_crowded h hw⟩⟩
  rw [rejects_iff h]
  exact mem_faultLines_restored_iff h hw

/-! ## A branch that is skipped for nothing -/

/-- A branch to the last line, over forty-two instructions of three bytes and one that is at
fault. -/
def crowdedSource : Text :=
  "BNE far\n".toList ++ (List.replicate 42 "ROR $0000\n".toList).flatten ++
    "LDA nope\nfar:\n".toList

def branchFar : Statement := ⟨1, none, some ['B', 'N', 'E'], some ['f', 'a', 'r'], none, ⟨0, 7⟩⟩

def rotate (number : Nat) : Statement :=
  ⟨number, none, some ['R', 'O', 'R'], some ['$', '0', '0', '0', '0'], none, ⟨0, 9⟩⟩

def loadNope : Statement :=
  ⟨44, none, some ['L', 'D', 'A'], some ['n', 'o', 'p', 'e'], none, ⟨0, 8⟩⟩

def labelFar : Statement := ⟨45, some ['f', 'a', 'r'], none, none, none, ⟨0, 4⟩⟩

/-- The warning about the line at fault. -/
def skippedNope : Warning :=
  .lineSkipped (loadNope.diagnostic (.undefinedLabel ['n', 'o', 'p', 'e']))

/-- The warning about the branch. -/
def skippedFar : Warning :=
  .lineSkipped (branchFar.diagnostic (.branchTooFar ['f', 'a', 'r'] 129))

/-- Instructions of three bytes, the first of them with this index. -/
def rotates (index n : Nat) : List Entry :=
  (List.range' index n).map fun k => ⟨k, .ok (rotate (k + 1)), .whole⟩

theorem ofSource_crowdedSource : Entry.ofLines (Line.ofSource crowdedSource) =
    ⟨0, .ok branchFar, .whole⟩ ::
      (rotates 1 42 ++ [⟨43, .ok loadNope, .whole⟩, ⟨44, .ok labelFar, .whole⟩]) := by
  have h : Line.ofSource crowdedSource = .ok branchFar ::
      (((List.range' 2 42).map fun number => .ok (rotate number)) ++
        [.ok loadNope, .ok labelFar]) := by
    decide +kernel
  rw [h]
  rfl

theorem ofSource_cleaned_crowdedSource :
    Entry.ofLines (Line.ofSource (crowdedSource.cleaned [skippedNope])) =
      ⟨0, .ok branchFar, .whole⟩ :: (rotates 1 42 ++ [⟨43, .ok labelFar, .whole⟩]) := by
  have h : Line.ofSource (crowdedSource.cleaned [skippedNope]) = .ok branchFar ::
      (((List.range' 2 42).map fun number => .ok (rotate number)) ++ [.ok labelFar]) := by
    decide +kernel
  rw [h]
  rfl

/-- The labels of the source, with this value for the only one. -/
def farAt (x : Nat) : SymbolTable :=
  (∅ : SymbolTable).push ⟨['f', 'a', 'r'], UInt16.ofNat x, 45⟩

theorem find?_farAt (x : Nat) (name : Text) : (farAt x).find? name =
    if ['f', 'a', 'r'] = name then some ⟨['f', 'a', 'r'], UInt16.ofNat x, 45⟩ else none :=
  SymbolTable.find?_push_empty _ name

theorem size?_branchFar : branchFar.size? .byteOffset = some 2 := by decide +kernel

theorem size?_loadNope : loadNope.size? .byteOffset = some 3 := by decide +kernel

theorem size?_rotate (number : Nat) : (rotate number).size? .byteOffset = some 3 :=
  show (rotate 0).size? .byteOffset = some 3 by decide +kernel

theorem names_rotate (number : Nat) : (rotate number).names = [] :=
  show (rotate 0).names = [] by decide +kernel

theorem puts_branchFar :
    Puts .byteOffset 0 ∅ ⟨0, .ok branchFar, .whole⟩ (.placed (UInt16.ofNat 0)) 2 ∅ :=
  Layout.puts_of_size? rfl rfl size?_branchFar (by decide) (by decide)

theorem puts_labelFar {index x : Nat} (h : x < addressBound) :
    Puts .byteOffset x ∅ ⟨index, .ok labelFar, .whole⟩ .bare x (farAt x) :=
  .bare labelFar _ (.labelled _ rfl h (SymbolTable.find?_empty _)) rfl

theorem standsAlone_rotate (index number : Nat) :
    Pass.StandsAlone .byteOffset ⟨index, .ok (rotate number), .whole⟩ 3 := by
  refine .statement rfl rfl (size?_rotate number) fun table address => ?_
  exact Statement.exists_instruction_eq_ok (by rw [size?_rotate]; rfl) (by simp [names_rotate])

/-- Instructions without names take their room and have no fault. -/
theorem exists_runs_rotates (n : Nat) {index x : Nat} (t : SymbolTable)
    (h : x + 3 * n ≤ addressBound) :
    ∃ placements, Runs .byteOffset x t (rotates index n) placements (x + 3 * n) t ∧
      ∀ table entries lower,
        (Pass.judge .byteOffset table (rotates index n ++ entries) (placements ++ lower)).failures =
          (Pass.judge .byteOffset table entries lower).failures := by
  have halone :
      List.Forall₂ (Pass.StandsAlone .byteOffset) (rotates index n) (List.replicate n 3) := by
    unfold rotates
    rw [List.forall₂_map_left_iff]
    induction n generalizing index with
    | zero => exact .nil
    | succ n ih => exact .cons (standsAlone_rotate index (index + 1)) (ih (by omega))
  have hsum : 3 * n = (List.replicate n 3).sum := by
    rw [List.sum_replicate_nat, Nat.mul_comm]
  rw [hsum] at h ⊢
  exact Pass.exists_runs_of_standsAlone halone t h

/-- Over the line at fault the branch is too long. -/
theorem branchFar_fails : branchFar.instruction .byteOffset (farAt 131) (UInt16.ofNat 0) =
    .error (.branchTooFar ['f', 'a', 'r'] 129) := by
  unfold Statement.instruction LabelRule.reference
  simp only [find?_farAt]
  decide +kernel

/-- Without the line at fault it is not. -/
theorem branchFar_reads : branchFar.instruction .byteOffset (farAt 128) (UInt16.ofNat 0) =
    .ok ⟨.bne, .relative, some 0x7E, 0, 1⟩ := by
  unfold Statement.instruction LabelRule.reference
  simp only [find?_farAt]
  decide +kernel

theorem loadNope_fails : loadNope.instruction .byteOffset (farAt 131) (UInt16.ofNat 128) =
    .error (.undefinedLabel ['n', 'o', 'p', 'e']) := by
  unfold Statement.instruction LabelRule.reference
  simp only [find?_farAt]
  decide +kernel

/-- The branch is skipped, and the line at fault. -/
theorem warnings_crowdedSource : (firstPass .byteOffset crowdedSource).warnings =
    [skippedFar, skippedNope] := by
  obtain ⟨placements, hruns, hjudge⟩ := @exists_runs_rotates 42 1 2 ∅ (by decide)
  have hload :
      Puts .byteOffset 128 ∅ ⟨43, .ok loadNope, .whole⟩ (.placed (UInt16.ofNat 128)) 131 ∅ :=
    Layout.puts_of_size? rfl rfl size?_loadNope (by decide) (by decide)
  have hlabel : Puts .byteOffset 131 ∅ ⟨44, .ok labelFar, .whole⟩ .bare 131 (farAt 131) :=
    puts_labelFar (by decide)
  have hpass := Pass.ofEntries_of_runs
    (Runs.cons puts_branchFar (hruns.append (.cons hload (.cons hlabel .nil))))
  have hbranch : Entry.verdict .byteOffset (farAt 131) ⟨0, .ok branchFar, .whole⟩
      (.placed (UInt16.ofNat 0)) =
        .error (.ofInstruction branchFar (.branchTooFar ['f', 'a', 'r'] 129)) := by
    simp only [Entry.verdict, branchFar_fails]
  have hnope : Entry.verdict .byteOffset (farAt 131) ⟨43, .ok loadNope, .whole⟩
      (.placed (UInt16.ofNat 128)) =
        .error (.ofInstruction loadNope (.undefinedLabel ['n', 'o', 'p', 'e'])) := by
    simp only [Entry.verdict, loadNope_fails]
  unfold Pass.warnings firstPass
  rw [ofSource_crowdedSource, hpass, Pass.failures_judge_of_error hbranch, hjudge,
    Pass.failures_judge_of_error hnope, Pass.failures_judge_of_ok (i := none) rfl]
  rfl

/-- With the branch back and the line at fault left out, nothing is wrong. -/
theorem failures_cleaned_crowdedSource :
    (Pass.ofEntries .byteOffset
      (Entry.ofLines (Line.ofSource (crowdedSource.cleaned [skippedNope])))).failures = [] := by
  obtain ⟨placements, hruns, hjudge⟩ := @exists_runs_rotates 42 1 2 ∅ (by decide)
  have hlabel : Puts .byteOffset 128 ∅ ⟨43, .ok labelFar, .whole⟩ .bare 128 (farAt 128) :=
    puts_labelFar (by decide)
  have hpass := Pass.ofEntries_of_runs
    (Runs.cons puts_branchFar (hruns.append (.cons hlabel .nil)))
  have hbranch : Entry.verdict .byteOffset (farAt 128) ⟨0, .ok branchFar, .whole⟩
      (.placed (UInt16.ofNat 0)) = .ok (some ⟨.bne, .relative, some 0x7E, 0, 1⟩) := by
    simp only [Entry.verdict, branchFar_reads]
  rw [ofSource_cleaned_crowdedSource, hpass, Pass.failures_judge_of_ok hbranch, hjudge,
    Pass.failures_judge_of_ok (i := none) rfl]
  rfl

/-- **A branch is skipped that is not at fault on its own.** -/
theorem exists_skipped_not_rejected :
    ∃ a, assemble ⟨.byteOffset, .skip⟩ crowdedSource = .ok a ∧
      ∃ w ∈ a.warnings, ¬ Rejects crowdedSource a w := by
  have h := assemble_skip .byteOffset crowdedSource
  generalize recover .byteOffset (Entry.ofLines (Line.ofSource crowdedSource)) [] = a at h
  have hwarnings := warnings_crowdedSource
  rw [← (warnings_skip h).1] at hwarnings
  refine ⟨a, h, skippedFar, by simp [hwarnings], ?_⟩
  rintro ⟨faults, hfaults, -⟩
  have hrestored : a.restored crowdedSource skippedFar = crowdedSource.cleaned [skippedNope] := by
    unfold restored
    rw [hwarnings]
    rfl
  rw [hrestored] at hfaults
  exact (assemble_halt_eq_error_iff.mp hfaults).1 failures_cleaned_crowdedSource

end Assembly

end Micro65
