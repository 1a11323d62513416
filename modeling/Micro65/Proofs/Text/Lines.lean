import Micro65.Text.Line
/-!
# Lines replaced in place

`Text.mapLines` puts other lines in the place of the lines of a source and leaves every line ending
as it is. Lines that hold nothing apart, the source that comes out has the new lines under the old
numbers (`Text.filterMap_mapLines`), provided a new line brings no line feed with it and does not
end in a carriage return of its own (`Text.KeepsLines`).
-/

namespace Micro65

namespace Text

/-- The lines that the fields between the line feeds make. -/
def linesOf : List Text → List Text
  | [] => []
  | [last] => if last = [] then [] else [last]
  | field :: next :: fields => dropReturn field :: linesOf (next :: fields)

theorem linesOf_cons (field : Text) {fields : List Text} (h : fields ≠ []) :
    linesOf (field :: fields) = dropReturn field :: linesOf fields := by
  cases fields with
  | nil => exact absurd rfl h
  | cons next fields => rfl

theorem lines_eq_linesOf (source : Text) : lines source = linesOf (source.splitOn '\n') := by
  unfold lines
  induction source.splitOn '\n' with
  | nil => rfl
  | cons field fields ih =>
    cases fields with
    | nil => by_cases h : field = [] <;> simp [linesOf, h]
    | cons next fields => simpa [linesOf] using ih

/-- What is read from lines, where neither an empty line counts nor a carriage return at the end of
a line, is read from the fields between the line feeds. -/
theorem filterMap_linesOf {α : Type} {g : Nat → Text → Option α}
    (hnil : ∀ number, g number [] = none)
    (hreturn : ∀ number raw, g number (dropReturn raw) = g number raw) (fields : List Text)
    (number : Nat) :
    ((linesOf fields).zipIdx number).filterMap (fun x => g x.2 x.1) =
      (fields.zipIdx number).filterMap fun x => g x.2 x.1 := by
  fun_induction linesOf fields generalizing number with
  | case1 => rfl
  | case2 => simp [hnil]
  | case3 => rfl
  | case4 field next fields ih =>
    rw [List.zipIdx_cons, List.zipIdx_cons, List.filterMap_cons, List.filterMap_cons, hreturn, ih]

/-- The carriage return that belongs to a line ending, if there is one. -/
def returnOf (field : Text) : Text :=
  if field.getLast? = some '\r' then ['\r'] else []

/-- The fields between the line feeds with other lines in them. The first field has this number. -/
def mapFields (f : Nat → Text → Text) : Nat → List Text → List Text
  | _, [] => []
  | number, [last] => [if last = [] then [] else f number last]
  | number, field :: next :: fields =>
    (f number (dropReturn field) ++ returnOf field) :: mapFields f (number + 1) (next :: fields)

/-- The source with other lines in the place of its lines, and the same line endings. -/
def mapLines (f : Nat → Text → Text) (source : Text) : Text :=
  ['\n'].intercalate (mapFields f 1 (source.splitOn '\n'))

/-- New lines that stay lines: they have no line feed, and no carriage return at the end that
was not there before. -/
structure KeepsLines (f : Nat → Text → Text) : Prop where
  feed : ∀ number raw, '\n' ∉ raw → '\n' ∉ f number raw
  carriage : ∀ number raw, f number raw = raw ∨ (f number raw).getLast? ≠ some '\r'

section

variable {f : Nat → Text → Text} {number : Nat} {field : Text} {fields : List Text}

theorem mapFields_ne_nil (h : fields ≠ []) : mapFields f number fields ≠ [] := by
  match fields with
  | [] => exact absurd rfl h
  | [last] => exact List.cons_ne_nil _ _
  | field :: next :: fields => exact List.cons_ne_nil _ _

theorem mem_of_mem_dropReturn {c : Char} (h : c ∈ dropReturn field) : c ∈ field := by
  unfold dropReturn at h
  split at h
  · exact List.dropLast_subset _ h
  · exact h

theorem KeepsLines.not_mem_mapFields (hf : KeepsLines f) (h : ∀ field ∈ fields, '\n' ∉ field) :
    ∀ field ∈ mapFields f number fields, '\n' ∉ field := by
  fun_induction mapFields f number fields with
  | case1 => simp
  | case2 number last =>
    have hlast := hf.feed number last (h last (by simp))
    by_cases hnil : last = [] <;> simp [hnil, hlast]
  | case3 number field next fields ih =>
    have hfield := hf.feed number (dropReturn field) fun hmem =>
      h field (by simp) (mem_of_mem_dropReturn hmem)
    have hreturn : '\n' ∉ returnOf field := by
      unfold returnOf
      split <;> simp
    intro field' hmem
    rcases List.mem_cons.mp hmem with rfl | hmem
    · simp [hfield, hreturn]
    · exact ih (fun field'' hmem' => h field'' (List.mem_cons_of_mem _ hmem')) field' hmem

/-- The line endings are read as before. -/
theorem KeepsLines.dropReturn_append (hf : KeepsLines f) (number : Nat) (field : Text) :
    dropReturn (f number (dropReturn field) ++ returnOf field) = f number (dropReturn field) := by
  by_cases hreturn : field.getLast? = some '\r'
  · simp [returnOf, hreturn, dropReturn]
  · have hlast : (f number field).getLast? ≠ some '\r' := by
      rcases hf.carriage number field with hsame | hlast
      · rwa [hsame]
      · exact hlast
    simp [returnOf, hreturn, dropReturn, hlast]

variable {α : Type} {g : Nat → Text → Option α}

theorem KeepsLines.filterMap_mapFields (hf : KeepsLines f) (hg : ∀ number, g number [] = none) :
    ((linesOf (mapFields f number fields)).zipIdx number).filterMap (fun x => g x.2 x.1) =
      ((linesOf fields).zipIdx number).filterMap fun x => g x.2 (f x.2 x.1) := by
  fun_induction mapFields f number fields with
  | case1 => rfl
  | case2 number last =>
    by_cases hlast : last = []
    · simp [hlast, linesOf]
    · by_cases hnil : f number last = []
      · simp [hlast, hnil, linesOf, hg]
      · simp only [hlast, hnil, linesOf, if_false]
        rfl
  | case3 number field next fields ih =>
    rw [linesOf_cons _ (mapFields_ne_nil (List.cons_ne_nil _ _)),
      linesOf_cons _ (List.cons_ne_nil _ _), hf.dropReturn_append, List.zipIdx_cons,
      List.zipIdx_cons, List.filterMap_cons, List.filterMap_cons, ih]

end

theorem not_mem_of_mem_splitOn {c : Char} {t field : Text} (h : field ∈ t.splitOn c) :
    c ∉ field := by
  induction t generalizing field with
  | nil => simp_all
  | cons d t ih =>
    rw [List.splitOn_cons_eq_if_modifyHead] at h
    obtain ⟨first, rest, hsplit⟩ := List.exists_cons_of_ne_nil (List.splitOn_ne_nil c t)
    rw [hsplit] at ih h
    by_cases hd : d = c
    · simp only [hd, beq_self_eq_true, if_true, List.mem_cons] at h
      rcases h with rfl | h
      · exact List.not_mem_nil
      · exact ih (List.mem_cons.mpr h)
    · simp only [beq_iff_eq, hd, if_false, List.modifyHead_cons, List.mem_cons] at h
      rcases h with rfl | h
      · simpa [Ne.symm hd] using ih List.mem_cons_self
      · exact ih (List.mem_cons_of_mem _ h)

/-- The first field of a text ends at the first separator. -/
theorem splitOn_append_cons {c : Char} {s : Text} (h : c ∉ s) (t : Text) :
    (s ++ c :: t).splitOn c = s :: t.splitOn c := by
  have hs : ∀ d ∈ s, (d == c) = false := by
    intro d hd
    rw [beq_eq_false_iff_ne]
    rintro rfl
    exact h hd
  rw [List.splitOn_eq_splitOnP, List.splitOnP_append_cons_of_forall_mem hs c (by simp),
    ← List.splitOn_eq_splitOnP]

/-- A line feed ends a line. -/
theorem lines_append_feed {line : Text} (h : '\n' ∉ line) (rest : Text) :
    lines (line ++ '\n' :: rest) = dropReturn line :: lines rest := by
  rw [lines_eq_linesOf, splitOn_append_cons h, linesOf_cons _ (List.splitOn_ne_nil _ _),
    ← lines_eq_linesOf]

/-- **The new lines stand under the numbers of the old ones**, where what holds nothing does not
count. -/
theorem filterMap_mapLines {α : Type} {f : Nat → Text → Text} {g : Nat → Text → Option α}
    (hf : KeepsLines f) (hg : ∀ number, g number [] = none) (source : Text) :
    ((lines (mapLines f source)).zipIdx 1).filterMap (fun x => g x.2 x.1) =
      ((lines source).zipIdx 1).filterMap fun x => g x.2 (f x.2 x.1) := by
  have hfields : (mapLines f source).splitOn '\n' = mapFields f 1 (source.splitOn '\n') :=
    List.splitOn_intercalate '\n' (hf.not_mem_mapFields fun _ => not_mem_of_mem_splitOn)
      (mapFields_ne_nil (List.splitOn_ne_nil _ _))
  rw [lines_eq_linesOf, lines_eq_linesOf, hfields, hf.filterMap_mapFields hg]

end Text

end Micro65
