import Micro65.Proofs.Statement.Span
import Micro65.Proofs.Text.Lines
/-!
# Sources put together

The lines of two sources with a line feed between them are the lines of the first and then
those of the second (`Line.ofSource_append`). The last line of the first source may get a new
ending: a carriage return at its end was blank before and belongs to the line feed now. The
line reads the same (`Line.ofText?_dropReturn`), and a last line that is empty holds nothing,
whether it counts or not.
-/

namespace Micro65

namespace Text

/-- Recursion over the lines of a text: what holds of a text without line feeds, and of a text
whenever it holds behind its first line, holds of every text. -/
theorem line_induction {motive : Text → Prop} (last : ∀ line, '\n' ∉ line → motive line)
    (line : ∀ line rest, '\n' ∉ line → motive rest → motive (line ++ '\n' :: rest)) (t : Text) :
    motive t := by
  induction hn : t.length using Nat.strongRecOn generalizing t with
  | _ n ih =>
    by_cases hfeed : '\n' ∈ t
    · obtain ⟨first, rest, rfl, hfirst⟩ := List.eq_append_cons_of_mem hfeed
      refine line first rest hfirst (ih rest.length ?_ rest rfl)
      rw [← hn, List.length_append, List.length_cons]
      omega
    · exact last t hfeed

/-- A text without line feeds is one line, unless it is empty. -/
theorem lines_eq_singleton {t : Text} (h : '\n' ∉ t) : lines t = if t = [] then [] else [t] := by
  have hfields : t.splitOn '\n' = [t] := by
    rw [List.splitOn_eq_splitOnP]
    refine List.splitOnP_eq_singleton fun c hc => beq_false_of_ne ?_
    rintro rfl
    exact h hc
  rw [lines_eq_linesOf, hfields, linesOf]

/-- **The lines of two sources with a line feed between them** are those of the first and those of
the second, where neither an empty line counts nor a carriage return at the end of a line. -/
theorem filterMap_lines_append {α : Type} {g : Nat → Text → Option α}
    (hnil : ∀ number, g number [] = none)
    (hreturn : ∀ number raw, g number (dropReturn raw) = g number raw) (s t : Text) (number : Nat) :
    ((lines (s ++ '\n' :: t)).zipIdx number).filterMap (fun x => g x.2 x.1) =
      ((lines s).zipIdx number).filterMap (fun x => g x.2 x.1) ++
        ((lines t).zipIdx (number + s.count '\n' + 1)).filterMap fun x => g x.2 x.1 := by
  induction s using line_induction generalizing number with
  | last line hline =>
    rw [lines_append_feed hline, lines_eq_singleton hline, List.count_eq_zero_of_not_mem hline,
      List.zipIdx_cons, List.filterMap_cons, hreturn]
    by_cases hempty : line = []
    · simp [hempty, hnil]
    · cases hg : g number line <;> simp [hempty, hg]
  | line line rest hline ih =>
    have hcount : number + (line ++ '\n' :: rest).count '\n' + 1 =
        number + 1 + rest.count '\n' + 1 := by
      rw [List.count_append, List.count_eq_zero_of_not_mem hline, List.count_cons_self]
      omega
    rw [List.append_assoc, List.cons_append, lines_append_feed hline, lines_append_feed hline,
      hcount, List.zipIdx_cons, List.zipIdx_cons, List.filterMap_cons, List.filterMap_cons, ih]
    cases g number (dropReturn line) <;> simp

/-- A carriage return at the end of a line is blank. -/
theorem eq_append_of_dropReturn (t : Text) : ∃ v, t = dropReturn t ++ v ∧ AllBlank v ∧ ';' ∉ v := by
  unfold dropReturn
  split
  · rename_i hlast
    obtain ⟨before, rfl⟩ := List.getLast?_eq_some_iff.mp hlast
    exact ⟨['\r'], by simp, by simp [AllBlank]; decide, by simp⟩
  · exact ⟨[], by simp, by simp [AllBlank], by simp⟩

end Text

namespace Line

open Text (AllBlank)

/-- A text without a mark is not cut at it. -/
theorem forall_ne_of_not_mem {mark : Char} {t : Text} (h : mark ∉ t) :
    ∀ c ∈ t, decide (c ≠ mark) = true := by
  intro c hc
  rw [decide_eq_true_eq]
  rintro rfl
  exact h hc

/-- The first semicolon cuts a line into its code and its comment. -/
theorem codeOf_append_mark {code : Text} (h : ';' ∉ code) (comment : Text) :
    codeOf (code ++ ';' :: comment) = code ∧
      commentOf (code ++ ';' :: comment) = some (Text.trim comment) := by
  unfold codeOf commentOf
  rw [List.takeWhile_append_of_pos (forall_ne_of_not_mem h),
    List.dropWhile_append_of_pos (forall_ne_of_not_mem h)]
  simp

/-- A line without a semicolon is code. -/
theorem codeOf_eq_self {raw : Text} (h : ';' ∉ raw) : codeOf raw = raw ∧ commentOf raw = none := by
  unfold codeOf commentOf
  rw [List.takeWhile_eq_self_iff.mpr (forall_ne_of_not_mem h),
    List.dropWhile_eq_nil_iff.mpr (forall_ne_of_not_mem h)]
  exact ⟨rfl, rfl⟩

/-- **Blanks at the end of a line change nothing.** -/
theorem ofText?_append_of_allBlank (number : Nat) (raw : Text) {v : Text} (hv : AllBlank v)
    (hmark : ';' ∉ v) : ofText? number (raw ++ v) = ofText? number raw := by
  unfold ofText?
  by_cases hraw : ';' ∈ raw
  · obtain ⟨code, comment, rfl, hcode⟩ := List.eq_append_cons_of_mem hraw
    obtain ⟨hcodeOf, hcommentOf⟩ := codeOf_append_mark hcode comment
    obtain ⟨hcodeOf', hcommentOf'⟩ := codeOf_append_mark hcode (comment ++ v)
    rw [List.append_assoc, List.cons_append, hcodeOf, hcommentOf, hcodeOf', hcommentOf',
      Text.trim_append_of_allBlank comment hv]
  · obtain ⟨hcodeOf, hcommentOf⟩ := codeOf_eq_self hraw
    have hall : ';' ∉ raw ++ v := by
      rw [List.mem_append]
      exact fun h => h.elim hraw hmark
    obtain ⟨hcodeOf', hcommentOf'⟩ := codeOf_eq_self hall
    simp only [hcodeOf, hcommentOf, hcodeOf', hcommentOf', Text.trim_append_of_allBlank raw hv]
    split
    · rfl
    · rename_i hsolid
      -- A line that is not blank starts with the same blanks.
      rw [Text.takeWhile_append_of_trim_ne_nil hsolid v]

/-- A line reads the same with and without a carriage return at its end. -/
theorem ofText?_dropReturn (number : Nat) (raw : Text) :
    ofText? number (Text.dropReturn raw) = ofText? number raw := by
  obtain ⟨v, hraw, hv, hmark⟩ := Text.eq_append_of_dropReturn raw
  conv => rhs; rw [hraw]
  exact (ofText?_append_of_allBlank number _ hv hmark).symm

/-- **The lines of two sources with a line feed between them.** -/
theorem ofSource_append (s t : Text) :
    ofSource (s ++ '\n' :: t) = ofSource s ++
      ((Text.lines t).zipIdx (1 + s.count '\n' + 1)).filterMap fun (raw, number) =>
        ofText? number raw :=
  Text.filterMap_lines_append (fun _ => rfl) ofText?_dropReturn s t 1

end Line

end Micro65
