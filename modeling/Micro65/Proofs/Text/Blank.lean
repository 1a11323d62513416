import Mathlib.Data.List.TakeWhile
import Micro65.Text.Blank
/-!
# Blanks around a text

Trimming takes away blanks and nothing else (`Text.exists_eq_append_trim`). What it leaves does not
end in a blank (`Text.endsSolid_trim`), and a text that does not end in one is trimmed at its start
only (`Text.EndsSolid.trim_eq`). Blanks put behind a text are taken away again
(`Text.trim_append_of_allBlank`).
-/

namespace Micro65

namespace Text

theorem trim_of_forall {t : Text} (h : ∀ c ∈ t, isBlank c = false) : trim t = t := by
  have hdrop : ∀ u : Text, (∀ c ∈ u, isBlank c = false) → u.dropWhile isBlank = u := by
    intro u hu
    rw [List.dropWhile_eq_self_iff]
    intro hlength
    simp [hu _ (List.getElem_mem hlength)]
  unfold trim trimEnd trimStart
  rw [hdrop t h, hdrop t.reverse (by simpa using h), List.reverse_reverse]

/-- What is left behind a run of characters of a class does not start with one of them. -/
theorem eq_false_of_mem_head?_dropWhile {p : Char → Bool} {t : Text} {c : Char}
    (h : c ∈ (t.dropWhile p).head?) : p c = false := by
  have hhead := List.head?_dropWhile_not p t
  rw [Option.mem_def.mp h] at hhead
  exact hhead

/-- A text of blanks only. -/
def AllBlank (t : Text) : Prop :=
  ∀ c ∈ t, isBlank c = true

theorem allBlank_takeWhile (t : Text) : AllBlank (t.takeWhile isBlank) :=
  fun c hc => List.all_eq_true.mp List.all_takeWhile c hc

theorem allBlank_nil : AllBlank [] :=
  List.forall_mem_nil _

theorem AllBlank.append {s t : Text} (hs : AllBlank s) (ht : AllBlank t) : AllBlank (s ++ t) := by
  intro c hc
  rcases List.mem_append.mp hc with hc | hc
  · exact hs c hc
  · exact ht c hc

theorem AllBlank.not_mem {t : Text} (h : AllBlank t) {c : Char} (hc : isBlank c = false) :
    c ∉ t := by
  intro hmem
  rw [h c hmem] at hc
  cases hc

theorem takeWhile_append_trimStart (t : Text) : t.takeWhile isBlank ++ trimStart t = t :=
  List.takeWhile_append_dropWhile

/-- What trimming takes away at the end is blank. -/
theorem exists_trimStart_eq (t : Text) : ∃ v, trimStart t = trim t ++ v ∧ AllBlank v := by
  refine ⟨((trimStart t).reverse.takeWhile isBlank).reverse, ?_, ?_⟩
  · unfold trim trimEnd
    rw [← List.reverse_append, List.takeWhile_append_dropWhile, List.reverse_reverse]
  · intro c hc
    exact allBlank_takeWhile _ c (List.mem_reverse.mp hc)

/-- **What trimming takes away** stands around what it leaves, and is blank. -/
theorem exists_eq_append_trim (t : Text) :
    ∃ u v, t = u ++ trim t ++ v ∧ AllBlank u ∧ AllBlank v := by
  obtain ⟨v, htrim, hv⟩ := exists_trimStart_eq t
  refine ⟨t.takeWhile isBlank, v, ?_, allBlank_takeWhile t, hv⟩
  rw [List.append_assoc, ← htrim, takeWhile_append_trimStart]

/-- What stands at the end of a trimmed text is not blank. -/
def EndsSolid (t : Text) : Prop :=
  ∀ c, t.getLast? = some c → isBlank c = false

theorem endsSolid_trimEnd (t : Text) : EndsSolid (trimEnd t) := by
  intro c hc
  unfold trimEnd at hc
  rw [List.getLast?_reverse] at hc
  exact eq_false_of_mem_head?_dropWhile hc

theorem endsSolid_trim (t : Text) : EndsSolid (trim t) :=
  endsSolid_trimEnd (trimStart t)

theorem EndsSolid.of_append {s t : Text} (h : EndsSolid (s ++ t)) : EndsSolid t := by
  intro c hc
  refine h c ?_
  rw [List.getLast?_append, hc]
  rfl

/-- A text that does not end in a blank is trimmed at its start only. -/
theorem EndsSolid.trim_eq {t : Text} (h : EndsSolid t) : trim t = trimStart t := by
  have hend : EndsSolid (trimStart t) := by
    rw [← takeWhile_append_trimStart t] at h
    exact h.of_append
  unfold trim trimEnd
  cases hreverse : (trimStart t).reverse with
  | nil => rw [List.reverse_eq_nil_iff.mp hreverse]; rfl
  | cons c rest =>
    have hlast : (trimStart t).getLast? = some c := by
      rw [← List.head?_reverse, hreverse]
      rfl
    rw [List.dropWhile_cons_of_neg (by simp [hend c hlast]), ← hreverse, List.reverse_reverse]

/-- A text between two characters that are not blank is not trimmed. -/
theorem trim_eq_self {c d : Char} (hc : isBlank c = false) (t : Text) (hd : isBlank d = false) :
    trim (c :: (t ++ [d])) = c :: (t ++ [d]) := by
  have hend : EndsSolid (c :: (t ++ [d])) := by
    intro e he
    rw [← List.cons_append, List.getLast?_concat, Option.some.injEq] at he
    rwa [← he]
  rw [hend.trim_eq]
  exact List.dropWhile_cons_of_neg (by simp [hc])

/-- A text that does not end in a blank is not blank. -/
theorem EndsSolid.trimStart_ne_nil {t : Text} (h : EndsSolid t) (ht : t ≠ []) :
    trimStart t ≠ [] := by
  intro hnil
  have hblank : AllBlank t := by
    rw [← takeWhile_append_trimStart t, hnil, List.append_nil]
    exact allBlank_takeWhile t
  obtain ⟨c, hc⟩ : ∃ c, t.getLast? = some c := ⟨_, List.getLast?_eq_some_getLast ht⟩
  simpa [h c hc] using hblank c (List.mem_of_getLast? hc)

/-- Blanks at the end do not count. -/
theorem trim_append_of_allBlank (t : Text) {v : Text} (hv : AllBlank v) :
    trim (t ++ v) = trim t := by
  have hdrop : v.reverse.dropWhile isBlank = [] := by
    rw [List.dropWhile_eq_nil_iff]
    exact fun c hc => hv c (List.mem_reverse.mp hc)
  have hblank : trimStart v = [] := by
    unfold trimStart
    rw [List.dropWhile_eq_nil_iff]
    exact hv
  unfold trim trimStart
  rw [List.dropWhile_append]
  cases hstart : t.dropWhile isBlank with
  | nil =>
    unfold trimStart at hblank
    rw [if_pos (by simp), hblank]
  | cons c rest =>
    rw [if_neg (by simp), ← hstart]
    unfold trimEnd
    rw [List.reverse_append, List.dropWhile_append, hdrop]
    simp

/-- Blanks at the start do not count. -/
theorem trim_append_left {u : Text} (hu : AllBlank u) (t : Text) : trim (u ++ t) = trim t := by
  unfold trim trimStart
  rw [List.dropWhile_append_of_pos hu]

/-- Where a text is not blank, what follows does not change the blanks at its start. -/
theorem takeWhile_append_of_trim_ne_nil {t : Text} (h : trim t ≠ []) (v : Text) :
    (t ++ v).takeWhile isBlank = t.takeWhile isBlank := by
  rw [List.takeWhile_append, if_neg]
  intro hlength
  refine h ?_
  have hblank : t.dropWhile isBlank = [] := by
    have hsplit := congrArg List.length (List.takeWhile_append_dropWhile (p := isBlank) (l := t))
    rw [List.length_append] at hsplit
    exact List.length_eq_zero_iff.mp (by omega)
  unfold trim trimStart
  rw [hblank]
  rfl

end Text

end Micro65
