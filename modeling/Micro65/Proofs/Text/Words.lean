import Micro65.Proofs.Text.Blank
/-!
# The words of a text

A text is blanks, its first word, and a rest that starts with a blank or is empty and has the other
words (`Text.words_cases`). A trimmed text is therefore its words with blanks between them; this is
said for one word (`Text.eq_of_words_eq_singleton`) and for two (`Text.eq_of_words_eq_pair`), which
is what an operand consists of.
-/

namespace Micro65

namespace Text

/-- What stands at the start of a trimmed text is not blank. -/
def StartsSolid (t : Text) : Prop :=
  ∀ c ∈ t.head?, isBlank c = false

theorem startsSolid_trimStart (t : Text) : StartsSolid (trimStart t) :=
  fun _ hc => eq_false_of_mem_head?_dropWhile hc

theorem startsSolid_trim (t : Text) : StartsSolid (trim t) := by
  obtain ⟨v, hstart, -⟩ := exists_trimStart_eq t
  intro c hc
  refine startsSolid_trimStart t c ?_
  rw [hstart, Option.mem_def, List.head?_append, Option.mem_def.mp hc]
  rfl

theorem StartsSolid.eq_nil {u t : Text} (h : StartsSolid (u ++ t)) (hu : AllBlank u) : u = [] := by
  cases u with
  | nil => rfl
  | cons c u =>
    have hc := h c rfl
    rw [hu c List.mem_cons_self] at hc
    cases hc

theorem EndsSolid.eq_nil {t v : Text} (h : EndsSolid (t ++ v)) (hv : AllBlank v) : v = [] := by
  by_contra hne
  obtain ⟨c, hc⟩ : ∃ c, v.getLast? = some c := ⟨_, List.getLast?_eq_some_getLast hne⟩
  have hsolid := h.of_append c hc
  rw [hv c (List.mem_of_getLast? hc)] at hsolid
  cases hsolid

theorem words_append_of_allBlank {u : Text} (hu : AllBlank u) (t : Text) :
    words (u ++ t) = words t := by
  induction u with
  | nil => rfl
  | cons c u ih =>
    obtain ⟨hc, hu⟩ := List.forall_mem_cons.mp hu
    unfold words at ih ⊢
    rw [List.cons_append, List.splitOnP_cons_eq_if_modifyHead, if_pos hc,
      List.filter_cons_of_neg (by simp)]
    exact ih hu

/-- A word is cut off at the blank behind it. -/
theorem words_append_word {w : Text} (hne : w ≠ []) (hw : ∀ c ∈ w, isBlank c = false) {rest : Text}
    (hrest : ∀ c ∈ rest.head?, isBlank c = true) : words (w ++ rest) = w :: words rest := by
  cases rest with
  | nil =>
    unfold words
    rw [List.append_nil, List.splitOnP_eq_singleton hw, List.splitOnP_nil]
    simp [hne]
  | cons c rest =>
    have hc : isBlank c = true := hrest c rfl
    have hcons : words (c :: rest) = words rest :=
      words_append_of_allBlank (u := [c]) (by simpa [AllBlank] using hc) rest
    rw [hcons]
    unfold words
    rw [List.splitOnP_append_cons_of_forall_mem hw c hc,
      List.filter_cons_of_pos (by simpa using hne)]

/-- A text is blanks, its first word and a rest, which has the other words, or it is blank. -/
theorem words_cases (t : Text) :
    (AllBlank t ∧ words t = []) ∨ ∃ u w rest, t = u ++ w ++ rest ∧ AllBlank u ∧
      (∀ c ∈ w, isBlank c = false) ∧ words t = w :: words rest := by
  have hstart := takeWhile_append_trimStart t
  have hwords : words t = words (trimStart t) := by
    conv => lhs; rw [← hstart]
    exact words_append_of_allBlank (allBlank_takeWhile t) _
  cases htrim : trimStart t with
  | nil =>
    left
    rw [htrim, List.append_nil] at hstart
    rw [hwords, htrim]
    exact ⟨hstart ▸ allBlank_takeWhile t, rfl⟩
  | cons c more =>
    right
    have hc : isBlank c = false := startsSolid_trimStart t c (by rw [htrim]; rfl)
    have hsplit := List.takeWhile_append_dropWhile (p := fun c => !isBlank c) (l := c :: more)
    have hw : ∀ d ∈ (c :: more).takeWhile (fun c => !isBlank c), isBlank d = false := by
      intro d hd
      simpa using List.all_eq_true.mp List.all_takeWhile d hd
    have hrest : ∀ d ∈ ((c :: more).dropWhile (fun c => !isBlank c)).head?, isBlank d = true := by
      intro d hd
      simpa using eq_false_of_mem_head?_dropWhile hd
    have hne : (c :: more).takeWhile (fun c => !isBlank c) ≠ [] := by simp [hc]
    generalize (c :: more).takeWhile (fun c => !isBlank c) = w at hsplit hw hne
    generalize (c :: more).dropWhile (fun c => !isBlank c) = rest at hsplit hrest
    refine ⟨_, w, rest, ?_, allBlank_takeWhile t, hw, ?_⟩
    · rw [List.append_assoc, hsplit, ← htrim, hstart]
    · rw [hwords, htrim, ← hsplit]
      exact words_append_word hne hw hrest

/-- A trimmed text with one word is this word. -/
theorem eq_of_words_eq_singleton {t w : Text} (hstart : StartsSolid t) (hend : EndsSolid t)
    (h : words t = [w]) : t = w ∧ ∀ c ∈ w, isBlank c = false := by
  obtain ⟨-, hnil⟩ | ⟨u, w', rest, rfl, hu, hw, hwords⟩ := words_cases t
  · rw [hnil] at h
    cases h
  · rw [hwords] at h
    obtain ⟨rfl, hrest⟩ := List.cons.inj h
    obtain ⟨hblank, -⟩ | ⟨_, _, _, -, -, -, hmore⟩ := words_cases rest
    · rw [List.append_assoc] at hstart
      obtain rfl := hstart.eq_nil hu
      obtain rfl := hend.eq_nil hblank
      exact ⟨by simp, hw⟩
    · rw [hmore] at hrest
      cases hrest

/-- A trimmed text with two words is these words with blanks between them. -/
theorem eq_of_words_eq_pair {t w w' : Text} (hstart : StartsSolid t) (hend : EndsSolid t)
    (h : words t = [w, w']) : ∃ gap, t = w ++ gap ++ w' ∧ AllBlank gap ∧
      ∀ c ∈ w', isBlank c = false := by
  obtain ⟨-, hnil⟩ | ⟨u, w₁, rest, rfl, hu, -, hwords⟩ := words_cases t
  · rw [hnil] at h
    cases h
  · rw [hwords] at h
    obtain ⟨rfl, hrest⟩ := List.cons.inj h
    obtain ⟨-, hnil⟩ | ⟨gap, w₂, rest', rfl, hgap, hw, hmore⟩ := words_cases rest
    · rw [hnil] at hrest
      cases hrest
    · rw [hmore] at hrest
      obtain ⟨rfl, hrest⟩ := List.cons.inj hrest
      obtain ⟨hblank, -⟩ | ⟨_, _, _, -, -, -, hmore'⟩ := words_cases rest'
      · rw [List.append_assoc] at hstart
        obtain rfl := hstart.eq_nil hu
        rw [← List.append_assoc] at hend
        obtain rfl := hend.eq_nil hblank
        exact ⟨gap, by simp, hgap, hw⟩
      · rw [hmore'] at hrest
        cases hrest

end Text

end Micro65
