import Micro65.Proofs.Assembly.Recovery
import Micro65.Proofs.Statement.Joined
/-!
# A source is read line by line

The number of a line is all that its reading takes from the lines in front of it
(`Line.ofText?_add`), so two sources with a line feed between them are read one by one, and the
numbers of the second are counted on (`Line.ofSource_append_feed`). What stands in one line
therefore has no part in what is read from the others, a fault included
(`Line.Between.ofSource_eq`).
-/

namespace Micro65

namespace Line

/-- The same line or fault with this much added to the number of the line. -/
def renumber (k : Nat) : Line → Line
  | .ok s => .ok { s with line := s.line + k }
  | .error d => .error { d with line := d.line + k }

theorem renumber_renumber (j k : Nat) (l : Line) :
    renumber j (renumber k l) = renumber (k + j) l := by
  cases l <;> simp [renumber, Nat.add_assoc]

theorem statement_add (number k : Nat) (label comment : Option Text) (whole : Span) (start : Nat)
    (rest : Text) : statement (number + k) label comment whole start rest =
      { statement number label comment whole start rest with line := number + k } := by
  unfold statement
  split <;> rfl

theorem ofCode_add (number k : Nat) (comment : Option Text) (start : Nat) (code : Text) :
    ofCode (number + k) comment start code = renumber k (ofCode number comment start code) := by
  unfold ofCode
  simp only [statement_add number k]
  split
  · simp [renumber, line_statement]
  · split <;> simp [renumber, line_statement]

/-- **The number of a line is only written down.** -/
theorem ofText?_add (number k : Nat) (raw : Text) :
    ofText? (number + k) raw = (ofText? number raw).map (renumber k) := by
  unfold ofText?
  simp only [ofCode_add number k]
  split <;> rfl

/-- Lines that are counted from a later number. -/
theorem filterMap_zipIdx_add (lines : List Text) (number k : Nat) :
    ((lines.zipIdx (number + k)).filterMap fun (raw, number) => ofText? number raw) =
      ((lines.zipIdx number).filterMap fun (raw, number) => ofText? number raw).map
        (renumber k) := by
  induction lines generalizing number with
  | nil => rfl
  | cons raw lines ih =>
    have hnext : number + k + 1 = number + 1 + k := Nat.add_right_comm number k 1
    rw [List.zipIdx_cons, List.zipIdx_cons, List.filterMap_cons, List.filterMap_cons, hnext, ih]
    simp only [ofText?_add number k]
    cases ofText? number raw <;> rfl

/-- **Two sources with a line feed between them** are read one by one. -/
theorem ofSource_append_feed (s t : Text) :
    ofSource (s ++ '\n' :: t) = ofSource s ++ (ofSource t).map (renumber (s.count '\n' + 1)) := by
  rw [ofSource_append, Nat.add_assoc, filterMap_zipIdx_add]
  rfl

/-- A text without line feeds is read as one line. -/
theorem ofSource_of_not_mem {raw : Text} (h : '\n' ∉ raw) :
    ofSource raw = (ofText? 1 raw).toList := by
  unfold ofSource
  rw [Text.lines_eq_singleton h]
  by_cases hraw : raw = []
  · rw [hraw]
    rfl
  · rw [if_neg hraw]
    cases hread : ofText? 1 raw <;> simp [hread]

theorem ofSource_nil : ofSource [] = [] := by
  rw [ofSource_of_not_mem List.not_mem_nil]
  rfl

/-- Whether a line can stand between the two texts: the first one ends with a line feed and the
second one starts with one, unless they are empty. -/
structure Between (front back : Text) : Prop where
  front : ∀ c ∈ front.getLast?, c = '\n'
  back : ∀ c ∈ back.head?, c = '\n'

/-- The lines in front of a line, the line itself and the lines behind it. -/
theorem Between.ofSource_eq {front back raw : Text} (h : Between front back) (hraw : '\n' ∉ raw) :
    ofSource (front ++ raw ++ back) = ofSource front ++
      (ofText? (front.count '\n' + 1) raw).toList ++
        (ofSource back).map (renumber (front.count '\n')) := by
  have hfront : ofSource (front ++ raw) =
      ofSource front ++ (ofText? (front.count '\n' + 1) raw).toList := by
    rcases List.eq_nil_or_concat front with rfl | ⟨before, c, rfl⟩
    · exact ofSource_of_not_mem hraw
    · obtain rfl : c = '\n' := h.front c (by simp)
      have hread : ofText? (before.count '\n' + 1 + 1) raw =
          (ofText? 1 raw).map (renumber (before.count '\n' + 1)) := by
        rw [Nat.add_comm, ofText?_add]
      have hcount : (before ++ ['\n']).count '\n' = before.count '\n' + 1 := by simp
      rw [List.concat_eq_append, hcount, hread, List.append_assoc, List.singleton_append,
        ofSource_append_feed, ofSource_append_feed, ofSource_of_not_mem hraw, ofSource_nil,
        List.map_nil, List.append_nil, Option.toList_map]
  cases back with
  | nil => rw [List.append_nil, hfront, ofSource_nil, List.map_nil, List.append_nil]
  | cons c back =>
    obtain rfl : c = '\n' := h.back c rfl
    have hback : ofSource ('\n' :: back) = (ofSource back).map (renumber 1) := by
      have happend := ofSource_append_feed [] back
      rwa [List.nil_append, ofSource_nil, List.nil_append] at happend
    have hcount : (front ++ raw).count '\n' + 1 = 1 + front.count '\n' := by
      rw [List.count_append, List.count_eq_zero_of_not_mem hraw, Nat.add_comm, Nat.add_zero]
    rw [ofSource_append_feed, hfront, hback, hcount, List.map_map]
    congr 2
    exact funext fun l => (renumber_renumber (front.count '\n') 1 l).symm

/-- Entries in front of a line have smaller numbers, and entries behind it have larger ones. -/
theorem Between.numbers {front back : Text} (h : Between front back) :
    (∀ l ∈ ofSource front, l.number < front.count '\n' + 1) ∧
      ∀ l ∈ (ofSource back).map (renumber (front.count '\n')), front.count '\n' + 1 < l.number := by
  -- Whatever stands in the line, so a line with an entry shows it.
  obtain ⟨l, hl⟩ : ∃ l, ofText? (front.count '\n' + 1) ['a'] = some l := ⟨_, rfl⟩
  have hpairs := pairwise_ofSource (front ++ ['a'] ++ back)
  rw [h.ofSource_eq (by decide), hl, List.append_assoc, List.pairwise_append] at hpairs
  obtain ⟨-, hbehind, hcross⟩ := hpairs
  rw [← number_of_ofText? hl]
  exact ⟨fun l' hl' => hcross l' hl' l (by simp), (List.pairwise_cons.mp hbehind).1⟩

/-- **How a source is read.** -/
structure LineByLine : Prop where
  /-- Two sources with a line feed between them are read one by one, and the numbers of the second
  count on from the line feeds of the first. -/
  append : ∀ s t, ofSource (s ++ '\n' :: t) =
    ofSource s ++ (ofSource t).map (renumber (1 + s.count '\n'))
  /-- The numbers ascend. -/
  ascending : ∀ source, (ofSource source).Pairwise fun l l' => l.number < l'.number
  /-- What stands in a line is all that its own entry is read from, under its number. -/
  own : ∀ front raw back, Between front back → '\n' ∉ raw →
    (ofSource (front ++ raw ++ back)).filter (·.number = front.count '\n' + 1) =
      (ofText? (front.count '\n' + 1) raw).toList
  /-- Another text in a line, malformed or not, leaves all other entries as they are. -/
  others : ∀ front raw raw' back, Between front back → '\n' ∉ raw → '\n' ∉ raw' →
    (ofSource (front ++ raw ++ back)).filter (·.number ≠ front.count '\n' + 1) =
      (ofSource (front ++ raw' ++ back)).filter (·.number ≠ front.count '\n' + 1)

/-- **A source is read line by line.** -/
theorem lineByLine : LineByLine where
  append s t := by rw [ofSource_append_feed, Nat.add_comm]
  ascending := pairwise_ofSource
  own front raw back h hraw := by
    obtain ⟨hfront, hback⟩ := h.numbers
    have hfront' : (ofSource front).filter (·.number = front.count '\n' + 1) = [] :=
      List.filter_eq_nil_iff.mpr fun l hl => by simpa using Nat.ne_of_lt (hfront l hl)
    have hback' : ((ofSource back).map (renumber (front.count '\n'))).filter
        (·.number = front.count '\n' + 1) = [] :=
      List.filter_eq_nil_iff.mpr fun l hl => by simpa using Nat.ne_of_gt (hback l hl)
    have hself : (ofText? (front.count '\n' + 1) raw).toList.filter
        (·.number = front.count '\n' + 1) = (ofText? (front.count '\n' + 1) raw).toList :=
      List.filter_eq_self.mpr fun l hl => by simpa using number_of_ofText? (by simpa using hl)
    rw [h.ofSource_eq hraw, List.filter_append, List.filter_append, hfront', hback', hself,
      List.nil_append, List.append_nil]
  others front raw raw' back h hraw hraw' := by
    have hself : ∀ raw, (ofText? (front.count '\n' + 1) raw).toList.filter
        (·.number ≠ front.count '\n' + 1) = [] := by
      intro raw
      refine List.filter_eq_nil_iff.mpr fun l hl => ?_
      simpa using number_of_ofText? (by simpa using hl)
    rw [h.ofSource_eq hraw, h.ofSource_eq hraw', List.filter_append, List.filter_append,
      List.filter_append, List.filter_append, hself, hself]

end Line

end Micro65
