import Mathlib.Data.List.TakeWhile
import Micro65.Proofs.Operand.Names
import Micro65.Proofs.Text.Utf8
/-!
# The pieces of a token

A token can be cut in one way only into pieces that are of their kinds and as long as they can be
(`Piece.cuts_iff`), and scanning finds this cut. Looking at the bytes of the token from the left
finds it too: a byte tells whether a numeral or an identifier starts or goes on, because all their
characters are in ASCII, and how many bytes any other character has. Every stretch found in this way
is a piece and lies between characters (`Piece.forall₂_slices`).

Replacing the identifiers of a token calls for one after the other, and for nothing else, until a
call fails (`Piece.Calls`). The callback may keep a state of its own, so what is said holds of the
order and the number of the calls as well as of what they answer. If none fails, the token is
rebuilt from its pieces with the answers in the places of the identifiers
(`Piece.exists_calls_substitute`).
-/

namespace Micro65

namespace Piece

/-! ## The cut -/

/-- A piece whose text is of its kind. -/
inductive WellFormed : Piece → Prop
  | numeral (c : Char) (rest : Text) (hc : startsNumeral c = true)
      (hrest : ∀ d ∈ rest, d.isAlphanum = true) : WellFormed (.numeral (c :: rest))
  | identifier (c : Char) (rest : Text) (hc : startsIdentifier c = true)
      (hrest : ∀ d ∈ rest, Label.isNameChar d = true) : WellFormed (.identifier (c :: rest))
  | other (c : Char) (hc : isSeparator c = true) : WellFormed (.other c)

/-- Whether the piece would go on with this character. -/
def takes : Piece → Char → Bool
  | numeral _, c => c.isAlphanum
  | identifier _, c => Label.isNameChar c
  | other _, _ => false

/-- A text is cut into pieces that are of their kinds and as long as they can be. -/
inductive Cuts : List Piece → Text → Prop
  | nil : Cuts [] []
  | cons {p : Piece} {ps : List Piece} {rest : Text} (hp : p.WellFormed)
      (hstop : ∀ c ∈ rest.head?, p.takes c = false) (h : Cuts ps rest) :
      Cuts (p :: ps) (p.text ++ rest)

/-- A numeral and an identifier start with different characters. -/
theorem startsNumeral_eq_false_of_startsIdentifier {c : Char} (h : startsIdentifier c = true) :
    startsNumeral c = false := by
  have halpha : c.isAlpha = (decide (c.val ≥ 65 ∧ c.val ≤ 90) ||
    decide (c.val ≥ 97) && decide (c.val ≤ 122)) := rfl
  have hdigit : c.isDigit = (decide (c.val ≥ 48) && decide (c.val ≤ 57)) := rfl
  cases hc : startsNumeral c with
  | false => rfl
  | true =>
    simp only [startsNumeral, startsIdentifier, Bool.or_eq_true, decide_eq_true_eq] at h hc
    rcases hc with (rfl | rfl) | hc
    · exact absurd h (by decide)
    · exact absurd h (by decide)
    · simp only [hdigit, halpha, Bool.or_eq_true, Bool.and_eq_true, decide_eq_true_eq, ge_iff_le,
        UInt32.le_iff_toNat_le] at h hc
      rcases h with h | rfl
      · change (65 ≤ c.toNat ∧ c.toNat ≤ 90) ∨ 97 ≤ c.toNat ∧ c.toNat ≤ 122 at h
        change 48 ≤ c.toNat ∧ c.toNat ≤ 57 at hc
        omega
      · exact absurd hc (by decide)

/-- A run of characters of a class ends where a character outside the class follows. -/
theorem takeWhile_append_of_stop {p : Char → Bool} {s t : Text} (hs : ∀ c ∈ s, p c = true)
    (ht : ∀ c ∈ t.head?, p c = false) :
    (s ++ t).takeWhile p = s ∧ (s ++ t).dropWhile p = t := by
  rw [List.takeWhile_append_of_pos hs, List.dropWhile_append_of_pos hs]
  cases t with
  | nil => simp
  | cons c t => simp [ht c rfl]

/-- A piece that is of its kind is the first of every text in which it does not go on. -/
theorem pieces_text_append {p : Piece} {rest : Text} (hp : p.WellFormed)
    (hstop : ∀ c ∈ rest.head?, p.takes c = false) : pieces (p.text ++ rest) = p :: pieces rest := by
  cases hp with
  | numeral c more hc hmore =>
    obtain ⟨htake, hdrop⟩ := takeWhile_append_of_stop hmore hstop
    simp only [text, List.cons_append]
    rw [pieces_cons]
    unfold scan
    rw [if_pos hc, htake, hdrop]
  | identifier c more hc hmore =>
    obtain ⟨htake, hdrop⟩ := takeWhile_append_of_stop hmore hstop
    simp only [text, List.cons_append]
    rw [pieces_cons]
    unfold scan
    rw [if_neg (by simp [startsNumeral_eq_false_of_startsIdentifier hc]), if_pos hc, htake, hdrop]
  | other c hc =>
    simp only [text, List.cons_append, List.nil_append]
    rw [pieces_cons, scan_separator hc]

theorem wellFormed_scan (c : Char) (rest : Text) : (scan c rest).1.WellFormed := by
  have hrun : ∀ p : Char → Bool, ∀ d ∈ rest.takeWhile p, p d = true :=
    fun p d hd => List.all_eq_true.mp List.all_takeWhile d hd
  unfold scan
  split
  · rename_i hc
    exact .numeral c _ hc (hrun _)
  · split
    · rename_i hc
      exact .identifier c _ hc (hrun _)
    · rename_i hnumeral hidentifier
      exact .other c (by simp [isSeparator, hnumeral, hidentifier])

/-- The first piece does not go on with what follows it. -/
theorem takes_scan (c : Char) (rest : Text) :
    ∀ d ∈ (scan c rest).2.head?, (scan c rest).1.takes d = false := by
  have hstop : ∀ p : Char → Bool, ∀ d ∈ (rest.dropWhile p).head?, p d = false :=
    fun _ _ hd => Text.eq_false_of_mem_head?_dropWhile hd
  unfold scan
  split
  · exact hstop _
  · split
    · exact hstop _
    · exact fun _ _ => rfl

/-- **There is one way to cut a token**, and it is the one in which it is scanned. -/
theorem cuts_iff {ps : List Piece} {token : Text} : Cuts ps token ↔ ps = pieces token := by
  constructor
  · intro h
    induction h with
    | nil => exact pieces_nil.symm
    | cons hp hstop _ ih => rw [pieces_text_append hp hstop, ih]
  · rintro rfl
    induction token using scan_induction with
    | nil =>
      rw [pieces_nil]
      exact .nil
    | cons c rest ih =>
      rw [pieces_cons, ← text_scan_append c rest]
      exact .cons (wellFormed_scan c rest) (takes_scan c rest) ih

/-! ## The cut of the bytes -/

theorem inAscii_startsNumeral : Text.InAscii startsNumeral := fun c hc =>
  (toNat_of_not_isSeparator (by simp [isSeparator, hc])).2

theorem inAscii_startsIdentifier : Text.InAscii startsIdentifier := fun c hc =>
  (toNat_of_not_isSeparator (by simp [isSeparator, hc])).2

theorem inAscii_isNameChar : Text.InAscii Label.isNameChar := by
  intro c hc
  refine (toNat_of_not_isSeparator (Bool.eq_false_iff.mpr fun hseparator => ?_)).2
  rw [isNameChar_eq_false_of_isSeparator hseparator] at hc
  cases hc

theorem inAscii_isAlphanum : Text.InAscii Char.isAlphanum := fun c hc =>
  inAscii_isNameChar c (by simp [Label.isNameChar, hc])

/-- Where the piece ends that starts at this byte of a token, told from the bytes. -/
def stop (bytes : List UInt8) (start : Nat) : Nat :=
  match bytes.drop start with
  | [] => start
  | lead :: rest =>
    let run (p : Char → Bool) := (rest.takeWhile fun b => p (Char.ofUInt8 b)).length
    if startsNumeral (Char.ofUInt8 lead) then start + 1 + run Char.isAlphanum
    else if startsIdentifier (Char.ofUInt8 lead) then start + 1 + run Label.isNameChar
    else start + Text.leadWidth lead

/-- The end of a piece is behind its start. -/
theorem lt_stop {bytes : List UInt8} {start : Nat} (h : start < bytes.length) :
    start < stop bytes start := by
  unfold stop
  cases hdrop : bytes.drop start with
  | nil => exact absurd (List.drop_eq_nil_iff.mp hdrop) (by omega)
  | cons lead rest =>
    have hwidth := Text.leadWidth_pos lead
    dsimp only
    split
    · omega
    · split <;> omega

/-- The stretches of bytes into which a token is cut from this byte on, told from the bytes. -/
def slices (bytes : List UInt8) (start : Nat) : List (Nat × Nat) :=
  if start < bytes.length then (start, stop bytes start) :: slices bytes (stop bytes start) else []
termination_by bytes.length - start
decreasing_by
  have := lt_stop ‹_›
  omega

theorem stop_utf8 (before : Text) (c : Char) (rest : Text) :
    stop (Text.utf8 (before ++ c :: rest)) (Text.byteLength before) =
      Text.byteLength (before ++ (scan c rest).1.text) := by
  obtain ⟨lead, others, hencode, hwidth, hlead⟩ := Text.encode_cases c
  have hnumeral := hlead _ inAscii_startsNumeral
  have hidentifier := hlead _ inAscii_startsIdentifier
  have hdrop : (Text.utf8 (before ++ c :: rest)).drop (Text.byteLength before) =
      lead :: (others ++ Text.utf8 rest) := by
    rw [Text.drop_utf8, Text.utf8_cons, hencode, List.cons_append]
  have hsize : c.utf8Size = 1 + others.length := by
    rw [← String.length_utf8EncodeChar, hencode, List.length_cons, Nat.add_comm]
  unfold stop scan
  rw [hdrop]
  simp only [hnumeral.1, hidentifier.1]
  split
  · rename_i hc
    obtain rfl := hnumeral.2 hc
    rw [List.nil_append, Text.takeWhile_utf8 inAscii_isAlphanum, Text.length_utf8]
    simp [text, hsize, Nat.add_assoc]
  · split
    · rename_i hc
      obtain rfl := hidentifier.2 hc
      rw [List.nil_append, Text.takeWhile_utf8 inAscii_isNameChar, Text.length_utf8]
      simp [text, hsize, Nat.add_assoc]
    · simp [text, hwidth]

/-- A stretch of the bytes of a token that holds a piece: it is not empty, it starts and ends
between characters, and its bytes are those of the piece. -/
structure IsSlice (token : Text) (p : Piece) (slice : Nat × Nat) : Prop where
  lt : slice.1 < slice.2
  start : token.IsBoundary slice.1
  stop : token.IsBoundary slice.2
  bytes_eq : (token.utf8.take slice.2).drop slice.1 = p.text.utf8

/-- **The bytes of a token are cut between characters**, into the bytes of its pieces. -/
theorem forall₂_slices (before token : Text) :
    List.Forall₂ (IsSlice (before ++ token)) (pieces token)
      (slices (before ++ token).utf8 before.byteLength) := by
  induction token using scan_induction generalizing before with
  | nil =>
    rw [pieces_nil, List.append_nil, slices, if_neg (by simp)]
    exact .nil
  | cons c rest ih =>
    have hsplit : before ++ c :: rest = before ++ (scan c rest).1.text ++ (scan c rest).2 := by
      rw [List.append_assoc, text_scan_append]
    have hstart : before.byteLength < (before ++ c :: rest).utf8.length := by
      have hpos := c.utf8Size_pos
      simp only [Text.length_utf8, Text.byteLength_append, Text.byteLength_cons]
      omega
    rw [pieces_cons, slices, if_pos hstart]
    have hstop := lt_stop hstart
    rw [stop_utf8] at hstop ⊢
    refine .cons ⟨hstop, ⟨before, _, rfl, rfl⟩, ⟨_, _, hsplit, rfl⟩, ?_⟩ ?_
    · rw [hsplit]
      exact Text.slice_utf8 _ _ _
    · rw [hsplit]
      exact ih _

/-! ## The calls -/

/-- The name in the piece, if it is an identifier. -/
def identifier? : Piece → Option Text
  | .identifier name => some name
  | .numeral _ | .other _ => none

/-- The text of pieces with these answers for their identifiers, one after the other. An identifier
without an answer is kept. -/
def rebuilt : List Piece → List (Option Text) → Text
  | .identifier name :: ps, answer :: answers => answer.getD name ++ rebuilt ps answers
  | p :: ps, answers => p.text ++ rebuilt ps answers
  | [], _ => []

end Piece

/-- The identifiers of a text, in order. -/
def Text.identifiers (t : Text) : List Text :=
  (Piece.pieces t).filterMap Piece.identifier?

section

variable {ε σ α β : Type}

/-- Two computations in a row: the second starts in the state that the first leaves,
unless the first fails. -/
theorem run_bind_of_ok {x : ExceptT ε (StateM σ) α} {f : α → ExceptT ε (StateM σ) β}
    {a : α} {s s' : σ} (h : x.run.run s = (.ok a, s')) :
    (x >>= f).run.run s = (f a).run.run s' := by
  simp only [ExceptT.run_bind, StateT.run_bind]
  rw [h]
  rfl

theorem run_bind_of_error {x : ExceptT ε (StateM σ) α} {f : α → ExceptT ε (StateM σ) β}
    {e : ε} {s s' : σ} (h : x.run.run s = (.error e, s')) :
    (x >>= f).run.run s = (.error e, s') := by
  simp only [ExceptT.run_bind, StateT.run_bind]
  rw [h]
  rfl

theorem run_mapM_cons_of_ok {f : α → ExceptT ε (StateM σ) β} {x : α} {xs : List α} {y : β}
    {ys : Except ε (List β)} {s s' s'' : σ} (hx : (f x).run.run s = (.ok y, s'))
    (hxs : (xs.mapM f).run.run s' = (ys, s'')) :
    ((x :: xs).mapM f).run.run s = (ys.map (y :: ·), s'') := by
  rw [List.mapM_cons, run_bind_of_ok hx]
  cases ys with
  | error e => exact run_bind_of_error hxs
  | ok ys =>
    rw [run_bind_of_ok hxs]
    rfl

end

namespace Piece

variable {ε σ : Type}

/-- What comes of calls for one name after the other, each in the state that the one before it has
left. The first call that fails is the last. -/
inductive Calls (replace : Text → ExceptT ε (StateM σ) (Option Text)) :
    List Text → σ → Except ε (List (Option Text)) → σ → Prop
  | done (s : σ) : Calls replace [] s (.ok []) s
  | failed {name : Text} {names : List Text} {s s' : σ} {e : ε}
      (h : (replace name).run.run s = (.error e, s')) :
      Calls replace (name :: names) s (.error e) s'
  | answered {name : Text} {names : List Text} {s s' s'' : σ} {answer : Option Text}
      {outcome : Except ε (List (Option Text))} (h : (replace name).run.run s = (.ok answer, s'))
      (hnext : Calls replace names s' outcome s'') :
      Calls replace (name :: names) s (outcome.map (answer :: ·)) s''

theorem map_flatten_map_cons {α β : Type} {texts : Except ε (List (List α))} {outcome : Except ε β}
    {f : β → List α} (h : texts.map List.flatten = outcome.map f) (x : List α) :
    (texts.map (x :: ·)).map List.flatten = outcome.map fun b => x ++ f b := by
  cases texts with
  | error e =>
    cases outcome with
    | error e' => exact h
    | ok b => cases h
  | ok texts =>
    cases outcome with
    | error e => cases h
    | ok b => exact congrArg (fun t => Except.ok (x ++ t)) (Except.ok.inj h)

/-- **The pieces of a text are replaced by calls for its identifiers**, and the text is
rebuilt with the answers. -/
theorem exists_calls (replace : Text → ExceptT ε (StateM σ) (Option Text)) (ps : List Piece)
    (s : σ) :
    ∃ outcome texts s', Calls replace (ps.filterMap identifier?) s outcome s' ∧
      (ps.mapM (substituted replace)).run.run s = (texts, s') ∧
      texts.map List.flatten = outcome.map (rebuilt ps) := by
  induction ps generalizing s with
  | nil => exact ⟨_, _, _, .done s, rfl, rfl⟩
  | cons p ps ih =>
    cases p with
    | numeral t =>
      obtain ⟨outcome, texts, s', hcalls, hrun, htexts⟩ := ih s
      exact ⟨outcome, texts.map (t :: ·), s', hcalls, run_mapM_cons_of_ok rfl hrun,
        map_flatten_map_cons htexts t⟩
    | other c =>
      obtain ⟨outcome, texts, s', hcalls, hrun, htexts⟩ := ih s
      exact ⟨outcome, texts.map ([c] :: ·), s', hcalls, run_mapM_cons_of_ok rfl hrun,
        map_flatten_map_cons htexts [c]⟩
    | identifier name =>
      cases hname : (replace name).run.run s with
      | mk result s' =>
        cases result with
        | error e =>
          refine ⟨.error e, .error e, s', .failed hname, ?_, rfl⟩
          rw [List.mapM_cons]
          exact run_bind_of_error (run_bind_of_error hname)
        | ok answer =>
          obtain ⟨outcome, texts, s'', hcalls, hrun, htexts⟩ := ih s'
          have hpiece : (substituted replace (.identifier name)).run.run s =
              (.ok (answer.getD name), s') := run_bind_of_ok hname
          refine ⟨outcome.map (answer :: ·), texts.map (answer.getD name :: ·), s'',
            .answered hname hcalls, run_mapM_cons_of_ok hpiece hrun, ?_⟩
          rw [map_flatten_map_cons htexts]
          cases outcome <;> rfl

/-- **A token is substituted by calls for its identifiers**, and is rebuilt with the answers. -/
theorem exists_calls_substitute (replace : Text → ExceptT ε (StateM σ) (Option Text)) (token : Text)
    (s : σ) :
    ∃ outcome s', Calls replace token.identifiers s outcome s' ∧
      (substitute replace token).run.run s =
        (outcome.map (rebuilt (pieces token)), s') := by
  obtain ⟨outcome, texts, s', hcalls, hrun, htexts⟩ := exists_calls replace (pieces token) s
  refine ⟨outcome, s', hcalls, ?_⟩
  unfold substitute
  rw [← htexts]
  cases texts with
  | error e => exact run_bind_of_error hrun
  | ok texts => exact run_bind_of_ok hrun

/-- Pieces whose identifiers are all kept have the text that they had. -/
theorem rebuilt_of_forall_none {answers : List (Option Text)}
    (h : ∀ answer ∈ answers, answer = none) (ps : List Piece) :
    rebuilt ps answers = ps.flatMap text := by
  induction ps generalizing answers with
  | nil => rfl
  | cons p ps ih =>
    rw [List.flatMap_cons]
    cases p with
    | numeral t => exact congrArg (t ++ ·) (ih h)
    | other c => exact congrArg ([c] ++ ·) (ih h)
    | identifier name =>
      cases answers with
      | nil => exact congrArg (name ++ ·) (ih h)
      | cons answer answers =>
        obtain rfl := h _ List.mem_cons_self
        exact congrArg (name ++ ·) (ih fun a ha => h a (List.mem_cons_of_mem _ ha))

/-- Calls that keep every name have nothing but kept names as their outcome. -/
theorem Calls.exists_of_keeps {replace : Text → ExceptT ε (StateM σ) (Option Text)}
    {names : List Text} {s s' : σ} {outcome : Except ε (List (Option Text))}
    (hkeeps : ∀ name s, ∃ s', (replace name).run.run s = (.ok none, s'))
    (h : Calls replace names s outcome s') :
    ∃ answers, outcome = .ok answers ∧ ∀ answer ∈ answers, answer = none := by
  induction h with
  | done s => exact ⟨[], rfl, by simp⟩
  | @failed name names s s' e h =>
    obtain ⟨s'', hname⟩ := hkeeps name s
    rw [h] at hname
    cases hname
  | @answered name names s s' s'' answer outcome h _ ih =>
    obtain ⟨s₁, hname⟩ := hkeeps name s
    rw [h] at hname
    cases hname
    obtain ⟨answers, rfl, hanswers⟩ := ih
    exact ⟨none :: answers, rfl, by simpa using hanswers⟩

/-- **What it is to read the pieces of a token faithfully.** -/
structure ReadsFaithfully (token : Text) : Prop where
  /-- No character is lost. -/
  flatMap_text : (pieces token).flatMap text = token
  /-- The pieces are the only ones of their kinds that are as long as they can be. -/
  cuts_iff : ∀ ps, Cuts ps token ↔ ps = pieces token
  /-- The bytes are cut into the same pieces, between characters. -/
  slices : List.Forall₂ (IsSlice token) (pieces token) (slices token.utf8 0)
  /-- A callback is called for the identifiers in order, up to its first failure, and the token is
  rebuilt with its answers. -/
  calls : ∀ {ε σ : Type} (replace : Text → ExceptT ε (StateM σ) (Option Text)) (s : σ),
    ∃ outcome s', Calls replace token.identifiers s outcome s' ∧
      (substitute replace token).run.run s =
        (outcome.map (rebuilt (pieces token)), s')
  /-- A callback that keeps all identifiers keeps the token. -/
  keeps : ∀ {ε σ : Type} (replace : Text → ExceptT ε (StateM σ) (Option Text)),
    (∀ name s, ∃ s', (replace name).run.run s = (.ok none, s')) →
      ∀ s, ∃ s', (substitute replace token).run.run s = (.ok token, s')

/-- **The pieces of every token are read faithfully.** -/
theorem readsFaithfully (token : Text) : ReadsFaithfully token where
  flatMap_text := flatMap_text_pieces token
  cuts_iff _ := cuts_iff
  slices := forall₂_slices [] token
  calls replace s := exists_calls_substitute replace token s
  keeps replace hkeeps s := by
    obtain ⟨outcome, s', hcalls, hrun⟩ := exists_calls_substitute replace token s
    obtain ⟨answers, rfl, hanswers⟩ := hcalls.exists_of_keeps hkeeps
    refine ⟨s', hrun.trans ?_⟩
    simp only [Except.map, rebuilt_of_forall_none hanswers, flatMap_text_pieces]

end Piece

end Micro65
