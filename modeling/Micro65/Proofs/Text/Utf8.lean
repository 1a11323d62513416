import Micro65.Text.Basic
/-!
# Texts as bytes

A text is written in UTF-8 character by character. A character of ASCII is one byte below 0x80 and
every other character starts with a byte that is not, so whether a character is in a class of ASCII
characters can be told from one byte (`Text.encode_cases`), and a run of such characters ends in the
bytes where it ends in the text (`Text.takeWhile_utf8`). An offset into the bytes is a boundary when
the bytes before it are whole characters (`Text.IsBoundary`).
-/

namespace Micro65

namespace Text

/-- The bytes of the text in UTF-8. -/
def utf8 (t : Text) : List UInt8 :=
  t.flatMap String.utf8EncodeChar

@[simp] theorem utf8_nil : utf8 [] = [] := rfl

@[simp] theorem utf8_cons (c : Char) (t : Text) :
    utf8 (c :: t) = String.utf8EncodeChar c ++ utf8 t := rfl

@[simp] theorem utf8_append (s t : Text) : utf8 (s ++ t) = utf8 s ++ utf8 t :=
  List.flatMap_append

@[simp] theorem length_utf8 (t : Text) : (utf8 t).length = byteLength t := by
  induction t with
  | nil => rfl
  | cons c t ih => simp [String.length_utf8EncodeChar, ih]

/-- The bytes behind the start of a text are the bytes of its rest. -/
theorem drop_utf8 (s t : Text) : (utf8 (s ++ t)).drop (byteLength s) = utf8 t := by
  rw [utf8_append, ← length_utf8, List.drop_left]

/-- The bytes between two ends are the bytes of the text between them. -/
theorem slice_utf8 (s t u : Text) :
    ((utf8 (s ++ t ++ u)).take (byteLength (s ++ t))).drop (byteLength s) = utf8 t := by
  rw [utf8_append, ← length_utf8 (s ++ t), List.take_left, drop_utf8]

/-- Whether an offset into the bytes of the text stands between two characters, or at one of the
ends. -/
def IsBoundary (t : Text) (offset : Nat) : Prop :=
  ∃ before behind, t = before ++ behind ∧ offset = byteLength before

/-- The number of bytes of the character that starts with this byte. -/
def leadWidth (lead : UInt8) : Nat :=
  if lead < 0x80 then 1
  else if lead < 0xE0 then 2
  else if lead < 0xF0 then 3
  else 4

theorem leadWidth_pos (lead : UInt8) : 0 < leadWidth lead := by
  unfold leadWidth
  split
  · decide
  · split
    · decide
    · split <;> decide

/-- A class of characters that are all in ASCII. -/
def InAscii (p : Char → Bool) : Prop :=
  ∀ c, p c = true → c.toNat < 0x80

theorem toNat_ofUInt8 (b : UInt8) : (Char.ofUInt8 b).toNat = b.toNat := rfl

theorem ofUInt8_ofNat {c : Char} (h : c.toNat < 0x80) : Char.ofUInt8 (UInt8.ofNat c.toNat) = c := by
  apply Char.toNat_inj.mp
  rw [toNat_ofUInt8, UInt8.toNat_ofNat']
  omega

theorem leadWidth_ofNat : ∀ n < 256, leadWidth (UInt8.ofNat n) =
    if n < 0x80 then 1 else if n < 0xE0 then 2 else if n < 0xF0 then 3 else 4 := by
  decide +kernel

/-- A character of ASCII is one byte. -/
theorem encode_of_lt {c : Char} (h : c.toNat < 0x80) :
    String.utf8EncodeChar c = [UInt8.ofNat c.toNat] ∧ c.utf8Size = 1 := by
  have hle : c.val.toNat ≤ 127 := Nat.le_of_lt_succ h
  exact ⟨if_pos hle, if_pos hle⟩

/-- Any other character starts with a byte from 0x80, which says how many bytes it has. -/
theorem exists_lead_of_le {c : Char} (h : 0x80 ≤ c.toNat) :
    ∃ n others, String.utf8EncodeChar c = UInt8.ofNat n :: others ∧ 0x80 ≤ n ∧ n < 256 ∧
      leadWidth (UInt8.ofNat n) = c.utf8Size := by
  have hle : ¬ c.val.toNat ≤ 127 := Nat.not_le_of_lt h
  have hencode := String.utf8EncodeChar.eq_1 c
  have hsize : c.utf8Size =
      if c.val.toNat ≤ 2047 then 2 else if c.val.toNat ≤ 65535 then 3 else 4 :=
    if_neg hle
  rw [if_neg hle] at hencode
  rw [hencode, hsize]
  split
  · refine ⟨_, _, rfl, by omega, by omega, ?_⟩
    rw [leadWidth_ofNat _ (by omega), if_neg (by omega), if_pos (by omega)]
  · split
    · refine ⟨_, _, rfl, by omega, by omega, ?_⟩
      rw [leadWidth_ofNat _ (by omega), if_neg (by omega), if_neg (by omega), if_pos (by omega)]
    · refine ⟨_, _, rfl, by omega, by omega, ?_⟩
      rw [leadWidth_ofNat _ (by omega), if_neg (by omega), if_neg (by omega), if_neg (by omega)]

/-- **The first byte of a character** tells how many bytes it has, and is in a class of ASCII
characters exactly if the character is. A character in such a class has no other byte. -/
theorem encode_cases (c : Char) :
    ∃ lead others, String.utf8EncodeChar c = lead :: others ∧ leadWidth lead = c.utf8Size ∧
      ∀ p, InAscii p → p (Char.ofUInt8 lead) = p c ∧ (p c = true → others = []) := by
  by_cases h : c.toNat < 0x80
  · obtain ⟨hencode, hsize⟩ := encode_of_lt h
    refine ⟨_, _, hencode, ?_, fun p _ => ⟨by rw [ofUInt8_ofNat h], fun _ => rfl⟩⟩
    rw [leadWidth_ofNat _ (by omega), if_pos h, hsize]
  · obtain ⟨n, others, hencode, hlow, hhigh, hwidth⟩ := exists_lead_of_le (Nat.le_of_not_lt h)
    refine ⟨_, others, hencode, hwidth, fun p hp => ?_⟩
    have hc : p c = false := Bool.eq_false_iff.mpr fun hc => h (hp c hc)
    have hlead : p (Char.ofUInt8 (UInt8.ofNat n)) = false := by
      refine Bool.eq_false_iff.mpr fun hlead => ?_
      have hlt := hp _ hlead
      rw [toNat_ofUInt8, UInt8.toNat_ofNat'] at hlt
      omega
    exact ⟨hlead.trans hc.symm, fun htrue => absurd htrue (by simp [hc])⟩

/-- **A run of characters in a class of ASCII characters** has the same bytes as the run
of bytes in this class. -/
theorem takeWhile_utf8 {p : Char → Bool} (hp : InAscii p) (t : Text) :
    (utf8 t).takeWhile (fun b => p (Char.ofUInt8 b)) = utf8 (t.takeWhile p) := by
  induction t with
  | nil => rfl
  | cons c t ih =>
    obtain ⟨lead, others, hencode, -, hlead⟩ := encode_cases c
    obtain ⟨hclass, hothers⟩ := hlead p hp
    rw [utf8_cons, hencode, List.cons_append]
    cases hc : p c with
    | false =>
      rw [List.takeWhile_cons_of_neg (by simp [hclass, hc]),
        List.takeWhile_cons_of_neg (by simp [hc])]
      rfl
    | true =>
      obtain rfl := hothers hc
      rw [List.takeWhile_cons_of_pos (by simp [hclass, hc]), List.takeWhile_cons_of_pos hc,
        List.nil_append, ih, utf8_cons, hencode]
      rfl

end Text

end Micro65
