import Mathlib.Tactic.Linarith
import Micro65.Proofs.Bytes
import Micro65.Proofs.Machine.Dispatch
/-!
# Arithmetic on numbers of several bytes

A number of several bytes is added to another from the least significant byte on: a byte of the one
is loaded, the byte of the other is added to it, and the carry goes on to the next pair
(`Machine.chain`). The flags behind the last pair are then those of the whole sum
(`Machine.HoldsSum`). One pair does this for its bytes (`Machine.holdsSum_singleton`), and a pair in
front of a sum keeps it so (`Machine.HoldsSum.cons`).

Subtraction adds the complement (`Machine.holdsSum_afterPair_sbc`), so one induction serves both
(`Machine.exists_chain_eq`), and only at its end the complement is taken for what it stands for
(`Machine.HoldsSum.holdsDifference`). Nothing of this looks at the decimal flag.
-/

namespace Micro65

/-- What comes of going on, if nothing has gone wrong. -/
def Outcome.bind {μ α β : Type} (o : Outcome μ α) (next : α → Machine μ → Outcome μ β) :
    Outcome μ β :=
  match o.result with
  | .error fault => ⟨.error fault, o.machine⟩
  | .ok value => next value o.machine

/-! ## One byte -/

theorem borrow_add_carry (carry : Bool) : (!carry).toNat + carry.toNat = 1 := by
  cases carry <;> rfl

/-- A difference is a sum with the complement. -/
theorem ofInt_difference_eq (a b : UInt8) (carry : Bool) :
    UInt8.ofInt ((a.toNat : Int) - b.toNat - (!carry).toNat) =
      UInt8.ofNat (a.toNat + (~~~b).toNat + carry.toNat) := by
  apply UInt8.toNat_inj.mp
  have hb := b.toNat_lt
  have hborrow := borrow_add_carry carry
  have hnat := Word.toNat_ofInt ((a.toNat : Int) - b.toNat - (!carry).toNat)
  rw [Bytes.toNat_complement, UInt8.toNat_ofNat']
  omega

namespace OverflowRule

/-- The rule for sums in two's complement looks at the signs only. -/
theorem overflows_sum_eq_true_iff {left right result : UInt8} :
    overflows .twosComplement false left right result = true ↔
      (128 ≤ left.toNat ↔ 128 ≤ right.toNat) ∧ ¬(128 ≤ left.toNat ↔ 128 ≤ result.toNat) := by
  simp only [overflows, Word.isNegative]
  grind

/-- The rule for differences in two's complement is the rule for sums with the complement. -/
theorem overflows_difference_eq (left right result : UInt8) :
    overflows .twosComplement true left right result =
      overflows .twosComplement false left (~~~right) result := by
  have hright := right.toNat_lt
  apply Bool.eq_iff_iff.mpr
  simp only [overflows, Word.isNegative, Bytes.toNat_complement]
  grind

/-- The rule for sums in two's complement finds the sums that a byte cannot hold. -/
theorem overflows_ofNat_iff (a b : UInt8) (carry : Bool) :
    overflows .twosComplement false a b
        (UInt8.ofNat (a.toNat + b.toNat + carry.toNat)) = true ↔
      Bytes.Overflows 1 (Word.signed a + Word.signed b + carry.toNat) := by
  have ha := a.toNat_lt
  have hb := b.toNat_lt
  have hcarry := carry.toNat_le
  rw [overflows_sum_eq_true_iff, UInt8.toNat_ofNat']
  unfold Bytes.Overflows Bytes.signWeight Word.signed
  split <;> split <;> omega

end OverflowRule

namespace Machine

section

variable {μ : Type} {m m₁ m' : Machine μ} {left right results : List UInt8} {a b result : UInt8}

/-! ## Sums -/

/-- Between the machines `m` and `m'`, the bytes `results` of a number have been built, the least
significant first, and the flags are those of the whole number. Read in two's complement, the bytes
stand for `exact` unless they cannot hold it. -/
structure HoldsResult (m m' : Machine μ) (count : Nat) (exact : Int) (results : List UInt8) :
    Prop where
  length_eq : results.length = count
  overflow_iff : m.settings.overflow = .twosComplement →
    (m'.status.overflow = true ↔ Bytes.Overflows count exact)
  negative_eq : m'.status.negative = (Bytes.value results).testBit (8 * count - 1)
  settings_eq : m'.settings = m.settings

/-- A sum has been built. What does not fit into its bytes is in the carry. -/
structure HoldsSum (m m' : Machine μ) (left right results : List UInt8) : Prop
    extends HoldsResult m m' left.length
      (Bytes.signed left + Bytes.signed right + m.status.carry.toNat) results where
  value_eq : Bytes.value results + m'.status.carry.toNat * 256 ^ left.length =
    Bytes.value left + Bytes.value right + m.status.carry.toNat

/-- A byte holds the sum of two, if the accumulator and the flags are set as for a sum. -/
theorem holdsSum_singleton (ha : m'.a = UInt8.ofNat (a.toNat + b.toNat + m.status.carry.toNat))
    (hcarry : m'.status.carry = decide (0xFF < a.toNat + b.toNat + m.status.carry.toNat))
    (hoverflow : m.settings.overflow = .twosComplement →
      m'.status.overflow = OverflowRule.overflows .twosComplement false a b m'.a)
    (hnegative : m'.status.negative = Word.isNegative m'.a) (hsettings : m'.settings = m.settings) :
    HoldsSum m m' [a] [b] [m'.a] where
  length_eq := rfl
  overflow_iff hrule := by
    rw [hoverflow hrule, ha, Bytes.signed_singleton, Bytes.signed_singleton]
    exact OverflowRule.overflows_ofNat_iff a b _
  negative_eq := by rw [hnegative, List.length_singleton, Bytes.testBit_singleton]
  settings_eq := hsettings
  value_eq := by
    have halt := a.toNat_lt
    have hblt := b.toNat_lt
    have hle := m.status.carry.toNat_le
    rw [ha, hcarry]
    by_cases hover : 0xFF < a.toNat + b.toNat + m.status.carry.toNat
    · simp [hover]
      omega
    · simp [hover]
      omega

/-- A pair in front of a sum. -/
theorem HoldsSum.cons (hpair : HoldsSum m m₁ [a] [b] [result])
    (hsum : HoldsSum m₁ m' left right results) (hleft : left ≠ []) (hright : right ≠ []) :
    HoldsSum m m' (a :: left) (b :: right) (result :: results) := by
  have hcount : 0 < left.length := List.length_pos_iff.mpr hleft
  have hlow : result.toNat + m₁.status.carry.toNat * 256 =
      a.toNat + b.toNat + m.status.carry.toNat := by
    simpa using hpair.value_eq
  -- the carry between them takes the lowest bytes of both numbers to the lowest of the result
  have hexact : Bytes.signed (a :: left) + Bytes.signed (b :: right) + m.status.carry.toNat =
      result.toNat + 256 * (Bytes.signed left + Bytes.signed right + m₁.status.carry.toNat) := by
    rw [Bytes.signed_cons a hleft, Bytes.signed_cons b hright]
    omega
  exact {
    length_eq := by simp [hsum.length_eq]
    overflow_iff := by
      intro hrule
      rw [hexact, List.length_cons, Bytes.overflows_succ_iff hcount result.toNat_lt]
      exact hsum.overflow_iff (hpair.settings_eq ▸ hrule)
    negative_eq := by rw [hsum.negative_eq, List.length_cons, Bytes.testBit_cons hcount]
    settings_eq := hsum.settings_eq.trans hpair.settings_eq
    value_eq := by
      have hhigh := hsum.value_eq
      simp only [Bytes.value_cons, List.length_cons, Nat.pow_succ]
      linarith }

/-! ## Differences -/

/-- A difference has been built. What has been borrowed for its bytes is missing in the carry. -/
structure HoldsDifference (m m' : Machine μ) (left right results : List UInt8) : Prop
    extends HoldsResult m m' left.length
      (Bytes.signed left - Bytes.signed right - (1 - m.status.carry.toNat)) results where
  value_eq : (Bytes.value results : Int) = Bytes.value left - Bytes.value right -
    (1 - m.status.carry.toNat) + (1 - m'.status.carry.toNat) * 256 ^ left.length

/-- A sum with the complement is a difference. -/
theorem HoldsSum.holdsDifference (h : HoldsSum m m' left (right.map (~~~·)) results)
    (hlength : left.length = right.length) (hright : right ≠ []) :
    HoldsDifference m m' left right results := by
  constructor
  case toHoldsResult =>
    have hexact : Bytes.signed left - Bytes.signed right - (1 - m.status.carry.toNat) =
        Bytes.signed left + Bytes.signed (right.map (~~~·)) + m.status.carry.toNat := by
      rw [Bytes.signed_complement hright]
      ring
    rw [hexact]
    exact h.toHoldsResult
  case value_eq =>
    have hcomplement := Bytes.value_add_value_complement right
    have hsum := h.value_eq
    rw [← hlength] at hcomplement
    zify at hsum hcomplement
    linarith

end

variable {μ : Type} [Memory μ] {mnemonic : Mnemonic} {left right : List UInt8}

/-! ## Chains -/

/-- Loads each byte of the one list and executes an instruction on the byte of the other. Gives what
is then in the accumulator, for each pair. -/
def chain (m : Machine μ) (mnemonic : Mnemonic) : List UInt8 → List UInt8 → Outcome μ (List UInt8)
  | a :: left, b :: right =>
    (m.execute .lda .immediate (some a.toUInt16)).bind fun _ m =>
    (m.execute mnemonic .immediate (some b.toUInt16)).bind fun _ m =>
    (m.chain mnemonic left right).bind fun results m' => ⟨.ok (m.a :: results), m'⟩
  | _, _ => ⟨.ok [], m⟩

/-- The machine behind one pair of a chain. -/
def afterPair (m : Machine μ) (mnemonic : Mnemonic) (a b : UInt8) : Machine μ :=
  (((m.advance 2).apply (.load .a) (.literal a)).advance 2).apply mnemonic.operation (.literal b)

theorem execute_immediate (m : Machine μ) (h : mnemonic.hasMode .immediate = true) (b : UInt8) :
    m.execute mnemonic .immediate (some b.toUInt16) =
      ⟨.ok (), (m.advance 2).apply mnemonic.operation (.literal b)⟩ := by
  have hlow : Word.low b.toUInt16 = b := b.toUInt8_toUInt16
  rw [execute_eq h (m.place?_some _ _)]
  simp only [locate, hlow]
  rfl

theorem chain_cons (m : Machine μ) (h : mnemonic.hasMode .immediate = true) (a b : UInt8) :
    m.chain mnemonic (a :: left) (b :: right) =
      ((m.afterPair mnemonic a b).chain mnemonic left right).bind fun results m' =>
        ⟨.ok ((m.afterPair mnemonic a b).a :: results), m'⟩ := by
  have hload : Mnemonic.lda.hasMode .immediate = true := by decide +kernel
  rw [chain, execute_immediate m hload]
  simp only [Outcome.bind]
  rw [execute_immediate _ h]
  rfl

theorem holdsSum_afterPair_adc (m : Machine μ) (a b : UInt8) :
    HoldsSum m (m.afterPair .adc a b) [a] [b] [(m.afterPair .adc a b).a] := by
  refine holdsSum_singleton rfl rfl (fun hrule => ?_) rfl rfl
  rw [← hrule]
  rfl

/-- Subtraction adds the complement. -/
theorem holdsSum_afterPair_sbc (m : Machine μ) (a b : UInt8) :
    HoldsSum m (m.afterPair .sbc a b) [a] [~~~b] [(m.afterPair .sbc a b).a] := by
  refine holdsSum_singleton (ofInt_difference_eq a b _) ?_ (fun hrule => ?_) rfl rfl
  · have hb := b.toNat_lt
    have hborrow := borrow_add_carry m.status.carry
    show decide (0 ≤ (a.toNat : Int) - b.toNat - (!m.status.carry).toNat) = _
    rw [Bytes.toNat_complement, decide_eq_decide]
    omega
  · rw [← OverflowRule.overflows_difference_eq, ← hrule]
    rfl

/-- **A chain builds a sum**, if each pair does: the sum of the one number with the other, or with
what `f` makes of the bytes of the other. -/
theorem exists_chain_eq {f : UInt8 → UInt8} (h : mnemonic.hasMode .immediate = true)
    (hpair : ∀ (m : Machine μ) a b,
      HoldsSum m (m.afterPair mnemonic a b) [a] [f b] [(m.afterPair mnemonic a b).a])
    (m : Machine μ) (hlength : left.length = right.length) (hne : left ≠ []) :
    ∃ results m', m.chain mnemonic left right = ⟨.ok results, m'⟩ ∧
      HoldsSum m m' left (right.map f) results := by
  induction left generalizing m right with
  | nil => exact absurd rfl hne
  | cons a left ih =>
    obtain ⟨b, right, rfl⟩ := List.exists_cons_of_length_eq_add_one hlength.symm
    have hrest : left.length = right.length := Nat.succ_injective hlength
    rw [chain_cons m h]
    have hfirst := hpair m a b
    generalize m.afterPair mnemonic a b = m₁ at hfirst ⊢
    by_cases hleft : left = []
    · subst hleft
      obtain rfl : right = [] := List.length_eq_zero_iff.mp hrest.symm
      exact ⟨[m₁.a], m₁, rfl, hfirst⟩
    · have hright : right ≠ [] :=
        List.length_pos_iff.mp (hrest ▸ List.length_pos_iff.mpr hleft)
      obtain ⟨results, m', hchain, hsum⟩ := ih m₁ hrest hleft
      refine ⟨m₁.a :: results, m', ?_, hfirst.cons hsum hleft (mt List.map_eq_nil_iff.mp hright)⟩
      rw [hchain]
      rfl

/-- **Chains of additions and subtractions are arithmetic on numbers of several bytes**, in every
machine, whatever its decimal flag is: the results with the last carry are the exact sum or
difference, the sign is that of the last result, and in two's complement the overflow flag says
whether the exact number with a sign leaves the range. -/
theorem wideArithmetic (m : Machine μ) (hlength : left.length = right.length) (hne : left ≠ []) :
    (∃ results m', m.chain .adc left right = ⟨.ok results, m'⟩ ∧
        HoldsSum m m' left right results) ∧
      ∃ results m', m.chain .sbc left right = ⟨.ok results, m'⟩ ∧
        HoldsDifference m m' left right results := by
  have hright : right ≠ [] :=
    List.length_pos_iff.mp (hlength ▸ List.length_pos_iff.mpr hne)
  constructor
  · have hadc : Mnemonic.adc.hasMode .immediate = true := by decide +kernel
    simpa using exists_chain_eq (f := id) hadc holdsSum_afterPair_adc m hlength hne
  · have hsbc : Mnemonic.sbc.hasMode .immediate = true := by decide +kernel
    obtain ⟨results, m', hchain, hsum⟩ :=
      exists_chain_eq hsbc holdsSum_afterPair_sbc m hlength hne
    exact ⟨results, m', hchain, hsum.holdsDifference hlength hright⟩

/-- Two numbers of two bytes whose sum leaves the range, with the decimal flag set. -/
theorem wideArithmetic_of_twoBytes :
    let m : Machine Ram :=
      { status := .ofByte 0x09, settings := { overflow := .twosComplement }, memory := .zeroed }
    let left : List UInt8 := [0xFF, 0x7F]
    let right : List UInt8 := [0x09, 0x00]
    (left.length = right.length ∧ left ≠ []) ∧
      (∃ results m', m.chain .adc left right = ⟨.ok results, m'⟩ ∧
        HoldsSum m m' left right results) ∧
      ∃ results m', m.chain .sbc left right = ⟨.ok results, m'⟩ ∧
        HoldsDifference m m' left right results := by
  intro m left right
  have hlength : left.length = right.length := rfl
  have hne : left ≠ [] := List.cons_ne_nil _ _
  exact ⟨⟨hlength, hne⟩, m.wideArithmetic hlength hne⟩

-- 0x7FFF and 9 and the carry, with the decimal flag set
example : (({ status := .ofByte 0x09, memory := .zeroed } : Machine Ram).chain .adc
    [0xFF, 0x7F] [0x09, 0x00]).result.toOption = some [0x09, 0x80] := by
  decide +kernel

end Machine

end Micro65
