import Micro65.Proofs.Machine.Faults
import Micro65.Proofs.Machine.WideArithmetic
/-!
# The bounds of a run

Most computations of the machine are defined whatever the numbers are, since they go around at
the width of the numbers. A few are not. A part of an image has to lie in the image, an opcode
has to have an operand that can be read and that its mode can use, and where a sum or a
difference is looked at in full, it has to fit into a word of sixteen bits, with or without a
sign. Here each of these is tested before it is carried out, and one that would break its bound
ends everything with a `Breach` (`Checked`).

No such test ever fails. For every image, of whatever size, and every machine the tested run is the
run (`Machine.runChecked_eq_ok`), which is shown in layers: arithmetic
(`Machine.applyChecked_eq_ok`), places (`Machine.placeChecked_eq_ok`), an opcode with its bytes
(`Machine.executeBytesChecked_eq_ok`) and a turn (`Machine.turnChecked_eq_ok`). How far the numbers
stay from their bounds is said by `Machine.WithinBounds`. Together with the number of instructions,
which stays at or below the limit, this is the main statement, `Machine.staysWithinBounds`.
-/

namespace Micro65

/-- A bound that a computation would break. -/
inductive Breach where
  /-- The part is none of an image of this size. -/
  | slice (start stop size : Nat)
  /-- There are enough bytes for an operand of this size, but no way to read it. -/
  | unreadable (size : Nat)
  /-- The mode uses an operand, and none has been read. -/
  | noOperand (mode : Mode)
  /-- The sum of the words is no word. -/
  | sum (left right : UInt16)
  /-- The difference of the words with a sign is none. -/
  | difference (left right : Int16)
  deriving DecidableEq, Repr

/-- What comes of computations whose bounds are tested. -/
abbrev Checked (α : Type) := Except Breach α

theorem Checked.ok_bind {α β : Type} (a : α) (next : α → Checked β) :
    (Except.ok a : Checked α) >>= next = next a := rfl

namespace Word

/-! ## Sums and differences in full -/

/-- The sum of two words, if it is a word. -/
def addChecked (left right : UInt16) : Checked UInt16 :=
  if left.toNat + right.toNat < 0x10000 then .ok (left + right) else .error (.sum left right)

/-- The difference of two words with a sign, if it is a word with a sign. -/
def subChecked (left right : Int16) : Checked Int16 :=
  if -0x8000 ≤ left.toInt - right.toInt ∧ left.toInt - right.toInt < 0x8000 then .ok (left - right)
  else .error (.difference left right)

/-- The less significant byte of an operand with an index added. -/
def pageSum (operand : UInt16) (index : UInt8) : Checked UInt16 :=
  addChecked (operand &&& 0xFF) index.toUInt16

/-- The sum of two bytes and the carry. -/
def sumWithCarry (left right : UInt8) (carry : Bool) : Checked UInt16 := do
  let sum ← addChecked left.toUInt16 right.toUInt16
  addChecked sum (UInt16.ofNat carry.toNat)

/-- The difference of two bytes and the missing carry. -/
def differenceWithBorrow (left right : UInt8) (carry : Bool) : Checked Int16 := do
  let borrow ← subChecked 1 (Int16.ofNat carry.toNat)
  let difference ← subChecked (Int16.ofNat left.toNat) (Int16.ofNat right.toNat)
  subChecked difference borrow

theorem exists_addChecked (left right : UInt16) (h : left.toNat + right.toNat < 0x10000) :
    ∃ sum, addChecked left right = .ok sum ∧ sum.toNat = left.toNat + right.toNat := by
  refine ⟨left + right, if_pos h, ?_⟩
  rw [UInt16.toNat_add, Nat.mod_eq_of_lt h]

theorem exists_subChecked (left right : Int16) (hlow : -0x8000 ≤ left.toInt - right.toInt)
    (hhigh : left.toInt - right.toInt < 0x8000) :
    ∃ difference, subChecked left right = .ok difference ∧
      difference.toInt = left.toInt - right.toInt := by
  refine ⟨left - right, if_pos ⟨hlow, hhigh⟩, ?_⟩
  rw [Int16.toInt_sub]
  exact Int.bmod_eq_of_le hlow hhigh

theorem toNat_and_page (w : UInt16) : (w &&& 0xFF).toNat = w.toNat % 256 := by
  rw [UInt16.toNat_and]
  exact Nat.and_two_pow_sub_one_eq_mod w.toNat 8

/-- **A sum in the first page** is below twice its size. -/
theorem exists_pageSum (operand : UInt16) (index : UInt8) :
    ∃ sum, pageSum operand index = .ok sum ∧
      sum.toNat = (low operand).toNat + index.toNat ∧ sum.toNat < 0x200 := by
  have hlow := toNat_low operand
  have hpage := toNat_and_page operand
  have hlt := index.toNat_lt
  have hindex : index.toUInt16.toNat = index.toNat := UInt8.toNat_toUInt16 index
  obtain ⟨sum, hsum, hnat⟩ := exists_addChecked (operand &&& 0xFF) index.toUInt16 (by omega)
  exact ⟨sum, hsum, by omega, by omega⟩

/-- Cut back to the page, the sum is that of two bytes, which goes around. -/
theorem exists_pageSum_and_eq (operand : UInt16) (index : UInt8) :
    ∃ sum, pageSum operand index = .ok sum ∧ sum &&& 0xFF = (low operand + index).toUInt16 := by
  obtain ⟨sum, hsum, hnat, -⟩ := exists_pageSum operand index
  refine ⟨sum, hsum, UInt16.toNat_inj.mp ?_⟩
  rw [UInt8.toNat_toUInt16, UInt8.toNat_add, ← hnat, toNat_and_page]

/-- **A sum with the carry** is a number of nine bits. -/
theorem exists_sumWithCarry (left right : UInt8) (carry : Bool) :
    ∃ sum, sumWithCarry left right carry = .ok sum ∧
      sum.toNat = left.toNat + right.toNat + carry.toNat ∧ sum.toNat ≤ 0x1FF := by
  have hleftLt := left.toNat_lt
  have hrightLt := right.toNat_lt
  have hcarryLe := carry.toNat_le
  have hleft : left.toUInt16.toNat = left.toNat := UInt8.toNat_toUInt16 left
  have hright : right.toUInt16.toNat = right.toNat := UInt8.toNat_toUInt16 right
  have hcarry : (UInt16.ofNat carry.toNat).toNat = carry.toNat :=
    UInt16.toNat_ofNat_of_lt (Nat.lt_of_le_of_lt hcarryLe (by decide))
  obtain ⟨bytes, hbytes, hbytesNat⟩ :=
    exists_addChecked left.toUInt16 right.toUInt16 (by omega)
  obtain ⟨sum, hsum, hsumNat⟩ :=
    exists_addChecked bytes (UInt16.ofNat carry.toNat) (by omega)
  refine ⟨sum, ?_, by omega, by omega⟩
  unfold sumWithCarry
  rw [hbytes, Checked.ok_bind]
  exact hsum

/-- **A difference with the missing carry** is a number of nine bits in two's complement. -/
theorem exists_differenceWithBorrow (left right : UInt8) (carry : Bool) :
    ∃ difference, differenceWithBorrow left right carry = .ok difference ∧
      difference.toInt = left.toNat - right.toNat - (!carry).toNat ∧
      -256 ≤ difference.toInt ∧ difference.toInt ≤ 255 := by
  have hleftLt := left.toNat_lt
  have hrightLt := right.toNat_lt
  have hcarryLe := carry.toNat_le
  have hmissing := borrow_add_carry carry
  have hword : ∀ n : Nat, n < 256 → (Int16.ofNat n).toInt = n :=
    fun n hn => Int16.toInt_ofNat_of_lt (by omega)
  have hleft := hword left.toNat hleftLt
  have hright := hword right.toNat hrightLt
  have hcarry := hword carry.toNat (by omega)
  have hone := Int16.toInt_one
  obtain ⟨borrow, hborrow, hborrowInt⟩ :=
    exists_subChecked 1 (Int16.ofNat carry.toNat) (by omega) (by omega)
  obtain ⟨bytes, hbytes, hbytesInt⟩ :=
    exists_subChecked (Int16.ofNat left.toNat) (Int16.ofNat right.toNat) (by omega) (by omega)
  obtain ⟨difference, hdifference, hint⟩ :=
    exists_subChecked bytes borrow (by omega) (by omega)
  refine ⟨difference, ?_, by omega, by omega, by omega⟩
  unfold differenceWithBorrow
  rw [hborrow, Checked.ok_bind, hbytes, Checked.ok_bind]
  exact hdifference

/-- Both bounds are reached. -/
example : sumWithCarry 0xFF 0xFF true = .ok 0x1FF ∧
    differenceWithBorrow 0 0xFF false = .ok (-256) := ⟨rfl, rfl⟩

end Word

/-- Reads an operand. One that cannot be read has to be too short. -/
def Encoding.readOperandChecked (count : Nat) (bytes : List UInt8) :
    Checked (Option (Option UInt16)) :=
  match readOperand? count bytes with
  | some operand => .ok (some operand)
  | none => if bytes.length < count then .ok none else .error (.unreadable count)

theorem Encoding.readOperandChecked_eq_ok {count : Nat} (hcount : count ≤ 2) (bytes : List UInt8) :
    readOperandChecked count bytes = .ok (readOperand? count bytes) := by
  unfold readOperandChecked
  cases hread : readOperand? count bytes with
  | some operand => rfl
  | none => exact if_pos ((readOperand?_eq_none_iff hcount).mp hread)

namespace Machine

variable {μ : Type} {rom : Array UInt8} {m : Machine μ}

/-! ## Parts of an image -/

/-- Where the bytes behind an opcode end: with its instruction, or with the image. -/
def operandEnd (rom : Array UInt8) (pc : UInt16) (opcode : UInt8) : Nat :=
  min (pc.toNat + (Slot.ofOpcode opcode).size) rom.size

/-- The part of an image from one place to another, if there is one. -/
def sliceChecked (rom : Array UInt8) (start stop : Nat) : Checked (List UInt8) :=
  if start ≤ stop ∧ stop ≤ rom.size then .ok (rom.extract start stop).toList
  else .error (.slice start stop rom.size)

/-- **The bytes behind an opcode are a part of the image**, which may be empty. -/
theorem operandEnd_bounds {opcode : UInt8} (h : rom[m.pc.toNat]? = some opcode) :
    m.pc.toNat + 1 ≤ operandEnd rom m.pc opcode ∧ operandEnd rom m.pc opcode ≤ rom.size := by
  obtain ⟨hpc, -⟩ := Array.getElem?_eq_some_iff.mp h
  unfold operandEnd Slot.size
  omega

theorem sliceChecked_eq_ok {opcode : UInt8} (h : rom[m.pc.toNat]? = some opcode) :
    sliceChecked rom (m.pc.toNat + 1) (operandEnd rom m.pc opcode) =
      .ok (rom.extract (m.pc.toNat + 1) (m.pc.toNat + (Slot.ofOpcode opcode).size)).toList := by
  have hsame : rom.extract (m.pc.toNat + 1) (operandEnd rom m.pc opcode) =
      rom.extract (m.pc.toNat + 1) (m.pc.toNat + (Slot.ofOpcode opcode).size) := by
    rw [Array.extract_eq_extract_right]
    unfold operandEnd
    omega
  unfold sliceChecked
  rw [if_pos (operandEnd_bounds h), hsame]

variable [Memory μ]

/-! ## One instruction -/

/-- Adds a byte and the carry to the accumulator. -/
def addWithCarryChecked (m : Machine μ) (value : UInt8) : Checked (Machine μ) := do
  let sum ← Word.sumWithCarry m.a value m.status.carry
  let result := sum.toUInt8
  let overflow := m.settings.overflow.overflows false m.a value result
  return (m.mapStatus fun s => { s with carry := 0xFF < sum, overflow }).assign .a result

/-- Subtracts a byte and the missing carry from the accumulator. -/
def subtractWithBorrowChecked (m : Machine μ) (value : UInt8) : Checked (Machine μ) := do
  let difference ← Word.differenceWithBorrow m.a value m.status.carry
  let result := UInt8.ofInt difference.toInt
  let overflow := m.settings.overflow.overflows true m.a value result
  return (m.mapStatus fun s => { s with carry := 0 ≤ difference.toInt, overflow }).assign .a result

/-- Carries out an operation on an operand. -/
def applyChecked (m : Machine μ) (operation : Operation) (p : Place) : Checked (Machine μ) :=
  match operation with
  | .add => m.addWithCarryChecked (m.read p)
  | .subtract => m.subtractWithBorrowChecked (m.read p)
  | operation => .ok (m.apply operation p)

/-- Where an operand leads in a mode that has operand bytes. Only the sums in the first page are in
full; all others go around. -/
def locateChecked (m : Machine μ) (mode : Mode) (operand : UInt16) : Checked Place :=
  match mode with
  | .zeroPageX => return .memory ((← Word.pageSum operand m.x) &&& 0xFF)
  | .zeroPageY => return .memory ((← Word.pageSum operand m.y) &&& 0xFF)
  | .indirectX => return .memory (Memory.word m.memory ((← Word.pageSum operand m.x) &&& 0xFF))
  | mode => .ok (m.locate mode operand)

/-- Where an instruction finds its operand, if it has one that its mode can use. -/
def placeChecked (m : Machine μ) (mode : Mode) (operand : Option UInt16) : Checked Place :=
  if mode.operandSize = 0 then m.locateChecked mode 0
  else match operand with
    | some value => m.locateChecked mode value
    | none => .error (.noOperand mode)

/-- Executes the instruction of an opcode with the bytes that follow it. -/
def executeBytesChecked (m : Machine μ) (opcode : UInt8) (bytes : List UInt8) :
    Checked (Outcome μ Mnemonic) := do
  let slot := Slot.ofOpcode opcode
  match slot.instruction? with
  | none => return ⟨.error (.unknownOpcode opcode m.pc), m⟩
  | some mnemonic =>
    match ← Encoding.readOperandChecked slot.operandSize bytes with
    | none => return ⟨.error (.truncated opcode slot.operandSize bytes.length), m⟩
    | some operand =>
      let p ← m.placeChecked slot.mode operand
      return ⟨.ok mnemonic, ← (m.advance slot.size).applyChecked mnemonic.operation p⟩

section

omit [Memory μ]

theorem addWithCarryChecked_eq_ok (m : Machine μ) (value : UInt8) :
    m.addWithCarryChecked value = .ok (m.addWithCarry value) := by
  obtain ⟨sum, hsum, hnat, -⟩ := Word.exists_sumWithCarry m.a value m.status.carry
  have hresult : sum.toUInt8 = UInt8.ofNat (m.a.toNat + value.toNat + m.status.carry.toNat) := by
    apply UInt8.toNat_inj.mp
    rw [UInt16.toNat_toUInt8, hnat, UInt8.toNat_ofNat']
  have hcarry : decide (0xFF < sum) =
      decide (0xFF < m.a.toNat + value.toNat + m.status.carry.toNat) := by
    rw [← hnat]
    exact decide_eq_decide.mpr UInt16.lt_iff_toNat_lt
  unfold addWithCarryChecked addWithCarry
  simp only [hsum, Checked.ok_bind, hresult, hcarry]
  rfl

theorem subtractWithBorrowChecked_eq_ok (m : Machine μ) (value : UInt8) :
    m.subtractWithBorrowChecked value = .ok (m.subtractWithBorrow value) := by
  obtain ⟨difference, hdifference, hint, -⟩ :=
    Word.exists_differenceWithBorrow m.a value m.status.carry
  unfold subtractWithBorrowChecked subtractWithBorrow
  simp only [hdifference, Checked.ok_bind, hint]
  rfl

end

theorem applyChecked_eq_ok (m : Machine μ) (operation : Operation) (p : Place) :
    m.applyChecked operation p = .ok (m.apply operation p) := by
  cases operation with
  | add => exact m.addWithCarryChecked_eq_ok (m.read p)
  | subtract => exact m.subtractWithBorrowChecked_eq_ok (m.read p)
  | _ => rfl

theorem locateChecked_eq_ok (m : Machine μ) (mode : Mode) (operand : UInt16) :
    m.locateChecked mode operand = .ok (m.locate mode operand) := by
  cases mode with
  | zeroPageX | indirectX =>
    obtain ⟨sum, hsum, hpage⟩ := Word.exists_pageSum_and_eq operand m.x
    simp only [locateChecked, locate, hsum, Checked.ok_bind, hpage]
    rfl
  | zeroPageY =>
    obtain ⟨sum, hsum, hpage⟩ := Word.exists_pageSum_and_eq operand m.y
    simp only [locateChecked, locate, hsum, Checked.ok_bind, hpage]
    rfl
  | _ => rfl

theorem placeChecked_eq_ok {mode : Mode} {operand : Option UInt16} {p : Place}
    (h : m.place? mode operand = some p) : m.placeChecked mode operand = .ok p := by
  unfold place? at h
  unfold placeChecked
  by_cases hsize : mode.operandSize = 0
  · rw [if_pos hsize] at h ⊢
    rw [locateChecked_eq_ok, Option.some.inj h]
  · rw [if_neg hsize] at h ⊢
    obtain ⟨value, rfl, rfl⟩ := Option.map_eq_some_iff.mp h
    exact m.locateChecked_eq_ok mode value

/-- **An opcode breaks no bound**, whatever follows it. What can go wrong with it is a fault. -/
theorem executeBytesChecked_eq_ok (m : Machine μ) (opcode : UInt8) (bytes : List UInt8) :
    m.executeBytesChecked opcode bytes = .ok (m.executeBytes opcode bytes) := by
  have hle := (Slot.ofOpcode opcode).operandSize_le_two
  have hread := Encoding.readOperandChecked_eq_ok hle bytes
  unfold executeBytesChecked
  obtain ⟨hnone, heq⟩ | ⟨mnemonic, hsome, ⟨hshort, heq⟩ | ⟨p, -, hp, heq⟩⟩ :=
    m.executeBytes_cases opcode bytes
  · simp only [hnone, heq]
    rfl
  · have hnone := (Encoding.readOperand?_eq_none_iff hle).mpr hshort
    simp only [hsome, hread, hnone, heq]
    rfl
  · obtain ⟨operand, hoperand, hplace⟩ := Option.bind_eq_some_iff.mp hp
    simp only [hsome, hread, hoperand, Checked.ok_bind, placeChecked_eq_ok hplace,
      applyChecked_eq_ok, heq]
    rfl

/-! ## Runs -/

/-- The turn of the run of an image after `n` instructions. -/
def turnChecked (rom : Array UInt8) (n : Nat) (m : Machine μ) :
    Checked (Except (Outcome μ Summary) (Machine μ)) :=
  match rom[m.pc.toNat]? with
  | none => return .error ⟨.ok ⟨n, .finished⟩, m⟩
  | some opcode =>
    if opcode = haltByte then return .error ⟨.ok ⟨n, .halted⟩, m⟩
    else match m.limitFault? n with
      | some f => return .error ⟨.error f, m⟩
      | none => do
        let bytes ← sliceChecked rom (m.pc.toNat + 1) (operandEnd rom m.pc opcode)
        match ← m.executeBytesChecked opcode bytes with
        | ⟨.ok _, m⟩ => return .ok m
        | ⟨.error f, m⟩ => return .error ⟨.error f, m⟩

/-- Executes instructions of an image until it ends, a fault comes up or the limit is
reached, after `n` of them. -/
def runFromChecked (rom : Array UInt8) : (fuel n : Nat) → Machine μ →
    Checked (Option (Outcome μ Summary))
  | 0, _, _ => return none
  | fuel + 1, n, m => do
    match ← turnChecked rom n m with
    | .error o => return some o
    | .ok m => runFromChecked rom fuel (n + 1) m

/-- Runs an image from address 0. -/
def runChecked (rom : Array UInt8) (fuel : Nat) (m : Machine μ) :
    Checked (Option (Outcome μ Summary)) :=
  runFromChecked rom fuel 0 { m with pc := 0 }

/-- **A turn breaks no bound**, wherever the machine is. -/
theorem turnChecked_eq_ok (rom : Array UInt8) (n : Nat) (m : Machine μ) :
    turnChecked rom n m = .ok (turn (fetchRom rom) n m) := by
  unfold turnChecked turn
  obtain ⟨hnone, hfetch⟩ | ⟨hhalt, hfetch⟩ | ⟨opcode, hopcode, hne, hfetch⟩ := fetchRom_cases rom m
  · simp only [hnone, hfetch]
    rfl
  · simp only [hhalt, hfetch]
    rfl
  · simp only [hopcode, if_neg hne, hfetch]
    cases m.limitFault? n with
    | some f => rfl
    | none =>
      simp only [sliceChecked_eq_ok hopcode, executeBytesChecked_eq_ok, Checked.ok_bind, perform]
      obtain ⟨result, m'⟩ := m.executeBytes opcode
        (rom.extract (m.pc.toNat + 1) (m.pc.toNat + (Slot.ofOpcode opcode).size)).toList
      cases result <;> rfl

theorem runFromChecked_eq_ok (rom : Array UInt8) (fuel n : Nat) (m : Machine μ) :
    runFromChecked rom fuel n m = .ok (runFrom (fetchRom rom) fuel n m) := by
  induction fuel generalizing n m with
  | zero => rfl
  | succ fuel ih =>
    rw [runFromChecked, turnChecked_eq_ok, Checked.ok_bind, runFrom_succ]
    cases turn (fetchRom rom) n m with
    | error o => rfl
    | ok m' => exact ih (n + 1) m'

/-- **A run breaks no bound**, however long it is: with every computation tested it is the same
run. -/
theorem runChecked_eq_ok (rom : Array UInt8) (fuel : Nat) (m : Machine μ) :
    runChecked rom fuel m = .ok (run (fetchRom rom) fuel m) :=
  runFromChecked_eq_ok rom fuel 0 _

/-- **How far a machine stays from its bounds** in the next turn with an image. -/
structure WithinBounds (rom : Array UInt8) (m : Machine μ) : Prop where
  /-- The bytes behind an opcode are a part of the image. Where its instruction would end if the
  image did not cut it short is not far behind the last address. -/
  slice : ∀ opcode, rom[m.pc.toNat]? = some opcode →
    m.pc.toNat + 1 ≤ operandEnd rom m.pc opcode ∧ operandEnd rom m.pc opcode ≤ rom.size ∧
      m.pc.toNat + (Slot.ofOpcode opcode).size ≤ 0x10002
  /-- Every opcode with an instruction, reserved ones included, has an operand of none, one or
  two bytes, as many as its mode has. If there are so many, they lead to a place, and the
  instruction is executed. -/
  operand : ∀ opcode mnemonic, (Slot.ofOpcode opcode).instruction? = some mnemonic →
    (Slot.ofOpcode opcode).operandSize = (Slot.ofOpcode opcode).mode.operandSize ∧
      (Slot.ofOpcode opcode).operandSize ≤ 2 ∧
      ∀ bytes, (Slot.ofOpcode opcode).operandSize ≤ bytes.length →
        ∃ p, m.operandPlace? opcode bytes = some p ∧ m.executeBytes opcode bytes =
          ⟨.ok mnemonic, (m.advance (Slot.ofOpcode opcode).size).apply mnemonic.operation p⟩
  pageSum : ∀ operand, ∀ index ∈ [m.x, m.y], ∃ sum, Word.pageSum operand index = .ok sum ∧
    sum.toNat = (Word.low operand).toNat + index.toNat ∧ sum.toNat < 0x200
  sum : ∀ value, ∃ sum, Word.sumWithCarry m.a value m.status.carry = .ok sum ∧
    sum.toNat = m.a.toNat + value.toNat + m.status.carry.toNat ∧ sum.toNat ≤ 0x1FF
  difference : ∀ value, ∃ difference,
    Word.differenceWithBorrow m.a value m.status.carry = .ok difference ∧
      difference.toInt = m.a.toNat - value.toNat - (!m.status.carry).toNat ∧
      -256 ≤ difference.toInt ∧ difference.toInt ≤ 255

theorem withinBounds (rom : Array UInt8) (m : Machine μ) : WithinBounds rom m where
  slice opcode hopcode := by
    obtain ⟨hstart, hstop⟩ := operandEnd_bounds hopcode
    have hpc := m.pc.toNat_lt
    have hsize := (Slot.ofOpcode opcode).operandSize_le_two
    refine ⟨hstart, hstop, ?_⟩
    unfold Slot.size
    omega
  operand opcode mnemonic hmnemonic := by
    refine ⟨Slot.operandSize_of_instruction? hmnemonic,
      (Slot.ofOpcode opcode).operandSize_le_two, ?_⟩
    intro bytes hbytes
    obtain ⟨value, hp, -⟩ := m.exists_operandPlace? hmnemonic hbytes
    exact ⟨_, hp, executeBytes_eq hmnemonic hp⟩
  pageSum operand index _ := Word.exists_pageSum operand index
  sum value := Word.exists_sumWithCarry m.a value m.status.carry
  difference value := Word.exists_differenceWithBorrow m.a value m.status.carry

section

variable {fetch : Machine μ → Fetch} {limit : Nat} {m' : Machine μ}

/-- A run has executed no more instructions than its limit. -/
theorem le_of_after (hlimit : m.settings.stepLimit = some limit) {k : Nat}
    (h : after fetch k m = some m') : k ≤ limit :=
  le_of_after_limitedTo (m := m) h limit hlimit

/-- A run that has ended well has counted no more instructions than its limit. -/
theorem instructions_le_of_run (hlimit : m.settings.stepLimit = some limit) {fuel : Nat}
    {summary : Summary} (h : run fetch fuel m = some ⟨.ok summary, m'⟩) :
    summary.instructions ≤ limit := by
  obtain ⟨k, -, hafter, hturn⟩ := exists_after_of_run h
  obtain ⟨_, -, ho⟩ | ⟨_, ho, -⟩ := turn_eq_error_cases hturn
  · cases ho
    exact le_of_after hlimit hafter
  · cases ho

end

/-- A run of an image that stays within its bounds. -/
structure StaysWithinBounds (rom : Array UInt8) (m : Machine μ) : Prop where
  /-- No computation breaks its bound, in however many turns. -/
  checked : ∀ fuel, runChecked rom fuel m = .ok (run (fetchRom rom) fuel m)
  within : ∀ k m', after (fetchRom rom) k m = some m' → WithinBounds rom m'
  /-- The number of instructions is never above the limit, so what can hold the limit
  can hold the number. -/
  count : ∀ limit, m.settings.stepLimit = some limit →
    (∀ k m', after (fetchRom rom) k m = some m' → k ≤ limit) ∧
      ∀ fuel summary m', run (fetchRom rom) fuel m = some ⟨.ok summary, m'⟩ →
        summary.instructions ≤ limit

/-- **Every run of an image stays within its bounds**: for an image of any size, from every machine,
under every rule and limit and with every memory. -/
theorem staysWithinBounds (rom : Array UInt8) (m : Machine μ) : StaysWithinBounds rom m where
  checked fuel := runChecked_eq_ok rom fuel m
  within _ m' _ := withinBounds rom m'
  count _ hlimit :=
    ⟨fun _ _ hafter => le_of_after hlimit hafter,
      fun _ _ _ hrun => instructions_le_of_run hlimit hrun⟩

end Machine

end Micro65
