import Micro65.Word
/-!
# Memory

The machine sees its memory through the class `Memory`: a byte can be read from and written to every
address, and a word can be read. `Ram` is writable everywhere. `Traced` is any memory together with
a record of what has been written to it.
-/

namespace Micro65

/-- What a memory offers the machine. -/
class Memory (μ : Type) where
  /-- The byte at an address. -/
  read : μ → UInt16 → UInt8
  /-- The memory after a byte is written to an address. -/
  write : μ → UInt16 → UInt8 → μ
  /-- The word at an address. Unless a memory has words of its own, the less significant byte comes
  first, the byte behind the last address is the one at address 0, and no other page boundary
  matters. -/
  word : μ → UInt16 → UInt16 := fun memory address =>
    Word.ofBytes (read memory address) (read memory (address + 1))

/-- Memory with a byte of its own at every address. -/
structure Ram where
  cells : Vector UInt8 UInt16.size

namespace Ram

/-- Memory that holds zeros. -/
def zeroed : Ram :=
  ⟨Vector.replicate UInt16.size 0⟩

/-- The byte at an address. -/
def read (m : Ram) (address : UInt16) : UInt8 :=
  have : address.toNat < UInt16.size := address.toNat_lt_size
  m.cells[address.toNat]

/-- The memory after a byte is written to an address. -/
def write (m : Ram) (address : UInt16) (value : UInt8) : Ram :=
  have : address.toNat < UInt16.size := address.toNat_lt_size
  ⟨m.cells.set address.toNat value⟩

instance : Memory Ram where
  read := read
  write := write

/-- Writes bytes from an address on. The last address is followed by the first. -/
def load (m : Ram) (start : UInt16) (bytes : List UInt8) : Ram :=
  (bytes.foldl (fun (m, address) byte => (write m address byte, address + 1)) (m, start)).1

@[simp] theorem read_zeroed (address : UInt16) : zeroed.read address = 0 := by
  simp [zeroed, read]

@[simp] theorem read_write_self (m : Ram) (address : UInt16) (value : UInt8) :
    (m.write address value).read address = value := by
  simp [read, write]

theorem read_write_of_ne (m : Ram) {address other : UInt16} (value : UInt8)
    (h : address ≠ other) : (m.write address value).read other = m.read other := by
  have hne : address.toNat ≠ other.toNat := fun e => h (UInt16.toNat_inj.1 e)
  simp [read, write, hne]

end Ram

/-- A memory with a record of what has been written to it. -/
structure Traced (μ : Type) where
  memory : μ
  /-- The addresses and bytes written, the last first. -/
  writes : List (UInt16 × UInt8) := []

instance {μ : Type} [Memory μ] : Memory (Traced μ) where
  read m address := Memory.read m.memory address
  write m address value :=
    ⟨Memory.write m.memory address value, (address, value) :: m.writes⟩
  word m address := Memory.word m.memory address

end Micro65
