/-!
# Source maps

A source map ties the address of each instruction to its place in the source, in both directions.
Entries may be added in any order; `SourceMap.sort` sorts them by address and by line, after which
both look-ups are binary searches.
-/

namespace Micro65

/-- Where an instruction stands in the source. -/
structure Location where
  /-- The number of the line, from one. -/
  line : Nat
  /-- The offset of the first byte in the line. -/
  column : Nat
  /-- The number of bytes. -/
  length : Nat
  deriving DecidableEq, Repr

/-- The addresses of the bytes of an instruction. -/
structure Extent where
  /-- The first address. -/
  start : UInt16
  /-- The address behind the last byte, which may lie behind the last address. -/
  stop : Nat
  deriving DecidableEq, Repr

/-- The places of instructions by address, and their addresses by line. -/
structure SourceMap where
  /-- The places, each with the address of its instruction. -/
  locations : Array (UInt16 × Location) := #[]
  /-- The address ranges, each with the line of its instruction. -/
  ranges : Array (Nat × Extent) := #[]
  deriving DecidableEq

namespace SourceMap

instance : EmptyCollection SourceMap where
  emptyCollection := {}

/-- Records an instruction of `size` bytes at an address. -/
def add (m : SourceMap) (address : UInt16) (size : Nat) (location : Location) : SourceMap where
  locations := m.locations.push (address, location)
  ranges := m.ranges.push (location.line, ⟨address, address.toNat + size⟩)

/-- The number of instructions recorded. -/
def size (m : SourceMap) : Nat :=
  m.locations.size

/-- Whether no instruction is recorded. -/
def isEmpty (m : SourceMap) : Bool :=
  m.locations.isEmpty

/-- The entries in ascending order of a key, those of one key in the order they had. -/
def sortByKey {α : Type} (key : α → Nat) (entries : Array α) : Array α :=
  (entries.toList.mergeSort fun a b => key a ≤ key b).toArray

/-- The map with its entries sorted, which makes them findable. -/
def sort (m : SourceMap) : SourceMap where
  locations := sortByKey (·.1.toNat) m.locations
  ranges := sortByKey (·.1) m.ranges

/-- The entry with the key `wanted` among the entries from `low` up to `high`, which are sorted by
their keys. -/
def search {α : Type} (key : α → Nat) (entries : Array α) (wanted : Nat) (low high : Nat) :
    Option α :=
  if h : low < high ∧ high ≤ entries.size then
    let middle := (low + high) / 2
    have : middle < entries.size := by omega
    let entry := entries[middle]
    if key entry = wanted then some entry
    else if key entry < wanted then search key entries wanted (middle + 1) high
    else search key entries wanted low middle
  else none
termination_by high - low

/-- The place of the instruction that starts at an address. -/
def location? (m : SourceMap) (address : UInt16) : Option Location :=
  (search (·.1.toNat) m.locations address.toNat 0 m.locations.size).map (·.2)

/-- The addresses of the instruction on a line. -/
def range? (m : SourceMap) (line : Nat) : Option Extent :=
  (search (·.1) m.ranges line 0 m.ranges.size).map (·.2)

@[simp] theorem size_add (m : SourceMap) (address : UInt16) (size : Nat) (location : Location) :
    (m.add address size location).size = m.size + 1 := by
  simp [add, SourceMap.size]

@[simp] theorem size_sort (m : SourceMap) : m.sort.size = m.size := by
  simp [sort, sortByKey, SourceMap.size]

end SourceMap

end Micro65
