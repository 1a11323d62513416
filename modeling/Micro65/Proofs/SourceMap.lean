import Mathlib.Data.List.Induction
import Mathlib.Data.List.Nodup
import Micro65.SourceMap
/-!
# Look-ups in source maps

A binary search finds only what is there (`SourceMap.of_search`), and in entries in ascending order
it finds what is there (`SourceMap.isSome_search`). Sorting keeps the entries and puts them in this
order. So in a sorted map an address has a location, and a line has a range, exactly if one has been
recorded for it (`SourceMap.location?_sort_eq_some_iff`, `SourceMap.range?_sort_eq_some_iff`),
provided no two entries have one key.

The order in which instructions were recorded does not matter then. What a map holds is known but
for this order (`SourceMap.Holds`), both recording and sorting keep it so, and a sorted map has no
other order left (`SourceMap.Holds.sort_eq`): it holds just what was recorded, in however many
batches (`SourceMap.holdsExactly_ofBatches`).
-/

namespace Micro65

namespace SourceMap

variable {α : Type} {key : α → Nat} {entries : Array α} {wanted low high : Nat} {entry : α}

/-! ## Binary search -/

/-- What is found is there and has the key. -/
theorem of_search (h : search key entries wanted low high = some entry) :
    entry ∈ entries ∧ key entry = wanted := by
  fun_induction search key entries wanted low high with
  | case1 low high hrange middle hmiddle found heq =>
    rw [← Option.some.inj h]
    exact ⟨Array.getElem_mem hmiddle, heq⟩
  | case2 low high hrange middle hmiddle found hne hlt ih => exact ih h
  | case3 low high hrange middle hmiddle found hne hge ih => exact ih h
  | case4 => cases h

/-- In entries in ascending order, what is there is found. -/
theorem isSome_search (hsorted : entries.toList.Pairwise fun a b => key a ≤ key b) {i : Nat}
    (hi : i < entries.size) (hlow : low ≤ i) (hlt : i < high) (hhigh : high ≤ entries.size)
    (hkey : key entries[i] = wanted) :
    (search key entries wanted low high).isSome = true := by
  have hle : ∀ i j (hi : i < entries.size) (hj : j < entries.size), i ≤ j →
      key entries[i] ≤ key entries[j] := by
    intro i j hi hj hij
    rcases Nat.lt_or_eq_of_le hij with hlt | rfl
    · have hpair :=
        List.pairwise_iff_getElem.mp hsorted i j (by simpa using hi) (by simpa using hj) hlt
      simpa using hpair
    · exact Nat.le_refl _
  fun_induction search key entries wanted low high with
  | case1 => rfl
  -- The entry in the middle has a lower key, so what is wanted stands behind it.
  | case2 low high hrange middle hmiddle found hne hless ih =>
    refine ih (Nat.lt_of_not_le fun hbefore => ?_) hlt hhigh
    exact absurd (hkey ▸ hle i middle hi hmiddle hbefore) (Nat.not_le_of_lt hless)
  -- The entry in the middle has a higher key, so what is wanted stands before it.
  | case3 low high hrange middle hmiddle found hne hless ih =>
    refine ih hlow (Nat.lt_of_not_le fun hbehind => ?_) (Nat.le_of_lt hmiddle)
    have hgreater := hkey ▸ hle middle i hmiddle hi hbehind
    exact hless (Nat.lt_of_le_of_ne hgreater hne)
  | case4 low high hrange => exact absurd ⟨by omega, hhigh⟩ hrange

/-! ## Sorting -/

theorem perm_sortByKey (key : α → Nat) (entries : Array α) :
    (sortByKey key entries).toList.Perm entries.toList :=
  List.mergeSort_perm _ _

theorem pairwise_sortByKey (key : α → Nat) (entries : Array α) :
    (sortByKey key entries).toList.Pairwise fun a b => key a ≤ key b := by
  have hsorted := @List.pairwise_mergeSort α (fun a b => key a ≤ key b)
    (fun _ _ _ hab hbc => by simp at hab hbc ⊢; omega) (fun _ _ => by simp; omega) entries.toList
  exact hsorted.imp fun h => of_decide_eq_true h

/-- **A search in sorted entries** finds the one entry that has the key. -/
theorem search_sortByKey_eq_some_iff (hnodup : (entries.toList.map key).Nodup) :
    search key (sortByKey key entries) wanted 0 (sortByKey key entries).size = some entry ↔
      entry ∈ entries ∧ key entry = wanted := by
  have hmem : ∀ e, e ∈ sortByKey key entries ↔ e ∈ entries := by
    intro e
    rw [← Array.mem_toList_iff, (perm_sortByKey key entries).mem_iff, Array.mem_toList_iff]
  constructor
  · intro h
    obtain ⟨hfound, hkey⟩ := of_search h
    exact ⟨(hmem entry).mp hfound, hkey⟩
  · rintro ⟨hentry, hkey⟩
    obtain ⟨i, hi, heq⟩ := Array.mem_iff_getElem.mp ((hmem entry).mpr hentry)
    have hsome : (search key (sortByKey key entries) wanted 0
        (sortByKey key entries).size).isSome = true :=
      isSome_search (pairwise_sortByKey key entries) hi (Nat.zero_le i) hi (Nat.le_refl _)
        (by rw [heq, hkey])
    obtain ⟨found, hfound⟩ := Option.isSome_iff_exists.mp hsome
    obtain ⟨hfoundMem, hfoundKey⟩ := of_search hfound
    rw [hfound]
    exact congrArg some (List.inj_on_of_nodup_map hnodup
      (Array.mem_toList_iff.mpr ((hmem found).mp hfoundMem)) (Array.mem_toList_iff.mpr hentry)
      (hfoundKey.trans hkey.symm))

/-- Entries that no two of which have one key are sorted in one way only. -/
theorem sortByKey_eq_of_perm {entries' : Array α} (hperm : entries.toList.Perm entries'.toList)
    (hnodup : (entries.toList.map key).Nodup) : sortByKey key entries = sortByKey key entries' := by
  have hsorted := perm_sortByKey key entries
  have hsorted' := perm_sortByKey key entries'
  rw [← Array.toList_inj]
  refine List.Perm.eq_of_pairwise ?_ (pairwise_sortByKey key entries)
    (pairwise_sortByKey key entries') (hsorted.trans (hperm.trans hsorted'.symm))
  intro a b ha hb hab hba
  exact List.inj_on_of_nodup_map hnodup (hsorted.mem_iff.mp ha)
    (hperm.mem_iff.mpr (hsorted'.mem_iff.mp hb)) (Nat.le_antisymm hab hba)

theorem sortByKey_sortByKey (key : α → Nat) (entries : Array α) :
    sortByKey key (sortByKey key entries) = sortByKey key entries := by
  have hsorted := (pairwise_sortByKey key entries).imp fun h => decide_eq_true h
  rw [← Array.toList_inj]
  exact List.mergeSort_of_pairwise hsorted

/-- **A sorted map** stays as it is when it is sorted again. -/
@[simp] theorem sort_sort (m : SourceMap) : m.sort.sort = m.sort := by
  simp [sort, sortByKey_sortByKey]

/-- Different addresses are different numbers. -/
theorem nodup_toNat {entries : Array (UInt16 × α)} (h : (entries.toList.map Prod.fst).Nodup) :
    (entries.toList.map fun entry => entry.1.toNat).Nodup := by
  have hmap := h.map (f := UInt16.toNat) fun a b hab => UInt16.toNat_inj.mp hab
  rwa [List.map_map] at hmap

/-! ## Look-ups -/

variable {m : SourceMap}

/-- **The location of an address** is the one that was recorded for it. -/
theorem location?_sort_eq_some_iff (h : (m.locations.toList.map Prod.fst).Nodup)
    {address : UInt16} {location : Location} :
    m.sort.location? address = some location ↔ (address, location) ∈ m.locations := by
  unfold location? sort
  simp only [Option.map_eq_some_iff, search_sortByKey_eq_some_iff (nodup_toNat h)]
  constructor
  · rintro ⟨⟨address', location'⟩, ⟨hmem, haddress⟩, rfl⟩
    rwa [← UInt16.toNat_inj.mp haddress]
  · intro hmem
    exact ⟨(address, location), ⟨hmem, rfl⟩, rfl⟩

/-- **The range of a line** is the one that was recorded for it. -/
theorem range?_sort_eq_some_iff (h : (m.ranges.toList.map Prod.fst).Nodup) {line : Nat}
    {range : Extent} : m.sort.range? line = some range ↔ (line, range) ∈ m.ranges := by
  unfold range? sort
  simp only [Option.map_eq_some_iff, search_sortByKey_eq_some_iff h]
  constructor
  · rintro ⟨⟨line', range'⟩, ⟨hmem, rfl⟩, rfl⟩
    exact hmem
  · intro hmem
    exact ⟨(line, range), ⟨hmem, rfl⟩, rfl⟩

/-! ## What has been recorded -/

/-- An instruction to be recorded. -/
structure Record where
  address : UInt16
  /-- The number of bytes. -/
  size : Nat
  location : Location
  deriving DecidableEq, Repr

/-- The addresses of the bytes of the instruction. -/
def Record.extent (x : Record) : Extent :=
  ⟨x.address, x.address.toNat + x.size⟩

/-- Records an instruction. -/
def record (m : SourceMap) (x : Record) : SourceMap :=
  m.add x.address x.size x.location

/-- Records instructions and sorts the map. -/
def recordAll (m : SourceMap) (batch : List Record) : SourceMap :=
  (batch.foldl record m).sort

/-- The map behind some batches of instructions. It is sorted behind each of them. -/
def ofBatches (batches : List (List Record)) : SourceMap :=
  batches.foldl recordAll ∅

/-- A map holds an entry in both directions for each of some instructions, and no
others, in any order. -/
structure Holds (m : SourceMap) (records : List Record) : Prop where
  locations : m.locations.toList.Perm (records.map fun x => (x.address, x.location))
  ranges : m.ranges.toList.Perm (records.map fun x => (x.location.line, x.extent))

/-- No two of some instructions have one address, and no two have one line. -/
structure Apart (records : List Record) : Prop where
  addresses : (records.map Record.address).Nodup
  lines : (records.map fun x => x.location.line).Nodup

variable {m' : SourceMap} {records records' : List Record}

theorem holds_empty : Holds ∅ [] where
  locations := .refl _
  ranges := .refl _

/-- Recording an instruction adds it to what the map holds. -/
theorem Holds.record (h : m.Holds records) (x : Record) :
    (m.record x).Holds (records ++ [x]) where
  locations := by
    simp only [SourceMap.record, add, Array.toList_push, List.map_append, List.map_singleton]
    exact h.locations.append_right _
  ranges := by
    simp only [SourceMap.record, add, Array.toList_push, List.map_append, List.map_singleton]
    exact h.ranges.append_right _

/-- Sorting does not change what the map holds. -/
theorem Holds.sort (h : m.Holds records) : m.sort.Holds records where
  locations := (perm_sortByKey _ _).trans h.locations
  ranges := (perm_sortByKey _ _).trans h.ranges

theorem Holds.foldl_record (h : m.Holds records) (batch : List Record) :
    (batch.foldl SourceMap.record m).Holds (records ++ batch) := by
  induction batch generalizing m records with
  | nil => rwa [List.append_nil]
  | cons x batch ih =>
    rw [List.append_cons]
    exact ih (h.record x)

/-- **What the map holds behind some batches** is all of their instructions. -/
theorem holds_ofBatches (batches : List (List Record)) :
    (ofBatches batches).Holds batches.flatten := by
  induction batches using List.reverseRecOn with
  | nil => exact holds_empty
  | append_singleton batches batch ih =>
    unfold ofBatches at ih ⊢
    rw [List.foldl_append, List.flatten_append, List.flatten_singleton]
    exact (ih.foldl_record batch).sort

theorem sort_ofBatches {batches : List (List Record)} (h : batches ≠ []) :
    (ofBatches batches).sort = ofBatches batches := by
  rcases List.eq_nil_or_concat' batches with rfl | ⟨batches, batch, rfl⟩
  · exact absurd rfl h
  · unfold ofBatches
    rw [List.foldl_append, List.foldl_cons, List.foldl_nil, recordAll, sort_sort]

theorem Holds.of_perm (h : m.Holds records) (hperm : records.Perm records') :
    m.Holds records' where
  locations := h.locations.trans (hperm.map _)
  ranges := h.ranges.trans (hperm.map _)

theorem Holds.size_eq (h : m.Holds records) : m.size = records.length := by
  rw [SourceMap.size, ← Array.length_toList, h.locations.length_eq, List.length_map]

theorem Holds.nodup_addresses (h : m.Holds records) (hnodup : (records.map Record.address).Nodup) :
    (m.locations.toList.map Prod.fst).Nodup := by
  rw [(h.locations.map Prod.fst).nodup_iff, List.map_map]
  exact hnodup

theorem Holds.nodup_lines (h : m.Holds records)
    (hnodup : (records.map fun x => x.location.line).Nodup) :
    (m.ranges.toList.map Prod.fst).Nodup := by
  rw [(h.ranges.map Prod.fst).nodup_iff, List.map_map]
  exact hnodup

/-- **Two maps that hold the same are sorted into one map.** -/
theorem Holds.sort_eq (h : m.Holds records) (h' : m'.Holds records) (hapart : Apart records) :
    m.sort = m'.sort := by
  unfold SourceMap.sort
  rw [SourceMap.mk.injEq]
  exact ⟨sortByKey_eq_of_perm (h.locations.trans h'.locations.symm)
      (nodup_toNat (h.nodup_addresses hapart.addresses)),
    sortByKey_eq_of_perm (h.ranges.trans h'.ranges.symm) (h.nodup_lines hapart.lines)⟩

theorem Holds.location?_sort (h : m.Holds records) (hnodup : (records.map Record.address).Nodup)
    {address : UInt16} {location : Location} :
    m.sort.location? address = some location ↔
      ∃ x ∈ records, x.address = address ∧ x.location = location := by
  rw [location?_sort_eq_some_iff (h.nodup_addresses hnodup), ← Array.mem_toList_iff,
    h.locations.mem_iff]
  simp

theorem Holds.range?_sort (h : m.Holds records)
    (hnodup : (records.map fun x => x.location.line).Nodup) {line : Nat} {range : Extent} :
    m.sort.range? line = some range ↔ ∃ x ∈ records, x.location.line = line ∧ x.extent = range := by
  rw [range?_sort_eq_some_iff (h.nodup_lines hnodup), ← Array.mem_toList_iff, h.ranges.mem_iff]
  simp

/-- **What it is for a map to hold just these instructions**, with nothing left of their order. -/
structure HoldsExactly (m : SourceMap) (records : List Record) : Prop where
  /-- Each address has the location that was recorded with it, and no other address has one. -/
  location?_eq : ∀ x ∈ records, m.location? x.address = some x.location
  location?_eq_none : ∀ address, (∀ x ∈ records, x.address ≠ address) →
    m.location? address = none
  /-- Each line has the addresses that were recorded with it, and no other line has any. The last of
  them may lie behind the last address, for nothing is wrapped. -/
  range?_eq : ∀ x ∈ records,
    m.range? x.location.line = some ⟨x.address, x.address.toNat + x.size⟩
  range?_eq_none : ∀ line, (∀ x ∈ records, x.location.line ≠ line) → m.range? line = none
  size_eq : m.size = records.length
  /-- In another order and in other batches the instructions make the same map. -/
  eq_of_perm : ∀ batches, batches ≠ [] → batches.flatten.Perm records → ofBatches batches = m
  sort_eq : m.sort = m

theorem Holds.holdsExactly (h : m.Holds records) (hapart : Apart records) :
    m.sort.HoldsExactly records where
  location?_eq x hx := (h.location?_sort hapart.addresses).mpr ⟨x, hx, rfl, rfl⟩
  location?_eq_none address hnone := by
    rw [Option.eq_none_iff_forall_ne_some]
    intro location hlocation
    obtain ⟨x, hx, haddress, -⟩ := (h.location?_sort hapart.addresses).mp hlocation
    exact hnone x hx haddress
  range?_eq x hx := (h.range?_sort hapart.lines).mpr ⟨x, hx, rfl, rfl⟩
  range?_eq_none line hnone := by
    rw [Option.eq_none_iff_forall_ne_some]
    intro range hrange
    obtain ⟨x, hx, hline, -⟩ := (h.range?_sort hapart.lines).mp hrange
    exact hnone x hx hline
  size_eq := by rw [size_sort, h.size_eq]
  eq_of_perm batches hne hperm := by
    rw [← sort_ofBatches hne]
    exact ((holds_ofBatches batches).of_perm hperm).sort_eq h hapart
  sort_eq := sort_sort m

/-- **A source map holds just what was recorded**, in any order and in any number of batches, and it
can be sorted any number of times. -/
theorem holdsExactly_ofBatches {batches : List (List Record)} (hne : batches ≠ [])
    (haddresses : (batches.flatten.map Record.address).Nodup)
    (hlines : (batches.flatten.map fun x => x.location.line).Nodup) :
    (ofBatches batches).HoldsExactly batches.flatten ∧ ∀ m : SourceMap, m.sort.sort = m.sort := by
  refine ⟨?_, sort_sort⟩
  rw [← sort_ofBatches hne]
  exact (holds_ofBatches batches).holdsExactly ⟨haddresses, hlines⟩

/-- Two batches, the second of which comes before the first in both orders, and an instruction that
ends behind the last address. -/
theorem holdsExactly_ofBatches_of_stopPastEnd :
    let map := ofBatches
      [[⟨0xFFFE, 3, ⟨7, 4, 8⟩⟩, ⟨0x0002, 1, ⟨9, 0, 3⟩⟩], [⟨0x0000, 2, ⟨2, 0, 8⟩⟩]]
    map.range? 7 = some ⟨0xFFFE, 0x10001⟩ ∧ map.location? 0x0000 = some ⟨2, 0, 8⟩ ∧
      map.location? 0x0001 = none := by
  obtain ⟨h, -⟩ := @holdsExactly_ofBatches
    [[⟨0xFFFE, 3, ⟨7, 4, 8⟩⟩, ⟨0x0002, 1, ⟨9, 0, 3⟩⟩], [⟨0x0000, 2, ⟨2, 0, 8⟩⟩]]
    (by decide) (by decide) (by decide)
  exact ⟨h.range?_eq ⟨0xFFFE, 3, ⟨7, 4, 8⟩⟩ (by decide),
    h.location?_eq ⟨0x0000, 2, ⟨2, 0, 8⟩⟩ (by decide), h.location?_eq_none 0x0001 (by decide)⟩

end SourceMap

end Micro65
