import GossipStore.Proofs.Index.Placements

set_option autoImplicit false

/-! # Ranges of rows

The keys of the tables are ordered by their first part, then by the next, so the rows that a
question or a change is about stand next to each other: they are those between two bounds that are
made of the parts in question and of least and greatest values (`SortedMap.between`,
`SortedMap.until`, `SortedMap.beyond`). Whatever is looked up is exactly such a range
(`readsRanges`).
-/

namespace GossipStore

/-! ## Bounds -/

/-- What ends in a condition that holds compares first parts only. -/
theorem lt_or_eq_and_iff_isLE {α : Type} [Ord α] [Std.TransOrd α] [Std.LawfulEqOrd α] {a b : α} :
    compare a b = .lt ∨ a = b ∧ True ↔ (compare a b).isLE := by
  rw [and_true, Ordering.isLE_iff_eq_lt_or_eq_eq, Std.compare_eq_iff_eq]

/-- What is neither before nor after a first part has that first part. -/
theorem firstPart_between_iff {α : Type} [Ord α] [Std.TransOrd α] {a b : α} {P Q : Prop} :
    (compare a b = .lt ∨ a = b ∧ P) ∧ (compare b a = .lt ∨ b = a ∧ Q) ↔ b = a ∧ P ∧ Q := by
  constructor
  · rintro ⟨hlt | ⟨rfl, hP⟩, hgt | ⟨heq, hQ⟩⟩
    · have hself : compare a a = .lt := Std.TransCmp.lt_trans hlt hgt
      simp at hself
    · simp [heq] at hlt
    · simp at hgt
    · exact ⟨heq, hP, hQ⟩
  · rintro ⟨rfl, hP, hQ⟩
    exact ⟨.inr ⟨rfl, hP⟩, .inr ⟨rfl, hQ⟩⟩

namespace Muid

theorem isLE_compare_iff {a b : Muid} : (compare a b).isLE ↔ compare a.timestamp b.timestamp = .lt
    ∨ a.timestamp = b.timestamp ∧ (compare a.medallion b.medallion = .lt
      ∨ a.medallion = b.medallion ∧ (compare a.offset b.offset).isLE) := by
  rw [Parted.isLE_compare_iff Muid, isLE_compare_pair_iff]
  rfl

theorem isLE_least (m : Muid) : (compare least m).isLE := by
  have hoffset : (compare (0 : UInt32) m.offset).isLE := Std.isLE_compare.mpr UInt32.zero_le
  rw [isLE_compare_iff]
  simp only [least, Std.compare_eq_lt, Int64.lt_iff_le_and_ne, Int64.minValue_le, true_and,
    hoffset]
  tauto

/-- The addresses of changes made at or before a time. -/
theorem isLE_lastAt_iff {m : Muid} {t : Timestamp} :
    (compare m (lastAt t)).isLE ↔ m.timestamp ≤ t := by
  have hoffset : (compare m.offset 0xffffffff).isLE :=
    Std.isLE_compare.mpr (UInt32.le_iff_toNat_le.mpr (Nat.le_of_lt_succ m.offset.toNat_lt))
  rw [isLE_compare_iff]
  simp only [lastAt, Std.compare_eq_lt, Int64.lt_iff_le_and_ne, Int64.le_maxValue, true_and,
    hoffset]
  constructor
  · rintro (⟨hle, -⟩ | ⟨heq, -⟩)
    · exact hle
    · exact Std.le_of_eq heq
  · intro hle
    by_cases heq : m.timestamp = t
    · exact .inr ⟨heq, by tauto⟩
    · exact .inl ⟨hle, heq⟩

theorem isLE_greatest (m : Muid) : (compare m greatest).isLE :=
  isLE_lastAt_iff.mpr (Int64.le_maxValue _)

end Muid

namespace StorageKey

theorem isLE_compare_iff {k l : StorageKey} : (compare k l).isLE ↔ compare k.rank l.rank = .lt
    ∨ k.rank = l.rank ∧ (compare k.scalarPart l.scalarPart = .lt
      ∨ k.scalarPart = l.scalarPart ∧ (compare k.positionPart l.positionPart = .lt
        ∨ k.positionPart = l.positionPart ∧ (compare k.firstPart l.firstPart = .lt
          ∨ k.firstPart = l.firstPart ∧ (compare k.secondPart l.secondPart).isLE))) := by
  rw [Parted.isLE_compare_iff StorageKey, isLE_compare_pair_iff, isLE_compare_pair_iff,
    isLE_compare_pair_iff]
  rfl

theorem isLE_least (k : StorageKey) : (compare least k).isLE := by
  cases k with
  | unit => exact Std.ReflCmp.isLE_rfl
  | scalar key => exact isLE_compare_iff.mpr (.inl rfl)
  | position place => exact isLE_compare_iff.mpr (.inl rfl)
  | describing subject => exact isLE_compare_iff.mpr (.inl rfl)
  | pair left right => exact isLE_compare_iff.mpr (.inl rfl)

theorem isLE_greatest (k : StorageKey) : (compare k greatest).isLE := by
  cases k with
  | unit => exact isLE_compare_iff.mpr (.inl rfl)
  | scalar key => exact isLE_compare_iff.mpr (.inl rfl)
  | position place => exact isLE_compare_iff.mpr (.inl rfl)
  | describing subject => exact isLE_compare_iff.mpr (.inl rfl)
  | pair left right =>
      refine isLE_compare_iff.mpr (.inr ⟨rfl, .inr ⟨rfl, .inr ⟨rfl, ?_⟩⟩⟩)
      rcases Ordering.isLE_iff_eq_lt_or_eq_eq.mp (Muid.isLE_greatest left) with hlt | heq
      · exact .inl hlt
      · exact .inr ⟨Std.LawfulEqCmp.eq_of_compare heq, Muid.isLE_greatest right⟩

/-- The positions stand between the least position and the greatest one. -/
theorem isPositional_iff {k : StorageKey} : k.isPositional = true
    ↔ (compare (position Int64.minValue) k).isLE ∧ (compare k (position Int64.maxValue)).isLE := by
  rw [isLE_compare_iff, isLE_compare_iff]
  cases k with
  | position place =>
      simp only [isPositional, rank, scalarPart, positionPart, firstPart, secondPart,
        Std.compare_eq_lt, Int64.lt_iff_le_and_ne, Int64.minValue_le, Int64.le_maxValue,
        Std.ReflCmp.isLE_rfl]
      tauto
  | unit => simp [isPositional, rank, show compare 2 0 = .gt from rfl]
  | scalar key => simp [isPositional, rank, show compare 2 1 = .gt from rfl]
  | describing subject => simp [isPositional, rank, show compare 3 2 = .gt from rfl]
  | pair left right => simp [isPositional, rank, show compare 4 2 = .gt from rfl]

end StorageKey

/-- The keys of a table from one bound to another, both included. -/
def SortedMap.between {κ ν : Type} [Ord κ] (m : SortedMap κ ν) (least greatest : κ) : List κ :=
  m.keys.filter fun k => (compare least k).isLE && (compare k greatest).isLE

/-- The keys of a table from one bound on that come before another. -/
def SortedMap.until {κ ν : Type} [Ord κ] (m : SortedMap κ ν) (least bound : κ) : List κ :=
  m.keys.filter fun k => (compare least k).isLE && compare k bound = .lt

/-- The keys of a table after one bound and up to another. -/
def SortedMap.beyond {κ ν : Type} [Ord κ] (m : SortedMap κ ν) (bound greatest : κ) : List κ :=
  m.keys.filter fun k => compare bound k = .lt && (compare k greatest).isLE

/-! ## Ranges in the tables -/

namespace Index

section Ranges

variable (ix : Index) (t : Timestamp)

/-- The rows at a key of a container up to a time. -/
theorem between_key (container : Muid) (key : StorageKey) :
    ix.byKey.between ⟨container, key, .least⟩ ⟨container, key, .lastAt t⟩
      = ix.byKey.members.filter fun r =>
        r.container = container && r.key = key && r.placement.timestamp ≤ t := by
  refine List.filter_congr fun r _ => Bool.eq_iff_iff.mpr ?_
  simp only [Bool.and_eq_true, decide_eq_true_eq, Parted.isLE_compare_iff KeyRow, Parted.parts,
    isLE_compare_pair_iff, firstPart_between_iff, Muid.isLE_least, Muid.isLE_lastAt_iff, true_and,
    and_assoc]

/-- The rows of a container whose keys are between two keys. -/
theorem between_container (container : Muid) (first last : StorageKey) :
    ix.byKey.between ⟨container, first, .least⟩ ⟨container, last, .greatest⟩
      = ix.byKey.members.filter fun r => r.container = container
        && (compare first r.key).isLE && (compare r.key last).isLE := by
  refine List.filter_congr fun r _ => Bool.eq_iff_iff.mpr ?_
  simp only [Bool.and_eq_true, decide_eq_true_eq, Parted.isLE_compare_iff KeyRow, Parted.parts,
    isLE_compare_pair_iff, firstPart_between_iff, Muid.isLE_least, Muid.isLE_greatest,
    lt_or_eq_and_iff_isLE, and_assoc]

/-- The rows of an address up to a time. -/
theorem between_subject (rows : SortedSet PlacementRow) (subject : Muid) :
    rows.between ⟨subject, .least⟩ ⟨subject, .lastAt t⟩
      = rows.members.filter fun r => r.subject = subject && r.placement.timestamp ≤ t := by
  refine List.filter_congr fun r _ => Bool.eq_iff_iff.mpr ?_
  simp only [Bool.and_eq_true, decide_eq_true_eq, Parted.isLE_compare_iff PlacementRow,
    Parted.parts, firstPart_between_iff, Muid.isLE_least, Muid.isLE_lastAt_iff, true_and]

/-- The removals of a placement up to a time. -/
theorem between_removals (placement : Muid) :
    ix.removals.between ⟨placement, .least⟩ ⟨placement, .lastAt t⟩
      = ix.removals.keys.filter fun k =>
        k.removing = placement && k.removalId.timestamp ≤ t := by
  refine List.filter_congr fun k _ => Bool.eq_iff_iff.mpr ?_
  simp only [Bool.and_eq_true, decide_eq_true_eq, Parted.isLE_compare_iff RemovalKey,
    Parted.parts, firstPart_between_iff, Muid.isLE_least, Muid.isLE_lastAt_iff, true_and]

/-- The clearances of a container up to a time. -/
theorem between_clearances (container : Muid) :
    ix.clearances.between ⟨container, .least⟩ ⟨container, .lastAt t⟩
      = ix.clearances.keys.filter fun k =>
        k.container = container && k.clearanceId.timestamp ≤ t := by
  refine List.filter_congr fun k _ => Bool.eq_iff_iff.mpr ?_
  simp only [Bool.and_eq_true, decide_eq_true_eq, Parted.isLE_compare_iff ClearanceKey,
    Parted.parts, firstPart_between_iff, Muid.isLE_least, Muid.isLE_lastAt_iff, true_and]

/-- The removals within a container up to a time. -/
theorem between_containerRemovals (container : Muid) :
    ix.removalsByContainer.between ⟨container, .least, .least⟩ ⟨container, .lastAt t, .greatest⟩
      = ix.removalsByContainer.members.filter fun r =>
        r.container = container && r.removalId.timestamp ≤ t := by
  refine List.filter_congr fun r _ => Bool.eq_iff_iff.mpr ?_
  simp only [Bool.and_eq_true, decide_eq_true_eq, Parted.isLE_compare_iff ContainerRemoval,
    Parted.parts, isLE_compare_pair_iff, firstPart_between_iff]
  simp only [Muid.isLE_least, Muid.isLE_greatest, lt_or_eq_and_iff_isLE, Muid.isLE_lastAt_iff,
    true_and]

/-- The rows at a key of a container that are older than a change. -/
theorem until_key (container : Muid) (key : StorageKey) (id : Muid) :
    ix.byKey.until ⟨container, key, .least⟩ ⟨container, key, id⟩
      = ix.byKey.members.filter fun r =>
        r.container = container && r.key = key && r.placement < id := by
  refine List.filter_congr fun r _ => Bool.eq_iff_iff.mpr ?_
  simp only [Bool.and_eq_true, decide_eq_true_eq, Parted.isLE_compare_iff KeyRow,
    Parted.compare_eq_lt_iff KeyRow, Parted.parts, isLE_compare_pair_iff, compare_pair_eq_lt_iff,
    firstPart_between_iff, Muid.isLE_least, true_and, and_assoc]
  rfl

/-- The clearances of a container that are older than a change. -/
theorem until_clearances (container id : Muid) :
    ix.clearances.until ⟨container, .least⟩ ⟨container, id⟩
      = ix.clearances.keys.filter fun k => k.container = container && k.clearanceId < id := by
  refine List.filter_congr fun k _ => Bool.eq_iff_iff.mpr ?_
  simp only [Bool.and_eq_true, decide_eq_true_eq, Parted.isLE_compare_iff ClearanceKey,
    Parted.compare_eq_lt_iff ClearanceKey, Parted.parts, firstPart_between_iff, Muid.isLE_least,
    true_and]
  rfl

/-- The clearances of a container that are newer than a change. -/
theorem beyond_clearances (container id : Muid) :
    ix.clearances.beyond ⟨container, id⟩ ⟨container, .greatest⟩
      = ix.clearances.keys.filter fun k => k.container = container && id < k.clearanceId := by
  refine List.filter_congr fun k _ => Bool.eq_iff_iff.mpr ?_
  simp only [Bool.and_eq_true, decide_eq_true_eq, Parted.isLE_compare_iff ClearanceKey,
    Parted.compare_eq_lt_iff ClearanceKey, Parted.parts, firstPart_between_iff]
  simp only [Muid.isLE_greatest, and_true]
  rfl

end Ranges

/-! ## What questions and changes look up -/

/-- Whatever an index is asked or told, the rows that it looks up are a range of a table. -/
structure ReadsRanges (ix : Index) : Prop where
  atKey : ∀ container key t, (ix.placementsAtKey container key).filter (·.timestamp ≤ t)
    = (ix.byKey.between ⟨container, key, .least⟩ ⟨container, key, .lastAt t⟩).map (·.placement)
  ofEntry : ∀ entryId t, (ix.placementsOf entryId).filter (·.timestamp ≤ t)
    = (ix.byLocation.between ⟨entryId, .least⟩ ⟨entryId, .lastAt t⟩).map (·.placement)
  ofContainer : ∀ container, ix.byKey.members.filter (·.container = container)
    = ix.byKey.between ⟨container, .least, .least⟩ ⟨container, .greatest, .greatest⟩
  positional : ∀ container,
    (ix.byKey.members.filter fun r => r.container = container && r.key.isPositional)
      = ix.byKey.between ⟨container, .position Int64.minValue, .least⟩
        ⟨container, .position Int64.maxValue, .greatest⟩
  touching : ∀ side vertex, (ix.pairRows side).members.filter (·.subject = vertex)
    = (ix.pairRows side).between ⟨vertex, .least⟩ ⟨vertex, .greatest⟩
  pointing : ∀ target, ix.byPointee.members.filter (·.subject = target)
    = ix.byPointee.between ⟨target, .least⟩ ⟨target, .greatest⟩
  removed : ∀ placement t, ix.isRemoved placement t
    = !(ix.removals.between ⟨placement, .least⟩ ⟨placement, .lastAt t⟩).isEmpty
  cleared : ∀ container t, ix.clearanceBefore? container t
    = ((ix.clearances.between ⟨container, .least⟩ ⟨container, .lastAt t⟩).getLast?).map
      (·.clearanceId)
  replaced : ∀ container key id, (ix.placementsAtKey container key).filter (· < id)
    = (ix.byKey.until ⟨container, key, .least⟩ ⟨container, key, id⟩).map (·.placement)
  removalsWithin : ∀ container t, (ix.removalsByContainer.members.filter fun r =>
      r.container = container && r.removalId.timestamp ≤ t)
    = ix.removalsByContainer.between ⟨container, .least, .least⟩
      ⟨container, .lastAt t, .greatest⟩
  olderClearances : ∀ container id, (ix.clearances.keys.filter fun k =>
      k.container = container && k.clearanceId < id)
    = ix.clearances.until ⟨container, .least⟩ ⟨container, id⟩
  purged : ∀ container id, ix.isPurged container id = true
    ↔ ∃ k ∈ ix.clearances.beyond ⟨container, id⟩ ⟨container, .greatest⟩,
      ∃ c, ix.clearances.get? k = some c ∧ c.purging = true

/-- All rows of an address are those up to the end of time. -/
theorem filter_subject_eq_between (rows : SortedSet PlacementRow) (subject : Muid) :
    rows.members.filter (·.subject = subject)
      = rows.between ⟨subject, .least⟩ ⟨subject, .greatest⟩ := by
  refine .trans (List.filter_congr fun r _ => ?_) (between_subject Int64.maxValue rows subject).symm
  simp only [Int64.le_maxValue, decide_true, Bool.and_true]

theorem readsRanges (ix : Index) : ReadsRanges ix where
  atKey container key t := by
    rw [between_key, placementsAtKey, List.filter_map, List.filter_filter]
    simp only [Function.comp_def, Bool.and_comm]
  ofEntry entryId t := by
    rw [between_subject, placementsOf, List.filter_map, List.filter_filter]
    simp only [Function.comp_def, Bool.and_comm]
  ofContainer container := by
    rw [between_container]
    simp only [StorageKey.isLE_least, StorageKey.isLE_greatest, Bool.and_true]
  positional container := by
    rw [between_container]
    refine List.filter_congr fun r _ => Bool.eq_iff_iff.mpr ?_
    rw [Bool.and_assoc, Bool.and_eq_true, Bool.and_eq_true, Bool.and_eq_true,
      StorageKey.isPositional_iff]
  touching side := filter_subject_eq_between (ix.pairRows side)
  pointing := filter_subject_eq_between ix.byPointee
  removed placement t := by
    rw [between_removals, isRemoved, Bool.eq_iff_iff, List.any_eq_true, Bool.not_eq_true',
      List.isEmpty_eq_false_iff_exists_mem]
    simp only [List.mem_filter]
  cleared container t := by rw [between_clearances, clearanceBefore?]
  replaced container key id := by
    rw [until_key, placementsAtKey, List.filter_map, List.filter_filter]
    simp only [Function.comp_def, Bool.and_comm]
  removalsWithin container t := (between_containerRemovals ix t container).symm
  olderClearances container id := (until_clearances ix container id).symm
  purged container id := by
    rw [beyond_clearances, isPurged, List.any_eq_true]
    simp only [Bool.and_eq_true, decide_eq_true_eq, List.mem_filter, Prod.exists,
      SortedMap.mem_toList_iff, SortedMap.mem_keys_iff]
    constructor
    · rintro ⟨k, c, hc, hk, hpurging⟩
      exact ⟨k, ⟨⟨c, hc⟩, hk⟩, c, hc, hpurging⟩
    · rintro ⟨k, ⟨-, hk⟩, c, hc, hpurging⟩
      exact ⟨k, c, hc, hk, hpurging⟩

end Index

end GossipStore
