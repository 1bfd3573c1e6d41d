import GossipStore.Index.Basic

set_option autoImplicit false

/-! # Rows mirror records

Beside a table of records stands a table of rows that lead to them. The rows mirror the records
if every row comes from the record it leads to and every record has its row (`Lists`). Storing a
record at a free key and dropping one keep that, and with it the tables of an index keep in step
(`Mirrored`): every row leads to a record, and no record is missed by the rows.
-/

namespace GossipStore

/-! ## Rows of one table -/

section Lists

variable {κ ρ ν : Type} [Ord κ] [Ord ρ]

/-- A row is present exactly if the record at the key it leads to has it. -/
def Lists (rows : SortedSet ρ) (records : SortedMap κ ν) (row : ν → Option ρ) (keyOf : ρ → κ) :
    Prop :=
  ∀ r, r ∈ SortedSet.members rows ↔ ∃ v, records.get? (keyOf r) = some v ∧ row v = some r

theorem mem_removeRow? [Std.LawfulEqOrd ρ] {s : SortedSet ρ} {o : Option ρ} {r : ρ} :
    r ∈ SortedSet.members (Index.removeRow? s o) ↔ o ≠ some r ∧ r ∈ SortedSet.members s := by
  cases o with
  | none => simp [Index.removeRow?]
  | some a =>
      rw [Index.removeRow?, SortedSet.mem_members_remove, Ne, Ne, Option.some.injEq, eq_comm]

namespace Lists

variable {rows : SortedSet ρ} {records : SortedMap κ ν} {row : ν → Option ρ} {keyOf : ρ → κ}

theorem empty :
    Lists (SortedMap.empty : SortedSet ρ) (SortedMap.empty : SortedMap κ ν) row keyOf := by
  intro r
  constructor
  · intro h
    cases h
  · rintro ⟨v, hv, -⟩
    cases hv

/-- A record is dropped, with its row. -/
theorem erase [Std.LawfulEqOrd κ] [Std.LawfulEqOrd ρ] (h : Lists rows records row keyOf) {k : κ}
    {v : ν} (hv : records.get? k = some v) (hkey : ∀ r, row v = some r → keyOf r = k) :
    Lists (Index.removeRow? rows (row v)) (records.erase k) row keyOf := by
  intro r
  rw [mem_removeRow?, h r]
  -- a row that leads to the key is the row of the record that goes
  by_cases hr : keyOf r = k
  · rw [hr, SortedMap.get?_erase_self, hv]
    constructor
    · rintro ⟨hne, w, hw, hrow⟩
      cases hw
      exact absurd hrow hne
    · rintro ⟨w, hw, -⟩
      cases hw
  · rw [SortedMap.get?_erase_of_ne _ hr]
    exact ⟨fun hw => hw.2, fun hw => ⟨fun hrow => hr (hkey r hrow), hw⟩⟩

end Lists

variable [Std.TransOrd κ] [Std.LawfulEqOrd κ] [Std.TransOrd ρ] [Std.LawfulEqOrd ρ]

omit [Ord κ] [Std.TransOrd κ] [Std.LawfulEqOrd κ] in
theorem mem_addRow? {s : SortedSet ρ} {o : Option ρ} {r : ρ} :
    r ∈ SortedSet.members (Index.addRow? s o) ↔ o = some r ∨ r ∈ SortedSet.members s := by
  cases o with
  | none => simp [Index.addRow?]
  | some a =>
      rw [Index.addRow?, SortedSet.mem_members_add, Option.some.injEq, eq_comm]

/-- A record is stored at a free key, with its row. -/
theorem Lists.insert {rows : SortedSet ρ} {records : SortedMap κ ν} {row : ν → Option ρ}
    {keyOf : ρ → κ} (h : Lists rows records row keyOf) {k : κ} {v : ν}
    (hfree : records.get? k = none) (hkey : ∀ r, row v = some r → keyOf r = k) :
    Lists (Index.addRow? rows (row v)) (records.insert k v) row keyOf := by
  intro r
  rw [mem_addRow?, h r]
  -- no row has led to the key before, since it was free
  by_cases hr : keyOf r = k
  · rw [hr, SortedMap.get?_insert_self, hfree]
    constructor
    · rintro (hv | ⟨w, hw, -⟩)
      · exact ⟨v, rfl, hv⟩
      · cases hw
    · rintro ⟨w, hw, hrow⟩
      cases hw
      exact .inl hrow
  · rw [SortedMap.get?_insert_of_ne _ hr]
    constructor
    · rintro (hv | hw)
      · exact absurd (hkey r hv) hr
      · exact hw
    · exact .inr

end Lists

/-! ## Rows of an index -/

namespace Index

/-- Every record stands at its own key, and all tables of rows mirror the records. -/
structure Mirrored (ix : Index) : Prop where
  placed : ∀ p e, ix.entries.get? p = some e → e.placement = p
  byKey : Lists ix.byKey ix.entries (fun e => some (keyRow e)) KeyRow.placement
  byLocation : Lists ix.byLocation ix.entries (fun e => some (locationRow e)) PlacementRow.placement
  byPointee : Lists ix.byPointee ix.entries (fun e => rowUnder? e.pointee e) PlacementRow.placement
  bySource : Lists ix.bySource ix.entries (fun e => rowUnder? e.source e) PlacementRow.placement
  byTarget : Lists ix.byTarget ix.entries (fun e => rowUnder? e.target e) PlacementRow.placement
  removed : ∀ k r, ix.removals.get? k = some r → removalKey r = k
  byContainer : Lists ix.removalsByContainer ix.removals (fun r => some (containerRemoval r))
    fun r => ⟨r.removing, r.removalId⟩

theorem placement_rowUnder? {o : Option Muid} {e : Entry} {r : PlacementRow}
    (h : rowUnder? o e = some r) : r.placement = e.placement := by
  cases o with
  | none => cases h
  | some subject =>
      cases h
      rfl

namespace Mirrored

theorem empty (keepingHistory : Bool) : Mirrored (.empty keepingHistory) where
  placed p e h := by cases h
  byKey := .empty
  byLocation := .empty
  byPointee := .empty
  bySource := .empty
  byTarget := .empty
  removed k r h := by cases h
  byContainer := .empty

variable {ix : Index}

theorem insertEntry (h : Mirrored ix) {e : Entry} (hfree : ix.entries.get? e.placement = none) :
    Mirrored (ix.insertEntry e) where
  placed p f hf := by
    by_cases hp : p = e.placement
    · subst hp
      rw [Index.insertEntry, SortedMap.get?_insert_self] at hf
      cases hf
      rfl
    · rw [Index.insertEntry, SortedMap.get?_insert_of_ne _ hp] at hf
      exact h.placed p f hf
  byKey := h.byKey.insert hfree fun r hr => by cases hr; rfl
  byLocation := h.byLocation.insert hfree fun r hr => by cases hr; rfl
  byPointee := h.byPointee.insert hfree fun _ => placement_rowUnder?
  bySource := h.bySource.insert hfree fun _ => placement_rowUnder?
  byTarget := h.byTarget.insert hfree fun _ => placement_rowUnder?
  removed := h.removed
  byContainer := h.byContainer

theorem deleteEntry (h : Mirrored ix) (p : Muid) : Mirrored (ix.deleteEntry p) := by
  unfold Index.deleteEntry
  cases he : ix.entries.get? p with
  | none => exact h
  | some e =>
      -- the entry stands where it says, so its rows lead to where it stands
      have hplaced : e.placement = p := h.placed p e he
      subst hplaced
      refine {
        placed := fun q f hf => ?_
        byKey := h.byKey.erase he fun r hr => by cases hr; rfl
        byLocation := h.byLocation.erase he fun r hr => by cases hr; rfl
        byPointee := h.byPointee.erase he fun _ => placement_rowUnder?
        bySource := h.bySource.erase he fun _ => placement_rowUnder?
        byTarget := h.byTarget.erase he fun _ => placement_rowUnder?
        removed := h.removed
        byContainer := h.byContainer }
      by_cases hq : q = e.placement
      · rw [hq, SortedMap.get?_erase_self] at hf
        cases hf
      · rw [SortedMap.get?_erase_of_ne _ hq] at hf
        exact h.placed q f hf

theorem insertRemoval (h : Mirrored ix) {r : Removal}
    (hfree : ix.removals.get? (removalKey r) = none) : Mirrored (ix.insertRemoval r) where
  placed := h.placed
  byKey := h.byKey
  byLocation := h.byLocation
  byPointee := h.byPointee
  bySource := h.bySource
  byTarget := h.byTarget
  removed k s hs := by
    by_cases hk : k = removalKey r
    · subst hk
      rw [Index.insertRemoval, SortedMap.get?_insert_self] at hs
      cases hs
      rfl
    · rw [Index.insertRemoval, SortedMap.get?_insert_of_ne _ hk] at hs
      exact h.removed k s hs
  byContainer := h.byContainer.insert hfree fun _ hr => by cases hr; rfl

theorem deleteRemoval (h : Mirrored ix) (k : RemovalKey) : Mirrored (ix.deleteRemoval k) := by
  unfold Index.deleteRemoval
  cases hr : ix.removals.get? k with
  | none => exact h
  | some r =>
      have hkey : removalKey r = k := h.removed k r hr
      subst hkey
      refine {
        placed := h.placed
        byKey := h.byKey
        byLocation := h.byLocation
        byPointee := h.byPointee
        bySource := h.bySource
        byTarget := h.byTarget
        removed := fun k s hs => ?_
        byContainer := h.byContainer.erase hr fun _ hrow => by cases hrow; rfl }
      by_cases hk : k = removalKey r
      · rw [hk, SortedMap.get?_erase_self] at hs
        cases hs
      · rw [SortedMap.get?_erase_of_ne _ hk] at hs
        exact h.removed k s hs

/-- Rows of other tables do not matter. -/
theorem withTables (h : Mirrored ix) (containers : SortedMap Muid Behavior)
    (clearances : SortedMap ClearanceKey Clearance) :
    Mirrored { ix with containers, clearances } :=
  ⟨h.placed, h.byKey, h.byLocation, h.byPointee, h.bySource, h.byTarget, h.removed, h.byContainer⟩

/-! ## What the rows lead to -/

theorem mem_byKey_iff (h : Mirrored ix) {container : Muid} {key : StorageKey} {p : Muid} :
    ⟨container, key, p⟩ ∈ ix.byKey.members ↔
      ∃ e, ix.entries.get? p = some e ∧ e.container = container ∧ e.key = key := by
  rw [h.byKey]
  constructor
  · rintro ⟨e, he, hrow⟩
    cases hrow
    exact ⟨e, he, rfl, rfl⟩
  · rintro ⟨e, he, rfl, rfl⟩
    refine ⟨e, he, ?_⟩
    simp only [keyRow, h.placed p e he]

theorem mem_byPointee_iff (h : Mirrored ix) {subject p : Muid} :
    ⟨subject, p⟩ ∈ ix.byPointee.members ↔
      ∃ e, ix.entries.get? p = some e ∧ e.pointee = some subject := by
  rw [h.byPointee]
  constructor
  · rintro ⟨e, he, hrow⟩
    obtain ⟨q, hq, hrow⟩ := Option.map_eq_some_iff.mp hrow
    cases hrow
    exact ⟨e, he, hq⟩
  · rintro ⟨e, he, hpointee⟩
    refine ⟨e, he, Option.map_eq_some_iff.mpr ⟨subject, hpointee, ?_⟩⟩
    rw [h.placed p e he]

end Mirrored

end Index

end GossipStore
