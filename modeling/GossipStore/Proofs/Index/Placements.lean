import Mathlib.Data.List.Sort
import GossipStore.Proofs.Index.Arrival

set_option autoImplicit false

/-! # Placements of an entry, of a key and of a vertex

What the rows of an index say about its entries, as far as they mirror them: the placements of an
entry and those at a key are the stored ones, from the oldest to the newest, and the newest older
one at a key is the one that a replacing entry takes away. The entries that touch a vertex stand by
age.
-/

namespace GossipStore.Index

/-! ## Lists in order -/

/-- An ascending list is determined by its members. -/
theorem eq_of_mem_iff_of_pairwise {α : Type} {r : α → α → Prop} {l l' : List α}
    (hl : l.Pairwise r) (hl' : l'.Pairwise r) (hirrefl : ∀ x, ¬ r x x)
    (hasymm : ∀ x y, r x y → ¬ r y x) (h : ∀ x, x ∈ l ↔ x ∈ l') : l = l' :=
  have : Std.Irrefl r := ⟨hirrefl⟩
  have : Std.Antisymm r := ⟨fun x y hxy hyx => absurd hyx (hasymm x y hxy)⟩
  hl.eq_of_mem_iff hl' h

variable {ix : Index}

/-! ## Removals -/

theorem isRemoved_iff {p : Muid} {t : Timestamp} : ix.isRemoved p t = true
    ↔ ∃ k r, ix.removals.get? k = some r ∧ k.removing = p ∧ k.removalId.timestamp ≤ t := by
  simp only [isRemoved, List.any_eq_true, Bool.and_eq_true, decide_eq_true_eq,
    SortedMap.mem_keys_iff]
  constructor
  · rintro ⟨k, ⟨r, hr⟩, hk⟩
    exact ⟨k, r, hr, hk⟩
  · rintro ⟨k, r, hr, hk⟩
    exact ⟨k, ⟨r, hr⟩, hk⟩

/-- At the end of time every removal has taken effect. -/
theorem isRemoved_latest_iff {p : Muid} : ix.isRemoved p Int64.maxValue = true
    ↔ ∃ k r, ix.removals.get? k = some r ∧ k.removing = p := by
  rw [isRemoved_iff]
  refine exists_congr fun k => exists_congr fun r => and_congr_right fun _ => ?_
  exact and_iff_left (Int64.le_maxValue _)

/-! ## Placements of an entry -/

theorem Mirrored.mem_byLocation_iff (h : Mirrored ix) {subject p : Muid} :
    ⟨subject, p⟩ ∈ ix.byLocation.members ↔
      ∃ e, ix.entries.get? p = some e ∧ e.entryId = subject := by
  rw [h.byLocation]
  constructor
  · rintro ⟨e, he, hrow⟩
    cases hrow
    exact ⟨e, he, rfl⟩
  · rintro ⟨e, he, rfl⟩
    exact ⟨e, he, by simp only [locationRow, h.placed p e he]⟩

theorem mem_placementsOf_iff (h : Mirrored ix) {entryId p : Muid} :
    p ∈ ix.placementsOf entryId ↔ ∃ e, ix.entries.get? p = some e ∧ e.entryId = entryId := by
  rw [← h.mem_byLocation_iff]
  simp only [placementsOf, List.mem_map, List.mem_filter, decide_eq_true_eq]
  constructor
  · rintro ⟨r, ⟨hr, rfl⟩, rfl⟩
    exact hr
  · intro hr
    exact ⟨_, ⟨hr, rfl⟩, rfl⟩

theorem pairwise_placementsOf (ix : Index) (entryId : Muid) :
    (ix.placementsOf entryId).Pairwise (· < ·) := by
  refine List.pairwise_map.mpr (List.Pairwise.imp_of_mem ?_
    ((SortedMap.pairwise_keys ix.byLocation).filter _))
  intro r s hr hs hlt
  have hr := of_decide_eq_true (List.mem_filter.mp hr).2
  have hs := of_decide_eq_true (List.mem_filter.mp hs).2
  exact Parted.compare_rest_eq_lt PlacementRow hlt (hr.trans hs.symm)

theorem entryById_of_moment (ix : Index) {asOf : AsOf} {t : Timestamp} (hmoment : Moment asOf t)
    (entryId : Muid) : ix.entryById entryId asOf
      = .ok ((ix.newestUpTo? (ix.placementsOf entryId) t).filter (ix.isLive · t)) := by
  rw [entryById, ix.resolveAsOf_of_moment hmoment]
  rfl

/-! ## Placements at a key -/

theorem mem_placementsAtKey_iff (h : Mirrored ix) {container : Muid} {key : StorageKey}
    {p : Muid} : p ∈ ix.placementsAtKey container key
      ↔ ∃ e, ix.entries.get? p = some e ∧ e.container = container ∧ e.key = key := by
  rw [← h.mem_byKey_iff]
  simp only [placementsAtKey, List.mem_map, List.mem_filter, Bool.and_eq_true, decide_eq_true_eq]
  constructor
  · rintro ⟨r, ⟨hr, rfl, rfl⟩, rfl⟩
    exact hr
  · intro hr
    exact ⟨_, ⟨hr, rfl, rfl⟩, rfl⟩

/-- The placement that a new entry at a key comes after. -/
theorem previousAtKey?_eq_some_iff {container : Muid} {key : StorageKey} {id p : Muid} :
    ix.previousAtKey? container key id = some p ↔ p ∈ ix.placementsAtKey container key ∧ p < id
      ∧ ∀ q ∈ ix.placementsAtKey container key, q < id → q = p ∨ q < p := by
  rw [previousAtKey?, getLast?_eq_some_iff_of_pairwise
    ((pairwise_placementsAtKey ix container key).filter _) Muid.lt_irrefl fun _ _ => Muid.lt_asymm]
  simp only [List.mem_filter, decide_eq_true_eq, and_imp, and_assoc]

/-! ## Entries of a vertex -/

/-- The member of an entry's pair on a side. -/
def memberAt (side : PairSide) (e : Entry) : Option Muid :=
  match side with
  | .source => e.source
  | .target => e.target

theorem Mirrored.mem_pairRows_iff (h : Mirrored ix) {side : PairSide} {subject p : Muid} :
    ⟨subject, p⟩ ∈ (ix.pairRows side).members ↔
      ∃ e, ix.entries.get? p = some e ∧ memberAt side e = some subject := by
  have hlists : Lists (ix.pairRows side) ix.entries (fun e => rowUnder? (memberAt side e) e)
      PlacementRow.placement := by
    cases side with
    | source => exact h.bySource
    | target => exact h.byTarget
  rw [hlists]
  constructor
  · rintro ⟨e, he, hrow⟩
    obtain ⟨q, hq, hrow⟩ := Option.map_eq_some_iff.mp hrow
    cases hrow
    exact ⟨e, he, hq⟩
  · rintro ⟨e, he, hmember⟩
    refine ⟨e, he, Option.map_eq_some_iff.mpr ⟨subject, hmember, ?_⟩⟩
    rw [h.placed p e he]

/-- The visible entries that have a vertex on a side of their pairs. -/
def touchingEntries (ix : Index) (vertex : Muid) (side : PairSide) (t : Timestamp) : List Entry :=
  (((ix.pairRows side).members.filter (·.subject = vertex)).filterMap fun r =>
    ix.entries.get? r.placement).filter (ix.isVisible · t)

theorem mem_touchingEntries_iff (h : Mirrored ix) {vertex : Muid} {side : PairSide}
    {t : Timestamp} {e : Entry} : e ∈ ix.touchingEntries vertex side t ↔
      ix.entries.get? e.placement = some e ∧ memberAt side e = some vertex
        ∧ ix.isVisible e t = true := by
  simp only [touchingEntries, List.mem_filter, List.mem_filterMap, decide_eq_true_eq]
  constructor
  · rintro ⟨⟨⟨subject, p⟩, ⟨hrow, rfl⟩, he⟩, hvisible⟩
    obtain ⟨f, hf, hmember⟩ := h.mem_pairRows_iff.mp hrow
    cases Option.some.inj (hf.symm.trans he)
    have hplaced : e.placement = p := h.placed p e he
    subst hplaced
    exact ⟨he, hmember, hvisible⟩
  · rintro ⟨he, hmember, hvisible⟩
    exact ⟨⟨⟨vertex, e.placement⟩, ⟨h.mem_pairRows_iff.mpr ⟨e, he, hmember⟩, rfl⟩, he⟩, hvisible⟩

/-- The entries that touch a vertex stand by age. -/
theorem pairwise_touchingEntries (h : Mirrored ix) (vertex : Muid) (side : PairSide)
    (t : Timestamp) : (ix.touchingEntries vertex side t).Pairwise fun e f =>
      e.placement < f.placement := by
  refine (List.pairwise_filterMap.mpr (List.Pairwise.imp_of_mem ?_
    ((SortedMap.pairwise_keys (ix.pairRows side)).filter _))).filter _
  intro r s hr hs hlt e he f hf
  have hr := of_decide_eq_true (List.mem_filter.mp hr).2
  have hs := of_decide_eq_true (List.mem_filter.mp hs).2
  rw [h.placed _ e he, h.placed _ f hf]
  exact Parted.compare_rest_eq_lt PlacementRow hlt (hr.trans hs.symm)

theorem entriesTouching_of_moment (ix : Index) {asOf : AsOf} {t : Timestamp}
    (hmoment : Moment asOf t) (vertex : Muid) (side : PairSide) :
    ix.entriesTouching vertex side asOf = .ok (ix.touchingEntries vertex side t) := by
  rw [entriesTouching, ix.resolveAsOf_of_moment hmoment]
  rfl

end GossipStore.Index
