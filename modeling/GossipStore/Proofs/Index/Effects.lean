import GossipStore.Index.Apply
import GossipStore.Proofs.Index.Rows

set_option autoImplicit false

/-! # Effects of changes on the tables

What an entry and a clearance do to the tables of an index, as far as the tables mirror each
other: an entry comes in alone or with the removal of the one before it (`applyEntry_cases`), and a
purge keeps exactly the records that it does not cover (`get?_entries_purgeContainer`,
`get?_removals_purgeContainer`).
-/

namespace GossipStore.Index

variable {ix : Index}

/-! ## Storing entries and removals -/

theorem get?_entries_insertEntry (ix : Index) (e : Entry) (p : Muid) :
    (ix.insertEntry e).entries.get? p = if p = e.placement then some e else ix.entries.get? p := by
  by_cases hp : p = e.placement
  · rw [if_pos hp, hp]
    exact SortedMap.get?_insert_self ix.entries e.placement e
  · rw [if_neg hp]
    exact SortedMap.get?_insert_of_ne ix.entries hp e

theorem get?_removals_insertRemoval (ix : Index) (r : Removal) (k : RemovalKey) :
    (ix.insertRemoval r).removals.get? k
      = if k = removalKey r then some r else ix.removals.get? k := by
  by_cases hk : k = removalKey r
  · rw [if_pos hk, hk]
    exact SortedMap.get?_insert_self ix.removals (removalKey r) r
  · rw [if_neg hk]
    exact SortedMap.get?_insert_of_ne ix.removals hk r

/-! ## Dropping entries -/

theorem get?_entries_deleteEntry (ix : Index) (p q : Muid) :
    (ix.deleteEntry p).entries.get? q = if q = p then none else ix.entries.get? q := by
  unfold deleteEntry
  cases he : ix.entries.get? p with
  | none =>
      by_cases hq : q = p
      · rw [if_pos hq, hq, he]
      · rw [if_neg hq]
  | some e =>
      by_cases hq : q = p
      · rw [if_pos hq, hq]
        exact SortedMap.get?_erase_self ix.entries p
      · rw [if_neg hq]
        exact SortedMap.get?_erase_of_ne ix.entries hq

theorem of_get?_entries_deleteEntry {ix : Index} {p q : Muid} {x : Entry}
    (hx : (ix.deleteEntry p).entries.get? q = some x) : ix.entries.get? q = some x := by
  rw [get?_entries_deleteEntry] at hx
  split at hx
  · cases hx
  · exact hx

/-- Dropping an entry leaves the other tables alone. -/
theorem deleteEntry_frame (ix : Index) (p : Muid) :
    (ix.deleteEntry p).keepingHistory = ix.keepingHistory
      ∧ (ix.deleteEntry p).removals = ix.removals
      ∧ (ix.deleteEntry p).removalsByContainer = ix.removalsByContainer
      ∧ (ix.deleteEntry p).clearances = ix.clearances := by
  unfold deleteEntry
  cases ix.entries.get? p with
  | none => exact ⟨rfl, rfl, rfl, rfl⟩
  | some e => exact ⟨rfl, rfl, rfl, rfl⟩

theorem get?_entries_foldl_deleteEntry (l : List Muid) (ix : Index) (q : Muid) :
    (l.foldl deleteEntry ix).entries.get? q = if q ∈ l then none else ix.entries.get? q := by
  induction l generalizing ix with
  | nil => simp
  | cons p rest ih =>
      rw [List.foldl_cons, ih, get?_entries_deleteEntry]
      by_cases hq : q = p
      · simp [hq]
      · simp [hq]

theorem foldl_deleteEntry_frame (l : List Muid) (ix : Index) :
    (l.foldl deleteEntry ix).keepingHistory = ix.keepingHistory
      ∧ (l.foldl deleteEntry ix).removals = ix.removals
      ∧ (l.foldl deleteEntry ix).removalsByContainer = ix.removalsByContainer
      ∧ (l.foldl deleteEntry ix).clearances = ix.clearances := by
  induction l generalizing ix with
  | nil => exact ⟨rfl, rfl, rfl, rfl⟩
  | cons p rest ih =>
      obtain ⟨hh, hr, hc, hq⟩ := deleteEntry_frame ix p
      obtain ⟨hh', hr', hc', hq'⟩ := ih (ix.deleteEntry p)
      exact ⟨hh'.trans hh, hr'.trans hr, hc'.trans hc, hq'.trans hq⟩

theorem Mirrored.foldl_deleteEntry (h : Mirrored ix) (l : List Muid) :
    Mirrored (l.foldl Index.deleteEntry ix) := by
  induction l generalizing ix with
  | nil => exact h
  | cons p rest ih => exact ih (h.deleteEntry p)

/-! ## Dropping removals -/

theorem get?_removals_deleteRemoval (ix : Index) (k j : RemovalKey) :
    (ix.deleteRemoval k).removals.get? j = if j = k then none else ix.removals.get? j := by
  unfold deleteRemoval
  cases hr : ix.removals.get? k with
  | none =>
      by_cases hj : j = k
      · rw [if_pos hj, hj, hr]
      · rw [if_neg hj]
  | some r =>
      by_cases hj : j = k
      · rw [if_pos hj, hj]
        exact SortedMap.get?_erase_self ix.removals k
      · rw [if_neg hj]
        exact SortedMap.get?_erase_of_ne ix.removals hj

theorem of_get?_removals_deleteRemoval {ix : Index} {k j : RemovalKey} {r : Removal}
    (hr : (ix.deleteRemoval k).removals.get? j = some r) : ix.removals.get? j = some r := by
  rw [get?_removals_deleteRemoval] at hr
  split at hr
  · cases hr
  · exact hr

/-- Dropping a removal leaves the other tables alone. -/
theorem deleteRemoval_frame (ix : Index) (k : RemovalKey) :
    (ix.deleteRemoval k).keepingHistory = ix.keepingHistory
      ∧ (ix.deleteRemoval k).entries = ix.entries
      ∧ (ix.deleteRemoval k).clearances = ix.clearances := by
  unfold deleteRemoval
  cases ix.removals.get? k with
  | none => exact ⟨rfl, rfl, rfl⟩
  | some r => exact ⟨rfl, rfl, rfl⟩

theorem get?_removals_foldl_deleteRemoval (l : List RemovalKey) (ix : Index) (j : RemovalKey) :
    (l.foldl deleteRemoval ix).removals.get? j
      = if j ∈ l then none else ix.removals.get? j := by
  induction l generalizing ix with
  | nil => simp
  | cons k rest ih =>
      rw [List.foldl_cons, ih, get?_removals_deleteRemoval]
      by_cases hj : j = k
      · simp [hj]
      · simp [hj]

theorem foldl_deleteRemoval_frame (l : List RemovalKey) (ix : Index) :
    (l.foldl deleteRemoval ix).keepingHistory = ix.keepingHistory
      ∧ (l.foldl deleteRemoval ix).entries = ix.entries
      ∧ (l.foldl deleteRemoval ix).clearances = ix.clearances := by
  induction l generalizing ix with
  | nil => exact ⟨rfl, rfl, rfl⟩
  | cons k rest ih =>
      obtain ⟨hh, he, hc⟩ := deleteRemoval_frame ix k
      obtain ⟨hh', he', hc'⟩ := ih (ix.deleteRemoval k)
      exact ⟨hh'.trans hh, he'.trans he, hc'.trans hc⟩

theorem Mirrored.foldl_deleteRemoval (h : Mirrored ix) (l : List RemovalKey) :
    Mirrored (l.foldl Index.deleteRemoval ix) := by
  induction l generalizing ix with
  | nil => exact h
  | cons k rest ih => exact ih (h.deleteRemoval k)

/-! ## Purges -/

section Purge

variable (container id : Muid)

/-- The placements that a purge covers. -/
def purgedPlacements (ix : Index) : List Muid :=
  (ix.byKey.members.filter fun r => r.container = container && r.placement < id).map (·.placement)

/-- The removals that a purge covers. -/
def purgedRemovals (ix : Index) : List RemovalKey :=
  (ix.removalsByContainer.members.filter fun r =>
    r.container = container && r.removing < id).map fun r => ⟨r.removing, r.removalId⟩

/-- A purge drops the placements, the removals and the clearances that it covers, which are all
read off before anything is dropped. -/
theorem purgeContainer_eq (ix : Index) : ix.purgeContainer container id =
    { (ix.purgedRemovals container id).foldl deleteRemoval
        ((ix.purgedPlacements container id).foldl deleteEntry ix) with
      clearances := ix.clearances.filter fun k _ =>
        !(k.container = container && k.clearanceId < id) } := by
  let ix₁ := (ix.purgedPlacements container id).foldl deleteEntry ix
  let ix₂ := (ix₁.purgedRemovals container id).foldl deleteRemoval ix₁
  obtain ⟨-, -, hrows, hclearances⟩ :=
    foldl_deleteEntry_frame (ix.purgedPlacements container id) ix
  obtain ⟨-, -, hclearances'⟩ := foldl_deleteRemoval_frame (ix.purgedRemovals container id) ix₁
  -- dropping entries leaves the removals alone, so it does not matter when they are listed
  have hremovals : ix₁.purgedRemovals container id = ix.purgedRemovals container id := by
    rw [purgedRemovals, purgedRemovals, hrows]
  calc ix.purgeContainer container id
      = { ix₂ with clearances := ix₂.clearances.filter fun k _ =>
          !(k.container = container && k.clearanceId < id) } := rfl
    _ = _ := by
      simp only [ix₂, hremovals]
      rw [hclearances', hclearances]

theorem Mirrored.purgeContainer (h : Mirrored ix) : Mirrored (ix.purgeContainer container id) := by
  rw [purgeContainer_eq]
  exact ((h.foldl_deleteEntry _).foldl_deleteRemoval _).withTables _ _

theorem keepingHistory_purgeContainer (ix : Index) :
    (ix.purgeContainer container id).keepingHistory = ix.keepingHistory := by
  rw [purgeContainer_eq]
  exact (foldl_deleteRemoval_frame _ _).1.trans (foldl_deleteEntry_frame _ _).1

theorem clearances_purgeContainer (ix : Index) : (ix.purgeContainer container id).clearances
    = ix.clearances.filter fun k _ => !(k.container = container && k.clearanceId < id) := by
  rw [purgeContainer_eq]

theorem entries_purgeContainer (ix : Index) (p : Muid) :
    (ix.purgeContainer container id).entries.get? p
      = if p ∈ ix.purgedPlacements container id then none else ix.entries.get? p := by
  have hentries : (ix.purgeContainer container id).entries
      = ((ix.purgedPlacements container id).foldl deleteEntry ix).entries := by
    rw [purgeContainer_eq]
    exact (foldl_deleteRemoval_frame _ _).2.1
  rw [hentries, get?_entries_foldl_deleteEntry]

theorem mem_purgedPlacements_iff (h : Mirrored ix) {p : Muid} :
    p ∈ ix.purgedPlacements container id ↔
      ∃ e, ix.entries.get? p = some e ∧ e.container = container ∧ p < id := by
  simp only [purgedPlacements, List.mem_map, List.mem_filter, Bool.and_eq_true,
    decide_eq_true_eq]
  -- a row stands for an entry because the rows mirror the entries
  constructor
  · rintro ⟨⟨c, key, q⟩, ⟨hrow, hc, hlt⟩, hq⟩
    obtain ⟨e, he, hec, -⟩ := h.mem_byKey_iff.mp hrow
    simp only at hq hc hlt
    subst hq hc
    exact ⟨e, he, hec, hlt⟩
  · rintro ⟨e, he, hc, hlt⟩
    exact ⟨⟨container, e.key, p⟩, ⟨h.mem_byKey_iff.mpr ⟨e, he, hc, rfl⟩, rfl, hlt⟩, rfl⟩

theorem mem_purgedRemovals_iff (h : Mirrored ix) {k : RemovalKey} :
    k ∈ ix.purgedRemovals container id ↔
      ∃ r, ix.removals.get? k = some r ∧ r.container = container ∧ k.removing < id := by
  simp only [purgedRemovals, List.mem_map, List.mem_filter, Bool.and_eq_true, decide_eq_true_eq]
  constructor
  · rintro ⟨row, ⟨hrow, hc, hlt⟩, rfl⟩
    obtain ⟨r, hr, hrr⟩ := (h.byContainer row).mp hrow
    cases hrr
    exact ⟨r, hr, hc, hlt⟩
  · rintro ⟨r, hr, hc, hlt⟩
    have hkey : removalKey r = k := h.removed k r hr
    subst hkey
    exact ⟨containerRemoval r, ⟨(h.byContainer _).mpr ⟨r, hr, rfl⟩, hc, hlt⟩, rfl⟩

theorem ite_exists_eq_filter {α : Type} (o : Option α) (P : α → Prop) [DecidablePred P]
    [Decidable (∃ v, o = some v ∧ P v)] :
    (if ∃ v, o = some v ∧ P v then none else o) = o.filter fun v => ¬ P v := by
  cases o with
  | none => simp
  | some v => by_cases hv : P v <;> simp [hv, Option.filter_some]

/-- A purge keeps exactly the entries that it does not cover. -/
theorem get?_entries_purgeContainer (h : Mirrored ix) (p : Muid) :
    (ix.purgeContainer container id).entries.get? p
      = (ix.entries.get? p).filter fun e => ¬ (e.container = container ∧ p < id) := by
  rw [entries_purgeContainer, ← ite_exists_eq_filter]
  simp only [mem_purgedPlacements_iff container id h]

/-- A purge keeps exactly the removals of what it does not cover. -/
theorem get?_removals_purgeContainer (h : Mirrored ix) (k : RemovalKey) :
    (ix.purgeContainer container id).removals.get? k
      = (ix.removals.get? k).filter fun r => ¬ (r.container = container ∧ k.removing < id) := by
  have hremovals : (ix.purgeContainer container id).removals.get? k
      = if k ∈ ix.purgedRemovals container id then none else ix.removals.get? k := by
    rw [purgeContainer_eq]
    refine (get?_removals_foldl_deleteRemoval _ _ k).trans ?_
    rw [(foldl_deleteEntry_frame _ ix).2.1]
  rw [hremovals, ← ite_exists_eq_filter]
  simp only [mem_purgedRemovals_iff container id h]

end Purge

/-! ## Clearances -/

section Clearance

variable (id : Muid) (c : ClearanceChange)

/-- The container that a clearance is about. -/
def clearedContainer : Muid := c.container.resolve id.timestamp id.medallion

/-- Whether a clearance covers what stands at a place of a container. -/
def Covers (container p : Muid) : Prop :=
  c.purge = true ∧ container = clearedContainer id c ∧ p < id

instance (container p : Muid) : Decidable (Covers id c container p) :=
  inferInstanceAs (Decidable (_ ∧ _ ∧ _))

theorem covers_iff_of_purge (hpurge : c.purge = true) {container p : Muid} :
    Covers id c container p ↔ container = clearedContainer id c ∧ p < id :=
  ⟨fun h => h.2, fun h => ⟨hpurge, h⟩⟩

theorem not_covers (hpurge : ¬ c.purge = true) (container p : Muid) : ¬ Covers id c container p :=
  fun h => hpurge h.1

/-- The index in which a clearance is recorded. -/
def afterPurge (ix : Index) : Index :=
  if c.purge then ix.purgeContainer (clearedContainer id c) id else ix

theorem applyClearance_eq (ix : Index) : ix.applyClearance id c =
    { ix.afterPurge id c with
      clearances := (ix.afterPurge id c).clearances.insert ⟨clearedContainer id c, id⟩
        ⟨clearedContainer id c, id, c.purge⟩ } := rfl

theorem Mirrored.applyClearance (h : Mirrored ix) : Mirrored (ix.applyClearance id c) := by
  rw [applyClearance_eq, afterPurge]
  split
  · exact (h.purgeContainer _ _).withTables _ _
  · exact h.withTables _ _

theorem keepingHistory_applyClearance (ix : Index) :
    (ix.applyClearance id c).keepingHistory = ix.keepingHistory := by
  rw [applyClearance_eq, afterPurge]
  split
  · exact keepingHistory_purgeContainer _ _ ix
  · rfl

theorem get?_entries_applyClearance (h : Mirrored ix) (p : Muid) :
    (ix.applyClearance id c).entries.get? p
      = (ix.entries.get? p).filter fun e => ¬ Covers id c e.container p := by
  rw [applyClearance_eq, afterPurge]
  split
  · rename_i hpurge
    simp only [covers_iff_of_purge id c hpurge]
    exact get?_entries_purgeContainer _ _ h p
  · rename_i hpurge
    cases he : ix.entries.get? p <;> simp [Option.filter_some, not_covers id c hpurge]

theorem get?_removals_applyClearance (h : Mirrored ix) (k : RemovalKey) :
    (ix.applyClearance id c).removals.get? k
      = (ix.removals.get? k).filter fun r => ¬ Covers id c r.container k.removing := by
  rw [applyClearance_eq, afterPurge]
  split
  · rename_i hpurge
    simp only [covers_iff_of_purge id c hpurge]
    exact get?_removals_purgeContainer _ _ h k
  · rename_i hpurge
    cases hr : ix.removals.get? k <;> simp [Option.filter_some, not_covers id c hpurge]

theorem get?_clearances_applyClearance (ix : Index) (k : ClearanceKey) :
    (ix.applyClearance id c).clearances.get? k
      = if k = ⟨clearedContainer id c, id⟩ then some ⟨clearedContainer id c, id, c.purge⟩
        else (ix.clearances.get? k).filter fun _ => ¬ Covers id c k.container k.clearanceId := by
  rw [applyClearance_eq]
  -- the clearance itself is stored after the purge, which therefore cannot drop it
  by_cases hk : k = ⟨clearedContainer id c, id⟩
  · rw [if_pos hk, hk]
    exact SortedMap.get?_insert_self (ix.afterPurge id c).clearances _ _
  · rw [if_neg hk]
    refine (SortedMap.get?_insert_of_ne (ix.afterPurge id c).clearances hk _).trans ?_
    rw [afterPurge]
    split
    · rename_i hpurge
      simp only [clearances_purgeContainer, SortedMap.get?_filter,
        covers_iff_of_purge id c hpurge]
      congr 1
      funext x
      simp
    · rename_i hpurge
      cases hx : ix.clearances.get? k <;> simp [Option.filter_some, not_covers id c hpurge]

end Clearance

/-! ## Entries -/

/-- With history kept, an entry has no effect, comes in alone, or comes in with the record that it
replaces an earlier placement at its key. -/
theorem applyEntry_cases (hhistory : ix.keepingHistory = true) (id : Muid) (c : EntryChange) :
    (ix.isPurged (entryOf id c).container id = true ∧ ix.applyEntry id c = ix)
    ∨ (ix.isPurged (entryOf id c).container id = false
        ∧ ix.applyEntry id c = ix.insertEntry (entryOf id c))
    ∨ (ix.isPurged (entryOf id c).container id = false
        ∧ c.behavior.isReplacing = true
        ∧ ∃ previous ∈ ix.placementsAtKey (entryOf id c).container (entryOf id c).key,
          previous < id ∧ ∃ entryId, ix.applyEntry id c = (ix.insertRemoval
            { removing := previous, removalId := id, container := (entryOf id c).container
              dest := 0, entryId }).insertEntry (entryOf id c)) := by
  unfold applyEntry
  by_cases hpurged : ix.isPurged (entryOf id c).container id = true
  · exact .inl ⟨hpurged, by simp only [hpurged, if_true]⟩
  have hkept : ix.isPurged (entryOf id c).container id = false := eq_false_of_ne_true hpurged
  refine .inr ?_
  simp only [hkept, Bool.false_eq_true, if_false]
  by_cases hreplacing : c.behavior.isReplacing = true
  · -- only behaviors that replace look for a predecessor
    have hr : (entryOf id c).behavior.isReplacing = true := hreplacing
    simp only [hr, if_true]
    cases hprevious : ix.previousAtKey? (entryOf id c).container (entryOf id c).key id with
    | none => exact .inl ⟨trivial, rfl⟩
    | some previous =>
        have hmem := List.mem_of_getLast? hprevious
        obtain ⟨hplaced, hlt⟩ := List.mem_filter.mp hmem
        refine .inr ⟨trivial, hreplacing, previous, hplaced, of_decide_eq_true hlt,
          ((ix.entries.get? previous).map (·.entryId)).getD previous, ?_⟩
        simp only [supersede, hhistory, if_true]
  · have hr : (entryOf id c).behavior.isReplacing = false := eq_false_of_ne_true hreplacing
    exact .inl ⟨trivial, by simp only [hr, Bool.false_eq_true, if_false]⟩

end GossipStore.Index
