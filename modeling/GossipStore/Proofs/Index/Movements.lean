import Mathlib.Data.List.Induction
import GossipStore.Proofs.Index.Bundles
import GossipStore.Proofs.Index.Placements

set_option autoImplicit false

/-! # Movements and the places they leave behind

A movement takes an entry from the newest of its places that has not been removed
(`applyMovement_eq`), and has no effect if the entry has a newer place or none at all. An index that
keeps history keeps the place that the entry leaves, beside the removal that says so. A purge of
the container drops both or none, as long as the removal is recorded under the container of the
entry (`MovesWithin`). So in whatever order changes have arrived, all places of an entry but the
newest have been removed (`Traces.moved`).
-/

namespace GossipStore

/-- An entry at the place to which a movement takes it. -/
def Entry.movedTo (x : Entry) (id : Muid) (dest : Timestamp) : Entry :=
  { x with key := .position dest, placement := id }

namespace Index

variable {ix : Index}

/-! ## Movements -/

/-- The entry that a movement is about. -/
def movedEntry (id : Muid) (m : MovementChange) : Muid := m.entry.resolve id.timestamp id.medallion

/-- The container under which a movement records that an entry has left its place. -/
def movedWithin (id : Muid) (m : MovementChange) (x : Entry) : Muid :=
  (m.container.map (·.resolve id.timestamp id.medallion)).getD x.container

/-- Whether a movement drops the place that an entry leaves. -/
def dropsPlace (ix : Index) (m : MovementChange) : Bool := m.purge || !ix.keepingHistory

/-- The index with a moved entry also at its new place, if it has one. -/
def insertMoved (ix : Index) (id : Muid) (m : MovementChange) (x : Entry) : Index :=
  if m.dest = 0 then ix else ix.insertEntry (x.movedTo id m.dest)

/-- The index after a movement of an entry from its current place. -/
def moveFrom (ix : Index) (id : Muid) (m : MovementChange) (x : Entry) : Index :=
  if ix.dropsPlace m then (ix.insertMoved id m x).deleteEntry x.placement
  else (ix.insertMoved id m x).insertRemoval
    { removing := x.placement, removalId := id, container := movedWithin id m x
      dest := m.dest, entryId := movedEntry id m }

/-- The entry at the place from which a movement takes it. -/
def current? (ix : Index) (entryId : Muid) : Option Entry :=
  (ix.currentPlacement? entryId).bind ix.entries.get?

theorem any_getLast?_placementsOf (ix : Index) (entryId id : Muid) :
    (ix.placementsOf entryId).getLast?.any (id < ·) = true
      ↔ ∃ p ∈ ix.placementsOf entryId, id < p := by
  have hlast {p : Muid} := getLast?_eq_some_iff_of_pairwise (a := p)
    (pairwise_placementsOf ix entryId) Muid.lt_irrefl fun _ _ => Muid.lt_asymm
  simp only [Option.any_eq_true, decide_eq_true_eq]
  constructor
  · rintro ⟨p, hp, hlt⟩
    exact ⟨p, List.mem_of_getLast? hp, hlt⟩
  · rintro ⟨p, hp, hlt⟩
    obtain ⟨n, hn, hmax⟩ := exists_greatest (fun p : Muid => p) hp
    refine ⟨n, hlast.mpr ⟨hn, hmax⟩, ?_⟩
    rcases hmax p hp with rfl | hpn
    · exact hlt
    · exact Muid.lt_trans hlt hpn

theorem applyMovement_eq (ix : Index) (id : Muid) (m : MovementChange) :
    ix.applyMovement id m =
      if ∃ p ∈ ix.placementsOf (movedEntry id m), id < p then ix
      else match ix.current? (movedEntry id m) with
      | none => ix
      | some x => if ix.isPurged x.container id then ix else ix.moveFrom id m x := by
  simp only [← any_getLast?_placementsOf]
  rfl

/-- There is nothing to move of an entry that has no place left. -/
theorem applyMovement_of_none {ix : Index} {id : Muid} {m : MovementChange}
    (h : ix.current? (movedEntry id m) = none) : ix.applyMovement id m = ix := by
  rw [applyMovement_eq, h, ite_self]

/-- A movement takes an entry from its current place, or it has no effect. -/
theorem applyMovement_cases (ix : Index) (id : Muid) (m : MovementChange) :
    ix.applyMovement id m = ix ∨ ∃ x, ix.applyMovement id m = ix.moveFrom id m x := by
  rw [applyMovement_eq]
  split
  · exact .inl rfl
  · split
    · exact .inl rfl
    · rename_i x _
      split
      · exact .inl rfl
      · exact .inr ⟨x, rfl⟩

theorem current?_eq_some_iff (h : Mirrored ix) {entryId : Muid} {x : Entry} :
    ix.current? entryId = some x ↔ ix.entries.get? x.placement = some x ∧ x.entryId = entryId
      ∧ ix.isRemoved x.placement Int64.maxValue = false
      ∧ ∀ p ∈ ix.placementsOf entryId, ix.isRemoved p Int64.maxValue = false →
        p = x.placement ∨ p < x.placement := by
  have hlast {p : Muid} := getLast?_eq_some_iff_of_pairwise (a := p)
    ((pairwise_placementsOf ix entryId).filter fun p => !ix.isRemoved p Int64.maxValue)
    Muid.lt_irrefl fun _ _ => Muid.lt_asymm
  simp only [List.mem_filter, Bool.not_eq_true', and_imp] at hlast
  simp only [current?, currentPlacement?, Option.bind_eq_some_iff, hlast]
  constructor
  · rintro ⟨p, ⟨⟨hp, hkept⟩, hmax⟩, hx⟩
    obtain rfl : x.placement = p := h.placed p x hx
    obtain ⟨y, hy, hid⟩ := (mem_placementsOf_iff h).mp hp
    cases Option.some.inj (hy.symm.trans hx)
    exact ⟨hx, hid, hkept, hmax⟩
  · rintro ⟨hx, hid, hkept, hmax⟩
    exact ⟨x.placement, ⟨⟨(mem_placementsOf_iff h).mpr ⟨x, hx, hid⟩, hkept⟩, hmax⟩, hx⟩

/-- An entry of which all places have been removed has no current one. -/
theorem current?_eq_none {entryId : Muid}
    (h : ∀ p ∈ ix.placementsOf entryId, ix.isRemoved p Int64.maxValue = true) :
    ix.current? entryId = none := by
  have hnone : (ix.placementsOf entryId).filter (fun p => !ix.isRemoved p Int64.maxValue) = [] := by
    refine List.filter_eq_nil_iff.mpr fun p hp => ?_
    rw [h p hp]
    decide
  rw [current?, currentPlacement?, hnone]
  rfl

/-! ## The tables after a movement -/

section MoveFrom

variable (id : Muid) (m : MovementChange) (x : Entry)

theorem get?_entries_insertMoved (ix : Index) (p : Muid) :
    (ix.insertMoved id m x).entries.get? p
      = if m.dest ≠ 0 ∧ p = id then some (x.movedTo id m.dest) else ix.entries.get? p := by
  rw [insertMoved]
  by_cases hdest : m.dest = 0
  · rw [if_pos hdest, if_neg fun h => h.1 hdest]
  · rw [if_neg hdest, get?_entries_insertEntry, show (x.movedTo id m.dest).placement = id from rfl]
    simp only [hdest, ne_eq, not_false_eq_true, true_and]

theorem insertMoved_frame (ix : Index) :
    (ix.insertMoved id m x).keepingHistory = ix.keepingHistory
      ∧ (ix.insertMoved id m x).removals = ix.removals
      ∧ (ix.insertMoved id m x).clearances = ix.clearances := by
  rw [insertMoved]
  split <;> exact ⟨rfl, rfl, rfl⟩

theorem get?_entries_moveFrom (ix : Index) (p : Muid) :
    (ix.moveFrom id m x).entries.get? p
      = if ix.dropsPlace m = true ∧ p = x.placement then none
        else if m.dest ≠ 0 ∧ p = id then some (x.movedTo id m.dest)
        else ix.entries.get? p := by
  rw [moveFrom, ← get?_entries_insertMoved]
  by_cases hdrops : ix.dropsPlace m = true
  · rw [if_pos hdrops, get?_entries_deleteEntry]
    simp only [hdrops, true_and]
  · rw [if_neg hdrops, if_neg fun h => hdrops h.1]
    rfl

theorem get?_removals_moveFrom (ix : Index) (k : RemovalKey) :
    (ix.moveFrom id m x).removals.get? k
      = if ix.dropsPlace m = false ∧ k = ⟨x.placement, id⟩ then
          some ⟨x.placement, id, movedWithin id m x, m.dest, movedEntry id m⟩
        else ix.removals.get? k := by
  obtain ⟨-, hremovals, -⟩ := insertMoved_frame id m x ix
  rw [moveFrom]
  by_cases hdrops : ix.dropsPlace m = true
  · rw [if_pos hdrops, (deleteEntry_frame _ _).2.1, hremovals, if_neg]
    simp [hdrops]
  · rw [if_neg hdrops, get?_removals_insertRemoval, hremovals]
    exact if_congr (and_iff_right (eq_false_of_ne_true hdrops)).symm rfl rfl

/-- A movement leaves the clearances alone and keeps history as before. -/
theorem moveFrom_frame (ix : Index) : (ix.moveFrom id m x).keepingHistory = ix.keepingHistory
    ∧ (ix.moveFrom id m x).clearances = ix.clearances := by
  obtain ⟨hhistory, -, hclearances⟩ := insertMoved_frame id m x ix
  rw [moveFrom]
  split
  · obtain ⟨hhistory', -, -, hclearances'⟩ := deleteEntry_frame (ix.insertMoved id m x) x.placement
    exact ⟨hhistory'.trans hhistory, hclearances'.trans hclearances⟩
  · exact ⟨hhistory, hclearances⟩

theorem Mirrored.moveFrom (h : Mirrored ix) (hentry : ix.entries.get? id = none)
    (hremoval : ix.removals.get? ⟨x.placement, id⟩ = none) :
    Mirrored (ix.moveFrom id m x) := by
  have hmoved : Mirrored (ix.insertMoved id m x) := by
    rw [insertMoved]
    split
    · exact h
    · exact h.insertEntry hentry
  rw [Index.moveFrom]
  split
  · exact hmoved.deleteEntry _
  · refine hmoved.insertRemoval ?_
    rw [(insertMoved_frame id m x ix).2.1]
    exact hremoval

end MoveFrom

/-! ## Places of an entry -/

/-- Whether all movements of an entry name no container or that of the entry. -/
def MovesWithin (changes : List (Muid × Change)) (entryId : Muid) : Prop :=
  ∀ id m c, (id, .movement m) ∈ changes → movedEntry id m = entryId →
    (entryId, .entry c) ∈ changes →
    ∀ container ∈ m.container,
      container.resolve id.timestamp id.medallion = (entryOf entryId c).container

/-- What the tables of a history-keeping index have to do with the changes it has applied, as far
as one entry is concerned. -/
structure Traces (changes : List (Muid × Change)) (entryId : Muid) (ix : Index) : Prop where
  keeping : ix.keepingHistory = true
  mirrored : Mirrored ix
  placed : ∀ p x, ix.entries.get? p = some x → p ∈ changes.map Prod.fst
  removed : ∀ k r, ix.removals.get? k = some r →
    k.removing ∈ changes.map Prod.fst ∧ k.removalId ∈ changes.map Prod.fst
  /-- Wherever the entry has been moved, it is in the container in which it was written. -/
  origin : ∀ p x, ix.entries.get? p = some x → x.entryId = entryId →
    ∃ c, (entryId, .entry c) ∈ changes ∧ x.container = (entryOf entryId c).container
  /-- A place of the entry that has a newer one has been removed. -/
  moved : ∀ p q x y, ix.entries.get? p = some x → ix.entries.get? q = some y →
    x.entryId = entryId → y.entryId = entryId → p < q →
    ∃ k r, ix.removals.get? k = some r ∧ k.removing = p ∧ r.container = x.container

namespace Traces

variable {changes : List (Muid × Change)} {entryId id : Muid}

theorem empty (entryId : Muid) : Traces [] entryId (.empty true) where
  keeping := rfl
  mirrored := .empty true
  placed p x h := by cases h
  removed k r h := by cases h
  origin p x h := by cases h
  moved p q x y h := by cases h

theorem mono (h : Traces changes entryId ix) {more : List (Muid × Change)}
    (hsub : changes ⊆ more) : Traces more entryId ix where
  keeping := h.keeping
  mirrored := h.mirrored
  placed p x hx := List.map_subset _ hsub (h.placed p x hx)
  removed k r hr :=
    ⟨List.map_subset _ hsub (h.removed k r hr).1, List.map_subset _ hsub (h.removed k r hr).2⟩
  origin p x hx hid := by
    obtain ⟨c, hc, hcontainer⟩ := h.origin p x hx hid
    exact ⟨c, hsub hc, hcontainer⟩
  moved := h.moved

/-- Nothing is stored under an address that no change had. -/
theorem get?_entries_eq_none (h : Traces changes entryId ix) (hnew : id ∉ changes.map Prod.fst) :
    ix.entries.get? id = none :=
  Option.eq_none_iff_forall_ne_some.mpr fun x hx => hnew (h.placed id x hx)

theorem get?_removals_eq_none (h : Traces changes entryId ix) (hnew : id ∉ changes.map Prod.fst)
    (p : Muid) : ix.removals.get? ⟨p, id⟩ = none :=
  Option.eq_none_iff_forall_ne_some.mpr fun r hr => hnew (h.removed ⟨p, id⟩ r hr).2

/-! ### Steps -/

/-- An entry is new, so it has one place only. -/
theorem insertEntry (h : Traces changes entryId ix) (hnew : id ∉ changes.map Prod.fst)
    (c : EntryChange) :
    Traces (changes ++ [(id, .entry c)]) entryId (ix.insertEntry (entryOf id c)) := by
  have hmono := h.mono (List.subset_append_left changes [(id, .entry c)])
  have hid : id ∈ (changes ++ [(id, Change.entry c)]).map Prod.fst := by simp
  have hget {p : Muid} {x : Entry} (hx : (ix.insertEntry (entryOf id c)).entries.get? p = some x) :
      p = id ∧ x = entryOf id c ∨ ix.entries.get? p = some x := by
    rw [get?_entries_insertEntry, show (entryOf id c).placement = id from rfl] at hx
    split at hx
    · rename_i hp
      exact .inl ⟨hp, (Option.some.inj hx).symm⟩
    · exact .inr hx
  -- an entry of which something is stored has been written by an earlier change
  have hother {p : Muid} {x : Entry} (hx : ix.entries.get? p = some x) : x.entryId = entryId →
      id ≠ entryId := by
    rintro hentry rfl
    obtain ⟨d, hd, -⟩ := h.origin p x hx hentry
    exact hnew (List.mem_map_of_mem hd)
  refine {
    keeping := h.keeping
    mirrored := h.mirrored.insertEntry (h.get?_entries_eq_none hnew)
    placed := fun p x hx => ?_
    removed := hmono.removed
    origin := fun p x hx hentry => ?_
    moved := fun p q x y hx hy hxe hye hlt => ?_ }
  · rcases hget hx with ⟨rfl, -⟩ | hx
    · exact hid
    · exact hmono.placed p x hx
  · rcases hget hx with ⟨-, rfl⟩ | hx
    · obtain rfl : id = entryId := hentry
      exact ⟨c, by simp, rfl⟩
    · exact hmono.origin p x hx hentry
  · rcases hget hx with ⟨rfl, rfl⟩ | hx'
    · rcases hget hy with ⟨rfl, -⟩ | hy'
      · exact absurd hlt (Muid.lt_irrefl q)
      · exact absurd hxe (hother hy' hye)
    · rcases hget hy with ⟨rfl, rfl⟩ | hy'
      · exact absurd hye (hother hx' hxe)
      · exact h.moved p q x y hx' hy' hxe hye hlt

theorem insertRemoval (h : Traces changes entryId ix) {r : Removal}
    (hfree : ix.removals.get? (removalKey r) = none) (hremoving : r.removing ∈ changes.map Prod.fst)
    (hid : r.removalId ∈ changes.map Prod.fst) : Traces changes entryId (ix.insertRemoval r) where
  keeping := h.keeping
  mirrored := h.mirrored.insertRemoval hfree
  placed := h.placed
  removed k s hs := by
    rw [get?_removals_insertRemoval] at hs
    split at hs
    · rename_i hk
      rw [hk]
      exact ⟨hremoving, hid⟩
    · exact h.removed k s hs
  origin := h.origin
  moved p q x y hx hy hxe hye hlt := by
    obtain ⟨k, s, hs, hk⟩ := h.moved p q x y hx hy hxe hye hlt
    refine ⟨k, s, ?_, hk⟩
    have hne : k ≠ removalKey r := by
      rintro rfl
      rw [hfree] at hs
      cases hs
    rw [get?_removals_insertRemoval, if_neg hne, hs]

theorem applyEntry (h : Traces changes entryId ix) (hnew : id ∉ changes.map Prod.fst)
    (c : EntryChange) : Traces (changes ++ [(id, .entry c)]) entryId (ix.applyEntry id c) := by
  rcases applyEntry_cases h.keeping id c with ⟨-, happly⟩ | ⟨-, happly⟩ |
      ⟨-, -, previous, hprevious, -, _, happly⟩
  · rw [happly]
    exact h.mono (List.subset_append_left _ _)
  · rw [happly]
    exact h.insertEntry hnew c
  · obtain ⟨x, hx, -⟩ := (Index.mem_placementsAtKey_iff h.mirrored).mp hprevious
    rw [happly]
    refine (h.insertEntry hnew c).insertRemoval (h.get?_removals_eq_none hnew previous) ?_ ?_
    · exact List.map_subset _ (List.subset_append_left _ _) (h.placed previous x hx)
    · simp

/-- A place and the removal of it are under one container, so a purge covers both or none. -/
theorem applyClearance (h : Traces changes entryId ix) (id : Muid) (c : ClearanceChange) :
    Traces changes entryId (ix.applyClearance id c) := by
  have hget {p : Muid} {x : Entry} (hx : (ix.applyClearance id c).entries.get? p = some x) :
      ix.entries.get? p = some x ∧ ¬ Covers id c x.container p := by
    rw [get?_entries_applyClearance id c h.mirrored, Option.filter_eq_some_iff,
      decide_eq_true_eq] at hx
    exact hx
  refine {
    keeping := (keepingHistory_applyClearance id c ix).trans h.keeping
    mirrored := h.mirrored.applyClearance id c
    placed := fun p x hx => h.placed p x (hget hx).1
    removed := fun k r hr => ?_
    origin := fun p x hx => h.origin p x (hget hx).1
    moved := fun p q x y hx hy hxe hye hlt => ?_ }
  · rw [get?_removals_applyClearance id c h.mirrored, Option.filter_eq_some_iff] at hr
    exact h.removed k r hr.1
  · obtain ⟨hx, hkept⟩ := hget hx
    obtain ⟨k, r, hr, rfl, hcontainer⟩ := h.moved p q x y hx (hget hy).1 hxe hye hlt
    refine ⟨k, r, ?_, rfl, hcontainer⟩
    rw [get?_removals_applyClearance id c h.mirrored, hr, Option.filter_some, hcontainer,
      if_pos (decide_eq_true hkept)]

/-- The current place of an entry is its newest, as all others have been removed. -/
theorem lt_of_current? (h : Traces changes entryId ix) {x : Entry}
    (hcurrent : ix.current? entryId = some x) {p : Muid} {y : Entry}
    (hy : ix.entries.get? p = some y) (hye : y.entryId = entryId) (hne : p ≠ x.placement) :
    p < x.placement := by
  obtain ⟨hx, hxe, hkept, -⟩ := (current?_eq_some_iff h.mirrored).mp hcurrent
  refine ((Muid.lt_trichotomy p x.placement).resolve_right ?_)
  rintro (heq | hgt)
  · exact hne heq
  · obtain ⟨k, r, hr, hk, -⟩ := h.moved x.placement p x y hx hy hxe hye hgt
    rw [isRemoved_latest_iff.mpr ⟨k, r, hr, hk⟩] at hkept
    cases hkept

theorem moveFrom (h : Traces changes entryId ix) (hnew : id ∉ changes.map Prod.fst)
    {m : MovementChange} {x : Entry}
    (hwithin : MovesWithin (changes ++ [(id, .movement m)]) entryId)
    (hnewest : ∀ p ∈ ix.placementsOf (movedEntry id m), ¬ id < p)
    (hcurrent : ix.current? (movedEntry id m) = some x) :
    Traces (changes ++ [(id, .movement m)]) entryId (ix.moveFrom id m x) := by
  obtain ⟨hx, hxe, -, -⟩ := (current?_eq_some_iff h.mirrored).mp hcurrent
  have hmono := h.mono (List.subset_append_left changes [(id, .movement m)])
  have hid : id ∈ (changes ++ [(id, Change.movement m)]).map Prod.fst := by simp
  -- what is stored then was stored before or is the moved entry
  have hget {p : Muid} {y : Entry} (hy : (ix.moveFrom id m x).entries.get? p = some y) :
      (p = id ∧ y = x.movedTo id m.dest)
      ∨ ix.entries.get? p = some y ∧ ¬ (ix.dropsPlace m = true ∧ p = x.placement) := by
    rw [get?_entries_moveFrom] at hy
    split at hy
    · cases hy
    · rename_i hkept
      split at hy
      · rename_i hp
        exact .inl ⟨hp.2, (Option.some.inj hy).symm⟩
      · exact .inr ⟨hy, hkept⟩
  have hremoval {k : RemovalKey} {r : Removal} (hr : ix.removals.get? k = some r) :
      (ix.moveFrom id m x).removals.get? k = some r := by
    rw [get?_removals_moveFrom, if_neg, hr]
    rintro ⟨-, rfl⟩
    exact hnew (h.removed _ r hr).2
  refine {
    keeping := (moveFrom_frame id m x ix).1.trans h.keeping
    mirrored := h.mirrored.moveFrom id m x (h.get?_entries_eq_none hnew)
      (h.get?_removals_eq_none hnew x.placement)
    placed := fun p y hy => ?_
    removed := fun k r hr => ?_
    origin := fun p y hy hye => ?_
    moved := fun p q y z hy hz hye hze hlt => ?_ }
  · rcases hget hy with ⟨rfl, -⟩ | ⟨hy, -⟩
    · exact hid
    · exact hmono.placed p y hy
  · rw [get?_removals_moveFrom] at hr
    split at hr
    · rename_i hk
      rw [hk.2]
      exact ⟨hmono.placed x.placement x hx, hid⟩
    · exact hmono.removed k r hr
  · rcases hget hy with ⟨-, rfl⟩ | ⟨hy, -⟩
    · exact hmono.origin x.placement x hx hye
    · exact hmono.origin p y hy hye
  · rcases hget hy with ⟨rfl, rfl⟩ | ⟨hy', hkept⟩
    · -- the moved entry has no newer place
      rcases hget hz with ⟨rfl, -⟩ | ⟨hz', -⟩
      · exact absurd hlt (Muid.lt_irrefl q)
      · have hsame : z.entryId = movedEntry p m := hze.trans (hye.symm.trans hxe)
        exact absurd hlt (hnewest q ((mem_placementsOf_iff h.mirrored).mpr ⟨z, hz', hsame⟩))
    · rcases hget hz with ⟨rfl, rfl⟩ | ⟨hz', -⟩
      · -- the place it leaves is removed now, and the older ones were removed before
        have hentry : movedEntry q m = entryId := hxe.symm.trans hze
        rw [hentry] at hcurrent
        by_cases hp : p = x.placement
        · rw [hp] at hy' hkept ⊢
          obtain rfl : x = y := Option.some.inj (hx.symm.trans hy')
          obtain ⟨c, hc, hcontainer⟩ := hmono.origin x.placement x hx hye
          refine ⟨⟨x.placement, q⟩, ⟨x.placement, q, movedWithin q m x, m.dest, movedEntry q m⟩,
            ?_, rfl, ?_⟩
          · rw [get?_removals_moveFrom, if_pos ⟨eq_false_of_ne_true fun hdrops =>
              hkept ⟨hdrops, rfl⟩, rfl⟩]
          · change movedWithin q m x = x.container
            rw [movedWithin]
            cases hnamed : m.container with
            | none => rfl
            | some container =>
                exact (hwithin q m c (by simp) hentry hc container hnamed).trans hcontainer.symm
        · obtain ⟨k, r, hr, hk⟩ := h.moved p x.placement y x hy' hx hye
            (hxe.trans hentry)
            (h.lt_of_current? hcurrent hy' hye hp)
          exact ⟨k, r, hremoval hr, hk⟩
      · obtain ⟨k, r, hr, hk⟩ := h.moved p q y z hy' hz' hye hze hlt
        exact ⟨k, r, hremoval hr, hk⟩

theorem applyMovement (h : Traces changes entryId ix) (hnew : id ∉ changes.map Prod.fst)
    {m : MovementChange} (hwithin : MovesWithin (changes ++ [(id, .movement m)]) entryId) :
    Traces (changes ++ [(id, .movement m)]) entryId (ix.applyMovement id m) := by
  have hmono := h.mono (List.subset_append_left changes [(id, .movement m)])
  rw [applyMovement_eq]
  split
  · exact hmono
  · rename_i hnewest
    split
    · exact hmono
    · rename_i x hcurrent
      split
      · exact hmono
      · exact h.moveFrom hnew hwithin (fun p hp hlt => hnewest ⟨p, hp, hlt⟩) hcurrent

/-- **Every change keeps the invariant**, whenever it arrives. -/
theorem applyChange (h : Traces changes entryId ix) (hnew : id ∉ changes.map Prod.fst) {c : Change}
    (hwithin : MovesWithin (changes ++ [(id, c)]) entryId) :
    Traces (changes ++ [(id, c)]) entryId (ix.applyChange id c) := by
  cases c with
  | container behavior =>
      have hmono := h.mono (List.subset_append_left changes [(id, .container behavior)])
      exact ⟨hmono.keeping, hmono.mirrored.withTables _ _, hmono.placed, hmono.removed,
        hmono.origin, hmono.moved⟩
  | entry c => exact h.applyEntry hnew c
  | movement m => exact h.applyMovement hnew hwithin
  | clearance c => exact (h.mono (List.subset_append_left _ _)).applyClearance id c

end Traces

/-- **After a run of changes** all places of an entry but the newest have been removed. -/
theorem traces_applyChanges {changes : List (Muid × Change)} {entryId : Muid}
    (hids : (changes.map Prod.fst).Nodup) (hwithin : MovesWithin changes entryId) :
    Traces changes entryId ((empty true).applyChanges changes) := by
  -- on the changes in the order of their arrival, the last one taken off
  induction changes using List.reverseRecOn with
  | nil => exact .empty entryId
  | append_singleton changes x ih =>
      obtain ⟨id, c⟩ := x
      rw [List.map_append] at hids
      obtain ⟨hids, -, hdisjoint⟩ := List.nodup_append.mp hids
      have hbefore : MovesWithin changes entryId := fun q m d hm hentry hd =>
        hwithin q m d (List.mem_append_left _ hm) hentry (List.mem_append_left _ hd)
      rw [applyChanges_concat]
      exact (ih hids hbefore).applyChange (fun hmem => hdisjoint id hmem id (by simp) rfl) hwithin

theorem traces_offerAll {arrivals : List Bundle} {entryId : Muid}
    (hkeys : ((empty true).offerAll arrivals).2.Pairwise fun a b => a.key ≠ b.key)
    (hsize : ∀ b ∈ ((empty true).offerAll arrivals).2, b.changes.length ≤ 0x100000000)
    (hwithin : MovesWithin (((empty true).offerAll arrivals).2.flatMap Bundle.changesWithIds)
      entryId) :
    Traces (((empty true).offerAll arrivals).2.flatMap Bundle.changesWithIds) entryId
      ((empty true).offerAll arrivals).1 := by
  have hids := nodup_flatMap_changesWithIds (hkeys.imp Bundle.key_ne_iff.mp) hsize
  have h := traces_applyChanges hids hwithin
  obtain ⟨chains, bundles, heq⟩ := foldl_apply_eq (empty true) ((empty true).offerAll arrivals).2
  rw [offerAll_eq, heq]
  exact ⟨h.keeping, h.mirrored.withRecords _ _ _, h.placed, h.removed, h.origin, h.moved⟩

end Index

end GossipStore
