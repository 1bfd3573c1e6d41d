import Mathlib.Data.List.Induction
import GossipStore.Proofs.Index.Standing
import GossipStore.Proofs.Index.Superseding

set_option autoImplicit false

/-! # Why placements have been removed

An entry that is stored was written in its container, and stands at its own key or at a position to
which it was moved (`IsPlaceOf`). If there is a removal of it, then a movement of the entry came
after it, or a newer entry was written at its key (`Reason`). All that holds after every run of
changes, with history or without (`traced_applyChanges`). A removal is recorded under the container
that its movement names, so it may be one that has nothing to do with the entry
(`Traced.within`).
-/

namespace GossipStore.Index

variable {ix : Index} {id : Muid} {changes : List (Muid × Change)}

/-! ## The reference -/

/-- Whether a movement of an entry comes after the change that writes it. -/
def Moves (changes : List (Muid × Change)) (id : Muid) (m : MovementChange) (e : Entry) : Prop :=
  movedEntry id m = e.entryId
    ∧ ∃ c, e = entryOf e.entryId c ∧ [(e.entryId, .entry c), (id, .movement m)].Sublist changes

/-- Whether any movement of an entry comes after the change that writes it. -/
def Moved (changes : List (Muid × Change)) (e : Entry) : Prop := ∃ id m, Moves changes id m e

/-- Whether a container that a movement names is always related to that of the entry it moves. -/
def Names (r : Muid → Muid → Prop) (changes : List (Muid × Change)) : Prop :=
  ∀ id m e, Moves changes id m e → ∀ named ∈ m.container,
    r e.container (named.resolve id.timestamp id.medallion)

/-- Whether every movement names no container or that of the entry that it moves. -/
def MovesAtHome (changes : List (Muid × Change)) : Prop :=
  Names (fun home named => named = home) changes

/-- Whether an entry is a written one, at its own place or moved. -/
def IsPlaceOf (x e : Entry) : Prop := x = e ∨ ∃ dest, x = e.movedTo x.placement dest

/-- Why a stored entry has been removed: a movement took it away, or a newer entry at its key. -/
inductive Reason (changes : List (Muid × Change)) (k : RemovalKey) (r : Removal) (x : Entry) :
    Prop where
  | moved (e : Entry) (m : MovementChange) (place : IsPlaceOf x e)
      (moves : Moves changes k.removalId m e) (within : r.container = movedWithin k.removalId m x)
  | replaced (f : Entry) (written : f ∈ written changes) (placement : f.placement = k.removalId)
      (atKey : AtKey x.container x.key f) (newer : x.placement < f.placement)
      (within : r.container = x.container)

section Reference

variable {x e : Entry} {m : MovementChange}

theorem IsPlaceOf.entryId_eq (h : IsPlaceOf x e) : x.entryId = e.entryId := by
  rcases h with rfl | ⟨dest, h⟩
  · rfl
  · rw [h]
    rfl

theorem IsPlaceOf.container_eq (h : IsPlaceOf x e) : x.container = e.container := by
  rcases h with rfl | ⟨dest, h⟩
  · rfl
  · rw [h]
    rfl

/-- An entry that is at no position has not been moved. -/
theorem IsPlaceOf.eq_of_key (h : IsPlaceOf x e) (hkey : x.key.isPositional = false) : x = e := by
  rcases h with rfl | ⟨dest, h⟩
  · rfl
  · rw [h] at hkey
    cases hkey

theorem IsPlaceOf.movedTo (h : IsPlaceOf x e) (id : Muid) (dest : Timestamp) :
    IsPlaceOf (x.movedTo id dest) e := by
  refine .inr ⟨dest, ?_⟩
  rcases h with rfl | ⟨dest', h⟩
  · rfl
  · rw [h]
    rfl

theorem Moves.mono (h : Moves changes id m e) {more : List (Muid × Change)}
    (hsub : changes.Sublist more) : Moves more id m e := by
  obtain ⟨hentry, c, he, hc⟩ := h
  exact ⟨hentry, c, he, hc.trans hsub⟩

theorem Moved.mono (h : Moved changes e) {more : List (Muid × Change)}
    (hsub : changes.Sublist more) : Moved more e := by
  obtain ⟨id, m, hmoves⟩ := h
  exact ⟨id, m, hmoves.mono hsub⟩

theorem Names.mono {r : Muid → Muid → Prop} {more : List (Muid × Change)} (h : Names r more)
    (hsub : changes.Sublist more) : Names r changes :=
  fun id m e hmoves => h id m e (hmoves.mono hsub)

/-- A movement that comes last moves what has been written before. -/
theorem moves_append (he : e ∈ written changes) (hentry : movedEntry id m = e.entryId) :
    Moves (changes ++ [(id, .movement m)]) id m e := by
  obtain ⟨q, c, hmem, rfl⟩ := mem_written_iff.mp he
  exact ⟨hentry, c, rfl, (List.singleton_sublist.mpr hmem).append (.refl _)⟩

theorem Moves.mem (h : Moves changes id m e) : (id, .movement m) ∈ changes := by
  obtain ⟨-, c, -, hsub⟩ := h
  exact hsub.subset (by simp)

theorem Moves.mem_written (h : Moves changes id m e) : e ∈ written changes := by
  obtain ⟨-, c, he, hsub⟩ := h
  exact mem_written_iff.mpr ⟨e.entryId, c, hsub.subset (by simp), he⟩

theorem Moved.mem_written (h : Moved changes e) : e ∈ written changes := by
  obtain ⟨id, m, hmoves⟩ := h
  exact hmoves.mem_written

/-- The container that a change names if it is a movement. -/
def named? : Muid × Change → Option Muid
  | (id, .movement m) => m.container.map (·.resolve id.timestamp id.medallion)
  | _ => none

/-- The entry that a change is about if it is a movement. -/
def moving? : Muid × Change → Option Muid
  | (id, .movement m) => some (movedEntry id m)
  | _ => none

/-- It is enough to look at every movement and its entry, whichever of them came first. -/
theorem names_of_forall {r : Muid → Muid → Prop}
    (h : ∀ x ∈ changes, ∀ named ∈ named? x, ∀ e ∈ written changes, moving? x = some e.entryId →
      r e.container named) : Names r changes := by
  intro id m e hmoves named hnamed
  refine h (id, .movement m) hmoves.mem _ ?_ e hmoves.mem_written (congrArg some hmoves.1)
  exact Option.map_eq_some_iff.mpr ⟨named, hnamed, rfl⟩

/-- A movement records what it does under the container of the entry or under the one it names. -/
theorem Names.movedWithin {r : Muid → Muid → Prop} (h : Names r changes)
    (hmoves : Moves changes id m e) (hplace : IsPlaceOf x e) :
    movedWithin id m x = x.container ∨ r x.container (movedWithin id m x) := by
  rw [Index.movedWithin]
  cases hnamed : m.container with
  | none => exact .inl rfl
  | some named =>
      rw [hplace.container_eq]
      exact .inr (h id m e hmoves named hnamed)

theorem Reason.mono {k : RemovalKey} {r : Removal} (h : Reason changes k r x)
    {more : List (Muid × Change)} (hsub : changes.Sublist more) : Reason more k r x := by
  cases h with
  | moved e m place moves within => exact .moved e m place (moves.mono hsub) within
  | replaced f written placement atKey newer within =>
      exact .replaced f ((hsub.filterMap _).subset written) placement atKey newer within

end Reference

/-! ## Purges on record -/

theorem isPurged_iff_exists {container p : Muid} : ix.isPurged container p = true
    ↔ ∃ k x, ix.clearances.get? k = some x ∧ k.container = container ∧ p < k.clearanceId
      ∧ x.purging = true := by
  simp only [isPurged, List.any_eq_true, Bool.and_eq_true, decide_eq_true_eq, Prod.exists,
    SortedMap.mem_toList_iff, and_assoc]

theorem isPurged_of_lt {container p q : Muid} (h : ix.isPurged container p = true) (hlt : q < p) :
    ix.isPurged container q = true := by
  obtain ⟨k, x, hx, hcontainer, hk, hpurging⟩ := isPurged_iff_exists.mp h
  exact isPurged_iff_exists.mpr ⟨k, x, hx, hcontainer, Muid.lt_trans hlt hk, hpurging⟩

/-- What is purged after a clearance had been purged before, or is covered by it. -/
theorem isPurged_or_covers {c : ClearanceChange} {container p : Muid}
    (h : (ix.applyClearance id c).isPurged container p = true) :
    ix.isPurged container p = true ∨ Covers id c container p := by
  obtain ⟨k, x, hx, hcontainer, hlt, hpurging⟩ := isPurged_iff_exists.mp h
  rw [get?_clearances_applyClearance] at hx
  split at hx
  · rename_i hk
    cases hx
    rw [hk] at hcontainer hlt
    exact .inr ⟨hpurging, hcontainer.symm, hlt⟩
  · exact .inl (isPurged_iff_exists.mpr
      ⟨k, x, (Option.filter_eq_some_iff.mp hx).1, hcontainer, hlt, hpurging⟩)

theorem isPurged_of_covers {c : ClearanceChange} {container p : Muid}
    (h : Covers id c container p) : (ix.applyClearance id c).isPurged container p = true := by
  obtain ⟨hpurge, hcontainer, hlt⟩ := h
  refine isPurged_iff_exists.mpr ⟨⟨clearedContainer id c, id⟩,
    ⟨clearedContainer id c, id, c.purge⟩, ?_, hcontainer.symm, hlt, hpurge⟩
  rw [get?_clearances_applyClearance, if_pos rfl]

theorem isPurged_congr {ix' : Index} (h : ix'.clearances = ix.clearances) :
    ix'.isPurged = ix.isPurged := by
  funext container p
  rw [isPurged, isPurged, h]

/-! ## What an entry supersedes -/

/-- What an entry supersedes is the newest of the older entries at its key. -/
theorem superseded?_eq_some_iff (hm : Mirrored ix) {c : EntryChange} {p : Muid} :
    ix.superseded? id c = some p ↔ c.behavior.isReplacing = true ∧ p < id
      ∧ (∃ x, ix.entries.get? p = some x ∧ AtKey (entryOf id c).container (entryOf id c).key x)
      ∧ ∀ y, ix.entries.get? y.placement = some y →
        AtKey (entryOf id c).container (entryOf id c).key y → y.placement < id →
        ¬ p < y.placement := by
  rw [superseded?]
  split
  · rename_i hreplacing
    rw [previousAtKey?_eq_some_iff, mem_placementsAtKey_iff hm]
    constructor
    · rintro ⟨hx, hlt, hmax⟩
      refine ⟨hreplacing, hlt, hx, fun y hy hkey hylt hpy => ?_⟩
      rcases hmax _ ((mem_placementsAtKey_iff hm).mpr ⟨y, hy, hkey⟩) hylt with heq | hyp
      · exact Muid.lt_irrefl _ (heq ▸ hpy)
      · exact Muid.lt_asymm hpy hyp
    · rintro ⟨-, hlt, hx, hmax⟩
      refine ⟨hx, hlt, fun q hq hqlt => ?_⟩
      obtain ⟨y, hy, hkey⟩ := (mem_placementsAtKey_iff hm).mp hq
      obtain rfl : y.placement = q := hm.placed q y hy
      rcases Muid.lt_trichotomy y.placement p with hlt' | heq | hgt
      · exact .inr hlt'
      · exact .inl heq
      · exact absurd hgt (hmax y hy hkey hqlt)
  · rename_i hreplacing
    constructor
    · intro h
      cases h
    · exact fun h => absurd h.1 hreplacing

/-- The removal of what an entry supersedes, which is recorded where history is kept. -/
def supersession (ix : Index) (id : Muid) (c : EntryChange) (previous : Muid) : Removal where
  removing := previous
  removalId := id
  container := (entryOf id c).container
  dest := 0
  entryId := ((ix.entries.get? previous).map (·.entryId)).getD previous

theorem makeRoom_of_none {c : EntryChange} (h : ix.superseded? id c = none) :
    ix.makeRoom id c = ix := by
  rw [makeRoom, h]

theorem makeRoom_of_some {c : EntryChange} {previous : Muid}
    (h : ix.superseded? id c = some previous) : ix.makeRoom id c = if ix.keepingHistory then
      ix.insertRemoval (ix.supersession id c previous) else ix.deleteEntry previous := by
  rw [makeRoom, h]
  rfl

/-- Making room for an entry stores nothing. -/
theorem of_get?_entries_makeRoom {c : EntryChange} {p : Muid} {x : Entry}
    (hx : (ix.makeRoom id c).entries.get? p = some x) : ix.entries.get? p = some x := by
  rcases makeRoom_cases ix id c with hsame | ⟨r, -, hremoval⟩ | ⟨previous, hdelete⟩
  · rwa [hsame] at hx
  · rwa [hremoval] at hx
  · rw [hdelete] at hx
    exact of_get?_entries_deleteEntry hx

theorem applyEntry_of_purged {c : EntryChange}
    (h : ix.isPurged (entryOf id c).container id = true) : ix.applyEntry id c = ix := by
  rw [applyEntry_eq, if_pos h]

/-- What is stored after an entry has come in is that entry or was stored before. -/
theorem of_get?_entries_applyEntry {c : EntryChange} {x : Entry}
    (hx : (ix.applyEntry id c).entries.get? x.placement = some x) :
    x = entryOf id c ∨ ix.entries.get? x.placement = some x := by
  rw [applyEntry_eq] at hx
  split at hx
  · exact .inr hx
  · rw [get?_entries_insertEntry] at hx
    split at hx
    · exact .inl (Option.some.inj hx).symm
    · exact .inr (of_get?_entries_makeRoom hx)

/-- Where history is kept making room drops nothing. -/
theorem makeRoom_keeping (hkeeping : ix.keepingHistory = true) (id : Muid) (c : EntryChange) :
    (ix.makeRoom id c).keepingHistory = true ∧ (ix.makeRoom id c).entries = ix.entries := by
  cases hsuperseded : ix.superseded? id c with
  | none =>
      rw [makeRoom_of_none hsuperseded]
      exact ⟨hkeeping, rfl⟩
  | some previous =>
      rw [makeRoom_of_some hsuperseded, if_pos hkeeping]
      exact ⟨hkeeping, rfl⟩

/-- An entry at a key that is no position supersedes something if anything older is there. -/
theorem exists_superseded? (hm : Mirrored ix) {c : EntryChange} {x : Entry}
    (hx : ix.entries.get? x.placement = some x)
    (hkey : AtKey (entryOf id c).container (entryOf id c).key x)
    (hpositional : x.key.isPositional = false) (hlt : x.placement < id) :
    ∃ previous, ix.superseded? id c = some previous := by
  have hreplacing : c.behavior.isReplacing = true := by
    have hnot : (entryOf id c).key.isPositional = !c.behavior.isReplacing :=
      isPositional_key_entryOf c
    rw [← hkey.2, hpositional] at hnot
    simpa using hnot.symm
  have hmem : x.placement
      ∈ (ix.placementsAtKey (entryOf id c).container (entryOf id c).key).filter (· < id) :=
    List.mem_filter.mpr ⟨(mem_placementsAtKey_iff hm).mpr ⟨x, hx, hkey⟩, decide_eq_true hlt⟩
  rw [superseded?, if_pos hreplacing, previousAtKey?]
  exact ⟨_, List.getLast?_eq_some_getLast (List.ne_nil_of_mem hmem)⟩

/-- A movement has no effect, or it takes an entry from its current place, which is the newest one
up to the movement and has not been purged. -/
theorem applyMovement_eq_or (ix : Index) (id : Muid) (m : MovementChange) :
    ix.applyMovement id m = ix ∨ ∃ x, ix.current? (movedEntry id m) = some x
      ∧ ix.isPurged x.container id = false
      ∧ (∀ p ∈ ix.placementsOf (movedEntry id m), ¬ id < p)
      ∧ ix.applyMovement id m = ix.moveFrom id m x := by
  rw [applyMovement_eq]
  split
  · exact .inl rfl
  · rename_i hnewest
    split
    · exact .inl rfl
    · rename_i x hcurrent
      split
      · exact .inl rfl
      · rename_i hkept
        exact .inr ⟨x, hcurrent, eq_false_of_ne_true hkept,
          fun p hp hlt => hnewest ⟨p, hp, hlt⟩, rfl⟩

/-- What is stored after an entry has been moved is that entry or was stored before. -/
theorem of_get?_entries_moveFrom {m : MovementChange} {x y : Entry}
    (hy : (ix.moveFrom id m x).entries.get? y.placement = some y) :
    y = x.movedTo id m.dest ∨ ix.entries.get? y.placement = some y
      ∧ ¬ (ix.dropsPlace m = true ∧ y.placement = x.placement) := by
  rw [get?_entries_moveFrom] at hy
  split at hy
  · cases hy
  · rename_i hkept
    split at hy
    · exact .inl (Option.some.inj hy).symm
    · exact .inr ⟨hy, hkept⟩

/-! ## The invariant -/

/-- What the tables of an index have to do with the changes it has applied, in any order, with
history or without. -/
structure Traced (changes : List (Muid × Change)) (ix : Index) : Prop where
  tidy : Tidy (changes.map Prod.fst) ix
  origin : ∀ x, ix.entries.get? x.placement = some x → ∃ e ∈ written changes, IsPlaceOf x e
  kept : ∀ x, ix.entries.get? x.placement = some x → ix.isPurged x.container x.placement = false
  removing : ∀ k r, ix.removals.get? k = some r → k.removing ∈ changes.map Prod.fst
  reasons : ∀ k r x, ix.removals.get? k = some r → ix.entries.get? k.removing = some x →
    Reason changes k r x
  clearing : ∀ k x, ix.clearances.get? k = some x → k.clearanceId ∈ changes.map Prod.fst

namespace Traced

theorem empty (keepingHistory : Bool) : Traced [] (.empty keepingHistory) where
  tidy := .empty keepingHistory
  origin x h := by cases h
  kept x h := by cases h
  removing k r h := by cases h
  reasons k r x h := by cases h
  clearing k x h := by cases h

theorem mono (h : Traced changes ix) {more : List (Muid × Change)}
    (hsub : changes.Sublist more) : Traced more ix where
  tidy := h.tidy.mono (hsub.map Prod.fst).subset
  origin x hx := by
    obtain ⟨e, he, hplace⟩ := h.origin x hx
    exact ⟨e, (hsub.filterMap _).subset he, hplace⟩
  kept := h.kept
  removing k r hr := (hsub.map Prod.fst).subset (h.removing k r hr)
  reasons k r x hr hx := (h.reasons k r x hr hx).mono hsub
  clearing k x hx := (hsub.map Prod.fst).subset (h.clearing k x hx)

/-! ### What follows -/

/-- An entry that is at no position is a written one. -/
theorem mem_written (h : Traced changes ix) {x : Entry}
    (hx : ix.entries.get? x.placement = some x) (hkey : x.key.isPositional = false) :
    x ∈ written changes := by
  obtain ⟨e, he, hplace⟩ := h.origin x hx
  rw [hplace.eq_of_key hkey]
  exact he

/-- All places of an entry are in one container. -/
theorem container_eq (h : Traced changes ix) (hids : (changes.map Prod.fst).Nodup) {x y : Entry}
    (hx : ix.entries.get? x.placement = some x) (hy : ix.entries.get? y.placement = some y)
    (hentry : x.entryId = y.entryId) : x.container = y.container := by
  obtain ⟨e, he, hplace⟩ := h.origin x hx
  obtain ⟨f, hf, hplace'⟩ := h.origin y hy
  have hsame : e = f := by
    refine eq_of_placement_eq hids he hf ?_
    rw [placement_of_mem_written he, placement_of_mem_written hf, ← hplace.entryId_eq,
      ← hplace'.entryId_eq, hentry]
  rw [hplace.container_eq, hplace'.container_eq, hsame]

/-- A removal is recorded under the container of what is removed, or under one that a movement
names. -/
theorem within (h : Traced changes ix) {r : Muid → Muid → Prop} (hnames : Names r changes)
    {k : RemovalKey} {s : Removal} {x : Entry} (hs : ix.removals.get? k = some s)
    (hx : ix.entries.get? k.removing = some x) :
    s.container = x.container ∨ r x.container s.container := by
  cases h.reasons k s x hs hx with
  | replaced f _ _ _ _ hwithin => exact .inl hwithin
  | moved e m hplace hmoves hwithin =>
      rw [hwithin]
      exact hnames.movedWithin hmoves hplace

/-- Nothing has the address of a change that is still to come. -/
theorem free (h : Traced changes ix) (hnew : id ∉ changes.map Prod.fst) :
    ix.entries.get? id = none ∧ ∀ k r, ix.removals.get? k = some r → k.removing ≠ id :=
  ⟨h.tidy.get?_entries_eq_none hnew, fun k r hr heq => hnew (heq ▸ h.removing k r hr)⟩

/-- An entry of which something is stored has been written by an earlier change. -/
theorem entryId_ne (h : Traced changes ix) (hnew : id ∉ changes.map Prod.fst) {x : Entry}
    (hx : ix.entries.get? x.placement = some x) : x.entryId ≠ id := by
  obtain ⟨f, hf, hplace⟩ := h.origin x hx
  obtain ⟨q, d, hmem, rfl⟩ := mem_written_iff.mp hf
  rw [hplace.entryId_eq]
  exact fun hq => hnew (hq ▸ List.mem_map_of_mem hmem)

/-- A movement that is not too late comes after all places of its entry. -/
theorem lt_of_newest (h : Traced changes ix) (hnew : id ∉ changes.map Prod.fst) {entryId : Muid}
    {x : Entry} (hx : ix.entries.get? x.placement = some x) (hentry : x.entryId = entryId)
    (hnewest : ∀ p ∈ ix.placementsOf entryId, ¬ id < p) : x.placement < id := by
  have hplaced := (mem_placementsOf_iff h.tidy.mirrored).mpr ⟨x, hx, hentry⟩
  refine Muid.lt_of_not_lt_of_ne (hnewest _ hplaced) fun heq => ?_
  rw [heq, (h.free hnew).1] at hx
  cases hx

/-- Making room for a new entry stores nothing under its address. -/
theorem get?_entries_makeRoom (h : Traced changes ix) (hnew : id ∉ changes.map Prod.fst)
    (c : EntryChange) : (ix.makeRoom id c).entries.get? id = none := by
  refine Option.eq_none_iff_forall_ne_some.mpr fun x hx => ?_
  have hfree := (h.free hnew).1
  rw [of_get?_entries_makeRoom hx] at hfree
  cases hfree

/-- Making room for a new entry leaves the removals on record. -/
theorem removals_makeRoom (h : Traced changes ix) (hnew : id ∉ changes.map Prod.fst)
    (c : EntryChange) (k : RemovalKey) (r : Removal) (hr : ix.removals.get? k = some r) :
    (ix.makeRoom id c).removals.get? k = some r := by
  rcases makeRoom_cases ix id c with hsame | ⟨s, hs, hremoval⟩ | ⟨previous, hdelete⟩
  · rw [hsame, hr]
  · rw [hremoval, get?_removals_insertRemoval, if_neg, hr]
    rintro rfl
    exact hnew (hs ▸ h.tidy.removed _ r hr)
  · rw [hdelete, (deleteEntry_frame ix previous).2.1, hr]

/-- A new movement leaves the removals on record. -/
theorem removals_moveFrom (h : Traced changes ix) (hnew : id ∉ changes.map Prod.fst)
    (m : MovementChange) (x : Entry) (k : RemovalKey) (r : Removal)
    (hr : ix.removals.get? k = some r) : (ix.moveFrom id m x).removals.get? k = some r := by
  rw [get?_removals_moveFrom, if_neg, hr]
  rintro ⟨-, rfl⟩
  exact hnew (h.tidy.removed _ r hr)

/-- What has been purged is purged after another clearance. -/
theorem isPurged_applyClearance (h : Traced changes ix) (hnew : id ∉ changes.map Prod.fst)
    {c : ClearanceChange} {container p : Muid} (hpurged : ix.isPurged container p = true) :
    (ix.applyClearance id c).isPurged container p = true := by
  obtain ⟨k, x, hx, hcontainer, hlt, hpurging⟩ := isPurged_iff_exists.mp hpurged
  have hne : k.clearanceId ≠ id := fun heq => hnew (heq ▸ h.clearing k x hx)
  rcases get?_clearances_applyClearance_of_ne (c := c) hx hne with hkept | hcovers
  · exact isPurged_iff_exists.mpr ⟨k, x, hkept, hcontainer, hlt, hpurging⟩
  · exact isPurged_of_covers ⟨hcovers.1, hcontainer ▸ hcovers.2.1, Muid.lt_trans hlt hcovers.2.2⟩

theorem isRemoved_eq_false (h : Traced changes ix) (hnew : id ∉ changes.map Prod.fst)
    (t : Timestamp) : ix.isRemoved id t = false := by
  rw [← Bool.not_eq_true, isRemoved_iff]
  rintro ⟨k, r, hr, hk, -⟩
  exact (h.free hnew).2 k r hr hk

/-! ### Updates -/

theorem insertEntry (h : Traced changes ix) {e f : Entry}
    (hfree : ix.entries.get? e.placement = none) (hid : e.placement ∈ changes.map Prod.fst)
    (hunremoved : ∀ k r, ix.removals.get? k = some r → k.removing ≠ e.placement)
    (hf : f ∈ written changes) (hplace : IsPlaceOf e f)
    (hkept : ix.isPurged e.container e.placement = false) : Traced changes (ix.insertEntry e) where
  tidy := h.tidy.insertEntry hfree hid
  origin x hx := by
    rw [get?_entries_insertEntry] at hx
    split at hx
    · cases hx
      exact ⟨f, hf, hplace⟩
    · exact h.origin x hx
  kept x hx := by
    rw [get?_entries_insertEntry] at hx
    split at hx
    · cases hx
      exact hkept
    · exact h.kept x hx
  removing := h.removing
  reasons k r x hr hx := by
    rw [get?_entries_insertEntry, if_neg (hunremoved k r hr)] at hx
    exact h.reasons k r x hr hx
  clearing := h.clearing

theorem insertRemoval (h : Traced changes ix) {r : Removal}
    (hfree : ix.removals.get? (removalKey r) = none) (hid : r.removalId ∈ changes.map Prod.fst)
    (hremoving : r.removing ∈ changes.map Prod.fst)
    (hreason : ∀ x, ix.entries.get? r.removing = some x → Reason changes (removalKey r) r x) :
    Traced changes (ix.insertRemoval r) where
  tidy := h.tidy.insertRemoval hfree hid
  origin := h.origin
  kept := h.kept
  removing k s hs := by
    rw [get?_removals_insertRemoval] at hs
    split at hs
    · rename_i hk
      rw [hk]
      exact hremoving
    · exact h.removing k s hs
  reasons k s x hs hx := by
    rw [get?_removals_insertRemoval] at hs
    split at hs
    · rename_i hk
      cases hs
      subst hk
      exact hreason x hx
    · exact h.reasons k s x hs hx
  clearing := h.clearing

theorem deleteEntry (h : Traced changes ix) (p : Muid) : Traced changes (ix.deleteEntry p) := by
  obtain ⟨-, hremovals, -, hclearances⟩ := deleteEntry_frame ix p
  refine {
    tidy := h.tidy.deleteEntry p
    origin := fun x hx => h.origin x (of_get?_entries_deleteEntry hx)
    kept := fun x hx => ?_
    removing := ?_
    reasons := fun k r x hr hx => ?_
    clearing := ?_ }
  · rw [isPurged_congr hclearances]
    exact h.kept x (of_get?_entries_deleteEntry hx)
  · rw [hremovals]
    exact h.removing
  · rw [hremovals] at hr
    exact h.reasons k r x hr (of_get?_entries_deleteEntry hx)
  · rw [hclearances]
    exact h.clearing

theorem deleteRemoval (h : Traced changes ix) (k : RemovalKey) :
    Traced changes (ix.deleteRemoval k) := by
  obtain ⟨-, hentries, hclearances⟩ := deleteRemoval_frame ix k
  refine {
    tidy := h.tidy.deleteRemoval k
    origin := hentries ▸ h.origin
    kept := ?_
    removing := fun j r hr => h.removing j r (of_get?_removals_deleteRemoval hr)
    reasons := fun j r x hr hx =>
      h.reasons j r x (of_get?_removals_deleteRemoval hr) (hentries ▸ hx)
    clearing := hclearances ▸ h.clearing }
  rw [isPurged_congr hclearances, hentries]
  exact h.kept

theorem withRecords (h : Traced changes ix) (chains : SortedMap ChainKey BundleInfo)
    (bundles : SortedMap BundleKey Bundle) (claims : List ClaimedChain) :
    Traced changes (ix.withRecords chains bundles claims) :=
  ⟨h.tidy.withRecords chains bundles claims, h.origin, h.kept, h.removing, h.reasons, h.clearing⟩

theorem withHistory (h : Traced changes ix) (keepingHistory : Bool) :
    Traced changes { ix with keepingHistory } :=
  ⟨h.tidy.withHistory keepingHistory, h.origin, h.kept, h.removing, h.reasons, h.clearing⟩

theorem dropHistoryUpTo (h : Traced changes ix) (container : Option Muid) (t : Timestamp) :
    Traced changes (ix.dropHistoryUpTo container t).1 :=
  List.foldlRecOn _ _ h fun _ h k _ => (h.deleteEntry k.removing).deleteRemoval k

/-! ### Changes -/

theorem applyEntry (h : Traced changes ix) (hnew : id ∉ changes.map Prod.fst) (c : EntryChange) :
    Traced (changes ++ [(id, .entry c)]) (ix.applyEntry id c) := by
  have hmono := h.mono (List.sublist_append_left changes [(id, .entry c)])
  have hid : id ∈ (changes ++ [(id, Change.entry c)]).map Prod.fst := by simp
  have hwritten : entryOf id c ∈ written (changes ++ [(id, .entry c)]) :=
    mem_written_iff.mpr ⟨id, c, by simp, rfl⟩
  obtain ⟨hfree, hunremoved⟩ := h.free hnew
  rw [applyEntry_eq]
  split
  · exact hmono
  rename_i hkept
  have hkept := eq_false_of_ne_true hkept
  cases hsuperseded : ix.superseded? id c with
  | none =>
      rw [makeRoom_of_none hsuperseded]
      exact hmono.insertEntry hfree hid hunremoved hwritten (.inl rfl) hkept
  | some previous =>
      obtain ⟨-, hlt, ⟨x, hx, hkey⟩, -⟩ := (superseded?_eq_some_iff h.tidy.mirrored).mp hsuperseded
      rw [makeRoom_of_some hsuperseded]
      split
      · -- the new entry is why the older one is removed
        have hroom : Traced (changes ++ [(id, .entry c)])
            (ix.insertRemoval (ix.supersession id c previous)) := by
          refine hmono.insertRemoval (h.tidy.get?_removals_eq_none hnew) hid
            (hmono.tidy.placed previous x hx) fun y hy => ?_
          obtain rfl : x = y := Option.some.inj (hx.symm.trans hy)
          have hplaced : x.placement = previous := h.tidy.mirrored.placed previous x hx
          exact .replaced (entryOf id c) hwritten rfl ⟨hkey.1.symm, hkey.2.symm⟩
            (hplaced ▸ hlt) hkey.1.symm
        refine hroom.insertEntry hfree hid (fun k r hr => ?_) hwritten (.inl rfl) hkept
        rw [get?_removals_insertRemoval] at hr
        split at hr
        · rename_i hk
          rw [hk]
          rintro (rfl : previous = id)
          exact Muid.lt_irrefl _ hlt
        · exact hunremoved k r hr
      · obtain ⟨-, hremovals, -, hclearances⟩ := deleteEntry_frame ix previous
        refine (hmono.deleteEntry previous).insertEntry ?_ hid (fun k r hr => ?_) hwritten
          (.inl rfl) ?_
        · rw [get?_entries_deleteEntry]
          exact ite_eq_left_iff.mpr fun _ => hfree
        · rw [hremovals] at hr
          exact hunremoved k r hr
        · rw [isPurged_congr hclearances]
          exact hkept

theorem moveFrom (h : Traced changes ix) (hnew : id ∉ changes.map Prod.fst) {m : MovementChange}
    {x : Entry} (hcurrent : ix.current? (movedEntry id m) = some x)
    (hkept : ix.isPurged x.container id = false) :
    Traced (changes ++ [(id, .movement m)]) (ix.moveFrom id m x) := by
  have hmono := h.mono (List.sublist_append_left changes [(id, .movement m)])
  have hid : id ∈ (changes ++ [(id, Change.movement m)]).map Prod.fst := by simp
  obtain ⟨hfree, hunremoved⟩ := h.free hnew
  obtain ⟨hx, hentry, -, -⟩ := (current?_eq_some_iff h.tidy.mirrored).mp hcurrent
  obtain ⟨e, he, hplace⟩ := h.origin x hx
  have hinserted : Traced (changes ++ [(id, .movement m)]) (ix.insertMoved id m x) := by
    rw [insertMoved]
    split
    · exact hmono
    · refine hmono.insertEntry hfree hid hunremoved ?_
        (hplace.movedTo id m.dest) hkept
      rw [written_append]
      exact List.mem_append_left _ he
  rw [Index.moveFrom]
  split
  · exact hinserted.deleteEntry x.placement
  · -- the movement is why the place that the entry leaves is removed
    refine hinserted.insertRemoval ?_ hid (hmono.tidy.placed _ x hx) fun y hy => ?_
    · rw [(insertMoved_frame id m x ix).2.1]
      exact h.tidy.get?_removals_eq_none hnew
    · have hne : x.placement ≠ id := by
        intro heq
        rw [heq, hfree] at hx
        cases hx
      rw [get?_entries_insertMoved, if_neg fun h => hne h.2] at hy
      obtain rfl : x = y := Option.some.inj (hx.symm.trans hy)
      exact .moved e m hplace
        (moves_append he (hentry.symm.trans hplace.entryId_eq)) rfl

theorem applyMovement (h : Traced changes ix) (hnew : id ∉ changes.map Prod.fst)
    (m : MovementChange) : Traced (changes ++ [(id, .movement m)]) (ix.applyMovement id m) := by
  rcases applyMovement_eq_or ix id m with hsame | ⟨x, hcurrent, hkept, -, hmoves⟩
  · rw [hsame]
    exact h.mono (List.sublist_append_left changes [(id, .movement m)])
  · rw [hmoves]
    exact h.moveFrom hnew hcurrent hkept

theorem applyClearance (h : Traced changes ix) (id : Muid) (c : ClearanceChange) :
    Traced (changes ++ [(id, .clearance c)]) (ix.applyClearance id c) := by
  have hm := h.tidy.mirrored
  have hsub := List.sublist_append_left changes [(id, .clearance c)]
  have hmono := h.mono hsub
  refine {
    tidy := hmono.tidy.applyClearance id c
    origin := fun x hx => hmono.origin x (of_get?_entries_applyClearance hx)
    kept := fun x hx => ?_
    removing := fun k r hr => ?_
    reasons := fun k r x hr hx => ?_
    clearing := fun k x hx => ?_ }
  · rw [get?_entries_applyClearance id c hm, Option.filter_eq_some_iff, decide_eq_true_eq] at hx
    rw [← Bool.not_eq_true]
    intro hpurged
    rcases isPurged_or_covers hpurged with hbefore | hcovers
    · rw [h.kept x hx.1] at hbefore
      cases hbefore
    · exact hx.2 hcovers
  · rw [get?_removals_applyClearance id c hm, Option.filter_eq_some_iff] at hr
    exact hmono.removing k r hr.1
  · rw [get?_removals_applyClearance id c hm, Option.filter_eq_some_iff] at hr
    exact hmono.reasons k r x hr.1 (of_get?_entries_applyClearance hx)
  · rw [get?_clearances_applyClearance] at hx
    split at hx
    · rename_i hk
      rw [hk]
      simp
    · exact hmono.clearing k x (Option.filter_eq_some_iff.mp hx).1

/-- **Every change keeps the invariant** if its address is new. -/
theorem applyChange (h : Traced changes ix) (hnew : id ∉ changes.map Prod.fst) (c : Change) :
    Traced (changes ++ [(id, c)]) (ix.applyChange id c) := by
  cases c with
  | container behavior =>
      have hmono := h.mono (List.sublist_append_left changes [(id, .container behavior)])
      exact ⟨⟨hmono.tidy.mirrored.withTables _ _, hmono.tidy.placed, hmono.tidy.removed,
        hmono.tidy.filed⟩, hmono.origin, hmono.kept, hmono.removing, hmono.reasons,
        hmono.clearing⟩
  | entry c => exact h.applyEntry hnew c
  | movement m => exact h.applyMovement hnew m
  | clearance c => exact h.applyClearance id c

end Traced

/-! ## Runs of changes -/

/-- What holds of an empty index and is kept by every change of a new address holds after all
changes of distinct addresses. -/
theorem applyChanges_induction {keepingHistory : Bool}
    {P : List (Muid × Change) → Index → Prop} (hempty : P [] (.empty keepingHistory))
    (hstep : ∀ changes ix id c, ((changes ++ [(id, c)]).map Prod.fst).Nodup → P changes ix →
      P (changes ++ [(id, c)]) (ix.applyChange id c))
    {changes : List (Muid × Change)} (hids : (changes.map Prod.fst).Nodup) :
    P changes ((Index.empty keepingHistory).applyChanges changes) := by
  -- on the changes in the order of their arrival, the last one taken off
  induction changes using List.reverseRecOn with
  | nil => exact hempty
  | append_singleton changes x ih =>
      obtain ⟨id, c⟩ := x
      have hbefore := hids.sublist ((List.sublist_append_left changes [(id, c)]).map Prod.fst)
      rw [applyChanges_concat]
      exact hstep changes _ id c hids (ih hbefore)

theorem not_mem_of_nodup {c : Change} (hids : ((changes ++ [(id, c)]).map Prod.fst).Nodup) :
    id ∉ changes.map Prod.fst := by
  rw [List.map_append] at hids
  exact fun hmem => (List.nodup_append.mp hids).2.2 id hmem id (by simp) rfl

/-- **After every run of changes** all that has been removed has a reason. -/
theorem traced_applyChanges (keepingHistory : Bool) (hids : (changes.map Prod.fst).Nodup) :
    Traced changes ((empty keepingHistory).applyChanges changes) :=
  applyChanges_induction (.empty keepingHistory)
    (fun _ _ _ c hids h => h.applyChange (not_mem_of_nodup hids) c) hids

/-- So it is after every run of calls. -/
theorem upheld_traced : Upheld Traced where
  applyChange h hids := h.applyChange (not_mem_of_nodup hids) _
  dropHistoryUpTo h := h.dropHistoryUpTo
  withHistory h := h.withHistory
  withRecords h := h.withRecords

/-! ## Without history -/

/-- Whether an index keeps no history and has none. -/
structure Forgetful (ix : Index) : Prop where
  notKeeping : ix.keepingHistory = false
  nothing : ∀ k, ix.removals.get? k = none

namespace Forgetful

theorem makeRoom (h : ix.Forgetful) (id : Muid) (c : EntryChange) :
    (ix.makeRoom id c).Forgetful := by
  cases hsuperseded : ix.superseded? id c with
  | none =>
      rw [makeRoom_of_none hsuperseded]
      exact h
  | some previous =>
      obtain ⟨hhistory, hremovals, -, -⟩ := deleteEntry_frame ix previous
      rw [makeRoom_of_some hsuperseded, h.notKeeping]
      exact ⟨hhistory.trans h.notKeeping, fun k => hremovals ▸ h.nothing k⟩

theorem moveFrom (h : ix.Forgetful) (id : Muid) (m : MovementChange) (x : Entry) :
    (ix.moveFrom id m x).Forgetful := by
  refine ⟨(moveFrom_frame id m x ix).1.trans h.notKeeping, fun k => ?_⟩
  rw [get?_removals_moveFrom, if_neg, h.nothing k]
  rintro ⟨hdrops, -⟩
  rw [dropsPlace, h.notKeeping, Bool.not_false, Bool.or_true] at hdrops
  cases hdrops

/-- **Without history nothing is recorded** as removed. -/
theorem applyChange (h : ix.Forgetful) (hm : Mirrored ix) (id : Muid) (c : Change) :
    (ix.applyChange id c).Forgetful := by
  cases c with
  | container behavior => exact ⟨h.notKeeping, h.nothing⟩
  | entry c =>
      rw [Index.applyChange, applyEntry_eq]
      split
      · exact h
      · exact ⟨(h.makeRoom id c).notKeeping, (h.makeRoom id c).nothing⟩
  | movement m =>
      rw [Index.applyChange]
      rcases applyMovement_cases ix id m with hsame | ⟨x, hmoves⟩
      · rw [hsame]
        exact h
      · rw [hmoves]
        exact h.moveFrom id m x
  | clearance c =>
      refine ⟨(keepingHistory_applyClearance id c ix).trans h.notKeeping, fun k => ?_⟩
      rw [Index.applyChange, get?_removals_applyClearance id c hm, h.nothing k]
      rfl

end Forgetful

theorem forgetful_applyChanges (hids : (changes.map Prod.fst).Nodup) :
    ((empty false).applyChanges changes).Forgetful :=
  (applyChanges_induction (P := fun changes ix => Traced changes ix ∧ ix.Forgetful)
    ⟨.empty false, rfl, fun _ => rfl⟩ (fun _ _ id c hids h =>
      ⟨h.1.applyChange (not_mem_of_nodup hids) c, h.2.applyChange h.1.tidy.mirrored id c⟩) hids).2

/-! ## Arrivals -/

section Arrivals

variable {keepingHistory : Bool} {arrivals : List Bundle}

/-- The changes that an index has applied after some bundles have been offered to it. -/
def applied (keepingHistory : Bool) (arrivals : List Bundle) : List (Muid × Change) :=
  ((empty keepingHistory).offerAll arrivals).2.flatMap Bundle.changesWithIds

/-- After some bundles have been offered the tables are those after all changes applied. -/
theorem exists_offerAll_eq (keepingHistory : Bool) (arrivals : List Bundle) :
    ∃ chains bundles claims, ((empty keepingHistory).offerAll arrivals).1
      = ((empty keepingHistory).applyChanges (applied keepingHistory arrivals)).withRecords chains
        bundles claims := by
  obtain ⟨chains, bundles, heq⟩ :=
    foldl_apply_eq (empty keepingHistory) ((empty keepingHistory).offerAll arrivals).2
  exact ⟨chains, bundles, _, (offerAll_eq _ _).trans heq⟩

/-- What is upheld holds after some bundles have been offered. -/
theorem Upheld.offerAll {P : List (Muid × Change) → Index → Prop} (hP : Upheld P)
    (h : P [] (empty keepingHistory))
    (hids : ((applied keepingHistory arrivals).map Prod.fst).Nodup) :
    P (applied keepingHistory arrivals) ((empty keepingHistory).offerAll arrivals).1 := by
  obtain ⟨chains, bundles, claims, heq⟩ := exists_offerAll_eq keepingHistory arrivals
  rw [heq]
  exact hP.withRecords (hP.applyChanges h hids) chains bundles claims

theorem traced_offerAll (hids : ((applied keepingHistory arrivals).map Prod.fst).Nodup) :
    Traced (applied keepingHistory arrivals) ((empty keepingHistory).offerAll arrivals).1 :=
  upheld_traced.offerAll (.empty keepingHistory) hids

theorem forgetful_offerAll (hids : ((applied false arrivals).map Prod.fst).Nodup) :
    ((empty false).offerAll arrivals).1.Forgetful := by
  obtain ⟨chains, bundles, claims, heq⟩ := exists_offerAll_eq false arrivals
  rw [heq]
  exact ⟨(forgetful_applyChanges hids).notKeeping, (forgetful_applyChanges hids).nothing⟩

end Arrivals

end GossipStore.Index
