import GossipStore.Proofs.Index.Effects
import GossipStore.Proofs.Index.Records
import GossipStore.Proofs.Order

set_option autoImplicit false

/-! # What an index says about the changes it has applied

The reference is the set of changes alone: the entries that they write (`written`), and which of
them a clearance hides at a time (`Cleared`) or a purge covers for ever (`Purged`). The tables of an
index depend on the order of arrival: a purge drops clearances that it covers, an entry may
come after the purge that covers it, and a removal names whatever predecessor happened to be there.
`Reflects` says what the tables have to do with the changes in any order: an entry is stored exactly
if no purge covers it, a missing clearance is below a stored purge, and a removal takes away
something that a later entry at the same key overrides anyway. Every change keeps that
(`Reflects.applyChange`), as long as no two changes have one address and nothing is moved.
-/

namespace GossipStore.Index

/-! ## The reference -/

/-- The entry that a change writes. -/
def entryAt? : Muid × Change → Option Entry
  | (id, .entry c) => some (entryOf id c)
  | _ => none

/-- The entries that some changes write. -/
def written (changes : List (Muid × Change)) : List Entry := changes.filterMap entryAt?

/-- Whether a clearance of a container is among the changes, under an address. -/
def Clears (changes : List (Muid × Change)) (container id : Muid) : Prop :=
  ∃ x : ClearanceChange, (id, .clearance x) ∈ changes
    ∧ clearedContainer id x = container

/-- Whether a purging clearance of a container is among the changes, under an address. -/
def Purges (changes : List (Muid × Change)) (container id : Muid) : Prop :=
  ∃ x : ClearanceChange, (id, .clearance x) ∈ changes
    ∧ clearedContainer id x = container ∧ x.purge = true

/-- Whether an entry is below the latest clearance of its container up to a time. -/
def Cleared (changes : List (Muid × Change)) (t : Timestamp) (e : Entry) : Prop :=
  ∃ id, Clears changes e.container id ∧ id.timestamp ≤ t ∧ e.placement < id

/-- Whether an entry is below a purging clearance of its container, of whatever time. -/
def Purged (changes : List (Muid × Change)) (e : Entry) : Prop :=
  ∃ id, Purges changes e.container id ∧ e.placement < id

section Reference

variable {changes : List (Muid × Change)} {id : Muid}

theorem mem_written_iff {e : Entry} :
    e ∈ written changes ↔ ∃ id c, (id, Change.entry c) ∈ changes ∧ e = entryOf id c := by
  rw [written, List.mem_filterMap]
  constructor
  · rintro ⟨⟨id, c⟩, hmem, he⟩
    cases c with
    | entry c =>
        cases he
        exact ⟨id, c, hmem, rfl⟩
    | container b => cases he
    | movement m => cases he
    | clearance x => cases he
  · rintro ⟨id, c, hmem, rfl⟩
    exact ⟨(id, .entry c), hmem, rfl⟩

theorem Purges.clears {container : Muid} (h : Purges changes container id) :
    Clears changes container id := by
  obtain ⟨x, hmem, hcontainer, -⟩ := h
  exact ⟨x, hmem, hcontainer⟩

theorem written_append (more : List (Muid × Change)) :
    written (changes ++ more) = written changes ++ written more :=
  List.filterMap_append

theorem clears_append_iff {more : List (Muid × Change)} {container : Muid} :
    Clears (changes ++ more) container id
      ↔ Clears changes container id ∨ Clears more container id := by
  simp only [Clears, List.mem_append, or_and_right, exists_or]

theorem purges_append_iff {more : List (Muid × Change)} {container : Muid} :
    Purges (changes ++ more) container id
      ↔ Purges changes container id ∨ Purges more container id := by
  simp only [Purges, List.mem_append, or_and_right, exists_or]

theorem not_clears_of_not_clearance {c : Change} (h : ∀ x, c ≠ .clearance x) {container q : Muid} :
    ¬ Clears [(id, c)] container q := by
  rintro ⟨x, hmem, -⟩
  rw [List.mem_singleton] at hmem
  exact h x (Prod.mk.inj hmem).2.symm

theorem clears_singleton_iff {x : ClearanceChange} {container q : Muid} :
    Clears [(id, .clearance x)] container q ↔ container = clearedContainer id x ∧ q = id := by
  constructor
  · rintro ⟨y, hmem, rfl⟩
    cases List.mem_singleton.mp hmem
    exact ⟨rfl, rfl⟩
  · rintro ⟨rfl, rfl⟩
    exact ⟨x, List.mem_singleton.mpr rfl, rfl⟩

theorem purges_singleton_iff {x : ClearanceChange} {container q : Muid} :
    Purges [(id, .clearance x)] container q
      ↔ x.purge = true ∧ container = clearedContainer id x ∧ q = id := by
  constructor
  · rintro ⟨y, hmem, rfl, hpurge⟩
    cases List.mem_singleton.mp hmem
    exact ⟨hpurge, rfl, rfl⟩
  · rintro ⟨hpurge, rfl, rfl⟩
    exact ⟨x, List.mem_singleton.mpr rfl, rfl, hpurge⟩

theorem clears_append_iff_of_ne {c : Change} (hc : ∀ x, c ≠ .clearance x) {container q : Muid} :
    Clears (changes ++ [(id, c)]) container q ↔ Clears changes container q := by
  rw [clears_append_iff]
  exact ⟨fun h => h.resolve_right (not_clears_of_not_clearance hc), .inl⟩

theorem purges_append_iff_of_ne {c : Change} (hc : ∀ x, c ≠ .clearance x) {container q : Muid} :
    Purges (changes ++ [(id, c)]) container q ↔ Purges changes container q := by
  rw [purges_append_iff]
  exact ⟨fun h => h.resolve_right fun h => not_clears_of_not_clearance hc h.clears, .inl⟩

theorem purged_append_iff {c : Change} (hc : ∀ x, c ≠ .clearance x) {e : Entry} :
    Purged (changes ++ [(id, c)]) e ↔ Purged changes e := by
  simp only [Purged, purges_append_iff_of_ne hc]

/-- An entry at a positional key replaces nothing. -/
theorem isPositional_key_entryOf (c : EntryChange) :
    (entryOf id c).key.isPositional = !c.behavior.isReplacing := by
  cases h : c.behavior <;> simp [entryOf, EntryChange.storageKey, h, StorageKey.isPositional,
    Behavior.isReplacing, Behavior.isOrdered]

end Reference

/-! ## The invariant -/

/-- What the tables of a history-keeping index have to do with the changes it has applied. -/
structure Reflects (changes : List (Muid × Change)) (ix : Index) : Prop where
  keeping : ix.keepingHistory = true
  mirrored : Mirrored ix
  entries : ∀ p e, ix.entries.get? p = some e ↔
    e ∈ written changes ∧ e.placement = p ∧ ¬ Purged changes e
  /-- What is removed has been overridden at its key. -/
  removals : ∀ k r, ix.removals.get? k = some r →
    ∃ e ∈ written changes, ∃ f ∈ written changes, e.placement = k.removing
      ∧ f.placement = k.removalId ∧ f.container = e.container ∧ f.key = e.key
      ∧ e.placement < f.placement ∧ e.key.isPositional = false
  /-- Every stored clearance was made. -/
  cleared : ∀ k x, ix.clearances.get? k = some x → Clears changes k.container k.clearanceId
    ∧ (x.purging = true → Purges changes k.container k.clearanceId)
  /-- Every clearance made is stored or below a stored purge. -/
  covered : ∀ container id, Clears changes container id →
    (∃ x, ix.clearances.get? ⟨container, id⟩ = some x
      ∧ (Purges changes container id → x.purging = true))
    ∨ ∃ q x, ix.clearances.get? ⟨container, q⟩ = some x ∧ x.purging = true ∧ id < q

namespace Reflects

variable {changes : List (Muid × Change)} {ix : Index}

theorem empty : Reflects [] (.empty true) where
  keeping := rfl
  mirrored := .empty true
  entries p e := by
    constructor
    · intro h
      cases h
    · rintro ⟨h, -⟩
      cases h
  removals k r h := by cases h
  cleared k x h := by cases h
  covered container id h := by
    obtain ⟨x, hmem, -⟩ := h
    cases hmem

/-- Whether a change comes too late is decided by the purges made. -/
theorem isPurged_iff (h : Reflects changes ix) {container id : Muid} :
    ix.isPurged container id = true ↔ ∃ q, Purges changes container q ∧ id < q := by
  rw [isPurged, List.any_eq_true]
  constructor
  · rintro ⟨⟨k, x⟩, hmem, hx⟩
    simp only [Bool.and_eq_true, decide_eq_true_eq] at hx
    obtain ⟨⟨hcontainer, hlt⟩, hpurging⟩ := hx
    refine ⟨k.clearanceId, ?_, hlt⟩
    rw [← hcontainer]
    exact (h.cleared k x (SortedMap.mem_toList_iff.mp hmem)).2 hpurging
  · rintro ⟨q, hq, hlt⟩
    have found (q : Muid) (x : Clearance) (hx : ix.clearances.get? ⟨container, q⟩ = some x)
        (hpurging : x.purging = true) (hlt : id < q) :
        ∃ e ∈ ix.clearances.toList,
          (e.1.container = container && id < e.1.clearanceId && e.2.purging) = true :=
      ⟨(⟨container, q⟩, x), SortedMap.mem_toList_iff.mpr hx, by simp [hpurging, hlt]⟩
    -- the purge is stored, or a later one is stored that has dropped it
    rcases h.covered container q hq.clears with ⟨x, hx, hpurging⟩ | ⟨q', x, hx, hpurging, hqq'⟩
    · exact found q x hx (hpurging hq) hlt
    · exact found q' x hx hpurging (Muid.lt_trans hlt hqq')

/-- The placements at a key are those of the entries that no purge covers. -/
theorem mem_placementsAtKey_iff (h : Reflects changes ix) {container : Muid} {key : StorageKey}
    {p : Muid} : p ∈ ix.placementsAtKey container key ↔ ∃ e ∈ written changes,
      e.placement = p ∧ e.container = container ∧ e.key = key ∧ ¬ Purged changes e := by
  have hrow : p ∈ ix.placementsAtKey container key
      ↔ (⟨container, key, p⟩ : KeyRow) ∈ ix.byKey.members := by
    simp only [placementsAtKey, List.mem_map, List.mem_filter, Bool.and_eq_true,
      decide_eq_true_eq]
    constructor
    · rintro ⟨r, ⟨hr, rfl, rfl⟩, rfl⟩
      exact hr
    · intro hr
      exact ⟨_, ⟨hr, rfl, rfl⟩, rfl⟩
  rw [hrow, h.mirrored.mem_byKey_iff]
  constructor
  · rintro ⟨e, he, hc, hk⟩
    obtain ⟨hw, hp, hpurged⟩ := (h.entries p e).mp he
    exact ⟨e, hw, hp, hc, hk, hpurged⟩
  · rintro ⟨e, hw, hp, hc, hk, hpurged⟩
    exact ⟨e, (h.entries p e).mpr ⟨hw, hp, hpurged⟩, hc, hk⟩

/-! ## Steps -/

/-- Nothing is stored under an address that no change had. -/
theorem get?_entries_eq_none (h : Reflects changes ix) {id : Muid}
    (hnew : ∀ x ∈ changes, x.1 ≠ id) : ix.entries.get? id = none := by
  cases he : ix.entries.get? id with
  | none => rfl
  | some e =>
      obtain ⟨hw, hp, -⟩ := (h.entries id e).mp he
      obtain ⟨q, c, hmem, rfl⟩ := mem_written_iff.mp hw
      exact absurd hp (hnew _ hmem)

/-- A change that clears nothing, and writes nothing that is not purged, is reflected already. -/
theorem skip (h : Reflects changes ix) {id : Muid} {c : Change} (hc : ∀ x, c ≠ .clearance x)
    (hw : ∀ e, entryAt? (id, c) = some e → Purged changes e) :
    Reflects (changes ++ [(id, c)]) ix where
  keeping := h.keeping
  mirrored := h.mirrored
  entries p e := by
    rw [h.entries p e, purged_append_iff hc, written_append, List.mem_append]
    constructor
    · rintro ⟨hmem, hp, hpurged⟩
      exact ⟨.inl hmem, hp, hpurged⟩
    · rintro ⟨hmem | hmem, hp, hpurged⟩
      · exact ⟨hmem, hp, hpurged⟩
      · obtain ⟨x, hx, he⟩ := List.mem_filterMap.mp hmem
        rw [List.mem_singleton.mp hx] at he
        exact absurd (hw e he) hpurged
  removals k r hr := by
    obtain ⟨e, he, f, hf, hrest⟩ := h.removals k r hr
    rw [written_append]
    exact ⟨e, List.mem_append_left _ he, f, List.mem_append_left _ hf, hrest⟩
  cleared k x hx := by
    rw [clears_append_iff_of_ne hc, purges_append_iff_of_ne hc]
    exact h.cleared k x hx
  covered container q hq := by
    rw [clears_append_iff_of_ne hc] at hq
    rw [purges_append_iff_of_ne hc]
    exact h.covered container q hq

/-- An entry that no purge covers is stored. -/
theorem insertEntry (h : Reflects changes ix) {id : Muid} (hnew : ∀ x ∈ changes, x.1 ≠ id)
    {c : EntryChange} (hpurged : ¬ Purged changes (entryOf id c)) :
    Reflects (changes ++ [(id, .entry c)]) (ix.insertEntry (entryOf id c)) where
  keeping := h.keeping
  mirrored := h.mirrored.insertEntry (h.get?_entries_eq_none hnew)
  entries p e := by
    have hc : ∀ x, Change.entry c ≠ .clearance x := by simp
    have hwritten : e ∈ written (changes ++ [(id, .entry c)])
        ↔ e ∈ written changes ∨ e = entryOf id c := by
      rw [written_append, List.mem_append]
      exact or_congr Iff.rfl (List.mem_singleton (a := e))
    rw [purged_append_iff hc, hwritten]
    -- at its own address stands the new entry only, and elsewhere nothing has changed
    by_cases hp : p = id
    · subst hp
      have hself : (ix.insertEntry (entryOf p c)).entries.get? p = some (entryOf p c) :=
        SortedMap.get?_insert_self ix.entries p (entryOf p c)
      rw [hself]
      constructor
      · intro he
        cases he
        exact ⟨.inr rfl, rfl, hpurged⟩
      · rintro ⟨he | he, hplaced, -⟩
        · obtain ⟨q, d, hmem, rfl⟩ := mem_written_iff.mp he
          exact absurd hplaced (hnew _ hmem)
        · rw [he]
    · have hother : (ix.insertEntry (entryOf id c)).entries.get? p = ix.entries.get? p :=
        SortedMap.get?_insert_of_ne ix.entries hp (entryOf id c)
      rw [hother, h.entries p e]
      constructor
      · rintro ⟨hmem, hplaced, hkept⟩
        exact ⟨.inl hmem, hplaced, hkept⟩
      · rintro ⟨hmem | rfl, hplaced, hkept⟩
        · exact ⟨hmem, hplaced, hkept⟩
        · exact absurd hplaced.symm hp
  removals k r hr := by
    obtain ⟨e, he, f, hf, hrest⟩ := h.removals k r hr
    rw [written_append]
    exact ⟨e, List.mem_append_left _ he, f, List.mem_append_left _ hf, hrest⟩
  cleared k x hx := by
    rw [clears_append_iff_of_ne (by simp), purges_append_iff_of_ne (by simp)]
    exact h.cleared k x hx
  covered container q hq := by
    rw [clears_append_iff_of_ne (by simp)] at hq
    rw [purges_append_iff_of_ne (by simp)]
    exact h.covered container q hq

/-- It is recorded that an entry overrides an earlier one at its key. -/
theorem insertRemoval (h : Reflects changes ix) {r : Removal}
    (hfree : ix.removals.get? (removalKey r) = none)
    (hr : ∃ e ∈ written changes, ∃ f ∈ written changes, e.placement = r.removing
      ∧ f.placement = r.removalId ∧ f.container = e.container ∧ f.key = e.key
      ∧ e.placement < f.placement ∧ e.key.isPositional = false) :
    Reflects changes (ix.insertRemoval r) where
  keeping := h.keeping
  mirrored := h.mirrored.insertRemoval hfree
  entries := h.entries
  removals k s hs := by
    by_cases hk : k = removalKey r
    · rw [hk]
      exact hr
    · rw [Index.insertRemoval, SortedMap.get?_insert_of_ne _ hk] at hs
      exact h.removals k s hs
  cleared := h.cleared
  covered := h.covered

/-- **An entry keeps the invariant**, whenever it arrives. -/
theorem applyEntry (h : Reflects changes ix) {id : Muid} (hnew : ∀ x ∈ changes, x.1 ≠ id)
    (c : EntryChange) : Reflects (changes ++ [(id, .entry c)]) (ix.applyEntry id c) := by
  have hkept (hp : ix.isPurged (entryOf id c).container id = false) :
      ¬ Purged changes (entryOf id c) := by
    rintro ⟨q, hq, hlt⟩
    have htrue : ix.isPurged (entryOf id c).container id = true :=
      h.isPurged_iff.mpr ⟨q, hq, hlt⟩
    rw [htrue] at hp
    cases hp
  rcases applyEntry_cases h.keeping id c with ⟨hp, heq⟩ | ⟨hp, heq⟩ |
      ⟨hp, hreplacing, previous, hprevious, hlt, entryId, heq⟩
  · -- it comes too late
    rw [heq]
    refine h.skip (by simp) fun e he => ?_
    cases he
    exact h.isPurged_iff.mp hp
  · rw [heq]
    exact h.insertEntry hnew (hkept hp)
  · obtain ⟨e, he, hplaced, hcontainer, hkey, -⟩ := h.mem_placementsAtKey_iff.mp hprevious
    -- no removal is in the way, as it would have been made by a change of the same address
    have hnone : ix.removals.get? ⟨previous, id⟩ = none := by
      cases hr : ix.removals.get? ⟨previous, id⟩ with
      | none => rfl
      | some r =>
          obtain ⟨-, -, f, hf, -, hfid, -⟩ := h.removals _ r hr
          obtain ⟨q, d, hmem, rfl⟩ := mem_written_iff.mp hf
          exact absurd hfid (hnew _ hmem)
    have hpositional : e.key.isPositional = false := by
      rw [hkey, isPositional_key_entryOf, hreplacing]
      rfl
    rw [heq]
    refine (h.insertEntry hnew (hkept hp)).insertRemoval hnone ?_
    rw [written_append]
    refine ⟨e, List.mem_append_left _ he, entryOf id c,
      List.mem_append_right _ (List.mem_singleton.mpr rfl), hplaced, rfl, hcontainer.symm,
      hkey.symm, ?_, hpositional⟩
    rw [hplaced]
    exact hlt

/-- **A clearance keeps the invariant**, whenever it arrives. -/
theorem applyClearance (h : Reflects changes ix) {id : Muid} (hnew : ∀ x ∈ changes, x.1 ≠ id)
    (c : ClearanceChange) :
    Reflects (changes ++ [(id, .clearance c)]) (ix.applyClearance id c) := by
  have hclears {container q : Muid} : Clears (changes ++ [(id, .clearance c)]) container q
      ↔ Clears changes container q ∨ container = clearedContainer id c ∧ q = id := by
    rw [clears_append_iff, clears_singleton_iff]
  have hpurges {container q : Muid} : Purges (changes ++ [(id, .clearance c)]) container q
      ↔ Purges changes container q
        ∨ c.purge = true ∧ container = clearedContainer id c ∧ q = id := by
    rw [purges_append_iff, purges_singleton_iff]
  have hnotid {container : Muid} : ¬ Clears changes container id := by
    rintro ⟨x, hmem, -⟩
    exact hnew _ hmem rfl
  have hwritten : written (changes ++ [(id, .clearance c)]) = written changes := by
    rw [written_append]
    exact List.append_nil _
  refine {
    keeping := (keepingHistory_applyClearance id c ix).trans h.keeping
    mirrored := h.mirrored.applyClearance id c
    entries := fun p e => ?_
    removals := fun k r hr => ?_
    cleared := fun k x hx => ?_
    covered := fun container q hq => ?_ }
  · -- the new clearance takes away exactly what becomes purged through it
    have hpurged : Purged (changes ++ [(id, .clearance c)]) e
        ↔ Purged changes e ∨ Covers id c e.container e.placement := by
      constructor
      · rintro ⟨q, hq, hlt⟩
        rcases hpurges.mp hq with hq | ⟨hpurge, hcontainer, rfl⟩
        · exact .inl ⟨q, hq, hlt⟩
        · exact .inr ⟨hpurge, hcontainer, hlt⟩
      · rintro (⟨q, hq, hlt⟩ | ⟨hpurge, hcontainer, hlt⟩)
        · exact ⟨q, hpurges.mpr (.inl hq), hlt⟩
        · exact ⟨id, hpurges.mpr (.inr ⟨hpurge, hcontainer, rfl⟩), hlt⟩
    rw [get?_entries_applyClearance id c h.mirrored, Option.filter_eq_some_iff, h.entries p e,
      hwritten, hpurged, decide_eq_true_eq]
    constructor
    · rintro ⟨⟨hmem, rfl, hkept⟩, hcovers⟩
      exact ⟨hmem, rfl, fun h => h.elim hkept hcovers⟩
    · rintro ⟨hmem, rfl, hkept⟩
      exact ⟨⟨hmem, rfl, fun h => hkept (.inl h)⟩, fun h => hkept (.inr h)⟩
  · rw [get?_removals_applyClearance id c h.mirrored, Option.filter_eq_some_iff] at hr
    rw [hwritten]
    exact h.removals k r hr.1
  · rw [get?_clearances_applyClearance] at hx
    split at hx
    · rename_i hk
      cases hx
      rw [hk]
      exact ⟨hclears.mpr (.inr ⟨rfl, rfl⟩), fun hpurge => hpurges.mpr (.inr ⟨hpurge, rfl, rfl⟩)⟩
    · obtain ⟨hclear, hpurge⟩ := h.cleared k x (Option.filter_eq_some_iff.mp hx).1
      exact ⟨hclears.mpr (.inl hclear), fun hp => hpurges.mpr (.inl (hpurge hp))⟩
  · -- What was stored still is, unless the new clearance covers it and takes its place.
    have stored (q : Muid) (x : Clearance) (hx : ix.clearances.get? ⟨container, q⟩ = some x)
        (hq : Clears changes container q) :
        (ix.applyClearance id c).clearances.get? ⟨container, q⟩ = some x
        ∨ (ix.applyClearance id c).clearances.get? ⟨container, id⟩
            = some ⟨container, id, true⟩ ∧ q < id := by
      rw [get?_clearances_applyClearance, get?_clearances_applyClearance]
      by_cases hcovers : Covers id c container q
      · obtain ⟨hpurge, hcontainer, hlt⟩ := hcovers
        rw [hcontainer, if_pos rfl, hpurge]
        exact .inr ⟨rfl, hlt⟩
      · have hne : (⟨container, q⟩ : ClearanceKey) ≠ ⟨clearedContainer id c, id⟩ := by
          intro heq
          cases heq
          exact hnotid hq
        rw [if_neg hne, hx, Option.filter_some]
        simp [hcovers]
    -- an earlier clearance is covered as before or by the new one, and that one is stored
    rcases hclears.mp hq with hold | ⟨rfl, rfl⟩
    · have hsame : Purges (changes ++ [(id, .clearance c)]) container q
          → Purges changes container q := by
        intro hp
        rcases hpurges.mp hp with hp | ⟨-, -, rfl⟩
        · exact hp
        · exact absurd hold hnotid
      rcases h.covered container q hold with ⟨x, hx, hpurge⟩ | ⟨q', x, hx, hpurge, hlt⟩
      · rcases stored q x hx hold with hx' | ⟨hx', hlt⟩
        · exact .inl ⟨x, hx', fun hp => hpurge (hsame hp)⟩
        · exact .inr ⟨id, _, hx', rfl, hlt⟩
      · have hq' : Clears changes container q' := (h.cleared _ x hx).1
        rcases stored q' x hx hq' with hx' | ⟨hx', hlt'⟩
        · exact .inr ⟨q', x, hx', hpurge, hlt⟩
        · exact .inr ⟨id, _, hx', rfl, Muid.lt_trans hlt hlt'⟩
    · refine .inl ⟨⟨clearedContainer q c, q, c.purge⟩, ?_, fun hp => ?_⟩
      · rw [get?_clearances_applyClearance, if_pos rfl]
      · rcases hpurges.mp hp with hp | ⟨hpurge, -, -⟩
        · exact absurd hp.clears hnotid
        · exact hpurge

/-- **Every change other than a movement keeps the invariant**, whenever it arrives. -/
theorem applyChange (h : Reflects changes ix) {id : Muid} (hnew : ∀ x ∈ changes, x.1 ≠ id)
    {c : Change} (hc : ∀ m, c ≠ .movement m) :
    Reflects (changes ++ [(id, c)]) (ix.applyChange id c) := by
  cases c with
  | container behavior =>
      have hskip : Reflects (changes ++ [(id, .container behavior)]) ix :=
        h.skip (by simp) fun e he => by cases he
      exact ⟨hskip.keeping, hskip.mirrored.withTables _ _, hskip.entries, hskip.removals,
        hskip.cleared, hskip.covered⟩
  | entry c => exact h.applyEntry hnew c
  | movement m => exact absurd rfl (hc m)
  | clearance c => exact h.applyClearance hnew c

/-- After a run of changes the index reflects them, whatever their order. -/
theorem applyChanges (h : Reflects changes ix) {more : List (Muid × Change)}
    (hids : ((changes ++ more).map Prod.fst).Nodup)
    (hmore : ∀ x ∈ more, ∀ m, x.2 ≠ .movement m) :
    Reflects (changes ++ more) (ix.applyChanges more) := by
  -- on the changes still to come, with those that are reflected already growing
  induction more generalizing changes ix with
  | nil =>
      rw [List.append_nil]
      exact h
  | cons x rest ih =>
      obtain ⟨id, c⟩ := x
      have hsplit : changes ++ (id, c) :: rest = (changes ++ [(id, c)]) ++ rest := by simp
      rw [hsplit] at hids ⊢
      have hnew : ∀ y ∈ changes, y.1 ≠ id := by
        intro y hy
        have hfirst := (List.nodup_append.mp (by simpa using hids)).2.2
        exact fun heq => hfirst y.1 (List.mem_map_of_mem hy) id (by simp) heq
      exact ih (h.applyChange hnew (hmore (id, c) (by simp))) hids
        fun y hy => hmore y (by simp [hy])

end Reflects

end GossipStore.Index
