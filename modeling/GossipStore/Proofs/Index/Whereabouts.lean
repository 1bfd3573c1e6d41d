import GossipStore.Proofs.Index.Settling

set_option autoImplicit false

/-! # Where an entry is

In an index that keeps history an entry is at the newest of its places, unless it has been removed
from there (`Located`). Then all its other places have been left, so a movement takes it from where
it is or has no effect. That is what settles its place (`Located.applyMovement`), and nothing shows
of it but the entry (`Located.showAlikeBut`).
-/

namespace GossipStore.Index

/-! ## The place of an entry in an index -/

/-- Where an entry is in a history-keeping index: at its newest place, or nowhere if it has been
removed from there. -/
structure Located (ix : Index) (entryId : Muid) (place : Option Entry) : Prop where
  keeping : ix.keepingHistory = true
  mirrored : Mirrored ix
  here : ∀ x, place = some x → ix.entries.get? x.placement = some x ∧ x.entryId = entryId
    ∧ ix.isLive x Int64.maxValue = true
  left : ∀ p y, ix.entries.get? p = some y → y.entryId = entryId → place ≠ some y →
    ix.isRemoved p Int64.maxValue = true ∧ ∀ x, place = some x → p < x.placement

/-- Whether an index has stored nothing under an address. -/
def Unused (ix : Index) (id : Muid) : Prop :=
  ix.entries.get? id = none
    ∧ ∀ k r, ix.removals.get? k = some r → k.removing ≠ id ∧ k.removalId ≠ id

/-- Whether two indexes show the same of all entries but one. -/
def ShowAlikeBut (ix ix' : Index) (entryId : Muid) : Prop :=
  ∀ y, y.entryId ≠ entryId →
    (ix'.entries.get? y.placement = some y ∧ ix'.isVisible y Int64.maxValue = true
      ↔ ix.entries.get? y.placement = some y ∧ ix.isVisible y Int64.maxValue = true)

section Located

variable {ix : Index} {entryId id : Muid} {place : Option Entry} {m : MovementChange} {x : Entry}

theorem Located.isRemoved (h : Located ix entryId (some x)) :
    ix.isRemoved x.placement Int64.maxValue = false := by
  have hlive := (h.here x rfl).2.2
  rw [isLive, Bool.and_eq_true, Bool.not_eq_true'] at hlive
  exact hlive.2

theorem Located.not_cleared (h : Located ix entryId (some x)) {k : ClearanceKey} {c : Clearance}
    (hc : ix.clearances.get? k = some c) (hcontainer : k.container = x.container) :
    ¬ x.placement < k.clearanceId := by
  intro hlt
  have hlive := (h.here x rfl).2.2
  have hcleared : ix.isCleared x Int64.maxValue = true :=
    isCleared_iff_exists.mpr ⟨k, c, hc, hcontainer, Int64.le_maxValue _, hlt⟩
  simp [isLive, hcleared] at hlive

/-- An entry has no place newer than the one where it is. -/
theorem Located.newest (h : Located ix entryId (some x)) {p : Muid}
    (hp : p ∈ ix.placementsOf entryId) : p = x.placement ∨ p < x.placement := by
  obtain ⟨y, hy, hid⟩ := (mem_placementsOf_iff h.mirrored).mp hp
  by_cases hsame : x = y
  · exact .inl (hsame ▸ (h.mirrored.placed p y hy).symm)
  · exact .inr ((h.left p y hy hid fun heq => hsame (Option.some.inj heq)).2 x rfl)

/-- An entry is taken from where it is. -/
theorem Located.current?_eq (h : Located ix entryId place) : ix.current? entryId = place := by
  cases place with
  | none =>
      refine current?_eq_none fun p hp => ?_
      obtain ⟨y, hy, hid⟩ := (mem_placementsOf_iff h.mirrored).mp hp
      exact (h.left p y hy hid (by simp)).1
  | some x =>
      obtain ⟨hx, hid, -⟩ := h.here x rfl
      exact (current?_eq_some_iff h.mirrored).mpr ⟨hx, hid, h.isRemoved, fun p hp _ => h.newest hp⟩

theorem Located.exists_newer_iff (h : Located ix entryId (some x)) :
    (∃ p ∈ ix.placementsOf entryId, id < p) ↔ id < x.placement := by
  obtain ⟨hx, hid, -⟩ := h.here x rfl
  constructor
  · rintro ⟨p, hp, hlt⟩
    rcases h.newest hp with rfl | hpx
    · exact hlt
    · exact Muid.lt_trans hlt hpx
  · exact fun hlt => ⟨x.placement, (mem_placementsOf_iff h.mirrored).mpr ⟨x, hx, hid⟩, hlt⟩

/-- No purge is newer than a movement that is newer than the place of its entry. -/
theorem Located.isPurged (h : Located ix entryId (some x)) (hlt : x.placement < id) :
    ix.isPurged x.container id = false := by
  rw [← Bool.not_eq_true, Index.isPurged, List.any_eq_true]
  rintro ⟨⟨k, c⟩, hmem, hc⟩
  simp only [Bool.and_eq_true, decide_eq_true_eq] at hc
  exact h.not_cleared (SortedMap.mem_toList_iff.mp hmem) hc.1.1 (Muid.lt_trans hlt hc.1.2)

/-- An entry is found by its identity where it is. -/
theorem Located.entryById (h : Located ix entryId place) :
    ix.entryById entryId .latest = .ok place := by
  rw [entryById_of_moment ix (.inr ⟨rfl, rfl⟩)]
  congr 1
  ext x
  rw [Option.filter_eq_some_iff, newestUpTo?_eq_some_iff h.mirrored
    (pairwise_placementsOf ix entryId)]
  constructor
  · rintro ⟨⟨hx, hplaced, -⟩, hlive⟩
    obtain ⟨y, hy, hid⟩ := (mem_placementsOf_iff h.mirrored).mp hplaced
    obtain rfl : x = y := Option.some.inj (hx.symm.trans hy)
    -- an entry that is live has not been removed
    refine Classical.byContradiction fun hne => ?_
    have hremoved := (h.left x.placement x hx hid hne).1
    simp [isLive, hremoved] at hlive
  · rintro rfl
    obtain ⟨hx, hid, hlive⟩ := h.here x rfl
    exact ⟨⟨hx, (mem_placementsOf_iff h.mirrored).mpr ⟨x, hx, hid⟩, Int64.le_maxValue _,
      fun p hp _ => h.newest hp⟩, hlive⟩

/-! ### Steps -/

theorem isRemoved_moveFrom (hdrops : ix.dropsPlace m = false) (p : Muid) :
    (ix.moveFrom id m x).isRemoved p Int64.maxValue = true
      ↔ p = x.placement ∨ ix.isRemoved p Int64.maxValue = true := by
  simp only [isRemoved_latest_iff, get?_removals_moveFrom, hdrops, true_and]
  constructor
  · rintro ⟨k, r, hr, rfl⟩
    split at hr
    · rename_i hk
      exact .inl (congrArg RemovalKey.removing hk)
    · exact .inr ⟨k, r, hr, rfl⟩
  · rintro (rfl | ⟨k, r, hr, rfl⟩)
    · exact ⟨⟨x.placement, id⟩, _, if_pos rfl, rfl⟩
    · by_cases hk : k = ⟨x.placement, id⟩
      · exact ⟨k, _, if_pos hk, rfl⟩
      · exact ⟨k, r, by rw [if_neg hk, hr], rfl⟩

theorem isCleared_moveFrom (ix : Index) (id : Muid) (m : MovementChange) (x y : Entry)
    (t : Timestamp) : (ix.moveFrom id m x).isCleared y t = ix.isCleared y t := by
  rw [isCleared, isCleared, clearanceBefore?, clearanceBefore?, (moveFrom_frame id m x ix).2]

/-- An address under which nothing is stored is no place of an entry. -/
theorem Unused.ne_placement (hunused : ix.Unused id) {p : Muid} {y : Entry}
    (hy : ix.entries.get? p = some y) : p ≠ id := by
  rintro rfl
  rw [hunused.1] at hy
  cases hy

theorem Unused.isRemoved (hunused : ix.Unused id) : ix.isRemoved id Int64.maxValue = false := by
  rw [← Bool.not_eq_true, isRemoved_latest_iff]
  rintro ⟨k, r, hr, hk⟩
  exact (hunused.2 k r hr).1 hk

/-- A movement that is newer than the place of its entry takes it to the new position or away. -/
theorem Located.moveFrom (h : Located ix entryId (some x)) (hunused : ix.Unused id)
    (hpurge : m.purge = false) (hlt : x.placement < id) :
    Located (ix.moveFrom id m x) entryId
      (if m.dest = 0 then none else some (x.movedTo id m.dest)) := by
  obtain ⟨hx, hxid, -⟩ := h.here x rfl
  have hdrops : ix.dropsPlace m = false := by simp [dropsPlace, hpurge, h.keeping]
  have hget (p : Muid) : (ix.moveFrom id m x).entries.get? p
      = if m.dest ≠ 0 ∧ p = id then some (x.movedTo id m.dest) else ix.entries.get? p := by
    rw [get?_entries_moveFrom, hdrops, if_neg]
    simp
  have hremoval : ix.removals.get? ⟨x.placement, id⟩ = none :=
    Option.eq_none_iff_forall_ne_some.mpr fun r hr => (hunused.2 _ r hr).2 rfl
  refine {
    keeping := (moveFrom_frame id m x ix).1.trans h.keeping
    mirrored := h.mirrored.moveFrom id m x hunused.1 hremoval
    here := fun y hy => ?_
    left := fun p y hy hid hne => ?_ }
  · split at hy
    · cases hy
    · rename_i hdest
      obtain rfl : x.movedTo id m.dest = y := Option.some.inj hy
      have hkept : (ix.moveFrom id m x).isRemoved id Int64.maxValue = false := by
        rw [← Bool.not_eq_true, isRemoved_moveFrom hdrops, hunused.isRemoved]
        simpa using (hunused.ne_placement hx).symm
      -- a clearance above the new place would have been above the old one
      have hcleared : ix.isCleared (x.movedTo id m.dest) Int64.maxValue = false := by
        rw [← Bool.not_eq_true, isCleared_iff_exists]
        rintro ⟨k, c, hc, hcontainer, -, hidk⟩
        exact h.not_cleared hc hcontainer (Muid.lt_trans hlt hidk)
      refine ⟨?_, hxid, ?_⟩
      · rw [hget, if_pos ⟨hdest, rfl⟩]
      · have hplaced : (x.movedTo id m.dest).placedAt ≤ Int64.maxValue := Int64.le_maxValue _
        rw [isLive, isCleared_moveFrom, hcleared,
          show (x.movedTo id m.dest).placement = id from rfl, hkept, decide_eq_true hplaced]
        rfl
  · rw [hget] at hy
    split at hy
    · rename_i hmoved
      rw [if_neg hmoved.1] at hne
      exact absurd hy hne
    · have hold : (ix.moveFrom id m x).isRemoved p Int64.maxValue = true ∧ p < id := by
        rw [isRemoved_moveFrom hdrops]
        by_cases hsame : x = y
        · have hp : p = x.placement := hsame ▸ (h.mirrored.placed p y hy).symm
          exact ⟨.inl hp, hp ▸ hlt⟩
        · obtain ⟨hremoved, hpx⟩ := h.left p y hy hid fun heq => hsame (Option.some.inj heq)
          exact ⟨.inr hremoved, Muid.lt_trans (hpx x rfl) hlt⟩
      refine ⟨hold.1, fun z hz => ?_⟩
      split at hz
      · cases hz
      · obtain rfl : x.movedTo id m.dest = z := Option.some.inj hz
        exact hold.2

theorem Located.applyMovement_of_none (h : Located ix entryId none)
    (hentry : movedEntry id m = entryId) : ix.applyMovement id m = ix := by
  have hcurrent : ix.current? (movedEntry id m) = none := hentry ▸ h.current?_eq
  exact Index.applyMovement_of_none hcurrent

theorem Located.applyMovement_of_lt (h : Located ix entryId (some x))
    (hentry : movedEntry id m = entryId) (hold : id < x.placement) :
    ix.applyMovement id m = ix := by
  have hnewer : ∃ p ∈ ix.placementsOf entryId, id < p := h.exists_newer_iff.mpr hold
  rw [applyMovement_eq, hentry, if_pos hnewer]

theorem Located.applyMovement_of_gt (h : Located ix entryId (some x))
    (hentry : movedEntry id m = entryId) (hlt : x.placement < id) :
    ix.applyMovement id m = ix.moveFrom id m x := by
  have hnotnewer : ¬ ∃ p ∈ ix.placementsOf entryId, id < p := fun hnewer =>
    Muid.lt_asymm hlt (h.exists_newer_iff.mp hnewer)
  have hpurged : ¬ ix.isPurged x.container id = true := by simp [h.isPurged hlt]
  rw [applyMovement_eq, hentry, if_neg hnotnewer, h.current?_eq]
  exact if_neg hpurged

/-- **A movement takes the place of its entry** as it is settled. -/
theorem Located.applyMovement (h : Located ix entryId place) (hunused : ix.Unused id)
    (hpurge : m.purge = false) (hentry : movedEntry id m = entryId) :
    Located (ix.applyMovement id m) entryId ((⟨id, m.dest⟩ : Move).take place) := by
  cases place with
  | none =>
      rw [h.applyMovement_of_none hentry]
      exact h
  | some x =>
      have hne : x.placement ≠ id := hunused.ne_placement (h.here x rfl).1
      by_cases hold : id < x.placement
      · have htake : (⟨id, m.dest⟩ : Move).take (some x) = some x := if_pos hold
        rw [h.applyMovement_of_lt hentry hold, htake]
        exact h
      · have hlt : x.placement < id := Muid.lt_of_not_lt_of_ne hold hne
        have htake : (⟨id, m.dest⟩ : Move).take (some x)
            = if m.dest = 0 then none else some (x.movedTo id m.dest) := if_neg hold
        rw [h.applyMovement_of_gt hentry hlt, htake]
        exact h.moveFrom hunused hpurge hlt

/-- A movement from a place shows in nothing but its entry. -/
theorem Located.showAlikeBut_moveFrom (h : Located ix entryId (some x)) (hunused : ix.Unused id)
    (hpurge : m.purge = false) : ix.ShowAlikeBut (ix.moveFrom id m x) entryId := by
  obtain ⟨hx, hxid, -⟩ := h.here x rfl
  have hdrops : ix.dropsPlace m = false := by simp [dropsPlace, hpurge, h.keeping]
  intro y hy
  have hstored : (ix.moveFrom id m x).entries.get? y.placement = some y
      ↔ ix.entries.get? y.placement = some y := by
    rw [get?_entries_moveFrom, hdrops, if_neg (by simp)]
    split
    · rename_i hmoved
      -- the new place is that of the moved entry, and nothing was there before
      rw [hmoved.2, hunused.1]
      refine iff_of_false (fun heq => ?_) (by simp)
      exact hy ((congrArg Entry.entryId (Option.some.inj heq)).symm.trans hxid)
    · exact Iff.rfl
  rw [hstored]
  refine and_congr_right fun hyx => ?_
  have hne : y.placement ≠ x.placement := by
    intro heq
    rw [heq, hx] at hyx
    exact hy (Option.some.inj hyx ▸ hxid)
  have hremoved : (ix.moveFrom id m x).isRemoved y.placement Int64.maxValue
      = ix.isRemoved y.placement Int64.maxValue := by
    rw [Bool.eq_iff_iff, isRemoved_moveFrom hdrops]
    exact or_iff_right hne
  rw [isVisible, isVisible, isLive, isLive, isCleared_moveFrom, hremoved]

theorem Located.showAlikeBut (h : Located ix entryId place) (hunused : ix.Unused id)
    (hpurge : m.purge = false) (hentry : movedEntry id m = entryId) :
    ix.ShowAlikeBut (ix.applyMovement id m) entryId := by
  cases place with
  | none =>
      rw [h.applyMovement_of_none hentry]
      exact fun y _ => Iff.rfl
  | some x =>
      have hne : x.placement ≠ id := hunused.ne_placement (h.here x rfl).1
      by_cases hold : id < x.placement
      · rw [h.applyMovement_of_lt hentry hold]
        exact fun y _ => Iff.rfl
      · rw [h.applyMovement_of_gt hentry (Muid.lt_of_not_lt_of_ne hold hne)]
        exact h.showAlikeBut_moveFrom hunused hpurge

/-- A movement uses no address but its own. -/
theorem Unused.applyMovement (hm : Mirrored ix) {other : Muid} (hother : ix.Unused other)
    (hne : other ≠ id) (m : MovementChange) : (ix.applyMovement id m).Unused other := by
  rw [applyMovement_eq]
  split
  · exact hother
  · split
    · exact hother
    · rename_i x hcurrent
      split
      · exact hother
      · have hx : ix.entries.get? x.placement = some x := ((current?_eq_some_iff hm).mp hcurrent).1
        refine ⟨?_, fun k r hr => ?_⟩
        · rw [get?_entries_moveFrom, if_neg fun h => hother.ne_placement hx h.2.symm,
            if_neg fun h => hne h.2, hother.1]
        · rw [get?_removals_moveFrom] at hr
          split at hr
          · rename_i hk
            rw [hk.2]
            exact ⟨hother.ne_placement hx, hne.symm⟩
          · exact hother.2 k r hr

end Located

end GossipStore.Index
