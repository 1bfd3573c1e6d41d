import GossipStore.Proofs.Index.Dropping
import GossipStore.Proofs.Index.Layers

set_option autoImplicit false

/-! # One place at a time

An entry that is moved keeps the places it has left as long as history is kept. Each of them but the
newest has been removed by the time of the next one, and the removal is recorded under the container
of the entry if movements name no other (`Undivided.left`). So a purge or a drop of history that
takes the removal takes the place as well, and without history the place goes at once. Whatever has
been added, dropped, and kept or not, at all times at most one place of an entry is left
(`one_place_at_a_time`).
-/

namespace GossipStore.Index

variable {ix : Index} {id : Muid} {changes : List (Muid × Change)} {entryId : Muid}
  {x y : Entry} {t : Timestamp}

/-! ## The invariant -/

/-- What an index has of the places of entries, with history or without: each place but the newest
has been removed by the time of the next one. -/
structure Undivided (changes : List (Muid × Change)) (ix : Index) : Prop where
  traced : Traced changes ix
  left : ∀ x y, ix.entries.get? x.placement = some x → ix.entries.get? y.placement = some y →
    x.entryId = y.entryId → x.placement < y.placement → ix.GoneBy x y.placement

namespace Undivided

theorem empty (keepingHistory : Bool) : Undivided [] (.empty keepingHistory) where
  traced := .empty keepingHistory
  left x y h := by cases h

/-- The current place of an entry is its newest. -/
theorem lt_of_current? (h : Undivided changes ix) (hcurrent : ix.current? entryId = some x)
    (hy : ix.entries.get? y.placement = some y) (hentry : y.entryId = entryId)
    (hne : y.placement ≠ x.placement) : y.placement < x.placement := by
  obtain ⟨hx, hxe, hkept, -⟩ := (current?_eq_some_iff h.traced.tidy.mirrored).mp hcurrent
  rcases Muid.lt_trichotomy y.placement x.placement with hlt | heq | hgt
  · exact hlt
  · exact absurd heq hne
  · have hgone : ix.GoneBy x y.placement := h.left x y hx hy (hxe.trans hentry.symm) hgt
    rw [hgone.isRemoved (Int64.le_maxValue _)] at hkept
    cases hkept

/-! ### Changes -/

theorem applyEntry (h : Undivided changes ix) (hnew : id ∉ changes.map Prod.fst)
    (c : EntryChange) : Undivided (changes ++ [(id, .entry c)]) (ix.applyEntry id c) := by
  have htraced := h.traced.applyEntry hnew c
  by_cases hpurged : ix.isPurged (entryOf id c).container id = true
  · rw [applyEntry_of_purged hpurged] at htraced ⊢
    exact ⟨htraced, h.left⟩
  refine ⟨htraced, fun x y hx hy hentry hlt => ?_⟩
  rcases of_get?_entries_applyEntry hx with rfl | hx'
  · rcases of_get?_entries_applyEntry hy with rfl | hy'
    · exact absurd hlt (Muid.lt_irrefl _)
    · exact absurd hentry.symm (h.traced.entryId_ne hnew hy')
  · rcases of_get?_entries_applyEntry hy with rfl | hy'
    · exact absurd hentry (h.traced.entryId_ne hnew hx')
    · rw [applyEntry_eq, if_neg hpurged]
      exact (h.left x y hx' hy' hentry hlt).mono (h.traced.removals_makeRoom hnew c)

theorem moveFrom (h : Undivided changes ix) (hnew : id ∉ changes.map Prod.fst)
    {m : MovementChange} (hhome : MovesAtHome (changes ++ [(id, .movement m)]))
    (hcurrent : ix.current? (movedEntry id m) = some x)
    (hkept : ix.isPurged x.container id = false)
    (hnewest : ∀ p ∈ ix.placementsOf (movedEntry id m), ¬ id < p) :
    Undivided (changes ++ [(id, .movement m)]) (ix.moveFrom id m x) := by
  have hm := h.traced.tidy.mirrored
  obtain ⟨hx, hentry, -, -⟩ := (current?_eq_some_iff hm).mp hcurrent
  have hxid : x.placement < id := h.traced.lt_of_newest hnew hx hentry hnewest
  have hremovals := h.traced.removals_moveFrom hnew m x
  refine ⟨h.traced.moveFrom hnew hcurrent hkept, fun y z hy hz hyz hlt => ?_⟩
  rcases of_get?_entries_moveFrom hy with rfl | ⟨hy', hykept⟩
  · -- the moved entry has no newer place
    rcases of_get?_entries_moveFrom hz with rfl | ⟨hz', -⟩
    · exact absurd hlt (Muid.lt_irrefl _)
    · exact absurd hlt (hnewest _ ((mem_placementsOf_iff hm).mpr
        ⟨z, hz', hyz.symm.trans hentry⟩))
  · rcases of_get?_entries_moveFrom hz with rfl | ⟨hz', -⟩
    · by_cases hp : y.placement = x.placement
      · -- the place it leaves is removed now
        obtain rfl : x = y := by
          rw [hp, hx] at hy'
          exact Option.some.inj hy'
        obtain ⟨f, hf, hplace⟩ := h.traced.origin x hx
        have hwithin : movedWithin id m x = x.container :=
          (hhome.movedWithin (moves_append hf (hentry.symm.trans hplace.entryId_eq))
            hplace).elim (fun heq => heq) fun heq => heq
        refine ⟨⟨x.placement, id⟩, ⟨x.placement, id, movedWithin id m x, m.dest, movedEntry id m⟩,
          ?_, rfl, hwithin, Muid.lt_irrefl id⟩
        rw [get?_removals_moveFrom, if_pos ⟨eq_false_of_ne_true fun hdrops =>
          hykept ⟨hdrops, rfl⟩, rfl⟩]
      · -- the older ones were removed before
        have hyx := h.lt_of_current? hcurrent hy' (hyz.trans hentry) hp
        exact ((h.left y x hy' hx hyz hyx).later hxid).mono hremovals
    · exact (h.left y z hy' hz' hyz hlt).mono hremovals

theorem applyMovement (h : Undivided changes ix) (hnew : id ∉ changes.map Prod.fst)
    {m : MovementChange} (hhome : MovesAtHome (changes ++ [(id, .movement m)])) :
    Undivided (changes ++ [(id, .movement m)]) (ix.applyMovement id m) := by
  have htraced := h.traced.applyMovement hnew m
  rcases applyMovement_eq_or ix id m with hsame | ⟨x, hcurrent, hkept, hnewest, hmoves⟩
  · rw [hsame] at htraced ⊢
    exact ⟨htraced, h.left⟩
  · rw [hmoves]
    exact h.moveFrom hnew hhome hcurrent hkept hnewest

theorem applyClearance (h : Undivided changes ix) (id : Muid) (c : ClearanceChange) :
    Undivided (changes ++ [(id, .clearance c)]) (ix.applyClearance id c) where
  traced := h.traced.applyClearance id c
  left x y hx hy hentry hlt := by
    have hm := h.traced.tidy.mirrored
    rw [get?_entries_applyClearance id c hm, Option.filter_eq_some_iff, decide_eq_true_eq] at hx hy
    exact (h.left x y hx.1 hy.1 hentry hlt).applyClearance hm hx.2

/-- **Every change keeps the invariant** if its address is new and it moves its entry at home. -/
theorem applyChange (h : Undivided changes ix) (hnew : id ∉ changes.map Prod.fst) {c : Change}
    (hhome : MovesAtHome (changes ++ [(id, c)])) :
    Undivided (changes ++ [(id, c)]) (ix.applyChange id c) := by
  cases c with
  | container behavior => exact ⟨h.traced.applyChange hnew _, h.left⟩
  | entry c => exact h.applyEntry hnew c
  | movement m => exact h.applyMovement hnew hhome
  | clearance c => exact h.applyClearance id c

/-! ### History -/

/-- The history that is dropped has the places together with their removals. -/
theorem dropHistoryUpTo (h : Undivided changes ix) (filter : Option Muid) (cut : Timestamp) :
    Undivided changes (ix.dropHistoryUpTo filter cut).1 where
  traced := h.traced.dropHistoryUpTo filter cut
  left x y hx hy hentry hlt := by
    have hm := h.traced.tidy.mirrored
    obtain ⟨hx, hkept⟩ := (get?_entries_dropHistoryUpTo_eq_some_iff hm).mp hx
    obtain ⟨hy, -⟩ := (get?_entries_dropHistoryUpTo_eq_some_iff hm).mp hy
    obtain ⟨k, r, hr, hk, hrest⟩ := h.left x y hx hy hentry hlt
    have hrkept : ¬ ix.DropsRemoval filter cut k := fun hdrops => hkept ⟨k, hdrops, hk⟩
    exact ⟨k, r, (get?_removals_dropHistoryUpTo_eq_some_iff hm).mpr ⟨hr, hrkept⟩, hk, hrest⟩

theorem withHistory (h : Undivided changes ix) (keepingHistory : Bool) :
    Undivided changes { ix with keepingHistory } :=
  ⟨h.traced.withHistory keepingHistory, h.left⟩

theorem withRecords (h : Undivided changes ix) (chains : SortedMap ChainKey BundleInfo)
    (bundles : SortedMap BundleKey Bundle) (claims : List ClaimedChain) :
    Undivided changes (ix.withRecords chains bundles claims) :=
  ⟨h.traced.withRecords chains bundles claims, h.left⟩

end Undivided

/-- **All calls keep the places of an entry apart**, as long as entries are moved at home. -/
theorem upheld_undivided : Upheld fun changes ix => MovesAtHome changes → Undivided changes ix where
  applyChange h hids hhome :=
    (h (hhome.mono (List.sublist_append_left _ _))).applyChange (not_mem_of_nodup hids) hhome
  dropHistoryUpTo h container t hhome := (h hhome).dropHistoryUpTo container t
  withHistory h keepingHistory hhome := (h hhome).withHistory keepingHistory
  withRecords h chains bundles claims hhome := (h hhome).withRecords chains bundles claims

/-- After some bundles have been offered, too. -/
theorem undivided_offerAll {keepingHistory : Bool} {arrivals : List Bundle}
    (hids : ((applied keepingHistory arrivals).map Prod.fst).Nodup)
    (hhome : MovesAtHome (applied keepingHistory arrivals)) :
    Undivided (applied keepingHistory arrivals) ((empty keepingHistory).offerAll arrivals).1 :=
  upheld_undivided.offerAll (fun _ => .empty keepingHistory) hids hhome

/-! ## The place of an entry -/

namespace Undivided

variable (h : Undivided changes ix)
include h

/-- Of two places of an entry one has been removed. -/
theorem exists_removal (hx : ix.entries.get? x.placement = some x)
    (hy : ix.entries.get? y.placement = some y) (hentry : x.entryId = y.entryId)
    (hne : x.placement ≠ y.placement) :
    ∃ k ∈ ix.removals.keys, k.removing = x.placement ∨ k.removing = y.placement := by
  rcases Muid.lt_trichotomy x.placement y.placement with hlt | heq | hgt
  · obtain ⟨k, r, hr, hk, -⟩ := h.left x y hx hy hentry hlt
    exact ⟨k, SortedMap.mem_keys_iff.mpr ⟨r, hr⟩, .inl hk⟩
  · exact absurd heq hne
  · obtain ⟨k, r, hr, hk, -⟩ := h.left y x hy hx hentry.symm hgt
    exact ⟨k, SortedMap.mem_keys_iff.mpr ⟨r, hr⟩, .inr hk⟩

/-- An older place does not stand where the newer one has been placed. -/
theorem not_lt_of_standsAt (hx : ix.StandsAt t x) (hy : ix.StandsAt t y)
    (hentry : x.entryId = y.entryId) : ¬ x.placement < y.placement := by
  intro hlt
  have hm := h.traced.tidy.mirrored
  obtain ⟨hxs, hlive⟩ := hm.standsAt_iff.mp hx
  have hgone := h.left x y hxs (hm.standsAt_iff.mp hy).1 hentry hlt
  have hremoved : ix.isRemoved x.placement t = true := hgone.isRemoved hy.placedAt_le
  rw [(isLive_iff.mp hlive).2.2] at hremoved
  cases hremoved

/-- **At all times an entry stands in one place at most.** -/
theorem eq_of_standsAt (hx : ix.StandsAt t x) (hy : ix.StandsAt t y)
    (hentry : x.entryId = y.entryId) : x = y := by
  have hm := h.traced.tidy.mirrored
  have hplacement : x.placement = y.placement := by
    rcases Muid.lt_trichotomy x.placement y.placement with hlt | heq | hgt
    · exact absurd hlt (h.not_lt_of_standsAt hx hy hentry)
    · exact heq
    · exact absurd hgt (h.not_lt_of_standsAt hy hx hentry.symm)
  have hxs := (hm.standsAt_iff.mp hx).1
  rw [hplacement, (hm.standsAt_iff.mp hy).1] at hxs
  exact (Option.some.inj hxs).symm

/-- Of an entry the newest place stands if any does. -/
theorem topStands (hids : (changes.map Prod.fst).Nodup) (entryId : Muid) :
    ix.TopStands t (·.entryId = entryId) := by
  refine topStands_of_removed h.traced.tidy.mirrored
    (fun x y hx hy hxe hye => h.traced.container_eq hids hx hy (hxe.trans hye.symm)) ?_
  intro x y hx hy hxe hye hlt hle _ _
  exact (h.left x y hx hy (hxe.trans hye.symm) hlt).isRemoved hle

/-- The newest place of an entry is the one that stands. -/
theorem tops_iff (hids : (changes.map Prod.fst).Nodup) :
    ix.Tops t (·.entryId = entryId) x ↔ x.entryId = entryId ∧ ix.StandsAt t x := by
  rw [(h.topStands hids entryId).tops_iff h.traced.tidy.mirrored]
  constructor
  · exact fun hleads => ⟨hleads.ofKind, hleads.stands⟩
  · exact fun ⟨hentry, hstands⟩ => ⟨hstands, hentry, fun y hy hye hlt =>
      h.not_lt_of_standsAt hstands hy (hentry.trans hye.symm) hlt⟩

/-- No entry comes twice in an ordered container. -/
theorem nodup_positionalEntries (container : Muid) :
    ((ix.positionalEntries container t).map (·.entryId)).Nodup := by
  have hm := h.traced.tidy.mirrored
  have hstands {x : Entry} (hx : x ∈ ix.positionalEntries container t) : ix.StandsAt t x := by
    obtain ⟨-, -, hxs, hvisible⟩ := (mem_positionalEntries_iff_get? hm).mp hx
    exact hm.standsAt_iff.mpr ⟨hxs, (Bool.and_eq_true_iff.mp hvisible).2⟩
  refine List.pairwise_map.mpr ((pairwise_positionalEntries hm container t).imp_of_mem ?_)
  intro x y hx hy hbefore hentry
  obtain rfl : x = y := h.eq_of_standsAt (hstands hx) (hstands hy) hentry
  exact not_standsBefore_self x hbefore

end Undivided

theorem nodup_limited {α : Type} {l : List α} (h : l.Nodup) (limit : Option Int64) :
    (limited limit l).Nodup := by
  unfold limited
  cases limit with
  | none => exact h
  | some n =>
      dsimp only
      split
      · exact h.sublist (List.take_sublist _ _)
      · exact (List.nodup_reverse.mpr h).sublist (List.take_sublist _ _)

theorem map_limited {α β : Type} (f : α → β) (limit : Option Int64) (l : List α) :
    (limited limit l).map f = limited limit (l.map f) := by
  unfold limited
  cases limit with
  | none => rfl
  | some n =>
      dsimp only
      split
      · exact List.map_take
      · rw [List.map_take, List.map_reverse]

/-- **An entry is never in two places at once.** Add bundles to an index in any order, drop history,
and stop or start keeping it, such that the accepted bundles have distinct times or owners and no
more changes than there are offsets, and movements name no container or that of their entry. Then
at most one of the places stored of an entry has no removal. At every moment at most one of them is
live, a list has no entry twice, and what is found of an entry is its live place, or nothing if
there is none. -/
theorem one_place_at_a_time (keepingHistory : Bool) (calls : List Call)
    (hkeys : ((empty keepingHistory).carryOutAll calls).2.Pairwise fun a b => a.key ≠ b.key)
    (hsize : ∀ b ∈ ((empty keepingHistory).carryOutAll calls).2,
      b.changes.length ≤ 0x100000000)
    (hhome : MovesAtHome
      (((empty keepingHistory).carryOutAll calls).2.flatMap Bundle.changesWithIds)) :
    let ix := ((empty keepingHistory).carryOutAll calls).1
    (∀ p q x y, ix.entries.get? p = some x → ix.entries.get? q = some y → x.entryId = y.entryId →
        (∀ k ∈ ix.removals.keys, k.removing ≠ p ∧ k.removing ≠ q) → p = q)
      ∧ ∀ asOf t, ix.resolveAsOf asOf = .ok t →
        (∀ x y, ix.StandsAt t x → ix.StandsAt t y → x.entryId = y.entryId → x = y)
          ∧ (∀ container limit, ∃ entries, ix.orderedEntries container limit asOf = .ok entries
            ∧ (entries.map (·.entryId)).Nodup)
          ∧ ∀ entryId, ∃ found, ix.entryById entryId asOf = .ok found
            ∧ ∀ x, found = some x ↔ x.entryId = entryId ∧ ix.StandsAt t x := by
  intro ix
  have hids : ((((empty keepingHistory).carryOutAll calls).2.flatMap Bundle.changesWithIds).map
      Prod.fst).Nodup := nodup_flatMap_changesWithIds (hkeys.imp Bundle.key_ne_iff.mp) hsize
  have h : Undivided (((empty keepingHistory).carryOutAll calls).2.flatMap Bundle.changesWithIds)
      ix := upheld_undivided.carryOutAll (fun _ => .empty keepingHistory) hids hhome
  have hm : Mirrored ix := h.traced.tidy.mirrored
  refine ⟨fun p q x y hx hy hentry hkept => ?_, fun asOf t hasOf => ⟨fun x y => h.eq_of_standsAt,
    fun container limit => ?_, fun entryId => ?_⟩⟩
  · obtain rfl : x.placement = p := hm.placed p x hx
    obtain rfl : y.placement = q := hm.placed q y hy
    by_contra hne
    obtain ⟨k, hk, hremoving | hremoving⟩ := h.exists_removal hx hy hentry hne
    · exact (hkept k hk).1 hremoving
    · exact (hkept k hk).2 hremoving
  · refine ⟨limited limit (ix.positionalEntries container t), ?_, ?_⟩
    · rw [orderedEntries, hasOf]
      rfl
    · rw [map_limited]
      exact nodup_limited (h.nodup_positionalEntries container) limit
  · obtain ⟨found, hfound, hiff⟩ := exists_entryById_eq hm hasOf entryId
    exact ⟨found, hfound, fun x => (hiff x).trans (h.tops_iff hids)⟩

/-- A sequence in which entries are moved with history and without, one of them too late and one of
them away, beside a key that is written twice and then purged. -/
theorem one_place_at_a_time_everyCall :
    let sequence : Muid := ⟨-1, -1, 2⟩
    let directory : Muid := ⟨-1, -1, 4⟩
    let write (value : UInt8) : Change := .setKey directory (.text "k") [value]
    let first := Bundle.ofValid ⟨10, 1, 10, none, none⟩
      [.push sequence [1], .push sequence [2], write 3] rfl (by decide) (by decide)
    let second := Bundle.ofValid ⟨20, 2, 20, none, none⟩
      [.moveEntry sequence ⟨10, 1, 1⟩ 5, .moveEntry sequence ⟨10, 1, 2⟩ 6, write 4] rfl (by decide)
      (by decide)
    let third := Bundle.ofValid ⟨30, 3, 30, none, none⟩
      [.moveEntry sequence ⟨10, 1, 1⟩ 7, .push sequence [8]] rfl (by decide) (by decide)
    let fourth := Bundle.ofValid ⟨36, 4, 36, none, none⟩ [.moveEntry sequence ⟨30, 3, 2⟩ 2] rfl
      (by decide) (by decide)
    let fifth := Bundle.ofValid ⟨40, 5, 40, none, none⟩
      [.moveEntry sequence ⟨30, 3, 2⟩ 9, .clear directory true] rfl (by decide) (by decide)
    let late := Bundle.ofValid ⟨35, 6, 35, none, none⟩
      [.moveEntry sequence ⟨30, 3, 2⟩ 1, .removeEntry sequence ⟨10, 1, 1⟩ true] rfl (by decide)
      (by decide)
    let calls := [.add first, .add second, .dropHistory (some directory) .latest, .add third,
      .stopHistory, .add fourth, .startHistory, .add fifth, .add late]
    let ran := (empty true).carryOutAll calls
    ran.2 = [first, second, third, fourth, fifth, late] ∧ ran.1.entryCount = 3
      ∧ (∀ x y, ran.1.StandsAt 38 x → ran.1.StandsAt 38 y → x.entryId = y.entryId → x = y)
      ∧ ∃ entries, ran.1.orderedEntries sequence none .latest = .ok entries
        ∧ (entries.map (·.entryId)).Nodup := by
  intro sequence directory write first second third fourth fifth late calls ran
  have haccepted : ran.2 = [first, second, third, fourth, fifth, late] := by decide +kernel
  obtain ⟨-, hone⟩ := one_place_at_a_time true calls (by rw [haccepted]; decide +kernel)
    (by rw [haccepted]; decide +kernel)
    (by rw [haccepted]; exact names_of_forall (by decide +kernel))
  exact ⟨haccepted, by decide +kernel, (hone (.time 38) 38 rfl).1,
    (hone .latest Int64.maxValue rfl).2.1 sequence none⟩

end GossipStore.Index
