import GossipStore.Proofs.Index.Dropping
import GossipStore.Proofs.Index.Reasons

set_option autoImplicit false

/-! # Containers apart

A clearance of a container drops entries and removals of that container only, and so does dropping
its history. But a removal is recorded under the container that its movement names. So whether
other containers are spared is decided by the movements: they are if no movement of one of their
entries names the container that is cleared or whose history is dropped
(`containers_apart`), and a single movement that does brings a removed entry back
(`containers_apart_foreignMovement`).
-/

namespace GossipStore.Index

variable {ix ix' : Index} {container other : Muid} {t : Timestamp} {asOf : AsOf}

/-! ## Answers about a container -/

/-- Two indexes answer all questions about a container alike, and those about entries and vertices
as far as entries of the container are concerned. -/
structure AlikeWithin (container : Muid) (asOf : AsOf) (ix ix' : Index) : Prop where
  byKey : ∀ key, ix.entryByKey container key asOf = ix'.entryByKey container key asOf
  keyed : ix.keyedEntries container asOf = ix'.keyedEntries container asOf
  ordered : ∀ limit, ix.orderedEntries container limit asOf
    = ix'.orderedEntries container limit asOf
  byId : ∀ entryId, (ix.entryById entryId asOf).map (Option.filter (·.container = container))
    = (ix'.entryById entryId asOf).map (Option.filter (·.container = container))
  touching : ∀ vertex side,
    (ix.entriesTouching vertex side asOf).map (List.filter (·.container = container))
      = (ix'.entriesTouching vertex side asOf).map (List.filter (·.container = container))

/-- Whether two indexes have the same entries of a container, with the same removals, and the same
clearances of it. -/
structure SameWithin (container : Muid) (ix ix' : Index) : Prop where
  entries : ∀ x, x.container = container →
    (ix'.entries.get? x.placement = some x ↔ ix.entries.get? x.placement = some x)
  removals : ∀ x k, ix.entries.get? x.placement = some x → x.container = container →
    k.removing = x.placement → ix'.removals.get? k = ix.removals.get? k
  clearances : ∀ k, k.container = container → ix'.clearances.get? k = ix.clearances.get? k

namespace SameWithin

variable (h : SameWithin container ix ix') (hm : Mirrored ix) (hm' : Mirrored ix')
include h

theorem isLive_eq {x : Entry} (hx : ix.entries.get? x.placement = some x)
    (hcontainer : x.container = container) : ix.isLive x t = ix'.isLive x t := by
  have hcleared : ix.isCleared x t = ix'.isCleared x t := by
    rw [Bool.eq_iff_iff, isCleared_iff_exists, isCleared_iff_exists]
    refine exists_congr fun k => exists_congr fun y => ?_
    constructor
    · rintro ⟨hy, hk, hrest⟩
      exact ⟨(h.clearances k (hk.trans hcontainer)).trans hy, hk, hrest⟩
    · rintro ⟨hy, hk, hrest⟩
      exact ⟨(h.clearances k (hk.trans hcontainer)).symm.trans hy, hk, hrest⟩
  have hremoved : ix.isRemoved x.placement t = ix'.isRemoved x.placement t := by
    rw [Bool.eq_iff_iff, isRemoved_iff, isRemoved_iff]
    refine exists_congr fun k => exists_congr fun r => ?_
    constructor
    · rintro ⟨hr, hk, hrest⟩
      exact ⟨(h.removals x k hx hcontainer hk).trans hr, hk, hrest⟩
    · rintro ⟨hr, hk, hrest⟩
      exact ⟨(h.removals x k hx hcontainer hk).symm.trans hr, hk, hrest⟩
  rw [isLive, isLive, hcleared, hremoved]

include hm hm'

theorem standsAt_iff {x : Entry} (hcontainer : x.container = container) :
    ix.StandsAt t x ↔ ix'.StandsAt t x := by
  rw [hm.standsAt_iff, hm'.standsAt_iff, h.entries x hcontainer]
  exact and_congr_right fun hx => by rw [h.isLive_eq hx hcontainer]

end SameWithin

/-- Whether an index is what is left of another one of which nothing is dropped that has to do with
a container. -/
structure Spares (container : Muid) (ix ix' : Index) : Prop where
  stored : ∀ p x, ix'.entries.get? p = some x → ix.entries.get? p = some x
  entries : ∀ x, ix.entries.get? x.placement = some x → x.container = container →
    ix'.entries.get? x.placement = some x
  removals : ∀ x k, ix.entries.get? x.placement = some x → x.container = container →
    k.removing = x.placement → ix'.removals.get? k = ix.removals.get? k
  clearances : ∀ k, k.container = container → ix'.clearances.get? k = ix.clearances.get? k

namespace Spares

variable (h : Spares container ix ix') (hm : Mirrored ix) (hm' : Mirrored ix')
include h

theorem sameWithin : SameWithin container ix ix' where
  entries x hcontainer := ⟨h.stored x.placement x, fun hx => h.entries x hx hcontainer⟩
  removals := h.removals
  clearances := h.clearances

include hm hm'

/-- What is the newest of its kind stays so, as far as it is among entries of the container. -/
theorem tops_iff {P : Entry → Prop} {x : Entry} (hcontainer : x.container = container)
    (hwithin : ∀ y, ix.entries.get? y.placement = some y → P x → P y → y.container = container) :
    ix.Tops t P x ↔ ix'.Tops t P x := by
  have hstands : ix.StandsAt t x ↔ ix'.StandsAt t x := h.sameWithin.standsAt_iff hm hm' hcontainer
  constructor
  · exact fun htops => ⟨hstands.mp htops.stands, htops.ofKind, fun y hy =>
      htops.newest y (h.stored y.placement y hy)⟩
  · exact fun htops => ⟨hstands.mpr htops.stands, htops.ofKind, fun y hy hP =>
      htops.newest y (h.entries y hy (hwithin y hy htops.ofKind hP)) hP⟩

/-- **An index that is spared within a container** answers alike about it. -/
theorem alikeWithin (hmoment : Moment asOf t)
    (hplaces : ∀ x y, ix.entries.get? x.placement = some x → ix.entries.get? y.placement = some y →
      x.entryId = y.entryId → x.container = y.container) :
    AlikeWithin container asOf ix ix' where
  byKey key := (entryByKey_eq_iff hm hm' hmoment).mpr fun x _ => by
    by_cases hcontainer : x.container = container
    · exact h.tops_iff hm hm' hcontainer fun y _ _ hy => hy.1
    · exact ⟨fun hx => absurd hx.ofKind.1 hcontainer, fun hx => absurd hx.ofKind.1 hcontainer⟩
  keyed := keyedEntries_congr hm hm' hmoment fun _ => h.sameWithin.standsAt_iff hm hm'
  ordered := orderedEntries_congr hm hm' hmoment fun _ => h.sameWithin.standsAt_iff hm hm'
  byId entryId := by
    obtain ⟨found, hfound, hiff⟩ :=
      exists_entryById_eq hm (ix.resolveAsOf_of_moment hmoment) entryId
    obtain ⟨found', hfound', hiff'⟩ :=
      exists_entryById_eq hm' (ix'.resolveAsOf_of_moment hmoment) entryId
    rw [hfound, hfound']
    refine congrArg Except.ok (Option.ext fun x => ?_)
    rw [Option.filter_eq_some_iff, Option.filter_eq_some_iff, hiff, hiff', decide_eq_true_eq]
    refine and_congr_left fun hcontainer => ?_
    by_cases hx : ix.entries.get? x.placement = some x
    · refine h.tops_iff hm hm' hcontainer fun y hy hxe hye => ?_
      rw [← hcontainer]
      exact hplaces y x hy hx (hye.trans hxe.symm)
    · exact ⟨fun htops => absurd (hm.standsAt_iff.mp htops.stands).1 hx, fun htops =>
        absurd (h.stored _ x (hm'.standsAt_iff.mp htops.stands).1) hx⟩
  touching vertex side := by
    rw [entriesTouching_of_moment ix hmoment, entriesTouching_of_moment ix' hmoment]
    refine congrArg Except.ok (filter_touchingEntries_congr hm hm' _ (fun x htest => ?_) _ _)
    exact h.sameWithin.standsAt_iff hm hm' (of_decide_eq_true htest)

end Spares

/-! ## What spares a container -/

/-- A clearance of another container spares one, unless it purges removals of its entries. -/
theorem spares_applyClearance_of_purge (hm : Mirrored ix) {id : Muid} {c : ClearanceChange}
    (hfiled : c.purge = true → ∀ k r x, ix.removals.get? k = some r →
      ix.entries.get? k.removing = some x → x.container = container →
      r.container ≠ clearedContainer id c)
    (hother : container ≠ clearedContainer id c) :
    Spares container ix (ix.applyClearance id c) := by
  have hnot {p : Muid} : ¬ Covers id c container p := fun hcovers => hother hcovers.2.1
  refine ⟨fun p x hx => of_get?_entries_applyClearance hx, fun x hx hcontainer => ?_,
    fun x k hx hcontainer hk => ?_, fun k hk => ?_⟩
  · rw [get?_entries_applyClearance id c hm, hx, Option.filter_some, hcontainer, if_pos]
    exact decide_eq_true hnot
  · rw [get?_removals_applyClearance id c hm]
    cases hr : ix.removals.get? k with
    | none => rfl
    | some r =>
        rw [Option.filter_some, if_pos]
        refine decide_eq_true fun hcovers => ?_
        exact hfiled hcovers.1 k r x hr (hk ▸ hx) hcontainer hcovers.2.1
  · rw [get?_clearances_applyClearance, if_neg, hk]
    · cases hx : ix.clearances.get? k with
      | none => rfl
      | some x =>
          rw [Option.filter_some, if_pos]
          exact decide_eq_true hnot
    · rintro rfl
      exact hother hk.symm

section Spared

variable (hm : Mirrored ix)
  (hfiled : ∀ k r x, ix.removals.get? k = some r → ix.entries.get? k.removing = some x →
    x.container = container → r.container ≠ other)
  (hother : container ≠ other)
include hm hfiled hother

theorem spares_applyClearance {id : Muid} {c : ClearanceChange}
    (hc : clearedContainer id c = other) : Spares container ix (ix.applyClearance id c) := by
  subst hc
  exact spares_applyClearance_of_purge hm (fun _ => hfiled) hother

omit hother in
theorem spares_dropHistoryUpTo (cut : Timestamp) :
    Spares container ix (ix.dropHistoryUpTo (some other) cut).1 := by
  have hkept {x : Entry} (hx : ix.entries.get? x.placement = some x)
      (hcontainer : x.container = container) {k : RemovalKey} (hk : k.removing = x.placement) :
      ¬ ix.DropsRemoval (some other) cut k := by
    rintro ⟨r, hr, -, hfilter⟩
    exact hfiled k r x hr (hk ▸ hx) hcontainer (hfilter other rfl)
  refine ⟨fun p x hx => ((get?_entries_dropHistoryUpTo_eq_some_iff hm).mp hx).1,
    fun x hx hcontainer => ?_, fun x k hx hcontainer hk => ?_, fun k _ => ?_⟩
  · refine (get?_entries_dropHistoryUpTo_eq_some_iff hm).mpr ⟨hx, ?_⟩
    rintro ⟨k, hdrops, hk⟩
    exact hkept hx hcontainer hk hdrops
  · refine Option.ext fun r => ?_
    rw [get?_removals_dropHistoryUpTo_eq_some_iff hm]
    exact and_iff_left (hkept hx hcontainer hk)
  · rw [clearances_dropHistoryUpTo]

end Spared

/-- **Clearing one container, or dropping its history, leaves the others alone** as long as no
movement mixes them up. Offer any bundles to an index, with history or without, such that those
accepted have distinct times or owners and no more changes than there are offsets. Where history is
kept, let no movement of an entry of a container, that comes after the entry, name a second one.
Then neither an accepted bundle that only clears the second container, purging or not, nor dropping
the history of that container changes any answer about the first. -/
theorem containers_apart (keepingHistory : Bool) (arrivals : List Bundle) (container other : Muid)
    (hkeys : ((empty keepingHistory).offerAll arrivals).2.Pairwise fun a b => a.key ≠ b.key)
    (hsize : ∀ b ∈ ((empty keepingHistory).offerAll arrivals).2, b.changes.length ≤ 0x100000000)
    (hother : container ≠ other)
    (hnames : keepingHistory = true → Names (fun home named => home = container → named ≠ other)
      (applied keepingHistory arrivals))
    {asOf : AsOf} {t : Timestamp} (hmoment : Moment asOf t) :
    let ix := ((empty keepingHistory).offerAll arrivals).1
    (∀ b c ix', b.changes = [.clearance c] → clearedContainer (b.changeId 1) c = other →
        ix.add b = .ok (ix', true) → AlikeWithin container asOf ix ix')
      ∧ ∀ before ix' n, ix.dropHistory (some other) before = .ok (ix', n) →
        AlikeWithin container asOf ix ix' := by
  intro ix
  have hids : ((applied keepingHistory arrivals).map Prod.fst).Nodup :=
    nodup_flatMap_changesWithIds (hkeys.imp Bundle.key_ne_iff.mp) hsize
  have h : Traced (applied keepingHistory arrivals) ix := traced_offerAll hids
  have hm : Mirrored ix := h.tidy.mirrored
  have hfiled : ∀ k r x, ix.removals.get? k = some r → ix.entries.get? k.removing = some x →
      x.container = container → r.container ≠ other := by
    intro k r x hr hx hcontainer
    cases keepingHistory with
    | false =>
        rw [(forgetful_offerAll hids).nothing k] at hr
        cases hr
    | true =>
        rcases h.within (hnames rfl) hr hx with hhome | hnamed
        · rw [hhome, hcontainer]
          exact hother
        · exact hnamed hcontainer
  have hplaces : ∀ x y, ix.entries.get? x.placement = some x →
      ix.entries.get? y.placement = some y → x.entryId = y.entryId → x.container = y.container :=
    fun x y => h.container_eq hids
  constructor
  · rintro b c ix' hchanges hc hadd
    obtain ⟨-, rfl⟩ := add_eq_ok_true_iff.mp hadd
    -- the tables after the bundle are those after its clearance
    have happly : ix.applyChanges b.changesWithIds = ix.applyClearance (b.changeId 1) c := by
      rw [Bundle.changesWithIds, hchanges]
      rfl
    rw [apply_eq, happly]
    have hspares := spares_applyClearance hm hfiled hother hc
    refine (Spares.alikeWithin ⟨hspares.stored, hspares.entries, hspares.removals,
      hspares.clearances⟩ hm ?_ hmoment hplaces)
    exact (hm.applyClearance (b.changeId 1) c).withRecords _ _ _
  · intro before ix' n hdrop
    obtain ⟨cut, -, hcut⟩ := dropHistory_eq_ok_iff.mp hdrop
    obtain rfl : (ix.dropHistoryUpTo (some other) cut).1 = ix' := by rw [hcut]
    exact (spares_dropHistoryUpTo hm hfiled cut).alikeWithin hm
      (hm.dropHistoryUpTo _ cut) hmoment hplaces

/-- A sequence in which an entry is moved and taken away, next to a box that is written twice and
then purged. -/
theorem containers_apart_movedWithin :
    let sequence : Muid := ⟨-1, -1, 2⟩
    let box : Muid := ⟨-1, -1, 1⟩
    let write (value : UInt8) : Change :=
      .entry { behavior := .box, container := some box, value := some [value] }
    let first := Bundle.ofValid ⟨10, 1, 10, none, none⟩
      [.push sequence [1], .push sequence [2], write 3] rfl (by decide) (by decide)
    let second := Bundle.ofValid ⟨20, 2, 20, none, none⟩ [.moveEntry sequence ⟨10, 1, 1⟩ 5,
      .movement ⟨none, ⟨10, 1, 2⟩, 0, false⟩, write 4] rfl (by decide) (by decide)
    let purge := Bundle.ofValid ⟨30, 3, 30, none, none⟩ [.clearance ⟨box, true⟩] rfl (by decide)
      (by decide)
    let ix := ((empty true).offerAll [first, second]).1
    ix.add purge = .ok (ix.apply purge, true)
      ∧ AlikeWithin sequence .latest ix (ix.apply purge)
      ∧ AlikeWithin sequence (.time 15) ix (ix.dropHistoryUpTo (some box) 25).1
      ∧ ix.entryByKey box .unit .latest ≠ (ix.apply purge).entryByKey box .unit .latest := by
  intro sequence box write first second purge ix
  have haccepted : ((empty true).offerAll [first, second]).2 = [first, second] := by
    decide +kernel
  have hadd : ix.add purge = .ok (ix.apply purge, true) := by decide +kernel
  have hnames : Names (fun home named => home = sequence → named ≠ box)
      (applied true [first, second]) := names_of_forall (by decide +kernel)
  have hapart {asOf : AsOf} {t : Timestamp} (hmoment : Moment asOf t) :=
    containers_apart true [first, second] sequence box (by rw [haccepted]; decide +kernel)
      (by rw [haccepted]; decide +kernel) (by decide) (fun _ => hnames) hmoment
  have hcontainer : clearedContainer (purge.changeId 1) ⟨box, true⟩ = box := by decide +kernel
  have hdrop : ix.dropHistory (some box) (.time 25)
      = .ok ((ix.dropHistoryUpTo (some box) 25).1, (ix.dropHistoryUpTo (some box) 25).2) :=
    dropHistory_eq_ok_iff.mpr ⟨25, rfl, Prod.mk.eta.symm⟩
  refine ⟨hadd, ?_, ?_, by decide +kernel⟩
  · exact (hapart (.inr ⟨rfl, rfl⟩)).1 purge ⟨box, true⟩ (ix.apply purge) rfl hcontainer hadd
  · exact (hapart (.inl rfl)).2 (.time 25) _ _ hdrop

/-- A movement that takes an entry away and names another container is forgotten when that one is
purged, and the entry is back. If instead the history of the other container is dropped, the entry
is missing from the past. -/
theorem containers_apart_foreignMovement :
    let sequence : Muid := ⟨-1, -1, 2⟩
    let other : Muid := ⟨-1, -1, 4⟩
    let first := Bundle.ofValid ⟨10, 1, 10, none, none⟩ [.push sequence [1]] rfl (by decide)
      (by decide)
    let removal := Bundle.ofValid ⟨20, 2, 20, none, none⟩
      [.movement ⟨some other, ⟨10, 1, 1⟩, 0, false⟩] rfl (by decide) (by decide)
    let purge := Bundle.ofValid ⟨30, 3, 30, none, none⟩ [.clearance ⟨other, true⟩] rfl (by decide)
      (by decide)
    let ix := ((empty true).offerAll [first, removal]).1
    ((empty true).offerAll [first, removal]).2 = [first, removal] ∧ sequence ≠ other
      ∧ clearedContainer (purge.changeId 1) ⟨other, true⟩ = other
      ∧ ix.add purge = .ok (ix.apply purge, true)
      ∧ ix.orderedEntries sequence none .latest = .ok []
      ∧ (ix.apply purge).orderedEntries sequence none .latest ≠ .ok []
      ∧ (ix.dropHistoryUpTo (some other) 25).1.orderedEntries sequence none (.time 15) = .ok []
      ∧ ix.orderedEntries sequence none (.time 15) ≠ .ok [] := by
  decide +kernel

end GossipStore.Index
