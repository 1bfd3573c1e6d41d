import GossipStore.Proofs.Index.OnePlace

set_option autoImplicit false

/-! # Dropping history and the present

Dropping the history up to a time deletes what does not stand at that time or later
(`thinned_dropHistoryUpTo`). So lists do not change, but a question that looks at the newest
placement finds what is left below it. Answers change exactly if an entry is uncovered in that way
(`present_unchanged_iff`). Nothing is if everything below a placement has been removed along with
it: at a key that is so where entries that are moved came in order (`Layered.topStands`), and among
the places of an entry where movements record what they do under the container of the entry
(`Undivided.topStands`).
-/

namespace GossipStore.Index

variable {ix : Index} {changes : List (Muid × Change)} {filter : Option Muid}
  {cut t : Timestamp} {P : Entry → Prop} {e : Entry}

/-! ## What is dropped -/

/-- **Dropping history drops nothing that stands** from then on. -/
theorem thinned_dropHistoryUpTo (hm : Mirrored ix) (filter : Option Muid) (hle : cut ≤ t) :
    Thinned t ix (ix.dropHistoryUpTo filter cut).1 where
  stored p e he := ((get?_entries_dropHistoryUpTo_eq_some_iff hm).mp he).1
  standing e := by
    have hm' : Mirrored (ix.dropHistoryUpTo filter cut).1 := hm.dropHistoryUpTo filter cut
    rw [hm.standsAt_iff, hm'.standsAt_iff, get?_entries_dropHistoryUpTo_eq_some_iff hm, isLive_iff,
      isLive_iff, isCleared_congr (clearances_dropHistoryUpTo ix filter cut)]
    simp only [← Bool.not_eq_true, isRemoved_iff]
    constructor
    · rintro ⟨⟨he, hkept⟩, hplaced, hclear, hremoved⟩
      refine ⟨he, hplaced, hclear, ?_⟩
      -- the removals of what is kept are kept
      rintro ⟨k, r, hr, hk, hkt⟩
      refine hremoved ⟨k, r, ?_, hk, hkt⟩
      exact (get?_removals_dropHistoryUpTo_eq_some_iff hm).mpr ⟨hr, fun hdrops =>
        hkept ⟨k, hdrops, hk⟩⟩
    · rintro ⟨he, hplaced, hclear, hremoved⟩
      refine ⟨⟨he, ?_⟩, hplaced, hclear, ?_⟩
      · rintro ⟨k, ⟨r, hr, hkcut, -⟩, hk⟩
        exact hremoved ⟨k, r, hr, hk, Std.le_trans hkcut hle⟩
      · rintro ⟨k, r, hr, hk, hkt⟩
        exact hremoved ⟨k, r, ((get?_removals_dropHistoryUpTo_eq_some_iff hm).mp hr).1, hk, hkt⟩

/-- Whether dropping history uncovers an entry that stands: newer ones of its kind have been placed,
and all of them are dropped. -/
structure Uncovers (ix : Index) (filter : Option Muid) (cut t : Timestamp) (P : Entry → Prop)
    (e : Entry) : Prop where
  stands : ix.StandsAt t e
  ofKind : P e
  below : ∃ f, ix.entries.get? f.placement = some f ∧ P f ∧ f.placedAt ≤ t
    ∧ e.placement < f.placement
  dropped : ∀ f, ix.entries.get? f.placement = some f → P f → f.placedAt ≤ t →
    e.placement < f.placement → ix.Drops filter cut f.placement

/-- After history has been dropped an entry is the newest of its kind if it was before or has been
uncovered. -/
theorem tops_dropHistoryUpTo_iff (hm : Mirrored ix) (hle : cut ≤ t) :
    (ix.dropHistoryUpTo filter cut).1.Tops t P e
      ↔ ix.Tops t P e ∨ ix.Uncovers filter cut t P e := by
  have hthinned := thinned_dropHistoryUpTo hm filter hle
  constructor
  · intro htops
    have hstands := (hthinned.standing e).mp htops.stands
    by_cases hbelow : ∃ f, ix.entries.get? f.placement = some f ∧ P f ∧ f.placedAt ≤ t
        ∧ e.placement < f.placement
    · refine .inr ⟨hstands, htops.ofKind, hbelow, fun f hf hPf hft hlt => ?_⟩
      refine Classical.byContradiction fun hkept => ?_
      exact htops.newest f ((get?_entries_dropHistoryUpTo_eq_some_iff hm).mpr ⟨hf, hkept⟩) hPf hft
        hlt
    · exact .inl ⟨hstands, htops.ofKind, fun f hf hPf hft hlt => hbelow ⟨f, hf, hPf, hft, hlt⟩⟩
  · rintro (htops | huncovered)
    · exact hthinned.tops htops
    · refine ⟨(hthinned.standing e).mpr huncovered.stands, huncovered.ofKind,
        fun f hf hPf hft hlt => ?_⟩
      obtain ⟨hf, hkept⟩ := (get?_entries_dropHistoryUpTo_eq_some_iff hm).mp hf
      exact hkept (huncovered.dropped f hf hPf hft hlt)

theorem Uncovers.not_tops (h : ix.Uncovers filter cut t P e) : ¬ ix.Tops t P e := by
  obtain ⟨f, hf, hPf, hft, hlt⟩ := h.below
  exact fun htops => htops.newest f hf hPf hft hlt

/-- Two indexes answer all questions about a moment alike, but for those about a key or an entry
where dropping history from the first one uncovers something. -/
structure AlikeButUncovered (filter : Option Muid) (cut t : Timestamp) (asOf : AsOf)
    (ix ix' : Index) : Prop where
  byKey : ∀ container key, ix.entryByKey container key asOf = ix'.entryByKey container key asOf
    ↔ ∀ e, e.deletion = false → ¬ ix.Uncovers filter cut t (AtKey container key) e
  byId : ∀ entryId, ix.entryById entryId asOf = ix'.entryById entryId asOf
    ↔ ∀ e, ¬ ix.Uncovers filter cut t (·.entryId = entryId) e
  keyed : ∀ container, ix.keyedEntries container asOf = ix'.keyedEntries container asOf
  ordered : ∀ container limit, ix.orderedEntries container limit asOf
    = ix'.orderedEntries container limit asOf
  touching : ∀ vertex side, ix.entriesTouching vertex side asOf
    = ix'.entriesTouching vertex side asOf

/-- Answers about a moment change exactly where an entry is uncovered. -/
theorem alikeButUncovered_dropHistoryUpTo (hm : Mirrored ix) {asOf : AsOf}
    (hmoment : Moment asOf t) (hle : cut ≤ t) :
    AlikeButUncovered filter cut t asOf ix (ix.dropHistoryUpTo filter cut).1 := by
  have hthinned := thinned_dropHistoryUpTo hm filter hle
  have hm' : Mirrored (ix.dropHistoryUpTo filter cut).1 := hm.dropHistoryUpTo filter cut
  have hsame {P : Entry → Prop} {e : Entry} :
      (ix.Tops t P e ↔ (ix.dropHistoryUpTo filter cut).1.Tops t P e)
        ↔ ¬ ix.Uncovers filter cut t P e := by
    rw [tops_dropHistoryUpTo_iff hm hle]
    constructor
    · exact fun h huncovered => huncovered.not_tops (h.mpr (.inr huncovered))
    · exact fun hnot => ⟨.inl, fun h => h.resolve_right hnot⟩
  obtain ⟨hkeyed, hordered, htouching⟩ := hthinned.lists hm hm' hmoment
  refine ⟨fun container key => ?_, fun entryId => ?_, hkeyed, hordered, htouching⟩
  · rw [entryByKey_eq_iff hm hm' hmoment]
    exact forall₂_congr fun e _ => hsame
  · rw [entryById_eq_iff hm hm' hmoment]
    exact forall_congr' fun e => hsame

/-! ## The present -/

/-- **When dropping history leaves the present alone.** Offer any bundles to an index that keeps
history, such that those accepted have distinct times or owners and no more changes than there are
offsets, and drop the history up to a time, of one container or of all. About that time and every
later one lists and keyed containers do not change, and the answer about a key or an entry exactly
if dropping uncovers something there. It uncovers nothing if the entries that are moved came in
order at their keys, and movements name no container or that of their entry. -/
theorem present_unchanged_iff (arrivals : List Bundle)
    (hkeys : ((empty true).offerAll arrivals).2.Pairwise fun a b => a.key ≠ b.key)
    (hsize : ∀ b ∈ ((empty true).offerAll arrivals).2, b.changes.length ≤ 0x100000000)
    (filter : Option Muid) (cut : Timestamp) :
    let ix := ((empty true).offerAll arrivals).1
    ∃ ix' n, ix.dropHistory filter (.time cut) = .ok (ix', n)
      ∧ ∀ asOf t, Moment asOf t → cut ≤ t → AlikeButUncovered filter cut t asOf ix ix'
        ∧ ((∀ container (key : StorageKey), key.isPositional = false →
              MovedInOrder (applied true arrivals) container key) →
            MovesAtHome (applied true arrivals) → ReadAlike asOf ix ix') := by
  intro ix
  have hids : ((applied true arrivals).map Prod.fst).Nodup :=
    nodup_flatMap_changesWithIds (hkeys.imp Bundle.key_ne_iff.mp) hsize
  have h : Layered (applied true arrivals) ix := layered_offerAll hids
  have hm : Mirrored ix := h.traced.tidy.mirrored
  refine ⟨(ix.dropHistoryUpTo filter cut).1, (ix.dropHistoryUpTo filter cut).2,
    dropHistory_eq_ok_iff.mpr ⟨cut, rfl, Prod.mk.eta.symm⟩, fun asOf t hmoment hle =>
    ⟨alikeButUncovered_dropHistoryUpTo hm hmoment hle, fun horder hhome => ?_⟩⟩
  exact (thinned_dropHistoryUpTo hm filter hle).readAlike hm
    (hm.dropHistoryUpTo filter cut) hmoment
    (fun container key hkey => h.topStands (horder container key hkey) hkey)
    ((undivided_offerAll hids hhome).topStands hids)

/-- A directory and a sequence in which entries are replaced, moved and taken away. -/
theorem present_unchanged_inOrder :
    let sequence : Muid := ⟨-1, -1, 2⟩
    let write (value : UInt8) : Change := .setKey .root (.text "k") [value]
    let first := Bundle.ofValid ⟨10, 1, 10, none, none⟩
      [write 1, .push sequence [2], .push sequence [3]] rfl (by decide) (by decide)
    let second := Bundle.ofValid ⟨20, 2, 20, none, none⟩
      [write 4, .moveEntry sequence ⟨10, 1, 2⟩ 5, .movement ⟨none, ⟨10, 1, 3⟩, 0, false⟩] rfl
      (by decide) (by decide)
    let third := Bundle.ofValid ⟨30, 3, 30, none, none⟩ [.movement ⟨none, ⟨20, 2, 1⟩, 0, false⟩] rfl
      (by decide) (by decide)
    let arrivals := [first, second, third]
    let ix := ((empty true).offerAll arrivals).1
    ((empty true).offerAll arrivals).2 = arrivals
      ∧ ∃ ix' n, ix.dropHistory none (.time 30) = .ok (ix', n)
        ∧ ReadAlike (.time 30) ix ix' ∧ ReadAlike .latest ix ix'
        ∧ ix.entryCount = 5 ∧ (ix.dropHistoryUpTo none 30).1.entryCount = 1 := by
  intro sequence write first second third arrivals ix
  have haccepted : ((empty true).offerAll arrivals).2 = arrivals := by decide +kernel
  have horder : ∀ g ∈ written (applied true arrivals),
      (∃ x ∈ applied true arrivals, moving? x = some g.entryId) →
        g.key.isPositional = false → InOrderUpTo (applied true arrivals) g := by decide +kernel
  have hhome : MovesAtHome (applied true arrivals) := names_of_forall (by decide +kernel)
  obtain ⟨ix', n, hdrop, halike⟩ := present_unchanged_iff arrivals
    (by rw [haccepted]; decide +kernel) (by rw [haccepted]; decide +kernel) none 30
  have hpresent {asOf : AsOf} {t : Timestamp} (hmoment : Moment asOf t) (hle : 30 ≤ t) :
      ReadAlike asOf ix ix' :=
    (halike asOf t hmoment hle).2 (fun container key hkey => movedInOrder_of_forall
      fun g hg hgk hmoves => horder g hg hmoves (hgk.2 ▸ hkey)) hhome
  exact ⟨haccepted, ix', n, hdrop, hpresent (.inl rfl) (Std.le_refl _),
    hpresent (.inr ⟨rfl, rfl⟩) (by decide), by decide +kernel, by decide +kernel⟩

/-- An entry that arrives after its successor is found at its key once the history is dropped of
which that has become part. The same happens to the first place of an entry of which the removal,
recorded under another container, is purged with that. -/
theorem present_unchanged_uncovered :
    let write (value : UInt8) : Change := .setKey .root (.text "k") [value]
    let late := Bundle.ofValid ⟨20, 2, 20, none, none⟩ [write 2] rfl (by decide) (by decide)
    let early := Bundle.ofValid ⟨10, 1, 10, none, none⟩ [write 1] rfl (by decide) (by decide)
    let removal := Bundle.ofValid ⟨30, 3, 30, none, none⟩ [.movement ⟨none, ⟨20, 2, 1⟩, 0, false⟩]
      rfl (by decide) (by decide)
    let ix := ((empty true).offerAll [late, early, removal]).1
    let other : Muid := ⟨-1, -1, 4⟩
    let push := Bundle.ofValid ⟨10, 1, 10, none, none⟩ [.push ⟨-1, -1, 2⟩ [1]] rfl (by decide)
      (by decide)
    let move := Bundle.ofValid ⟨20, 2, 20, none, none⟩
      [.movement ⟨some other, ⟨10, 1, 1⟩, 5, false⟩] rfl (by decide) (by decide)
    let away := Bundle.ofValid ⟨30, 3, 30, none, none⟩ [.movement ⟨none, ⟨10, 1, 1⟩, 0, false⟩] rfl
      (by decide) (by decide)
    let purge := Bundle.ofValid ⟨40, 4, 40, none, none⟩ [.clearance ⟨other, true⟩] rfl (by decide)
      (by decide)
    let jx := ((empty true).offerAll [push, move, away, purge]).1
    (ix.entryByKey .root (.scalar (.text "k")) .latest = .ok none
        ∧ (ix.dropHistoryUpTo none 30).1.entryByKey .root (.scalar (.text "k")) .latest ≠ .ok none)
      ∧ jx.entryById ⟨10, 1, 1⟩ .latest = .ok none
      ∧ (jx.dropHistoryUpTo none 30).1.entryById ⟨10, 1, 1⟩ .latest ≠ .ok none := by
  decide +kernel

end GossipStore.Index
