import GossipStore.Proofs.Bundle.Canonical
import GossipStore.Proofs.Index.Answers

set_option autoImplicit false

/-! # Arrival of bundles

Bundles arrive in any order and some are refused. What an index amounts to after that is decided by
the bundles it has accepted, one after the other (`offerAll_eq`), and its tables by their changes
(`foldl_apply_eq`). With distinct times and owners all changes have distinct addresses, so what an
index answers is what the accepted bundles say, whatever the order in which they came.
-/

namespace GossipStore.Index

/-! ## Offers -/

/-- Offers bundles one after the other, and lists those that are accepted. An index is left as it
is by a bundle that it refuses or knows. -/
def offerAll (ix : Index) : List Bundle → Index × List Bundle
  | [] => (ix, [])
  | b :: rest =>
    match ix.add b with
    | .ok (ix', true) => ((ix'.offerAll rest).1, b :: (ix'.offerAll rest).2)
    | .ok (ix', false) => ix'.offerAll rest
    | .error _ => ix.offerAll rest

theorem offerAll_eq (ix : Index) (bs : List Bundle) :
    (ix.offerAll bs).1 = (ix.offerAll bs).2.foldl apply ix := by
  induction bs generalizing ix with
  | nil => rfl
  | cons b rest ih =>
      rw [offerAll, add_eq]
      cases ix.check b.info with
      | error e => exact ih ix
      | ok novel =>
          cases novel with
          | false => exact ih ix
          | true => exact ih (ix.apply b)

/-- The tables after some bundles are those after all their changes. -/
theorem foldl_apply_eq (ix : Index) (bs : List Bundle) : ∃ chains bundles, bs.foldl apply ix
    = (ix.applyChanges (bs.flatMap Bundle.changesWithIds)).withRecords chains bundles
      ix.claims := by
  induction bs generalizing ix with
  | nil => exact ⟨ix.chains, ix.bundles, rfl⟩
  | cons b rest ih =>
      obtain ⟨chains, bundles, h⟩ := ih (ix.apply b)
      refine ⟨chains, bundles, ?_⟩
      -- the records of the first bundle are overwritten by those of the others
      rw [List.foldl_cons, h, List.flatMap_cons, applyChanges_append, apply_claims, apply_eq,
        applyChanges_withRecords]
      rfl

/-! ## Addresses -/

/-- As many changes as there are offsets have distinct addresses. -/
theorem nodup_changesWithIds {b : Bundle} (h : b.changes.length ≤ 0x100000000) :
    (b.changesWithIds.map Prod.fst).Nodup := by
  rw [Bundle.changesWithIds, List.map_map, List.Nodup, List.pairwise_map,
    List.pairwise_iff_getElem]
  intro i j hi hj hlt heq
  simp only [List.getElem_zipIdx, Function.comp, Bundle.changeId, Muid.mk.injEq, true_and] at heq
  -- offsets are counted modulo their width, which no two changes exceed
  have hmod := congrArg UInt32.toNat heq
  simp only [UInt32.toNat_ofNat', List.length_zipIdx] at hmod hi hj
  omega

/-- Bundles of distinct times or owners have no address in common. -/
theorem nodup_flatMap_changesWithIds {bs : List Bundle}
    (hkeys : bs.Pairwise fun a b =>
      ¬ (a.info.timestamp = b.info.timestamp ∧ a.info.medallion = b.info.medallion))
    (hsize : ∀ b ∈ bs, b.changes.length ≤ 0x100000000) :
    ((bs.flatMap Bundle.changesWithIds).map Prod.fst).Nodup := by
  have hids {b : Bundle} {id : Muid} (h : id ∈ b.changesWithIds.map Prod.fst) :
      id.timestamp = b.info.timestamp ∧ id.medallion = b.info.medallion := by
    simp only [Bundle.changesWithIds, List.map_map, List.mem_map] at h
    obtain ⟨e, -, rfl⟩ := h
    exact ⟨rfl, rfl⟩
  rw [List.map_flatMap, List.Nodup, List.pairwise_flatMap]
  refine ⟨fun b hb => nodup_changesWithIds (hsize b hb),
    hkeys.imp fun hne id hid id' hid' heq => ?_⟩
  obtain ⟨ht, hm⟩ := hids hid
  obtain ⟨ht', hm'⟩ := hids hid'
  subst heq
  exact hne ⟨ht.symm.trans ht', hm.symm.trans hm'⟩

/-! ## Answers -/

theorem Mirrored.withRecords {ix : Index} (h : Mirrored ix)
    (chains : SortedMap ChainKey BundleInfo) (bundles : SortedMap BundleKey Bundle)
    (claims : List ClaimedChain) : Mirrored (ix.withRecords chains bundles claims) :=
  ⟨h.placed, h.byKey, h.byLocation, h.byPointee, h.bySource, h.byTarget, h.removed, h.byContainer⟩

theorem Reflects.withRecords {changes : List (Muid × Change)} {ix : Index}
    (h : Reflects changes ix) (chains : SortedMap ChainKey BundleInfo)
    (bundles : SortedMap BundleKey Bundle) (claims : List ClaimedChain) :
    Reflects changes (ix.withRecords chains bundles claims) :=
  ⟨h.keeping, h.mirrored.withRecords _ _ _, h.entries, h.removals, h.cleared, h.covered⟩

/-- Whether a moment is the given time, or the end of time. -/
def Moment (asOf : AsOf) (t : Timestamp) : Prop :=
  asOf = .time t ∨ asOf = .latest ∧ t = Int64.maxValue

theorem resolveAsOf_of_moment (ix : Index) {asOf : AsOf} {t : Timestamp} (h : Moment asOf t) :
    ix.resolveAsOf asOf = .ok t := by
  rcases h with rfl | ⟨rfl, rfl⟩ <;> rfl

/-- An index to which bundles have been offered reflects the changes of those it has accepted. -/
theorem reflects_offerAll {arrivals : List Bundle}
    (hkeys : ((empty true).offerAll arrivals).2.Pairwise fun a b =>
      ¬ (a.info.timestamp = b.info.timestamp ∧ a.info.medallion = b.info.medallion))
    (hsize : ∀ b ∈ ((empty true).offerAll arrivals).2, b.changes.length ≤ 0x100000000)
    (hkinds : ∀ b ∈ ((empty true).offerAll arrivals).2, ∀ c ∈ b.changes, ∀ m, c ≠ .movement m) :
    Reflects (((empty true).offerAll arrivals).2.flatMap Bundle.changesWithIds)
      ((empty true).offerAll arrivals).1 := by
  have hmoves : ∀ x ∈ ((empty true).offerAll arrivals).2.flatMap Bundle.changesWithIds,
      ∀ m, x.2 ≠ .movement m := by
    intro x hx
    obtain ⟨b, hb, hx⟩ := List.mem_flatMap.mp hx
    obtain ⟨e, he, rfl⟩ := List.mem_map.mp hx
    exact hkinds b hb e.1 (List.fst_mem_of_mem_zipIdx he)
  have hids := nodup_flatMap_changesWithIds hkeys hsize
  have hreflects := Reflects.empty.applyChanges hids hmoves
  rw [offerAll_eq]
  obtain ⟨chains, bundles, heq⟩ := foldl_apply_eq (empty true) ((empty true).offerAll arrivals).2
  rw [heq]
  exact hreflects.withRecords chains bundles _

/-- **The last writer wins, whatever the order of arrival.** Offer bundles to a history-keeping
index, such that those accepted have distinct times or owners, no more changes than there are
offsets, and move nothing. The entry found at a key at a time is the newest that they write there
by then, if no clearance of the container by then and no purge of it is later and the entry is no
deletion; a keyed container is all that is found at its keys; an ordered container lists what is
not hidden by position and age; and references to an address are the entries pointing to it that no
purge covers, by age. -/
theorem answers_lastWriter (arrivals : List Bundle)
    (hkeys : ((empty true).offerAll arrivals).2.Pairwise fun a b =>
      ¬ (a.info.timestamp = b.info.timestamp ∧ a.info.medallion = b.info.medallion))
    (hsize : ∀ b ∈ ((empty true).offerAll arrivals).2, b.changes.length ≤ 0x100000000)
    (hkinds : ∀ b ∈ ((empty true).offerAll arrivals).2, ∀ c ∈ b.changes, ∀ m, c ≠ .movement m) :
    let ix := ((empty true).offerAll arrivals).1
    let changes := ((empty true).offerAll arrivals).2.flatMap Bundle.changesWithIds
    (∀ container asOf t, Moment asOf t →
      (∀ key, ∃ found, ix.entryByKey container key asOf = .ok found ∧ ∀ e, found = some e ↔
        IsNewest changes container key t e ∧ Stands changes t e ∧ e.deletion = false)
      ∧ (∃ entries, ix.keyedEntries container asOf = .ok entries ∧ ∀ key : StorageKey,
        (key.isPositional = false →
          ix.entryByKey container key asOf = .ok (entries.get? key))
        ∧ (key.isPositional = true → entries.get? key = none))
      ∧ ∃ entries, ix.orderedEntries container none asOf = .ok entries
        ∧ entries.Pairwise (fun e f => e.key.positionPart < f.key.positionPart
          ∨ e.key.positionPart = f.key.positionPart ∧ e.entryId < f.entryId)
        ∧ ∀ e, e ∈ entries ↔ e ∈ written changes ∧ e.container = container
          ∧ e.key.isPositional = true ∧ e.placedAt ≤ t ∧ Stands changes t e
          ∧ e.deletion = false)
    ∧ ∀ target, (ix.backRefs target).Pairwise (fun e f => e.entryId < f.entryId)
      ∧ ∀ e, e ∈ ix.backRefs target ↔
        e ∈ written changes ∧ e.pointee = some target ∧ ¬ Purged changes e := by
  intro ix changes
  have h : Reflects changes ix := reflects_offerAll hkeys hsize hkinds
  have hids : (changes.map Prod.fst).Nodup := nodup_flatMap_changesWithIds hkeys hsize
  refine ⟨fun container asOf t hmoment => ?_, fun target => ⟨?_, fun e => h.mem_backRefs_iff⟩⟩
  · have hasOf := ix.resolveAsOf_of_moment hmoment
    have hbykey (key : StorageKey) : ix.entryByKey container key asOf
        = .ok ((ix.newestUpTo? (ix.placementsAtKey container key) t).filter
          (ix.isVisible · t)) := by
      rw [entryByKey, hasOf]
      rfl
    have hkeyed : ix.keyedEntries container asOf
        = .ok ((ix.rowsOf container fun k => !k.isPositional).foldl (ix.keyedStep t) .empty) := by
      rw [keyedEntries, hasOf]
      rfl
    refine ⟨fun key => ⟨_, hbykey key, fun e => h.newestUpTo?_iff hids⟩, ?_, ?_⟩
    · refine ⟨_, hkeyed, fun key => ⟨fun hkey => ?_, fun hkey => ?_⟩⟩
      · rw [hbykey key, h.get?_foldl_rowsOf hids, hkey]
        rfl
      · rw [h.get?_foldl_rowsOf hids, if_pos hkey]
    · refine ⟨ix.positionalEntries container t, by rw [orderedEntries, hasOf]; rfl, ?_,
        fun e => h.mem_positionalEntries_iff hids⟩
      refine List.Pairwise.imp_of_mem ?_ (pairwise_positionalEntries h.mirrored container t)
      intro e f he hf hlt
      rw [placement_of_mem_written ((h.mem_positionalEntries_iff hids).mp he).1,
        placement_of_mem_written ((h.mem_positionalEntries_iff hids).mp hf).1] at hlt
      exact hlt
  · refine List.Pairwise.imp_of_mem ?_ (pairwise_backRefs h.mirrored target)
    intro e f he hf hlt
    rw [placement_of_mem_written (h.mem_backRefs_iff.mp he).1,
      placement_of_mem_written (h.mem_backRefs_iff.mp hf).1] at hlt
    exact hlt

/-- A purge that arrives before an older and a newer entry at the same key. -/
theorem answers_lastWriter_afterPurge :
    let box : Muid := ⟨3, 3, 1⟩
    let write (value : UInt8) : Change :=
      .entry { behavior := .box, container := some box, value := some [value] }
    let purge := Bundle.ofValid ⟨9, 2, 9, none, none⟩ [.clearance ⟨box, true⟩] rfl (by decide)
      (by decide)
    let early := Bundle.ofValid ⟨5, 1, 5, none, none⟩ [write 1] rfl (by decide) (by decide)
    let late := Bundle.ofValid ⟨12, 1, 5, some 5, none⟩ [write 2] rfl (by decide) (by decide)
    let arrivals := [purge, early, late]
    let ix := ((empty true).offerAll arrivals).1
    let changes := arrivals.flatMap Bundle.changesWithIds
    ((empty true).offerAll arrivals).2 = arrivals
      ∧ ∃ found, ix.entryByKey box .unit .latest = .ok found ∧ ∀ e, found = some e ↔
        IsNewest changes box .unit Int64.maxValue e ∧ Stands changes Int64.maxValue e
          ∧ e.deletion = false := by
  intro box write purge early late arrivals ix changes
  have haccepted : ((empty true).offerAll arrivals).2 = arrivals := by decide +kernel
  have hkeys : arrivals.Pairwise fun a b =>
      ¬ (a.info.timestamp = b.info.timestamp ∧ a.info.medallion = b.info.medallion) := by decide
  have hsize : ∀ b ∈ arrivals, b.changes.length ≤ 0x100000000 := by decide
  have hkinds : ∀ b ∈ arrivals, ∀ c ∈ b.changes, ∀ m, c ≠ .movement m := by
    simp [arrivals, purge, early, late, write, Bundle.ofValid]
  have hanswers := answers_lastWriter arrivals (by rw [haccepted]; exact hkeys)
    (by rw [haccepted]; exact hsize) (by rw [haccepted]; exact hkinds)
  rw [haccepted] at hanswers
  exact ⟨haccepted, (hanswers.1 box .latest Int64.maxValue (.inr ⟨rfl, rfl⟩)).1 .unit⟩

end GossipStore.Index
