import GossipStore.Bundle.Bundler
import GossipStore.Proofs.Index.Chains
import GossipStore.Proofs.Index.Past

set_option autoImplicit false

/-! # Some bundles ago

A question about some bundles ago is a question about the time just before one bundle, the first of
the most recent ones (`resolveAsOf_bundlesAgo`). The bundles from that time on have left the past
as it was, and all that an index without them holds was recorded by then (`EndsBy`). So it answers
about the present what the whole index answers about that time (`bundles_ago`). But a time does not
part bundles of one time: with the first of the most recent ones go all others of its time, also
those of owners that come before it (`bundles_ago_sameTime`).
-/

namespace GossipStore

/-- A list in which all that passes a test comes first. -/
theorem filter_append_filter_not {α : Type} {l : List α} {p : α → Bool}
    (h : l.Pairwise fun a b => p b = true → p a = true) :
    l.filter p ++ l.filter (fun a => !p a) = l := by
  induction l with
  | nil => rfl
  | cons a rest ih =>
      obtain ⟨ha, hrest⟩ := List.pairwise_cons.mp h
      cases hpa : p a with
      | true =>
          rw [List.filter_cons_of_pos hpa, List.filter_cons_of_neg (by simp [hpa]),
            List.cons_append, ih hrest]
      | false =>
          -- nothing that follows passes either
          have hfail (b : α) (hb : b ∈ rest) : p b = false :=
            eq_false_of_ne_true fun hpb => Bool.false_ne_true (hpa.symm.trans (ha b hb hpb))
          have hnone : rest.filter p = [] := List.filter_eq_nil_iff.mpr fun b hb => by
            simp [hfail b hb]
          have hall : rest.filter (fun b => !p b) = rest := List.filter_eq_self.mpr fun b hb => by
            simp [hfail b hb]
          rw [List.filter_cons_of_neg (by simp [hpa]), List.filter_cons_of_pos (by simp [hpa]),
            hnone, hall, List.nil_append]

/-- Not later than just before a time is earlier than that time. -/
theorem Timestamp.le_sub_one_iff {a b : Timestamp} (hb : 0 < b) : a ≤ b - 1 ↔ a < b := by
  have hpos : 0 < b.toInt := Int64.lt_iff_toInt_lt.mp hb
  have hbound : b.toInt < 2 ^ 63 := Int64.toInt_lt b
  have hsub : (b - 1).toInt = b.toInt - 1 := by
    rw [Int64.toInt_sub, Int64.toInt_one]
    exact Int.bmod_eq_of_le (by omega) (by omega)
  rw [Int64.le_iff_toInt_le, Int64.lt_iff_toInt_lt, hsub]
  omega

namespace Index

variable {ix ix' : Index} {asOf asOf' : AsOf} {t t' : Timestamp}

/-! ## Answers at two moments -/

/-- One index answers every question about a moment as another one about another moment. -/
structure AnswersAs (ix : Index) (asOf : AsOf) (ix' : Index) (asOf' : AsOf) : Prop where
  byKey : ∀ container key, ix.entryByKey container key asOf = ix'.entryByKey container key asOf'
  byId : ∀ entryId, ix.entryById entryId asOf = ix'.entryById entryId asOf'
  keyed : ∀ container, ix.keyedEntries container asOf = ix'.keyedEntries container asOf'
  ordered : ∀ container limit, ix.orderedEntries container limit asOf
    = ix'.orderedEntries container limit asOf'
  touching : ∀ vertex side, ix.entriesTouching vertex side asOf
    = ix'.entriesTouching vertex side asOf'

/-- Every question about a moment fails in one way. -/
structure Fails (ix : Index) (asOf : AsOf) (e : StoreError) : Prop where
  byKey : ∀ container key, ix.entryByKey container key asOf = .error e
  byId : ∀ entryId, ix.entryById entryId asOf = .error e
  keyed : ∀ container, ix.keyedEntries container asOf = .error e
  ordered : ∀ container limit, ix.orderedEntries container limit asOf = .error e
  touching : ∀ vertex side, ix.entriesTouching vertex side asOf = .error e

namespace AnswersAs

theorem trans (h : AnswersAs ix asOf ix' asOf') {ix'' : Index} {asOf'' : AsOf}
    (h' : AnswersAs ix' asOf' ix'' asOf'') : AnswersAs ix asOf ix'' asOf'' where
  byKey container key := (h.byKey container key).trans (h'.byKey container key)
  byId entryId := (h.byId entryId).trans (h'.byId entryId)
  keyed container := (h.keyed container).trans (h'.keyed container)
  ordered container limit := (h.ordered container limit).trans (h'.ordered container limit)
  touching vertex side := (h.touching vertex side).trans (h'.touching vertex side)

theorem of_answersAlikeAt (h : AnswersAlikeAt t ix ix') : AnswersAs ix (.time t) ix' (.time t) :=
  ⟨h.byKey, h.byId, h.keyed, h.ordered, h.touching⟩

/-- A moment matters only for the time that it stands for. -/
theorem of_resolveAsOf (h : ix.resolveAsOf asOf = ix.resolveAsOf asOf') :
    AnswersAs ix asOf ix asOf' where
  byKey container key := by rw [entryByKey, entryByKey, h]
  byId entryId := by rw [entryById, entryById, h]
  keyed container := by rw [keyedEntries, keyedEntries, h]
  ordered container limit := by rw [orderedEntries, orderedEntries, h]
  touching vertex side := by rw [entriesTouching, entriesTouching, h]

end AnswersAs

theorem fails_of_resolveAsOf {e : StoreError} (h : ix.resolveAsOf asOf = .error e) :
    Fails ix asOf e where
  byKey container key := by rw [entryByKey, h]; rfl
  byId entryId := by rw [entryById, h]; rfl
  keyed container := by rw [keyedEntries, h]; rfl
  ordered container limit := by rw [orderedEntries, h]; rfl
  touching vertex side := by rw [entriesTouching, h]; rfl

/-! ## An index that ends -/

/-- Whether all that decides what an index shows was recorded by a time. -/
structure EndsBy (t : Timestamp) (ix : Index) : Prop where
  entries : ∀ p e, ix.entries.get? p = some e → e.placedAt ≤ t
  byKey : ∀ r ∈ ix.byKey.members, r.placement.timestamp ≤ t
  byLocation : ∀ r ∈ ix.byLocation.members, r.placement.timestamp ≤ t
  removals : ∀ k ∈ ix.removals.keys, k.removalId.timestamp ≤ t
  clearances : ∀ k ∈ ix.clearances.keys, k.clearanceId.timestamp ≤ t

namespace EndsBy

theorem empty (t : Timestamp) (keepingHistory : Bool) : EndsBy t (.empty keepingHistory) where
  entries p e h := by cases h
  byKey r h := by cases h
  byLocation r h := by cases h
  removals k h := by cases h
  clearances k h := by cases h

/-! ### Later questions -/

section Later

variable (h : EndsBy t ix) (hle : t ≤ t')
include h hle

theorem isRemoved_eq (p : Muid) : ix.isRemoved p t = ix.isRemoved p t' := by
  rw [Bool.eq_iff_iff, isRemoved, isRemoved, List.any_eq_true, List.any_eq_true]
  refine exists_congr fun k => and_congr_right fun hk => ?_
  have hkt : k.removalId.timestamp ≤ t := h.removals k hk
  rw [decide_eq_true hkt, decide_eq_true (Std.le_trans hkt hle)]

theorem clearanceBefore?_eq (container : Muid) :
    ix.clearanceBefore? container t = ix.clearanceBefore? container t' := by
  have hfilter : ix.clearances.keys.filter (fun k => k.container = container
        && k.clearanceId.timestamp ≤ t)
      = ix.clearances.keys.filter fun k => k.container = container
        && k.clearanceId.timestamp ≤ t' := by
    refine List.filter_congr fun k hk => ?_
    have hkt : k.clearanceId.timestamp ≤ t := h.clearances k hk
    rw [decide_eq_true hkt, decide_eq_true (Std.le_trans hkt hle)]
  rw [clearanceBefore?, clearanceBefore?, hfilter]

theorem isLive_eq {p : Muid} {e : Entry} (he : ix.entries.get? p = some e) :
    ix.isLive e t = ix.isLive e t' := by
  have het : e.placedAt ≤ t := h.entries p e he
  rw [isLive, isLive, isCleared, isCleared, h.isRemoved_eq hle, h.clearanceBefore?_eq hle,
    decide_eq_true het, decide_eq_true (Std.le_trans het hle)]

theorem isVisible_eq {p : Muid} {e : Entry} (he : ix.entries.get? p = some e) :
    ix.isVisible e t = ix.isVisible e t' := by
  rw [isVisible, isVisible, h.isLive_eq hle he]

omit h in
theorem newestUpTo?_eq {placements : List Muid} (hall : ∀ p ∈ placements, p.timestamp ≤ t) :
    ix.newestUpTo? placements t = ix.newestUpTo? placements t' := by
  have hfilter : placements.filter (·.timestamp ≤ t) = placements.filter (·.timestamp ≤ t') := by
    refine List.filter_congr fun p hp => ?_
    rw [decide_eq_true (hall p hp), decide_eq_true (Std.le_trans (hall p hp) hle)]
  rw [newestUpTo?, newestUpTo?, hfilter]

omit h hle in
/-- What is found at a placement passes one of two tests if it passes the other. -/
theorem filter_newestUpTo?_congr {test test' : Entry → Bool} (placements : List Muid)
    (htest : ∀ p e, ix.entries.get? p = some e → test e = test' e) :
    (ix.newestUpTo? placements t).filter test = (ix.newestUpTo? placements t).filter test' := by
  cases hfound : ix.newestUpTo? placements t with
  | none => rfl
  | some e =>
      obtain ⟨p, -, he⟩ := Option.bind_eq_some_iff.mp hfound
      rw [Option.filter_some, Option.filter_some, htest p e he]

omit h hle in
theorem filter_filterMap_congr {test test' : Entry → Bool} {ρ : Type} (placement : ρ → Muid)
    (rows : List ρ) (htest : ∀ p e, ix.entries.get? p = some e → test e = test' e) :
    (rows.filterMap fun r => ix.entries.get? (placement r)).filter test
      = (rows.filterMap fun r => ix.entries.get? (placement r)).filter test' := by
  refine List.filter_congr fun e he => ?_
  obtain ⟨r, -, hr⟩ := List.mem_filterMap.mp he
  exact htest _ e hr

theorem keyedStep_eq : ix.keyedStep t = ix.keyedStep t' := by
  funext acc r
  rw [keyedStep, keyedStep]
  cases he : ix.entries.get? r.placement with
  | none => rfl
  | some e => simp only [h.isLive_eq hle he]

/-- **An index that ends** answers alike about all later times. -/
theorem answersAs : AnswersAs ix (.time t) ix (.time t') where
  byKey container key := by
    have hall : ∀ p ∈ ix.placementsAtKey container key, p.timestamp ≤ t := by
      intro p hp
      obtain ⟨r, hr, rfl⟩ := List.mem_map.mp hp
      exact h.byKey r (List.mem_filter.mp hr).1
    refine congrArg Except.ok ?_
    rw [newestUpTo?_eq hle hall]
    exact filter_newestUpTo?_congr _ fun p e => h.isVisible_eq hle
  byId entryId := by
    have hall : ∀ p ∈ ix.placementsOf entryId, p.timestamp ≤ t := by
      intro p hp
      obtain ⟨r, hr, rfl⟩ := List.mem_map.mp hp
      exact h.byLocation r (List.mem_filter.mp hr).1
    refine congrArg Except.ok ?_
    rw [newestUpTo?_eq hle hall]
    exact filter_newestUpTo?_congr _ fun p e => h.isLive_eq hle
  keyed container := congrArg (fun step => Except.ok (List.foldl step _ _)) (h.keyedStep_eq hle)
  ordered container limit := congrArg (fun l => Except.ok (limited limit l))
    (filter_filterMap_congr KeyRow.placement _ fun p e => h.isVisible_eq hle)
  touching vertex side := congrArg Except.ok
    (filter_filterMap_congr PlacementRow.placement _ fun p e => h.isVisible_eq hle)

end Later

/-! ### Changes -/

theorem insertEntry (h : EndsBy t ix) {e : Entry} (he : e.placedAt ≤ t) :
    EndsBy t (ix.insertEntry e) where
  entries p f hf := by
    rw [get?_entries_insertEntry] at hf
    split at hf
    · cases hf
      exact he
    · exact h.entries p f hf
  byKey r hr := by
    rcases SortedSet.mem_members_add.mp hr with rfl | hr
    · exact he
    · exact h.byKey r hr
  byLocation r hr := by
    rcases SortedSet.mem_members_add.mp hr with rfl | hr
    · exact he
    · exact h.byLocation r hr
  removals := h.removals
  clearances := h.clearances

theorem insertRemoval (h : EndsBy t ix) {r : Removal} (hr : r.removalId.timestamp ≤ t) :
    EndsBy t (ix.insertRemoval r) where
  entries := h.entries
  byKey := h.byKey
  byLocation := h.byLocation
  removals k hk := by
    obtain ⟨s, hs⟩ := SortedMap.mem_keys_iff.mp hk
    rw [get?_removals_insertRemoval] at hs
    split at hs
    · rename_i heq
      rw [heq]
      exact hr
    · exact h.removals k (SortedMap.mem_keys_iff.mpr ⟨s, hs⟩)
  clearances := h.clearances

section Step

variable (h : EndsBy t ix) (hhistory : ix.keepingHistory = true) {id : Muid}
  (hid : id.timestamp ≤ t)
include h hhistory hid

theorem applyEntry (c : EntryChange) : EndsBy t (ix.applyEntry id c) := by
  have hplaced : (entryOf id c).placedAt ≤ t := hid
  obtain ⟨-, hsame⟩ | ⟨-, halone⟩ | ⟨-, -, previous, -, -, entryId, hreplaces⟩ :=
    applyEntry_cases hhistory id c
  · rw [hsame]
    exact h
  · rw [halone]
    exact h.insertEntry hplaced
  · rw [hreplaces]
    refine EndsBy.insertEntry ?_ hplaced
    exact h.insertRemoval hid

theorem applyMovement {m : MovementChange} (hkeeps : m.purge = false) :
    EndsBy t (ix.applyMovement id m) := by
  have hmoved (x : Entry) : EndsBy t (ix.insertMoved id m x) := by
    rw [insertMoved]
    split
    · exact h
    · exact h.insertEntry hid
  have hstays : ¬ ix.dropsPlace m = true := by simp [dropsPlace, hkeeps, hhistory]
  rcases applyMovement_cases ix id m with hsame | ⟨x, hmoves⟩
  · rw [hsame]
    exact h
  · rw [hmoves, moveFrom, if_neg hstays]
    exact (hmoved x).insertRemoval hid

omit hhistory in
theorem applyClearance {c : ClearanceChange} (hkeeps : c.purge = false) :
    EndsBy t (ix.applyClearance id c) := by
  rw [applyClearance_eq, afterPurge, if_neg (by simp [hkeeps])]
  refine ⟨h.entries, h.byKey, h.byLocation, h.removals, fun k hk => ?_⟩
  obtain ⟨x, hx⟩ := SortedMap.mem_keys_iff.mp hk
  by_cases hkey : k = ⟨clearedContainer id c, id⟩
  · rw [hkey]
    exact hid
  · rw [SortedMap.get?_insert_of_ne _ hkey] at hx
    exact h.clearances k (SortedMap.mem_keys_iff.mpr ⟨x, hx⟩)

theorem applyChange {c : Change} (hkeeps : c.purges = false) : EndsBy t (ix.applyChange id c) := by
  cases c with
  | container behavior => exact ⟨h.entries, h.byKey, h.byLocation, h.removals, h.clearances⟩
  | entry e => exact h.applyEntry hhistory hid e
  | movement m => exact h.applyMovement hhistory hid hkeeps
  | clearance c => exact h.applyClearance hid hkeeps

end Step

theorem applyChanges (h : EndsBy t ix) (hhistory : ix.keepingHistory = true)
    {changes : List (Muid × Change)} (hby : ∀ x ∈ changes, x.1.timestamp ≤ t)
    (hkeeps : ∀ x ∈ changes, x.2.purges = false) : EndsBy t (ix.applyChanges changes) := by
  induction changes generalizing ix with
  | nil => exact h
  | cons x rest ih =>
      obtain ⟨hx, hrest⟩ := List.forall_mem_cons.mp hby
      obtain ⟨hxkeeps, hrestkeeps⟩ := List.forall_mem_cons.mp hkeeps
      exact ih (h.applyChange hhistory hx hxkeeps)
        ((keepingHistory_applyChange ix x.1 x.2).trans hhistory) hrest hrestkeeps

theorem apply (h : EndsBy t ix) (hhistory : ix.keepingHistory = true) {b : Bundle}
    (hby : b.info.timestamp ≤ t) (hkeeps : ∀ c ∈ b.changes, c.purges = false) :
    EndsBy t (ix.apply b) := by
  have hchanges : EndsBy t (ix.applyChanges b.changesWithIds) :=
    h.applyChanges hhistory
      (fun x hx => by
        rw [timestamp_of_mem_changesWithIds hx]
        exact hby)
      fun x hx => hkeeps x.2 (change_mem_of_mem_changesWithIds hx)
  rw [apply_eq]
  exact ⟨hchanges.entries, hchanges.byKey, hchanges.byLocation, hchanges.removals,
    hchanges.clearances⟩

theorem foldl_apply (h : EndsBy t ix) (hhistory : ix.keepingHistory = true) {bs : List Bundle}
    (hby : ∀ b ∈ bs, b.info.timestamp ≤ t) (hkeeps : ∀ b ∈ bs, ∀ c ∈ b.changes, c.purges = false) :
    EndsBy t (bs.foldl Index.apply ix) := by
  induction bs generalizing ix with
  | nil => exact h
  | cons b rest ih =>
      obtain ⟨hb, hrest⟩ := List.forall_mem_cons.mp hby
      obtain ⟨hbkeeps, hrestkeeps⟩ := List.forall_mem_cons.mp hkeeps
      exact ih (h.apply hhistory hb hbkeeps) ((keepingHistory_apply ix b).trans hhistory) hrest
        hrestkeeps

end EndsBy

/-! ## Bundles in order -/

theorem keepingHistory_foldl_apply (ix : Index) (bs : List Bundle) :
    (bs.foldl apply ix).keepingHistory = ix.keepingHistory := by
  induction bs generalizing ix with
  | nil => rfl
  | cons b rest ih => exact (ih (ix.apply b)).trans (keepingHistory_apply ix b)

theorem upTo_foldl_apply (hhistory : ix.keepingHistory = true) {bs : List Bundle}
    (hlater : ∀ b ∈ bs, t < b.info.timestamp)
    (hkeeps : ∀ b ∈ bs, ∀ c ∈ b.changes, c.purges = false) :
    (bs.foldl apply ix).upTo t = ix.upTo t := by
  induction bs generalizing ix with
  | nil => rfl
  | cons b rest ih =>
      obtain ⟨hb, hrest⟩ := List.forall_mem_cons.mp hlater
      obtain ⟨hbkeeps, hrestkeeps⟩ := List.forall_mem_cons.mp hkeeps
      calc (rest.foldl apply (ix.apply b)).upTo t
          = (ix.apply b).upTo t :=
            ih ((keepingHistory_apply ix b).trans hhistory) hrest hrestkeeps
        _ = ix.upTo t := upTo_apply hhistory hb hbkeeps

section Runs

variable {earlier later arrivals : List Bundle} {a b : Bundle}

theorem timestamp_le_of_key_lt (h : compare a.key b.key = .lt) :
    a.info.timestamp ≤ b.info.timestamp := by
  rcases BundleKey.lt_iff.mp h with hlt | ⟨heq, -⟩
  · exact Std.le_of_lt hlt
  · exact Std.le_of_eq heq

/-- In order, all bundles were written before a time if the last one was. -/
theorem filter_eq_self_of_getLast? (hkeys : arrivals.Pairwise fun a b => compare a.key b.key = .lt)
    (hlast : ∀ a ∈ arrivals.getLast?, a.info.timestamp < t) :
    arrivals.filter (·.info.timestamp < t) = arrivals := by
  refine List.filter_eq_self.mpr fun a ha => decide_eq_true ?_
  cases hl : arrivals.getLast? with
  | none =>
      rw [List.getLast?_eq_none_iff.mp hl] at ha
      cases ha
  | some l =>
      obtain ⟨before, rfl⟩ := List.getLast?_eq_some_iff.mp hl
      rcases List.mem_append.mp ha with ha | ha
      · have hal := (List.pairwise_append.mp hkeys).2.2 a ha l (by simp)
        exact Std.lt_of_le_of_lt (timestamp_le_of_key_lt hal) (hlast l hl)
      · rw [List.mem_singleton.mp ha]
        exact hlast l hl

/-- **A time between bundles parts them**: asked about it, the whole index answers like the one
without the later bundles. -/
theorem answersAs_offerAll
    (haccepted : ((empty true).offerAll (earlier ++ later)).2 = earlier ++ later)
    (hkeeps : ∀ b ∈ earlier ++ later, ∀ c ∈ b.changes, c.purges = false)
    (hby : ∀ b ∈ earlier, b.info.timestamp ≤ t) (hlater : ∀ b ∈ later, t < b.info.timestamp) :
    AnswersAs ((empty true).offerAll (earlier ++ later)).1 (.time t)
      ((empty true).offerAll earlier).1 .latest := by
  obtain ⟨hearlier, hrest⟩ := List.forall_mem_append.mp hkeeps
  have hbefore : ((empty true).offerAll earlier).1 = earlier.foldl apply (empty true) := by
    rw [offerAll_eq, offerAll_eq_of_prefix haccepted (List.prefix_append earlier later)]
  have hwhole : ((empty true).offerAll (earlier ++ later)).1
      = later.foldl apply ((empty true).offerAll earlier).1 := by
    rw [offerAll_eq, haccepted, List.foldl_append, ← hbefore]
  have hhistory : ((empty true).offerAll earlier).1.keepingHistory = true := by
    rw [hbefore]
    exact keepingHistory_foldl_apply (empty true) earlier
  have hends : EndsBy t ((empty true).offerAll earlier).1 := by
    rw [hbefore]
    exact (EndsBy.empty t true).foldl_apply rfl hby hearlier
  have hplaced (bs : List Bundle) : Placed ((empty true).offerAll bs).1 := by
    rw [offerAll_eq]
    exact List.foldlRecOn _ _ (fun _ _ h => by cases h) fun _ h b _ => h.apply b
  have hpast : ((empty true).offerAll (earlier ++ later)).1.upTo t
      = ((empty true).offerAll earlier).1.upTo t := by
    rw [hwhole]
    exact upTo_foldl_apply hhistory hlater hrest
  have halike : AnswersAlikeAt t ((empty true).offerAll (earlier ++ later)).1
      ((empty true).offerAll earlier).1 :=
    ((hplaced (earlier ++ later)).answersAlikeAt_upTo t).symm.trans
      (hpast ▸ (hplaced earlier).answersAlikeAt_upTo t)
  have hends : AnswersAs ((empty true).offerAll earlier).1 (.time t)
      ((empty true).offerAll earlier).1 (.time Int64.maxValue) :=
    hends.answersAs (Int64.le_maxValue t)
  have hlatest : AnswersAs ((empty true).offerAll earlier).1 (.time Int64.maxValue)
      ((empty true).offerAll earlier).1 .latest := .of_resolveAsOf rfl
  exact (AnswersAs.of_answersAlikeAt halike).trans (hends.trans hlatest)

/-- Bundles that come in the order of their times and owners are stored in the order in which they
come. -/
theorem keys_bundles_offerAll (hkeys : arrivals.Pairwise fun a b => compare a.key b.key = .lt)
    (haccepted : ((empty true).offerAll arrivals).2 = arrivals) :
    ((empty true).offerAll arrivals).1.bundles.keys = arrivals.map Bundle.key := by
  refine eq_of_mem_iff_of_pairwise (SortedMap.pairwise_keys _) (List.pairwise_map.mpr hkeys)
    (fun k => compare_self_ne_lt k) (fun k l hlt hgt => ?_) fun k => ?_
  · rw [Std.OrientedOrd.eq_swap, hgt] at hlt
    cases hlt
  · have hlast := keepsLast_offerAll true arrivals k
    rw [haccepted] at hlast
    rw [SortedMap.mem_keys_iff, hlast, List.mem_map]
    constructor
    · rintro ⟨b, hb⟩
      obtain ⟨hmem, hk⟩ := List.mem_filter.mp (List.mem_of_getLast? hb)
      exact ⟨b, hmem, of_decide_eq_true hk⟩
    · rintro ⟨b, hb, rfl⟩
      have hmem : b ∈ arrivals.filter (·.key = b.key) := List.mem_filter.mpr ⟨hb, by simp⟩
      exact ⟨_, List.getLast?_eq_some_getLast (List.ne_nil_of_mem hmem)⟩

/-- Some bundles ago is just before the first of the most recent ones. -/
theorem resolveAsOf_bundlesAgo {kept last : List Bundle} {n : UInt32} (hn : n ≠ 0)
    (hbundles : ix.bundles.keys = (kept ++ b :: last).map Bundle.key)
    (hlength : last.length + 1 = n.toNat) :
    ix.resolveAsOf (.bundlesAgo n) = .ok (b.info.timestamp - 1) := by
  have hindex : ((kept ++ b :: last).map Bundle.key).reverse[last.length]? = some b.key := by
    rw [List.map_append, List.map_cons, List.reverse_append, List.reverse_cons, List.append_assoc,
      List.getElem?_append_right (by simp)]
    simp
  have hpred : n.toNat - 1 = last.length := by omega
  rw [resolveAsOf, if_neg hn, hbundles, hpred, hindex]
  rfl

theorem resolveAsOf_bundlesAgo_eq_error {n : UInt32} (hn : n ≠ 0)
    (hbundles : ix.bundles.keys = arrivals.map Bundle.key) (hlength : arrivals.length < n.toNat) :
    ix.resolveAsOf (.bundlesAgo n) = .error (.asOfOutOfRange n arrivals.length) := by
  have hsize : ix.bundles.size = arrivals.length := by
    calc ix.bundles.size = ix.bundles.keys.length := (List.length_map _).symm
      _ = arrivals.length := by rw [hbundles, List.length_map]
  have hindex : (arrivals.map Bundle.key).reverse[n.toNat - 1]? = none := by
    rw [List.getElem?_eq_none_iff, List.length_reverse, List.length_map]
    omega
  rw [resolveAsOf, if_neg hn, hbundles, hindex, hsize]

end Runs

/-- **What some bundles ago means.** Add bundles in the order of their times and owners to an index
that keeps history, and let it accept all of them, none with a purge. Take any of them, and count
from the last bundle down to it. About so many bundles ago the index answers every question as one
that got only the bundles written before that bundle answers about the present. Those are all that
came before it if the last of them was written at an earlier time. About more bundles ago than there
are every question fails. -/
theorem bundles_ago (arrivals : List Bundle)
    (hkeys : arrivals.Pairwise fun a b => compare a.key b.key = .lt)
    (haccepted : ((empty true).offerAll arrivals).2 = arrivals)
    (hkeeps : ∀ b ∈ arrivals, ∀ c ∈ b.changes, c.purges = false) (n : UInt32) (hn : n ≠ 0) :
    let whole := ((empty true).offerAll arrivals).1
    (∀ kept b last, arrivals = kept ++ b :: last → last.length + 1 = n.toNat →
        AnswersAs whole (.bundlesAgo n)
            ((empty true).offerAll (kept.filter (·.info.timestamp < b.info.timestamp))).1 .latest
          ∧ ((∀ a ∈ kept.getLast?, a.info.timestamp < b.info.timestamp) →
            AnswersAs whole (.bundlesAgo n) ((empty true).offerAll kept).1 .latest))
      ∧ (arrivals.length < n.toNat →
        Fails whole (.bundlesAgo n) (.asOfOutOfRange n arrivals.length)) := by
  intro whole
  have hbundles : whole.bundles.keys = arrivals.map Bundle.key :=
    keys_bundles_offerAll hkeys haccepted
  refine ⟨?_, fun hlength =>
    fails_of_resolveAsOf (resolveAsOf_bundlesAgo_eq_error hn hbundles hlength)⟩
  rintro kept b last rfl hlength
  obtain ⟨hkept, hrest, hacross⟩ := List.pairwise_append.mp hkeys
  have hb (c : Bundle) (hc : c ∈ last) : ¬ c.info.timestamp < b.info.timestamp :=
    Std.not_lt.mpr (timestamp_le_of_key_lt ((List.pairwise_cons.mp hrest).1 c hc))
  have hbefore {c : Bundle} : c.info.timestamp ≤ b.info.timestamp - 1
      ↔ c.info.timestamp < b.info.timestamp := Timestamp.le_sub_one_iff b.timestamp_pos
  -- of the bundles kept those of the time of this one are taken for later ones
  have hsplit : kept.filter (·.info.timestamp < b.info.timestamp)
      ++ (kept.filter (fun a => !decide (a.info.timestamp < b.info.timestamp)) ++ b :: last)
      = kept ++ b :: last := by
    rw [← List.append_assoc, filter_append_filter_not]
    refine hkept.imp fun hlt hc => decide_eq_true ?_
    exact Std.lt_of_le_of_lt (timestamp_le_of_key_lt hlt) (of_decide_eq_true hc)
  have hparts : AnswersAs whole (.time (b.info.timestamp - 1))
      ((empty true).offerAll (kept.filter (·.info.timestamp < b.info.timestamp))).1 .latest := by
    have hparts := answersAs_offerAll (t := b.info.timestamp - 1) (hsplit.symm ▸ haccepted)
      (hsplit.symm ▸ hkeeps)
      (fun a ha => hbefore.mpr (of_decide_eq_true (List.mem_filter.mp ha).2)) fun c hc => by
        refine Std.not_le.mp fun hle => absurd (hbefore.mp hle) ?_
        rcases List.mem_append.mp hc with hc | hc
        · simpa using (List.mem_filter.mp hc).2
        · rcases List.mem_cons.mp hc with rfl | hc
          · exact Std.lt_irrefl
          · exact hb c hc
    rwa [hsplit] at hparts
  have hago : whole.resolveAsOf (.bundlesAgo n)
      = whole.resolveAsOf (.time (b.info.timestamp - 1)) :=
    resolveAsOf_bundlesAgo hn hbundles hlength
  have hearlier := (AnswersAs.of_resolveAsOf hago).trans hparts
  refine ⟨hearlier, fun hlast => ?_⟩
  rwa [filter_eq_self_of_getLast? hkept hlast] at hearlier

/-- Two owners write at the same times. Two bundles ago was before the moves, the clearance and the
new value, some of which come at the time of the bundle after the last one left. -/
theorem bundles_ago_acrossOwners :
    let sequence : Muid := ⟨-1, -1, 2⟩
    let box : Muid := ⟨-1, -1, 1⟩
    let write (value : UInt8) : Change :=
      .entry { behavior := .box, container := some box, value := some [value] }
    let first := Bundle.ofValid ⟨10, 1, 10, none, none⟩ [.push sequence [1], write 2] rfl
      (by decide) (by decide)
    let second := Bundle.ofValid ⟨10, 2, 10, none, none⟩ [.push sequence [3], .push sequence [4]]
      rfl (by decide) (by decide)
    let third := Bundle.ofValid ⟨11, 1, 10, some 10, none⟩
      [.moveEntry sequence ⟨10, 2, 1⟩ 5, .removeEntry sequence ⟨10, 1, 1⟩ false, write 6] rfl
      (by decide) (by decide)
    let fourth := Bundle.ofValid ⟨11, 2, 10, some 10, none⟩ [.clear box false] rfl (by decide)
      (by decide)
    let arrivals := [first, second, third, fourth]
    let whole := ((empty true).offerAll arrivals).1
    let before := ((empty true).offerAll [first, second]).1
    AnswersAs whole (.bundlesAgo 2) before .latest
      ∧ Fails whole (.bundlesAgo 5) (.asOfOutOfRange 5 4)
      ∧ whole.orderedEntries sequence none .latest ≠ before.orderedEntries sequence none .latest
      ∧ whole.entryByKey box .unit .latest ≠ before.entryByKey box .unit .latest := by
  intro sequence box write first second third fourth arrivals whole before
  have hago (n : UInt32) (hn : n ≠ 0) := bundles_ago arrivals (by decide +kernel)
    (by decide +kernel) (by decide +kernel) n hn
  have hparts : arrivals = [first, second] ++ third :: [fourth] := rfl
  have hlast : ∀ a ∈ [first, second].getLast?, a.info.timestamp < third.info.timestamp := by
    decide +kernel
  have htwo : AnswersAs whole (.bundlesAgo 2) before .latest :=
    ((hago 2 (by decide)).1 [first, second] third [fourth] hparts rfl).2 hlast
  have hfive : Fails whole (.bundlesAgo 5) (.asOfOutOfRange 5 4) :=
    (hago 5 (by decide)).2 (by decide)
  refine ⟨htwo, hfive, ?_, ?_⟩
  · decide +kernel
  · decide +kernel

/-- Two owners write at one time. One bundle ago was before both of them. -/
theorem bundles_ago_sameTime :
    let write (value : UInt8) : Change := .setKey .root (.text "k") [value]
    let first := Bundle.ofValid ⟨10, 1, 10, none, none⟩ [write 1] rfl (by decide) (by decide)
    let second := Bundle.ofValid ⟨10, 2, 10, none, none⟩ [write 2] rfl (by decide) (by decide)
    let whole := ((empty true).offerAll [first, second]).1
    let before := ((empty true).offerAll [first]).1
    ((empty true).offerAll [first, second]).2 = [first, second]
      ∧ compare first.key second.key = .lt
      ∧ (∀ b ∈ [first, second], ∀ c ∈ b.changes, c.purges = false)
      ∧ whole.entryByKey .root (.scalar (.text "k")) (.bundlesAgo 1) = .ok none
      ∧ before.entryByKey .root (.scalar (.text "k")) .latest ≠ .ok none := by
  decide +kernel

end Index

end GossipStore
