import GossipStore.Bundle.Bundler
import GossipStore.Proofs.Index.Past

set_option autoImplicit false

/-! # What a clearance hides

A clearance of a container hides what was placed there before, and one that purges drops it. This
holds for good: a later purge of the container takes the records of earlier clearances with it, but
also the entries that these have hidden, and lets no older entry in (`Hides.applyChange`). So once
a bundle that clears a container has been accepted, no question shows an older entry of the
container, however late it arrives and wherever in the container it is moved
(`cleared_not_shown`). The exception is the root, whose address stands for another one in a
clearance (`cleared_not_shown_root`).
-/

namespace GossipStore.Index

/-! ## What a question shows -/

/-- Whether the answer to some question about a moment has an entry in it. -/
inductive Shows (ix : Index) (asOf : AsOf) (e : Entry) : Prop where
  | byKey (container : Muid) (key : StorageKey)
      (answer : ix.entryByKey container key asOf = .ok (some e))
  | byId (entryId : Muid) (answer : ix.entryById entryId asOf = .ok (some e))
  | keyed (container : Muid) (key : StorageKey) (entries : SortedMap StorageKey Entry)
      (answer : ix.keyedEntries container asOf = .ok entries) (found : entries.get? key = some e)
  | ordered (container : Muid) (limit : Option Int64) (entries : List Entry)
      (answer : ix.orderedEntries container limit asOf = .ok entries) (found : e ∈ entries)
  | touching (vertex : Muid) (side : PairSide) (entries : List Entry)
      (answer : ix.entriesTouching vertex side asOf = .ok entries) (found : e ∈ entries)

section Answers

variable {ix : Index} {asOf : AsOf} {t : Timestamp} {e : Entry}

/-- An answer is about the time that the moment stands for. -/
theorem exists_resolveAsOf_of_answer {α : Type} {f : Timestamp → α} {a : α}
    (h : (ix.resolveAsOf asOf).bind (fun t => .ok (f t)) = .ok a) :
    ∃ t, ix.resolveAsOf asOf = .ok t ∧ f t = a := by
  cases hr : ix.resolveAsOf asOf with
  | error x =>
      rw [hr] at h
      cases h
  | ok t =>
      rw [hr] at h
      exact ⟨t, rfl, Except.ok.inj h⟩

theorem mem_of_mem_limited {α : Type} {limit : Option Int64} {l : List α} {a : α}
    (h : a ∈ limited limit l) : a ∈ l := by
  unfold limited at h
  cases limit with
  | none => exact h
  | some n =>
      simp only at h
      split at h
      · exact List.mem_of_mem_take h
      · exact List.mem_reverse.mp (List.mem_of_mem_take h)

/-- An entry that is stored and at its place at a time. -/
def StandsAt (ix : Index) (t : Timestamp) (e : Entry) : Prop :=
  (∃ p, ix.entries.get? p = some e) ∧ ix.isLive e t = true

theorem standsAt_of_newestUpTo? {placements : List Muid}
    (h : (ix.newestUpTo? placements t).filter (ix.isLive · t) = some e) : ix.StandsAt t e := by
  obtain ⟨hnewest, hlive⟩ := Option.filter_eq_some_iff.mp h
  obtain ⟨p, -, he⟩ := Option.bind_eq_some_iff.mp hnewest
  exact ⟨⟨p, he⟩, hlive⟩

theorem standsAt_of_mem_filter {ρ : Type} {rows : List ρ} {placement : ρ → Muid}
    (h : e ∈ (rows.filterMap fun r => ix.entries.get? (placement r)).filter (ix.isVisible · t)) :
    ix.StandsAt t e := by
  obtain ⟨hmem, hvisible⟩ := List.mem_filter.mp h
  obtain ⟨r, -, he⟩ := List.mem_filterMap.mp hmem
  exact ⟨⟨placement r, he⟩, (Bool.and_eq_true_iff.mp hvisible).2⟩

theorem standsAt_of_foldl_keyedStep {rows : List KeyRow} {key : StorageKey}
    (h : (rows.foldl (ix.keyedStep t) .empty).get? key = some e) : ix.StandsAt t e := by
  rw [get?_foldl_keyedStep] at h
  cases hlast : (ix.liveAtKey t key rows).getLast? with
  | none =>
      rw [hlast] at h
      cases h
  | some last =>
      rw [hlast] at h
      -- the last live entry leaves itself or nothing
      have hleaves : leaves last = some e := h
      obtain rfl : last = e := by
        unfold leaves at hleaves
        split at hleaves
        · cases hleaves
        · exact Option.some.inj hleaves
      obtain ⟨hmem, hlive⟩ := List.mem_filter.mp (List.mem_of_getLast? hlast)
      obtain ⟨r, -, he⟩ := List.mem_filterMap.mp hmem
      exact ⟨⟨r.placement, he⟩, hlive⟩

/-- **Every answer is made of stored entries at their places.** -/
theorem Shows.standsAt (h : ix.Shows asOf e) :
    ∃ t, ix.resolveAsOf asOf = .ok t ∧ ix.StandsAt t e := by
  cases h with
  | byKey container key answer =>
      obtain ⟨t, ht, hfound⟩ := exists_resolveAsOf_of_answer answer
      obtain ⟨hnewest, hvisible⟩ := Option.filter_eq_some_iff.mp hfound
      exact ⟨t, ht, standsAt_of_newestUpTo? (Option.filter_eq_some_iff.mpr
        ⟨hnewest, (Bool.and_eq_true_iff.mp hvisible).2⟩)⟩
  | byId entryId answer =>
      obtain ⟨t, ht, hfound⟩ := exists_resolveAsOf_of_answer answer
      exact ⟨t, ht, standsAt_of_newestUpTo? hfound⟩
  | keyed container key entries answer found =>
      obtain ⟨t, ht, rfl⟩ := exists_resolveAsOf_of_answer answer
      exact ⟨t, ht, standsAt_of_foldl_keyedStep found⟩
  | ordered container limit entries answer found =>
      obtain ⟨t, ht, rfl⟩ := exists_resolveAsOf_of_answer answer
      exact ⟨t, ht, standsAt_of_mem_filter (mem_of_mem_limited found)⟩
  | touching vertex side entries answer found =>
      obtain ⟨t, ht, rfl⟩ := exists_resolveAsOf_of_answer answer
      exact ⟨t, ht, standsAt_of_mem_filter found⟩

end Answers

/-! ## Entries that a purge finds -/

/-- Every entry is stored under its own placement, and the row under its container and key leads
to it. Rows of entries that are no more do no harm. -/
structure Filed (ix : Index) : Prop where
  placed : Placed ix
  listed : ∀ p e, ix.entries.get? p = some e → keyRow e ∈ ix.byKey.members

theorem byKey_deleteEntry {ix : Index} {p : Muid} {r : KeyRow} (hr : r ∈ ix.byKey.members)
    (hne : r.placement ≠ p) : r ∈ (ix.deleteEntry p).byKey.members := by
  unfold deleteEntry
  cases ix.entries.get? p with
  | none => exact hr
  | some e =>
      refine SortedSet.mem_members_remove.mpr ⟨?_, hr⟩
      rintro rfl
      exact hne rfl

theorem lasting_filed : Lasting Filed where
  insertEntry {ix} h e := by
    refine ⟨h.placed.insertEntry e, fun p f hf => SortedSet.mem_members_add.mpr ?_⟩
    rw [get?_entries_insertEntry] at hf
    split at hf
    · exact .inl (congrArg keyRow (Option.some.inj hf).symm)
    · exact .inr (h.listed p f hf)
  deleteEntry {ix} h q := by
    refine ⟨h.placed.deleteEntry q, fun p f hf => ?_⟩
    rw [get?_entries_deleteEntry] at hf
    split at hf
    · cases hf
    · rename_i hne
      have hplacement : (keyRow f).placement = p := h.placed p f hf
      exact byKey_deleteEntry (h.listed p f hf) (hplacement ▸ hne)
  frame {ix ix'} h hentries hrows := by
    refine ⟨fun p e he => h.placed p e (hentries ▸ he), fun p e he => ?_⟩
    rw [hrows]
    exact h.listed p e (hentries ▸ he)

theorem filed_empty (keepingHistory : Bool) : Filed (empty keepingHistory) where
  placed _ _ h := by cases h
  listed _ _ h := by cases h

variable {ix : Index} {container id : Muid}

/-- A purge leaves no entry that it covers. -/
theorem Filed.not_lt_of_purged (h : Filed ix) {p : Muid} {e : Entry}
    (he : (ix.purgeContainer container id).entries.get? p = some e)
    (hcontainer : e.container = container) : ¬ e.placement < id := by
  intro hlt
  rw [entries_purgeContainer] at he
  split at he
  · cases he
  · rename_i hkept
    have hcovered : (keyRow e).container = container && (keyRow e).placement < id := by
      simp [keyRow, hcontainer, hlt]
    have hrow : keyRow e ∈ ix.byKey.members.filter fun r =>
        r.container = container && r.placement < id :=
      List.mem_filter.mpr ⟨h.listed p e he, hcovered⟩
    exact hkept (List.mem_map.mpr ⟨keyRow e, hrow, h.placed p e he⟩)

/-- A clearance brings nothing in. -/
theorem of_get?_entries_applyClearance {c : ClearanceChange} {p : Muid} {e : Entry}
    (he : (ix.applyClearance id c).entries.get? p = some e) : ix.entries.get? p = some e := by
  rw [applyClearance_eq, afterPurge] at he
  split at he
  · have he : (ix.purgeContainer (clearedContainer id c) id).entries.get? p = some e := he
    rw [entries_purgeContainer] at he
    split at he
    · cases he
    · exact he
  · exact he

/-! ## Clearances that last -/

/-- A purge of the container at an address is on record, and no older entry is stored. -/
structure Emptied (ix : Index) (container id : Muid) : Prop where
  purging : ∃ x, ix.clearances.get? ⟨container, id⟩ = some x ∧ x.purging = true
  gone : ∀ p e, ix.entries.get? p = some e → e.container = container → ¬ e.placement < id

/-- What was placed in a container before an address is hidden: a clearance at the address is on
record, or a purge at the address or a later one has left nothing of it. -/
inductive Hides (ids : List Muid) (ix : Index) (container id : Muid) : Bool → Prop where
  | cleared (x : Clearance) (recorded : ix.clearances.get? ⟨container, id⟩ = some x) :
      Hides ids ix container id false
  | emptied (purge : Bool) (later : Muid) (used : later ∈ ids) (notBefore : ¬ later < id)
      (emptied : ix.Emptied container later) : Hides ids ix container id purge

/-! ### Changes after a purge -/

theorem Emptied.isPurged {later : Muid} (h : ix.Emptied container later) (hlt : id < later) :
    ix.isPurged container id = true := by
  obtain ⟨x, hx, hpurging⟩ := h.purging
  refine List.any_eq_true.mpr ⟨(⟨container, later⟩, x), SortedMap.mem_toList_iff.mpr hx, ?_⟩
  simp [hlt, hpurging]

/-- An entry that is not purged does not disturb what has been emptied. -/
theorem Emptied.insertEntry (h : ix.Emptied container id) {e : Entry}
    (hkept : e.container = container → ¬ e.placement < id) :
    (ix.insertEntry e).Emptied container id where
  purging := h.purging
  gone p f hf := by
    rw [get?_entries_insertEntry] at hf
    split at hf
    · rw [← Option.some.inj hf]
      exact hkept
    · exact h.gone p f hf

theorem Emptied.deleteEntry (h : ix.Emptied container id) (p : Muid) :
    (ix.deleteEntry p).Emptied container id where
  purging := by
    rw [(deleteEntry_frame ix p).2.2.2]
    exact h.purging
  gone q e he := h.gone q e (of_get?_entries_deleteEntry he)

theorem Emptied.applyEntry {later : Muid} (h : ix.Emptied container later) (c : EntryChange) :
    (ix.applyEntry id c).Emptied container later := by
  have hroom : (ix.makeRoom id c).Emptied container later := by
    rcases makeRoom_cases ix id c with hsame | ⟨r, -, hremoval⟩ | ⟨previous, hdelete⟩
    · rw [hsame]
      exact h
    · rw [hremoval]
      exact ⟨h.purging, h.gone⟩
    · rw [hdelete]
      exact h.deleteEntry previous
  rw [applyEntry_eq]
  split
  · exact h
  · rename_i hkept
    refine hroom.insertEntry fun hcontainer hlt => hkept ?_
    rw [hcontainer]
    exact h.isPurged hlt

theorem Emptied.applyMovement {later : Muid} (h : ix.Emptied container later)
    (m : MovementChange) : (ix.applyMovement id m).Emptied container later := by
  rw [applyMovement_eq]
  split
  · exact h
  · split
    · exact h
    · rename_i x _
      split
      · exact h
      · rename_i hkept
        -- the entry stays in its container when it is moved, which is not purged
        have hmoved : (ix.insertMoved id m x).Emptied container later := by
          rw [insertMoved]
          split
          · exact h
          · refine h.insertEntry fun hcontainer hlt => hkept ?_
            rw [show x.container = container from hcontainer]
            exact h.isPurged hlt
        rw [moveFrom]
        split
        · exact hmoved.deleteEntry _
        · exact ⟨hmoved.purging, hmoved.gone⟩

/-- After a purge nothing older is stored. -/
theorem Filed.emptied (h : Filed ix) {c : ClearanceChange} (hpurge : c.purge = true) :
    (ix.applyClearance id c).Emptied (clearedContainer id c) id where
  purging := by
    rw [get?_clearances_applyClearance, if_pos rfl]
    exact ⟨_, rfl, hpurge⟩
  gone p e he hcontainer := by
    rw [applyClearance_eq, afterPurge, if_pos hpurge] at he
    exact h.not_lt_of_purged he hcontainer

/-! ### Changes after a clearance -/

/-- A clearance with an address of its own leaves the record of another one alone, or purges its
container later. -/
theorem get?_clearances_applyClearance_of_ne {later : Muid} {c : ClearanceChange} {x : Clearance}
    (hx : ix.clearances.get? ⟨container, later⟩ = some x) (hne : later ≠ id) :
    (ix.applyClearance id c).clearances.get? ⟨container, later⟩ = some x
      ∨ Covers id c container later := by
  by_cases hcovers : Covers id c container later
  · exact .inr hcovers
  · left
    rw [get?_clearances_applyClearance, if_neg fun h => hne (ClearanceKey.mk.inj h).2, hx,
      Option.filter_some]
    simp [hcovers]

theorem Hides.applyClearance {ids : List Muid} {first : Muid} {purge : Bool}
    (h : Hides ids ix container first purge) (hfiled : Filed ix) (hfirst : first ∈ ids)
    (hnew : id ∉ ids) (c : ClearanceChange) :
    Hides (ids ++ [id]) (ix.applyClearance id c) container first purge := by
  -- a purge that covers what a clearance on record hides takes its part
  have hcovered {later : Muid} (hlater : ¬ later < first) (hcovers : Covers id c container later) :
      Hides (ids ++ [id]) (ix.applyClearance id c) container first purge := by
    obtain ⟨hpurge, rfl, hlt⟩ := hcovers
    refine .emptied purge id (by simp) (fun hid => hlater (Muid.lt_trans hlt hid)) ?_
    exact hfiled.emptied hpurge
  cases h with
  | cleared x recorded =>
      have hne : first ≠ id := fun h => hnew (h ▸ hfirst)
      rcases get?_clearances_applyClearance_of_ne (c := c) recorded hne with hkept | hcovers
      · exact .cleared x hkept
      · exact hcovered (Muid.lt_irrefl first) hcovers
  | emptied _ later used notBefore emptied =>
      obtain ⟨x, hx, hpurging⟩ := emptied.purging
      have hne : later ≠ id := fun h => hnew (h ▸ used)
      rcases get?_clearances_applyClearance_of_ne (c := c) hx hne with hkept | hcovers
      · exact .emptied purge later (List.mem_append_left _ used) notBefore ⟨⟨x, hkept, hpurging⟩,
          fun p e he => emptied.gone p e (of_get?_entries_applyClearance he)⟩
      · exact hcovered notBefore hcovers

theorem clearances_applyEntry (ix : Index) (id : Muid) (c : EntryChange) :
    (ix.applyEntry id c).clearances = ix.clearances := by
  have hroom : (ix.makeRoom id c).clearances = ix.clearances := by
    rcases makeRoom_cases ix id c with hsame | ⟨r, -, hremoval⟩ | ⟨previous, hdelete⟩
    · rw [hsame]
    · rw [hremoval]
      rfl
    · rw [hdelete]
      exact (deleteEntry_frame ix previous).2.2.2
  rw [applyEntry_eq]
  split
  · rfl
  · exact hroom

theorem clearances_applyMovement (ix : Index) (id : Muid) (m : MovementChange) :
    (ix.applyMovement id m).clearances = ix.clearances := by
  rcases applyMovement_cases ix id m with hsame | ⟨x, hmoves⟩
  · rw [hsame]
  · rw [hmoves]
    exact (moveFrom_frame id m x ix).2

/-- **What is hidden stays hidden**, whatever change of a new address comes. -/
theorem Hides.applyChange {ids : List Muid} {first : Muid} {purge : Bool}
    (h : Hides ids ix container first purge) (hfiled : Filed ix) (hfirst : first ∈ ids)
    (hnew : id ∉ ids) (c : Change) :
    Hides (ids ++ [id]) (ix.applyChange id c) container first purge := by
  have hused {later : Muid} : later ∈ ids → later ∈ ids ++ [id] := List.mem_append_left [id]
  cases c with
  | clearance c => exact h.applyClearance hfiled hfirst hnew c
  | container behavior =>
      cases h with
      | cleared x recorded => exact .cleared x recorded
      | emptied _ later used notBefore emptied =>
          exact .emptied purge later (hused used) notBefore ⟨emptied.purging, emptied.gone⟩
  | entry e =>
      cases h with
      | cleared x recorded =>
          refine .cleared x ?_
          rw [Index.applyChange, clearances_applyEntry]
          exact recorded
      | emptied _ later used notBefore emptied =>
          exact .emptied purge later (hused used) notBefore (emptied.applyEntry e)
  | movement m =>
      cases h with
      | cleared x recorded =>
          refine .cleared x ?_
          rw [Index.applyChange, clearances_applyMovement]
          exact recorded
      | emptied _ later used notBefore emptied =>
          exact .emptied purge later (hused used) notBefore (emptied.applyMovement m)

theorem Hides.applyChanges {ids : List Muid} {first : Muid} {purge : Bool}
    {changes : List (Muid × Change)} (h : Hides ids ix container first purge) (hfiled : Filed ix)
    (hfirst : first ∈ ids) (hnew : (ids ++ changes.map Prod.fst).Nodup) :
    Hides (ids ++ changes.map Prod.fst) (ix.applyChanges changes) container first purge := by
  induction changes generalizing ids ix with
  | nil =>
      rw [List.map_nil, List.append_nil]
      exact h
  | cons x rest ih =>
      obtain ⟨id, c⟩ := x
      rw [List.map_cons, List.append_cons] at hnew ⊢
      have hid : id ∉ ids := fun hmem =>
        (List.nodup_append.mp (List.nodup_append.mp hnew).1).2.2 id hmem id (by simp) rfl
      exact ih (h.applyChange hfiled hfirst hid c) (lasting_filed.applyChange hfiled id c)
        (List.mem_append_left [id] hfirst) hnew

theorem Hides.withRecords {ids : List Muid} {first : Muid} {purge : Bool}
    (h : Hides ids ix container first purge) (chains : SortedMap ChainKey BundleInfo)
    (bundles : SortedMap BundleKey Bundle) (claims : List ClaimedChain) :
    Hides ids (ix.withRecords chains bundles claims) container first purge := by
  cases h with
  | cleared x recorded => exact .cleared x recorded
  | emptied _ later used notBefore emptied =>
      exact .emptied purge later used notBefore ⟨emptied.purging, emptied.gone⟩

/-- A clearance hides what was placed before it. -/
theorem Filed.hides (h : Filed ix) (c : ClearanceChange) :
    Hides [id] (ix.applyClearance id c) (clearedContainer id c) id c.purge := by
  cases hpurge : c.purge with
  | true =>
      exact .emptied true id (List.mem_singleton_self id) (Muid.lt_irrefl id) (h.emptied hpurge)
  | false =>
      refine .cleared ⟨clearedContainer id c, id, c.purge⟩ ?_
      rw [get?_clearances_applyClearance, if_pos rfl]

/-! ### What is hidden is not shown -/

theorem Hides.not_standsAt {ids : List Muid} {purge : Bool} (h : Hides ids ix container id purge)
    {t : Timestamp} (ht : purge = true ∨ id.timestamp ≤ t) {e : Entry}
    (hcontainer : e.container = container) (hlt : e.placement < id) : ¬ ix.StandsAt t e := by
  rintro ⟨⟨p, hp⟩, hlive⟩
  cases h with
  | cleared x recorded =>
      have hle : id.timestamp ≤ t := ht.resolve_left Bool.false_ne_true
      have hcleared : ix.isCleared e t = true :=
        isCleared_iff_exists.mpr ⟨_, x, recorded, hcontainer.symm, hle, hlt⟩
      simp [isLive, hcleared] at hlive
  | emptied _ later used notBefore emptied =>
      exact emptied.gone p e hp hcontainer (Muid.lt_of_lt_of_not_lt hlt notBefore)

/-! ## Accepted bundles -/

/-- A clearance names the container that entries for the same address come into, unless that is
the root. -/
theorem clearedContainer_clear {c : Muid} (hroot : c ≠ .root) (id : Muid) (purge : Bool)
    (behavior : Behavior) : clearedContainer id ⟨c, purge⟩
      = (EntryChange.of behavior c).containerId id.timestamp id.medallion := by
  rw [EntryChange.of, EntryChange.containerId, containerField, if_neg hroot]
  rfl

/-- The tables after a bundle and some others hide what a clearance in the bundle is about. -/
theorem Filed.hides_foldl_apply (h : Filed ix) {b : Bundle} {c : ClearanceChange}
    (hclear : (id, .clearance c) ∈ b.changesWithIds) {rest : List Bundle}
    (hids : (((b :: rest).flatMap Bundle.changesWithIds).map Prod.fst).Nodup) :
    ∃ ids, Hides ids ((b :: rest).foldl Index.apply ix) (clearedContainer id c) id c.purge := by
  obtain ⟨before, after, hsplit⟩ := List.append_of_mem hclear
  have hall : (b :: rest).flatMap Bundle.changesWithIds
      = before ++ (id, .clearance c) :: (after ++ rest.flatMap Bundle.changesWithIds) := by
    rw [List.flatMap_cons, hsplit, List.append_assoc, List.cons_append]
  -- the changes up to the clearance only matter through the rows that they leave
  have hstart : Filed (ix.applyChanges before) := lasting_filed.applyChanges h before
  have hcleared : Hides [id] ((ix.applyChanges before).applyClearance id c)
      (clearedContainer id c) id c.purge := hstart.hides c
  rw [hall, List.map_append, List.map_cons] at hids
  have hrest := hcleared.applyChanges (lasting_filed.applyClearance hstart id c)
    (List.mem_singleton_self id) (List.nodup_append.mp hids).2.1
  obtain ⟨chains, bundles, htables⟩ := foldl_apply_eq ix (b :: rest)
  have hchanges : ix.applyChanges ((b :: rest).flatMap Bundle.changesWithIds)
      = ((ix.applyChanges before).applyClearance id c).applyChanges
        (after ++ rest.flatMap Bundle.changesWithIds) := by
    rw [hall]
    exact List.foldl_append
  rw [htables, hchanges]
  exact ⟨_, hrest.withRecords chains bundles ix.claims⟩

/-- **Clearing a container hides everything placed in it before.** Let an index accept, after any
bundles, one that clears a container other than the root, and offer it any further bundles. As long
as those accepted from then on have distinct times or owners and no more changes than there are
offsets, no question about the time of the clearing bundle or a later one shows an entry that was
placed in the container before the clearance, and after a purge no question at all does. -/
theorem cleared_not_shown (keepingHistory : Bool) (arrivals later : List Bundle) (b : Bundle)
    (ix : Index) (c id : Muid) (purge : Bool) (e : Entry)
    (hadd : ((empty keepingHistory).offerAll arrivals).1.add b = .ok (ix, true))
    (hclear : (id, Change.clear c purge) ∈ b.changesWithIds) (hroot : c ≠ .root)
    (hkeys : (b :: (ix.offerAll later).2).Pairwise fun a b => a.key ≠ b.key)
    (hsize : ∀ a ∈ b :: (ix.offerAll later).2, a.changes.length ≤ 0x100000000)
    (hcontainer : e.container
      = (EntryChange.of e.behavior c).containerId b.info.timestamp b.info.medallion)
    (hlt : e.placement < id) :
    (∀ asOf t, Moment asOf t → b.info.timestamp ≤ t → ¬ (ix.offerAll later).1.Shows asOf e)
      ∧ (purge = true → ∀ asOf, ¬ (ix.offerAll later).1.Shows asOf e) := by
  obtain ⟨-, rfl⟩ := add_eq_ok_true_iff.mp hadd
  have hfiled : Filed ((empty keepingHistory).offerAll arrivals).1 := by
    rw [offerAll_eq]
    exact List.foldlRecOn _ _ (filed_empty keepingHistory) fun _ h b _ => lasting_filed.apply h b
  generalize ((empty keepingHistory).offerAll arrivals).1 = start at *
  have hids := nodup_flatMap_changesWithIds (hkeys.imp Bundle.key_ne_iff.mp) hsize
  obtain ⟨ids, hhides⟩ := hfiled.hides_foldl_apply hclear hids
  rw [List.foldl_cons, ← offerAll_eq] at hhides
  have htime : id.timestamp = b.info.timestamp := timestamp_of_mem_changesWithIds hclear
  have howner : id.medallion = b.info.medallion := by
    obtain ⟨y, -, hy⟩ := List.mem_map.mp hclear
    rw [← (Prod.mk.inj hy).1]
    rfl
  have hcleared : e.container = clearedContainer id ⟨c, purge⟩ := by
    rw [hcontainer, clearedContainer_clear hroot id purge e.behavior, htime, howner]
  constructor
  · intro asOf t hmoment hle hshows
    obtain ⟨t', ht', hstands⟩ := hshows.standsAt
    rw [resolveAsOf_of_moment _ hmoment] at ht'
    cases ht'
    exact hhides.not_standsAt (.inr (htime ▸ hle)) hcleared hlt hstands
  · intro hpurge asOf hshows
    obtain ⟨t, -, hstands⟩ := hshows.standsAt
    exact hhides.not_standsAt (.inl hpurge) hcleared hlt hstands

/-- After a sequence has been cleared, an older movement arrives and gives an entry a place. It is
not shown any more, and if the clearance purges it is not even shown at its own time. -/
theorem cleared_not_shown_lateMovement :
    let sequence : Muid := ⟨-1, -1, 2⟩
    let first := Bundle.ofValid ⟨10, 1, 10, none, none⟩ [.push sequence [1]] rfl (by decide)
      (by decide)
    let clearing := Bundle.ofValid ⟨20, 1, 10, some 10, none⟩
      [.push sequence [2], .clear sequence false] rfl (by decide) (by decide)
    let purging := Bundle.ofValid ⟨20, 1, 10, some 10, none⟩
      [.push sequence [2], .clear sequence true] rfl (by decide) (by decide)
    let late := Bundle.ofValid ⟨15, 2, 15, none, none⟩ [.moveEntry sequence ⟨10, 1, 1⟩ 5] rfl
      (by decide) (by decide)
    let moved : Entry := ⟨.sequence, sequence, ⟨10, 1, 1⟩, .position 5, none, some [1], false,
      ⟨15, 2, 1⟩, none⟩
    let start := ((empty true).offerAll [first]).1
    let cleared := ((start.apply clearing).offerAll [late]).1
    let purged := ((start.apply purging).offerAll [late]).1
    start.add clearing = .ok (start.apply clearing, true)
      ∧ start.add purging = .ok (start.apply purging, true)
      ∧ cleared.entries.get? ⟨15, 2, 1⟩ = some moved
      ∧ cleared.Shows (.time 16) moved ∧ ¬ cleared.Shows .latest moved
      ∧ ¬ purged.Shows (.time 16) moved := by
  intro sequence first clearing purging late moved start cleared purged
  have hadd : start.add clearing = .ok (start.apply clearing, true) := by decide +kernel
  have hadd' : start.add purging = .ok (start.apply purging, true) := by decide +kernel
  have hcleared := cleared_not_shown true [first] [late] clearing _ sequence
    (clearing.changeId 2) false moved hadd (by decide +kernel) (by decide) (by decide +kernel)
    (by decide +kernel) rfl (by decide)
  have hpurged := cleared_not_shown true [first] [late] purging _ sequence
    (purging.changeId 2) true moved hadd' (by decide +kernel) (by decide) (by decide +kernel)
    (by decide +kernel) rfl (by decide)
  have hbefore : cleared.orderedEntries sequence none (.time 16) = .ok [moved] := by
    decide +kernel
  exact ⟨hadd, hadd', by decide +kernel,
    .ordered sequence none [moved] hbefore (List.mem_singleton_self moved),
    hcleared.1 .latest Int64.maxValue (.inr ⟨rfl, rfl⟩) (by decide), hpurged.2 rfl _⟩

/-- The address of the root is relative, so in a clearance it stands for an address of the bundle,
and clearing the root hides nothing of it, whether or not the clearance purges. -/
theorem cleared_not_shown_root :
    let first := Bundle.ofValid ⟨10, 1, 10, none, none⟩ [.setKey .root (.text "k") [0x61]] rfl
      (by decide) (by decide)
    let clearing := Bundle.ofValid ⟨20, 1, 10, some 10, none⟩ [.clear .root false] rfl (by decide)
      (by decide)
    let purging := Bundle.ofValid ⟨20, 1, 10, some 10, none⟩ [.clear .root true] rfl (by decide)
      (by decide)
    let e : Entry := ⟨.directory, .root, ⟨10, 1, 1⟩, .scalar (.text "k"), none, some [0x61], false,
      ⟨10, 1, 1⟩, none⟩
    let start := ((empty true).offerAll [first]).1
    start.add clearing = .ok (start.apply clearing, true)
      ∧ start.add purging = .ok (start.apply purging, true)
      ∧ (⟨20, 1, 1⟩, Change.clear .root false) ∈ clearing.changesWithIds
      ∧ (⟨20, 1, 1⟩, Change.clear .root true) ∈ purging.changesWithIds
      ∧ e.container = (EntryChange.of e.behavior .root).containerId 20 1
      ∧ e.placement < ⟨20, 1, 1⟩
      ∧ (start.apply clearing).Shows .latest e ∧ (start.apply purging).Shows .latest e := by
  intro first clearing purging e start
  have hfound : (start.apply clearing).entryByKey .root (.scalar (.text "k")) .latest
      = .ok (some e) := by decide +kernel
  have hfound' : (start.apply purging).entryByKey .root (.scalar (.text "k")) .latest
      = .ok (some e) := by decide +kernel
  exact ⟨by decide +kernel, by decide +kernel, by decide +kernel, by decide +kernel, rfl,
    by decide, .byKey _ _ hfound, .byKey _ _ hfound'⟩

end GossipStore.Index
