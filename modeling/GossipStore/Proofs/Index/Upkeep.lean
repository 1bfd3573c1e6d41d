import GossipStore.Index.History
import GossipStore.Proofs.Index.Movements

set_option autoImplicit false

/-! # Upkeep of an index

An index is changed by bundles that are added, by history that is dropped, and by keeping history
or not. Whatever of that is done and in whatever order, the tables of rows stay in step with the
records (`Tidy`), as long as no change is stored under an address that another one has had. The
addresses of two accepted bundles are distinct if their times or owners are, so the tables of an
index are tidy after every run of calls that accepts such bundles (`tidy_carryOutAll`). That is one
case of what every change of a new address upholds and all that is done about history
(`Upheld.carryOutAll`). What each storing and dropping of an entry keeps lasts through all of this,
whatever the addresses (`Lasting`).
-/

namespace GossipStore.Index

/-! ## Entries, with history or without -/

section Entries

variable (ix : Index) (id : Muid) (c : EntryChange)

/-- The placement that an entry supersedes when it comes in. -/
def superseded? : Option Muid :=
  if c.behavior.isReplacing then ix.previousAtKey? (entryOf id c).container (entryOf id c).key id
  else none

/-- The index without the placement that an entry supersedes. -/
def makeRoom : Index :=
  match ix.superseded? id c with
  | some previous => ix.supersede (entryOf id c).container previous id
  | none => ix

theorem applyEntry_eq : ix.applyEntry id c = if ix.isPurged (entryOf id c).container id then ix
    else (ix.makeRoom id c).insertEntry (entryOf id c) := rfl

/-- A placement is superseded by a removal that is recorded or by being dropped. -/
theorem makeRoom_cases : ix.makeRoom id c = ix
    ∨ (∃ r : Removal, r.removalId = id ∧ ix.makeRoom id c = ix.insertRemoval r)
    ∨ ∃ previous, ix.makeRoom id c = ix.deleteEntry previous := by
  rw [makeRoom]
  cases ix.superseded? id c with
  | none => exact .inl rfl
  | some previous =>
      simp only [supersede]
      split
      · exact .inr (.inl ⟨_, rfl, rfl⟩)
      · exact .inr (.inr ⟨previous, rfl⟩)

end Entries

/-! ## Whether history is kept -/

/-- Changes do not decide whether history is kept. -/
theorem keepingHistory_applyChange (ix : Index) (id : Muid) (c : Change) :
    (ix.applyChange id c).keepingHistory = ix.keepingHistory := by
  cases c with
  | container behavior => rfl
  | entry c =>
      have hroom : (ix.makeRoom id c).keepingHistory = ix.keepingHistory := by
        rcases makeRoom_cases ix id c with hsame | ⟨r, -, hremoval⟩ | ⟨previous, hdelete⟩
        · rw [hsame]
        · rw [hremoval]
          rfl
        · rw [hdelete]
          exact (deleteEntry_frame ix previous).1
      rw [applyChange, applyEntry_eq]
      split
      · rfl
      · exact hroom
  | movement m =>
      rw [applyChange]
      rcases applyMovement_cases ix id m with hsame | ⟨x, hmoves⟩
      · rw [hsame]
      · rw [hmoves]
        exact (moveFrom_frame id m x ix).1
  | clearance c => exact keepingHistory_applyClearance id c ix

theorem keepingHistory_applyChanges (ix : Index) (changes : List (Muid × Change)) :
    (ix.applyChanges changes).keepingHistory = ix.keepingHistory := by
  induction changes generalizing ix with
  | nil => rfl
  | cons x rest ih => exact (ih (ix.applyChange x.1 x.2)).trans (keepingHistory_applyChange ix _ _)

theorem keepingHistory_apply (ix : Index) (b : Bundle) :
    (ix.apply b).keepingHistory = ix.keepingHistory := by
  rw [apply_eq]
  exact keepingHistory_applyChanges ix b.changesWithIds

theorem Mirrored.withHistory {ix : Index} (h : Mirrored ix) (keepingHistory : Bool) :
    Mirrored { ix with keepingHistory } :=
  ⟨h.placed, h.byKey, h.byLocation, h.byPointee, h.bySource, h.byTarget, h.removed, h.byContainer⟩

/-! ## What all updates keep -/

/-- A property of the entries and of their rows by key that is kept when an entry is stored or
dropped. -/
structure Lasting (P : Index → Prop) : Prop where
  insertEntry : ∀ {ix}, P ix → ∀ e, P (ix.insertEntry e)
  deleteEntry : ∀ {ix}, P ix → ∀ p, P (ix.deleteEntry p)
  /-- The other tables do not matter. -/
  frame : ∀ {ix ix' : Index}, P ix → ix'.entries = ix.entries → ix'.byKey = ix.byKey → P ix'

namespace Lasting

variable {P : Index → Prop} {ix : Index}

theorem deleteRemoval (hP : Lasting P) (h : P ix) (k : RemovalKey) : P (ix.deleteRemoval k) := by
  refine hP.frame h (deleteRemoval_frame ix k).2.1 ?_
  rw [Index.deleteRemoval]
  cases ix.removals.get? k <;> rfl

theorem applyEntry (hP : Lasting P) (h : P ix) (id : Muid) (c : EntryChange) :
    P (ix.applyEntry id c) := by
  have hroom : P (ix.makeRoom id c) := by
    rcases makeRoom_cases ix id c with hsame | ⟨r, -, hremoval⟩ | ⟨previous, hdelete⟩
    · rw [hsame]
      exact h
    · rw [hremoval]
      exact hP.frame h rfl rfl
    · rw [hdelete]
      exact hP.deleteEntry h previous
  rw [applyEntry_eq]
  split
  · exact h
  · exact hP.insertEntry hroom _

theorem applyMovement (hP : Lasting P) (h : P ix) (id : Muid) (m : MovementChange) :
    P (ix.applyMovement id m) := by
  have hmoved (x : Entry) : P (ix.insertMoved id m x) := by
    rw [insertMoved]
    split
    · exact h
    · exact hP.insertEntry h _
  rcases applyMovement_cases ix id m with hsame | ⟨x, hmoves⟩
  · rw [hsame]
    exact h
  · rw [hmoves, moveFrom]
    split
    · exact hP.deleteEntry (hmoved x) _
    · exact hP.frame (hmoved x) rfl rfl

theorem applyClearance (hP : Lasting P) (h : P ix) (id : Muid) (c : ClearanceChange) :
    P (ix.applyClearance id c) := by
  rw [applyClearance_eq, afterPurge]
  split
  · rw [purgeContainer_eq]
    have hplaces := List.foldlRecOn (ix.purgedPlacements (clearedContainer id c) id) _ h
      fun _ h p _ => hP.deleteEntry h p
    have hdropped := List.foldlRecOn (ix.purgedRemovals (clearedContainer id c) id) _ hplaces
      fun _ h k _ => hP.deleteRemoval h k
    exact hP.frame hdropped rfl rfl
  · exact hP.frame h rfl rfl

theorem applyChange (hP : Lasting P) (h : P ix) (id : Muid) (c : Change) :
    P (ix.applyChange id c) := by
  cases c with
  | container behavior => exact hP.frame h rfl rfl
  | entry e => exact hP.applyEntry h id e
  | movement m => exact hP.applyMovement h id m
  | clearance c => exact hP.applyClearance h id c

theorem applyChanges (hP : Lasting P) (h : P ix) (changes : List (Muid × Change)) :
    P (ix.applyChanges changes) :=
  List.foldlRecOn changes _ h fun _ h x _ => hP.applyChange h x.1 x.2

theorem apply (hP : Lasting P) (h : P ix) (b : Bundle) : P (ix.apply b) := by
  rw [apply_eq]
  exact hP.frame (hP.applyChanges h b.changesWithIds) rfl rfl

theorem dropHistoryUpTo (hP : Lasting P) (h : P ix) (container : Option Muid) (t : Timestamp) :
    P (ix.dropHistoryUpTo container t).1 :=
  List.foldlRecOn _ _ h fun _ h k _ => hP.deleteRemoval (hP.deleteEntry h k.removing) k

end Lasting

/-! ## The invariant -/

/-- The tables of rows mirror the records, records stand under their own keys, and placements and
removals have addresses of changes that have been applied. -/
structure Tidy (ids : List Muid) (ix : Index) : Prop where
  mirrored : Mirrored ix
  placed : ∀ p e, ix.entries.get? p = some e → p ∈ ids
  removed : ∀ k r, ix.removals.get? k = some r → k.removalId ∈ ids
  filed : ∀ k c, ix.clearances.get? k = some c → ⟨c.container, c.clearanceId⟩ = k

namespace Tidy

variable {ids : List Muid} {ix : Index} {id : Muid}

theorem empty (keepingHistory : Bool) : Tidy [] (.empty keepingHistory) where
  mirrored := .empty keepingHistory
  placed p e h := by cases h
  removed k r h := by cases h
  filed k c h := by cases h

theorem mono (h : Tidy ids ix) {more : List Muid} (hsub : ids ⊆ more) : Tidy more ix where
  mirrored := h.mirrored
  placed p e he := hsub (h.placed p e he)
  removed k r hr := hsub (h.removed k r hr)
  filed := h.filed

/-- Nothing is placed under an address that no change has had. -/
theorem get?_entries_eq_none (h : Tidy ids ix) (hnew : id ∉ ids) : ix.entries.get? id = none :=
  Option.eq_none_iff_forall_ne_some.mpr fun e he => hnew (h.placed id e he)

theorem get?_removals_eq_none (h : Tidy ids ix) {k : RemovalKey} (hnew : k.removalId ∉ ids) :
    ix.removals.get? k = none :=
  Option.eq_none_iff_forall_ne_some.mpr fun r hr => hnew (h.removed k r hr)

/-! ### Updates -/

theorem insertEntry (h : Tidy ids ix) {e : Entry} (hfree : ix.entries.get? e.placement = none)
    (hid : e.placement ∈ ids) : Tidy ids (ix.insertEntry e) where
  mirrored := h.mirrored.insertEntry hfree
  placed p f hf := by
    rw [get?_entries_insertEntry] at hf
    split at hf
    · rename_i hp
      exact hp ▸ hid
    · exact h.placed p f hf
  removed := h.removed
  filed := h.filed

theorem insertRemoval (h : Tidy ids ix) {r : Removal}
    (hfree : ix.removals.get? (removalKey r) = none) (hid : r.removalId ∈ ids) :
    Tidy ids (ix.insertRemoval r) where
  mirrored := h.mirrored.insertRemoval hfree
  placed := h.placed
  removed k s hs := by
    rw [get?_removals_insertRemoval] at hs
    split at hs
    · rename_i hk
      exact hk ▸ hid
    · exact h.removed k s hs
  filed := h.filed

theorem deleteEntry (h : Tidy ids ix) (p : Muid) : Tidy ids (ix.deleteEntry p) where
  mirrored := h.mirrored.deleteEntry p
  placed q e he := h.placed q e (of_get?_entries_deleteEntry he)
  removed := by
    rw [(deleteEntry_frame ix p).2.1]
    exact h.removed
  filed := by
    rw [(deleteEntry_frame ix p).2.2.2]
    exact h.filed

theorem deleteRemoval (h : Tidy ids ix) (k : RemovalKey) : Tidy ids (ix.deleteRemoval k) where
  mirrored := h.mirrored.deleteRemoval k
  placed := by
    rw [(deleteRemoval_frame ix k).2.1]
    exact h.placed
  removed j r hr := h.removed j r (of_get?_removals_deleteRemoval hr)
  filed := by
    rw [(deleteRemoval_frame ix k).2.2]
    exact h.filed

theorem withRecords (h : Tidy ids ix) (chains : SortedMap ChainKey BundleInfo)
    (bundles : SortedMap BundleKey Bundle) (claims : List ClaimedChain) :
    Tidy ids (ix.withRecords chains bundles claims) :=
  ⟨h.mirrored.withRecords chains bundles claims, h.placed, h.removed, h.filed⟩

/-! ### Changes -/

theorem applyEntry (h : Tidy ids ix) (hnew : id ∉ ids) (c : EntryChange) :
    Tidy (ids ++ [id]) (ix.applyEntry id c) := by
  have hmono := h.mono (List.subset_append_left ids [id])
  have hid : id ∈ ids ++ [id] := by simp
  -- making room stores nothing under the address of the entry
  have hroom : Tidy (ids ++ [id]) (ix.makeRoom id c)
      ∧ (ix.makeRoom id c).entries.get? id = none := by
    have hfree := h.get?_entries_eq_none hnew
    rcases makeRoom_cases ix id c with hsame | ⟨r, hr, hremoval⟩ | ⟨previous, hdelete⟩
    · rw [hsame]
      exact ⟨hmono, hfree⟩
    · rw [hremoval]
      refine ⟨hmono.insertRemoval (h.get?_removals_eq_none ?_) (hr ▸ hid), hfree⟩
      exact fun hmem => hnew (hr ▸ hmem)
    · rw [hdelete]
      refine ⟨hmono.deleteEntry previous, ?_⟩
      rw [get?_entries_deleteEntry, hfree, ite_self]
  rw [applyEntry_eq]
  split
  · exact hmono
  · exact hroom.1.insertEntry hroom.2 hid

theorem applyMovement (h : Tidy ids ix) (hnew : id ∉ ids) (m : MovementChange) :
    Tidy (ids ++ [id]) (ix.applyMovement id m) := by
  have hmono := h.mono (List.subset_append_left ids [id])
  have hid : id ∈ ids ++ [id] := by simp
  -- the moved entry gets the address of the movement, which is free
  have hmoved (x : Entry) : Tidy (ids ++ [id]) (ix.moveFrom id m x) := by
    have hplaced : Tidy (ids ++ [id]) (ix.insertMoved id m x) := by
      rw [insertMoved]
      split
      · exact hmono
      · exact hmono.insertEntry (h.get?_entries_eq_none hnew) hid
    rw [moveFrom]
    split
    · exact hplaced.deleteEntry _
    · refine hplaced.insertRemoval ?_ hid
      rw [(insertMoved_frame id m x ix).2.1]
      exact h.get?_removals_eq_none hnew
  rcases applyMovement_cases ix id m with hsame | ⟨x, hmoves⟩
  · rw [hsame]
    exact hmono
  · rw [hmoves]
    exact hmoved x

theorem purgeContainer (h : Tidy ids ix) (container id : Muid) :
    Tidy ids (ix.purgeContainer container id) := by
  have hplaces : Tidy ids ((ix.purgedPlacements container id).foldl Index.deleteEntry ix) :=
    List.foldlRecOn _ _ h fun _ h p _ => h.deleteEntry p
  have hdropped : Tidy ids ((ix.purgedRemovals container id).foldl Index.deleteRemoval
      ((ix.purgedPlacements container id).foldl Index.deleteEntry ix)) :=
    List.foldlRecOn _ _ hplaces fun _ h k _ => h.deleteRemoval k
  rw [purgeContainer_eq]
  refine ⟨hdropped.mirrored.withTables _ _, hdropped.placed, hdropped.removed, fun k c hc => ?_⟩
  rw [SortedMap.get?_filter, Option.filter_eq_some_iff] at hc
  exact h.filed k c hc.1

theorem applyClearance (h : Tidy ids ix) (id : Muid) (c : ClearanceChange) :
    Tidy ids (ix.applyClearance id c) := by
  have hpurged : Tidy ids (ix.afterPurge id c) := by
    rw [afterPurge]
    split
    · exact h.purgeContainer _ _
    · exact h
  rw [applyClearance_eq]
  refine ⟨hpurged.mirrored.withTables _ _, hpurged.placed, hpurged.removed, fun k x hx => ?_⟩
  by_cases hk : k = ⟨clearedContainer id c, id⟩
  · rw [hk, SortedMap.get?_insert_self] at hx
    cases hx
    exact hk.symm
  · rw [SortedMap.get?_insert_of_ne _ hk] at hx
    exact hpurged.filed k x hx

/-- **Every change keeps the tables tidy** if its address is new. -/
theorem applyChange (h : Tidy ids ix) (hnew : id ∉ ids) (c : Change) :
    Tidy (ids ++ [id]) (ix.applyChange id c) := by
  have hmono := h.mono (List.subset_append_left ids [id])
  cases c with
  | container behavior =>
      exact ⟨hmono.mirrored.withTables _ _, hmono.placed, hmono.removed, hmono.filed⟩
  | entry c => exact h.applyEntry hnew c
  | movement m => exact h.applyMovement hnew m
  | clearance c => exact hmono.applyClearance id c

theorem applyChanges {changes : List (Muid × Change)} (h : Tidy ids ix)
    (hnew : (ids ++ changes.map Prod.fst).Nodup) :
    Tidy (ids ++ changes.map Prod.fst) (ix.applyChanges changes) := by
  induction changes generalizing ids ix with
  | nil =>
      rw [List.map_nil, List.append_nil]
      exact h
  | cons x rest ih =>
      obtain ⟨id, c⟩ := x
      rw [List.map_cons, List.append_cons] at hnew ⊢
      have hid : id ∉ ids := fun hmem =>
        (List.nodup_append.mp (List.nodup_append.mp hnew).1).2.2 id hmem id (by simp) rfl
      exact ih (h.applyChange hid c) hnew

theorem apply {b : Bundle} (h : Tidy ids ix)
    (hnew : (ids ++ b.changesWithIds.map Prod.fst).Nodup) :
    Tidy (ids ++ b.changesWithIds.map Prod.fst) (ix.apply b) := by
  rw [apply_eq]
  exact (h.applyChanges hnew).withRecords _ _ _

/-! ### History -/

theorem dropHistoryUpTo (h : Tidy ids ix) (container : Option Muid) (t : Timestamp) :
    Tidy ids (ix.dropHistoryUpTo container t).1 :=
  List.foldlRecOn _ _ h fun _ h k _ => (h.deleteEntry k.removing).deleteRemoval k

theorem withHistory (h : Tidy ids ix) (keepingHistory : Bool) :
    Tidy ids { ix with keepingHistory } :=
  ⟨h.mirrored.withHistory keepingHistory, h.placed, h.removed, h.filed⟩

end Tidy

/-! ## Runs of calls -/

/-- A call that may change an index. -/
inductive Call where
  | add (b : Bundle)
  | dropHistory (container : Option Muid) (before : AsOf)
  | stopHistory
  | startHistory
deriving DecidableEq

/-- An index after a call, and the bundle that the call has added. A call that fails leaves the
index as it is. -/
def carryOut (ix : Index) : Call → Index × Option Bundle
  | .add b =>
    match ix.add b with
    | .ok (ix', true) => (ix', some b)
    | .ok (ix', false) => (ix', none)
    | .error _ => (ix, none)
  | .dropHistory container before =>
    match ix.dropHistory container before with
    | .ok (ix', _) => (ix', none)
    | .error _ => (ix, none)
  | .stopHistory => (ix.stopHistory, none)
  | .startHistory => (ix.startHistory, none)

/-- An index after some calls, and the bundles that they have added. -/
def carryOutAll (ix : Index) : List Call → Index × List Bundle
  | [] => (ix, [])
  | call :: rest =>
    let others := (ix.carryOut call).1.carryOutAll rest
    (others.1, (ix.carryOut call).2.toList ++ others.2)

/-- The addresses of the changes of some bundles. -/
def addresses (bs : List Bundle) : List Muid := (bs.flatMap Bundle.changesWithIds).map Prod.fst

section Calls

variable {P : Index → Prop} {ix : Index}

theorem Lasting.carryOut (hP : Lasting P) (h : P ix) (call : Call) : P (ix.carryOut call).1 := by
  cases call with
  | add b =>
      simp only [Index.carryOut, add_eq]
      rcases ix.check b.info with e | _ | _
      · exact h
      · exact h
      · exact hP.apply h b
  | dropHistory container before =>
      simp only [Index.carryOut, Index.dropHistory]
      rcases ix.resolveAsOf before with e | t
      · exact h
      · exact hP.dropHistoryUpTo h container t
  | stopHistory =>
      have hstopped : P { ix with keepingHistory := false } := hP.frame h rfl rfl
      exact hP.dropHistoryUpTo hstopped none _
  | startHistory => exact hP.frame h rfl rfl

theorem Lasting.carryOutAll (hP : Lasting P) (h : P ix) (calls : List Call) :
    P (ix.carryOutAll calls).1 := by
  induction calls generalizing ix with
  | nil => exact h
  | cons call rest ih => exact ih (hP.carryOut h call)

end Calls

/-! ## Invariants of runs -/

/-- What holds of the changes that an index has applied together with the index, and is upheld by
every change of a new address and by all that is done about history, whatever the records. -/
structure Upheld (P : List (Muid × Change) → Index → Prop) : Prop where
  applyChange : ∀ {changes ix id c}, P changes ix → ((changes ++ [(id, c)]).map Prod.fst).Nodup →
    P (changes ++ [(id, c)]) (ix.applyChange id c)
  dropHistoryUpTo : ∀ {changes ix}, P changes ix → ∀ container t,
    P changes (ix.dropHistoryUpTo container t).1
  withHistory : ∀ {changes ix}, P changes ix → ∀ keepingHistory,
    P changes { ix with keepingHistory }
  withRecords : ∀ {changes ix}, P changes ix → ∀ chains bundles claims,
    P changes (ix.withRecords chains bundles claims)

namespace Upheld

variable {P : List (Muid × Change) → Index → Prop} {changes : List (Muid × Change)} {ix : Index}

theorem applyChanges (hP : Upheld P) (h : P changes ix) {more : List (Muid × Change)}
    (hids : ((changes ++ more).map Prod.fst).Nodup) :
    P (changes ++ more) (ix.applyChanges more) := by
  induction more generalizing changes ix with
  | nil =>
      rw [List.append_nil]
      exact h
  | cons x rest ih =>
      rw [List.append_cons] at hids ⊢
      have hbefore := hids.sublist ((List.sublist_append_left (changes ++ [x]) rest).map Prod.fst)
      exact ih (hP.applyChange h hbefore) hids

theorem carryOut (hP : Upheld P) (h : P changes ix) {call : Call}
    (hids : ((changes ++ (ix.carryOut call).2.toList.flatMap Bundle.changesWithIds).map
      Prod.fst).Nodup) :
    P (changes ++ (ix.carryOut call).2.toList.flatMap Bundle.changesWithIds)
      (ix.carryOut call).1 := by
  have hsame {ix' : Index} (h' : P changes ix') :
      P (changes ++ (none : Option Bundle).toList.flatMap Bundle.changesWithIds) ix' := by
    rw [Option.toList_none, List.flatMap_nil, List.append_nil]
    exact h'
  cases call with
  | add b =>
      simp only [Index.carryOut, add_eq] at hids ⊢
      rcases hc : ix.check b.info with e | _ | _
      · exact hsame h
      · exact hsame h
      · simp only [hc, Except.map, if_true, Option.toList_some, List.flatMap_singleton] at hids ⊢
        rw [apply_eq]
        exact hP.withRecords (hP.applyChanges h hids) _ _ _
  | dropHistory container before =>
      simp only [Index.carryOut, Index.dropHistory]
      rcases ix.resolveAsOf before with e | t
      · exact hsame h
      · exact hsame (hP.dropHistoryUpTo h container t)
  | stopHistory => exact hsame (hP.dropHistoryUpTo (hP.withHistory h false) none _)
  | startHistory => exact hsame (hP.withHistory h true)

/-- **What is upheld holds after every run of calls** in which the changes of the accepted bundles
have new addresses. -/
theorem carryOutAll (hP : Upheld P) (h : P changes ix) {calls : List Call}
    (hids : ((changes ++ (ix.carryOutAll calls).2.flatMap Bundle.changesWithIds).map
      Prod.fst).Nodup) :
    P (changes ++ (ix.carryOutAll calls).2.flatMap Bundle.changesWithIds)
      (ix.carryOutAll calls).1 := by
  induction calls generalizing changes ix with
  | nil =>
      rw [Index.carryOutAll, List.flatMap_nil, List.append_nil]
      exact h
  | cons call rest ih =>
      simp only [Index.carryOutAll, List.flatMap_append, ← List.append_assoc] at hids ⊢
      have hbefore := hids.sublist ((List.sublist_append_left _ _).map Prod.fst)
      exact ih (hP.carryOut h hbefore) hids

end Upheld

theorem upheld_tidy : Upheld fun changes => Tidy (changes.map Prod.fst) where
  applyChange h hids := by
    rw [List.map_append] at hids ⊢
    exact h.applyChange (fun hmem => (List.nodup_append.mp hids).2.2 _ hmem _ (by simp) rfl) _
  dropHistoryUpTo h := h.dropHistoryUpTo
  withHistory h := h.withHistory
  withRecords h := h.withRecords

/-- **The tables are tidy after every run of calls** in which the bundles that are accepted have
distinct times or owners and no more changes than there are offsets. -/
theorem tidy_carryOutAll {keepingHistory : Bool} {calls : List Call}
    (hkeys : ((empty keepingHistory).carryOutAll calls).2.Pairwise fun a b => a.key ≠ b.key)
    (hsize : ∀ b ∈ ((empty keepingHistory).carryOutAll calls).2,
      b.changes.length ≤ 0x100000000) :
    Tidy (addresses ((empty keepingHistory).carryOutAll calls).2)
      ((empty keepingHistory).carryOutAll calls).1 := by
  have hids : (addresses ((empty keepingHistory).carryOutAll calls).2).Nodup :=
    nodup_flatMap_changesWithIds (hkeys.imp Bundle.key_ne_iff.mp) hsize
  have hempty : Tidy (([] : List (Muid × Change)).map Prod.fst) (empty keepingHistory) :=
    .empty keepingHistory
  exact upheld_tidy.carryOutAll hempty hids

end GossipStore.Index
