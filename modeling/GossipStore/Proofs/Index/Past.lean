import GossipStore.Proofs.Index.Upkeep

set_option autoImplicit false

/-! # The past

What an index had recorded up to a time is its past (`upTo`). A question about that time is answered
from the past alone (`Placed.answersAlikeAt_upTo`), whatever has been recorded of later times: later
rows lead to entries that were not yet placed, and later removals and clearances had not happened. A
bundle written after that time adds to the tables rows of its own time only, unless it purges. So it
leaves the past as it is, and every answer about it (`past_unchanged`).
-/

namespace GossipStore

/-- Whether a change drops what it takes away, even if history is kept. -/
def Change.purges : Change → Bool
  | .movement m => m.purge
  | .clearance c => c.purge
  | .container _ | .entry _ => false

/-! ## Tables cut down by key -/

namespace SortedMap

variable {κ ν : Type} [Ord κ]

/-- The pairs whose keys pass a test. -/
def filterKeys (m : SortedMap κ ν) (p : κ → Bool) : SortedMap κ ν := m.filter fun k _ => p k

theorem keys_filterKeys (m : SortedMap κ ν) (p : κ → Bool) :
    (m.filterKeys p).keys = m.keys.filter p := by
  rw [filterKeys, keys, filter, keys, List.filter_map]
  rfl

variable [Std.LawfulEqOrd κ]

theorem get?_filterKeys (m : SortedMap κ ν) (p : κ → Bool) (k : κ) :
    (m.filterKeys p).get? k = if p k = true then m.get? k else none := by
  rw [filterKeys, get?_filter]
  cases m.get? k with
  | none => rw [ite_self, Option.filter_none]
  | some v => rw [Option.filter_some]

theorem filterKeys_insert [Std.TransOrd κ] (m : SortedMap κ ν) {p : κ → Bool} {k : κ}
    (hk : p k = false) (v : ν) : (m.insert k v).filterKeys p = m.filterKeys p := by
  refine ext_get? fun j => ?_
  rw [get?_filterKeys, get?_filterKeys]
  by_cases hj : j = k
  · rw [hj, if_neg (by simp [hk]), if_neg (by simp [hk])]
  · rw [get?_insert_of_ne m hj]

end SortedMap

namespace Index

/-! ## The past of an index -/

/-- What the tables of an index hold that was recorded up to a time. -/
def upTo (ix : Index) (t : Timestamp) : Index :=
  { empty ix.keepingHistory with
    entries := ix.entries.filterKeys (·.timestamp ≤ t)
    byKey := ix.byKey.filterKeys (·.placement.timestamp ≤ t)
    byLocation := ix.byLocation.filterKeys (·.placement.timestamp ≤ t)
    byPointee := ix.byPointee.filterKeys (·.placement.timestamp ≤ t)
    bySource := ix.bySource.filterKeys (·.placement.timestamp ≤ t)
    byTarget := ix.byTarget.filterKeys (·.placement.timestamp ≤ t)
    removals := ix.removals.filterKeys (·.removalId.timestamp ≤ t)
    removalsByContainer := ix.removalsByContainer.filterKeys (·.removalId.timestamp ≤ t)
    clearances := ix.clearances.filterKeys (·.clearanceId.timestamp ≤ t) }

/-- Every entry is stored under its own placement. -/
def Placed (ix : Index) : Prop := ∀ p e, ix.entries.get? p = some e → e.placement = p

section Answers

variable {ix : Index} (t : Timestamp)

/-! ## What was there at a time -/

theorem isRemoved_upTo (p : Muid) : (ix.upTo t).isRemoved p t = ix.isRemoved p t := by
  simp only [isRemoved, upTo, SortedMap.keys_filterKeys, List.any_filter]
  refine congrArg (List.any ix.removals.keys) (funext fun k => ?_)
  rw [Bool.and_left_comm, Bool.and_self]

theorem clearanceBefore?_upTo (container : Muid) :
    (ix.upTo t).clearanceBefore? container t = ix.clearanceBefore? container t := by
  simp only [clearanceBefore?, upTo, SortedMap.keys_filterKeys, List.filter_filter, Bool.and_assoc,
    Bool.and_self]

theorem isLive_upTo (e : Entry) : (ix.upTo t).isLive e t = ix.isLive e t := by
  rw [isLive, isLive, isCleared, isCleared, isRemoved_upTo, clearanceBefore?_upTo]

theorem isVisible_upTo (e : Entry) : (ix.upTo t).isVisible e t = ix.isVisible e t := by
  rw [isVisible, isVisible, isLive_upTo]

theorem get?_entries_upTo (p : Muid) : (ix.upTo t).entries.get? p
    = if p.timestamp ≤ t then ix.entries.get? p else none := by
  refine (SortedMap.get?_filterKeys ix.entries _ p).trans (if_congr ?_ rfl rfl)
  exact decide_eq_true_iff

/-- An entry that stands at a later placement was not there. -/
theorem Placed.isLive_eq_false (h : Placed ix) {p : Muid} {e : Entry}
    (he : ix.entries.get? p = some e) (hlater : ¬ p.timestamp ≤ t) : ix.isLive e t = false := by
  have hplaced : ¬ e.placedAt ≤ t := by
    rw [Entry.placedAt, h p e he]
    exact hlater
  rw [isLive, decide_eq_false hplaced, Bool.false_and, Bool.false_and]

/-! ## Entries that rows lead to -/

/-- A test that only entries pass that were there is failed where a later row leads. -/
theorem Placed.filter_filterMap_upTo {ρ : Type} (h : Placed ix) (placement : ρ → Muid)
    {test : Entry → Bool} (htest : ∀ e, test e = true → ix.isLive e t = true) (rows : List ρ) :
    ((rows.filter fun r => (placement r).timestamp ≤ t).filterMap fun r =>
        (ix.upTo t).entries.get? (placement r)).filter test
      = (rows.filterMap fun r => ix.entries.get? (placement r)).filter test := by
  rw [List.filterMap_filter, List.filter_filterMap, List.filter_filterMap]
  refine congrArg (List.filterMap · rows) (funext fun r => ?_)
  by_cases hr : (placement r).timestamp ≤ t
  · rw [if_pos (decide_eq_true hr), get?_entries_upTo, if_pos hr]
  · rw [if_neg (by simp [hr])]
    cases he : ix.entries.get? (placement r) with
    | none => rfl
    | some e =>
        have hfails : test e = false := eq_false_of_ne_true fun hpasses =>
          Bool.false_ne_true ((h.isLive_eq_false t he hr).symm.trans (htest e hpasses))
        exact (Option.filter_some_neg hfails).symm

theorem placementsAtKey_upTo (container : Muid) (key : StorageKey) :
    (ix.upTo t).placementsAtKey container key
      = (ix.placementsAtKey container key).filter (·.timestamp ≤ t) := by
  simp only [placementsAtKey, upTo, SortedSet.members, SortedMap.keys_filterKeys, List.filter_map,
    List.filter_filter, Function.comp_def, Bool.and_comm]

theorem placementsOf_upTo (entryId : Muid) : (ix.upTo t).placementsOf entryId
    = (ix.placementsOf entryId).filter (·.timestamp ≤ t) := by
  simp only [placementsOf, upTo, SortedSet.members, SortedMap.keys_filterKeys, List.filter_map,
    List.filter_filter, Function.comp_def, Bool.and_comm]

theorem newestUpTo?_upTo (placements : List Muid) :
    (ix.upTo t).newestUpTo? (placements.filter (·.timestamp ≤ t)) t
      = ix.newestUpTo? placements t := by
  rw [newestUpTo?, newestUpTo?, List.filter_filter]
  simp only [Bool.and_self]
  cases hlast : (placements.filter (·.timestamp ≤ t)).getLast? with
  | none => rfl
  | some p =>
      have hp := of_decide_eq_true (List.mem_filter.mp (List.mem_of_getLast? hlast)).2
      rw [Option.bind_some, Option.bind_some, get?_entries_upTo, if_pos hp]

theorem rowsOf_upTo (container : Muid) (p : StorageKey → Bool) : (ix.upTo t).rowsOf container p
    = (ix.rowsOf container p).filter (·.placement.timestamp ≤ t) := by
  simp only [rowsOf, upTo, SortedSet.members, SortedMap.keys_filterKeys, List.filter_filter,
    Bool.and_comm]

theorem Placed.positionalEntries_upTo (h : Placed ix) (container : Muid) :
    (ix.upTo t).positionalEntries container t = ix.positionalEntries container t := by
  have hvisible : ((ix.upTo t).isVisible · t) = (ix.isVisible · t) := funext (isVisible_upTo t)
  calc (ix.upTo t).positionalEntries container t
      = ((ix.upTo t).entriesOf ((ix.upTo t).rowsOf container StorageKey.isPositional)).filter
          ((ix.upTo t).isVisible · t) := rfl
    _ = (ix.entriesOf (ix.rowsOf container StorageKey.isPositional)).filter (ix.isVisible · t) := by
      rw [rowsOf_upTo, hvisible]
      exact h.filter_filterMap_upTo t KeyRow.placement
        (fun e he => (Bool.and_eq_true_iff.mp he).2) _

theorem pairRows_upTo (side : PairSide) : (ix.upTo t).pairRows side
    = (ix.pairRows side).filterKeys (·.placement.timestamp ≤ t) := by
  cases side <;> rfl

theorem Placed.touchingEntries_upTo (h : Placed ix) (vertex : Muid) (side : PairSide) :
    (ix.upTo t).touchingEntries vertex side t = ix.touchingEntries vertex side t := by
  have hvisible : ((ix.upTo t).isVisible · t) = (ix.isVisible · t) := funext (isVisible_upTo t)
  have hrows : (SortedSet.members ((ix.upTo t).pairRows side)).filter (·.subject = vertex)
      = ((SortedSet.members (ix.pairRows side)).filter (·.subject = vertex)).filter
        (·.placement.timestamp ≤ t) := by
    simp only [pairRows_upTo, SortedSet.members, SortedMap.keys_filterKeys, List.filter_filter,
      Bool.and_comm]
  rw [touchingEntries, touchingEntries, hrows, hvisible]
  exact h.filter_filterMap_upTo t PlacementRow.placement
    (fun e he => (Bool.and_eq_true_iff.mp he).2) _

theorem Placed.foldl_keyedStep_upTo (h : Placed ix) (rows : List KeyRow)
    (acc : SortedMap StorageKey Entry) :
    (rows.filter (·.placement.timestamp ≤ t)).foldl ((ix.upTo t).keyedStep t) acc
      = rows.foldl (ix.keyedStep t) acc := by
  rw [List.foldl_filter]
  refine congrArg (fun step => List.foldl step acc rows) (funext fun acc => funext fun r => ?_)
  by_cases hr : r.placement.timestamp ≤ t
  · rw [if_pos (decide_eq_true hr), keyedStep, keyedStep, get?_entries_upTo, if_pos hr]
    simp only [isLive_upTo]
  · rw [if_neg (by simp [hr]), keyedStep_of_none]
    cases he : ix.entries.get? r.placement with
    | none => rw [liveAt?, he, Option.filter_none]
    | some e =>
        rw [liveAt?, he]
        exact Option.filter_some_neg (h.isLive_eq_false t he hr)

end Answers

/-- Two indexes answer every question about a time alike. -/
structure AnswersAlikeAt (t : Timestamp) (ix ix' : Index) : Prop where
  byKey : ∀ container key, ix.entryByKey container key (.time t)
    = ix'.entryByKey container key (.time t)
  byId : ∀ entryId, ix.entryById entryId (.time t) = ix'.entryById entryId (.time t)
  keyed : ∀ container, ix.keyedEntries container (.time t) = ix'.keyedEntries container (.time t)
  ordered : ∀ container limit, ix.orderedEntries container limit (.time t)
    = ix'.orderedEntries container limit (.time t)
  touching : ∀ vertex side, ix.entriesTouching vertex side (.time t)
    = ix'.entriesTouching vertex side (.time t)

theorem AnswersAlikeAt.symm {t : Timestamp} {ix ix' : Index} (h : AnswersAlikeAt t ix ix') :
    AnswersAlikeAt t ix' ix where
  byKey container key := (h.byKey container key).symm
  byId entryId := (h.byId entryId).symm
  keyed container := (h.keyed container).symm
  ordered container limit := (h.ordered container limit).symm
  touching vertex side := (h.touching vertex side).symm

theorem AnswersAlikeAt.trans {t : Timestamp} {ix ix' ix'' : Index} (h : AnswersAlikeAt t ix ix')
    (h' : AnswersAlikeAt t ix' ix'') : AnswersAlikeAt t ix ix'' where
  byKey container key := (h.byKey container key).trans (h'.byKey container key)
  byId entryId := (h.byId entryId).trans (h'.byId entryId)
  keyed container := (h.keyed container).trans (h'.keyed container)
  ordered container limit := (h.ordered container limit).trans (h'.ordered container limit)
  touching vertex side := (h.touching vertex side).trans (h'.touching vertex side)

/-- **Questions about a time are answered from the past alone.** -/
theorem Placed.answersAlikeAt_upTo {ix : Index} (h : Placed ix) (t : Timestamp) :
    AnswersAlikeAt t (ix.upTo t) ix where
  byKey container key := by
    refine congrArg Except.ok ?_
    rw [placementsAtKey_upTo, newestUpTo?_upTo, funext (isVisible_upTo t)]
  byId entryId := by
    refine congrArg Except.ok ?_
    rw [placementsOf_upTo, newestUpTo?_upTo, funext (isLive_upTo t)]
  keyed container := by
    have hrows : (ix.upTo t).rowsOf container (fun k => !k.isPositional)
        = (ix.rowsOf container fun k => !k.isPositional).filter (·.placement.timestamp ≤ t) :=
      rowsOf_upTo t container _
    refine congrArg Except.ok ((congrArg (List.foldl _ _) hrows).trans ?_)
    exact h.foldl_keyedStep_upTo t _ _
  ordered container limit :=
    congrArg (fun l => Except.ok (limited limit l)) (h.positionalEntries_upTo t container)
  touching vertex side := congrArg Except.ok (h.touchingEntries_upTo t vertex side)

/-! ## Changes written later -/

section Later

variable {t : Timestamp} {id : Muid}

/-- A row of a later time is not of the past. -/
theorem filterKeys_addRow? {ρ : Type} [Ord ρ] [Std.TransOrd ρ] [Std.LawfulEqOrd ρ]
    (rows : SortedSet ρ) {row : Option ρ} {p : ρ → Bool} (hrow : ∀ r ∈ row, p r = false) :
    (addRow? rows row).filterKeys p = rows.filterKeys p := by
  cases row with
  | none => rfl
  | some r => exact SortedMap.filterKeys_insert rows (hrow r rfl) ()

theorem upTo_insertEntry (ix : Index) {e : Entry} (hlater : t < e.placement.timestamp) :
    (ix.insertEntry e).upTo t = ix.upTo t := by
  have htime : decide (e.placement.timestamp ≤ t) = false := decide_eq_false (Std.not_le.mpr hlater)
  have hrow (subject : Option Muid) : ∀ r ∈ rowUnder? subject e,
      decide (r.placement.timestamp ≤ t) = false := fun r hr => by
    rw [placement_rowUnder? hr]
    exact htime
  simp only [upTo, insertEntry, SortedSet.add, filterKeys_addRow? _ (hrow _)]
  rw [SortedMap.filterKeys_insert ix.entries htime, SortedMap.filterKeys_insert ix.byKey htime,
    SortedMap.filterKeys_insert ix.byLocation htime]

theorem upTo_insertRemoval (ix : Index) {r : Removal} (hlater : t < r.removalId.timestamp) :
    (ix.insertRemoval r).upTo t = ix.upTo t := by
  have htime : decide (r.removalId.timestamp ≤ t) = false := decide_eq_false (Std.not_le.mpr hlater)
  simp only [upTo, insertRemoval, SortedSet.add]
  rw [SortedMap.filterKeys_insert ix.removals htime,
    SortedMap.filterKeys_insert ix.removalsByContainer htime]

theorem upTo_applyEntry {ix : Index} (hhistory : ix.keepingHistory = true)
    (hlater : t < id.timestamp) (c : EntryChange) : (ix.applyEntry id c).upTo t = ix.upTo t := by
  obtain ⟨-, hsame⟩ | ⟨-, halone⟩ | ⟨-, -, previous, -, -, entryId, hreplaces⟩ :=
    applyEntry_cases hhistory id c
  · rw [hsame]
  · rw [halone]
    exact upTo_insertEntry ix hlater
  · rw [hreplaces]
    exact (upTo_insertEntry _ hlater).trans (upTo_insertRemoval ix hlater)

theorem upTo_applyMovement {ix : Index} (hhistory : ix.keepingHistory = true)
    (hlater : t < id.timestamp) {m : MovementChange} (hkeeps : m.purge = false) :
    (ix.applyMovement id m).upTo t = ix.upTo t := by
  have hmoved (x : Entry) : (ix.insertMoved id m x).upTo t = ix.upTo t := by
    rw [insertMoved]
    split
    · rfl
    · exact upTo_insertEntry ix hlater
  have hstays : ¬ ix.dropsPlace m = true := by simp [dropsPlace, hkeeps, hhistory]
  rcases applyMovement_cases ix id m with hsame | ⟨x, hmoves⟩
  · rw [hsame]
  · rw [hmoves, moveFrom, if_neg hstays]
    exact (upTo_insertRemoval _ hlater).trans (hmoved x)

theorem upTo_applyClearance (ix : Index) (hlater : t < id.timestamp) {c : ClearanceChange}
    (hkeeps : c.purge = false) : (ix.applyClearance id c).upTo t = ix.upTo t := by
  have htime : decide (id.timestamp ≤ t) = false := decide_eq_false (Std.not_le.mpr hlater)
  rw [applyClearance_eq, afterPurge, if_neg (by simp [hkeeps])]
  simp only [upTo]
  rw [SortedMap.filterKeys_insert ix.clearances htime]

/-- **A change of a later time leaves the past as it is**, unless it purges. -/
theorem upTo_applyChange {ix : Index} (hhistory : ix.keepingHistory = true)
    (hlater : t < id.timestamp) {c : Change} (hkeeps : c.purges = false) :
    (ix.applyChange id c).upTo t = ix.upTo t := by
  cases c with
  | container behavior => rfl
  | entry e => exact upTo_applyEntry hhistory hlater e
  | movement m => exact upTo_applyMovement hhistory hlater hkeeps
  | clearance c => exact upTo_applyClearance ix hlater hkeeps

theorem upTo_applyChanges {ix : Index} (hhistory : ix.keepingHistory = true)
    {changes : List (Muid × Change)} (hlater : ∀ x ∈ changes, t < x.1.timestamp)
    (hkeeps : ∀ x ∈ changes, x.2.purges = false) :
    (ix.applyChanges changes).upTo t = ix.upTo t := by
  induction changes generalizing ix with
  | nil => rfl
  | cons x rest ih =>
      obtain ⟨hx, hrest⟩ := List.forall_mem_cons.mp hlater
      obtain ⟨hxkeeps, hrestkeeps⟩ := List.forall_mem_cons.mp hkeeps
      have hstep := upTo_applyChange hhistory hx hxkeeps
      have hstill : (ix.applyChange x.1 x.2).keepingHistory = true :=
        (keepingHistory_applyChange ix x.1 x.2).trans hhistory
      exact (ih hstill hrest hrestkeeps).trans hstep

theorem timestamp_of_mem_changesWithIds {b : Bundle} {x : Muid × Change}
    (hx : x ∈ b.changesWithIds) : x.1.timestamp = b.info.timestamp := by
  obtain ⟨y, -, rfl⟩ := List.mem_map.mp hx
  rfl

theorem change_mem_of_mem_changesWithIds {b : Bundle} {x : Muid × Change}
    (hx : x ∈ b.changesWithIds) : x.2 ∈ b.changes := by
  obtain ⟨y, hy, rfl⟩ := List.mem_map.mp hx
  exact List.fst_mem_of_mem_zipIdx hy

theorem upTo_apply {ix : Index} (hhistory : ix.keepingHistory = true) {b : Bundle}
    (hlater : t < b.info.timestamp) (hkeeps : ∀ c ∈ b.changes, c.purges = false) :
    (ix.apply b).upTo t = ix.upTo t := by
  rw [apply_eq]
  refine upTo_applyChanges hhistory (fun x hx => ?_) fun x hx => ?_
  · rw [timestamp_of_mem_changesWithIds hx]
    exact hlater
  · exact hkeeps x.2 (change_mem_of_mem_changesWithIds hx)

end Later

/-! ## Entries under their own placements -/

theorem Placed.insertEntry {ix : Index} (h : Placed ix) (e : Entry) : Placed (ix.insertEntry e) :=
    fun p f hf => by
  rw [get?_entries_insertEntry] at hf
  split at hf
  · rename_i hp
    cases hf
    exact hp.symm
  · exact h p f hf

theorem Placed.deleteEntry {ix : Index} (h : Placed ix) (q : Muid) : Placed (ix.deleteEntry q) :=
  fun p e he => h p e (of_get?_entries_deleteEntry he)

theorem lasting_placed : Lasting Placed where
  insertEntry h e := h.insertEntry e
  deleteEntry h q := h.deleteEntry q
  frame h hentries _ := by
    rw [Placed, hentries]
    exact h

theorem Placed.apply {ix : Index} (h : Placed ix) (b : Bundle) : Placed (ix.apply b) :=
  lasting_placed.apply h b

theorem placed_carryOutAll (keepingHistory : Bool) (calls : List Call) :
    Placed ((empty keepingHistory).carryOutAll calls).1 :=
  lasting_placed.carryOutAll (fun _ _ h => by cases h) calls

/-! ## Answers about the past -/

/-- **The past does not change.** Whatever calls have led to an index that keeps history, a bundle
that it accepts and that purges nothing changes no answer about a time before that of the bundle. -/
theorem past_unchanged (keepingHistory : Bool) (calls : List Call) (b : Bundle) (ix' : Index)
    (t : Timestamp)
    (hhistory : ((empty keepingHistory).carryOutAll calls).1.keepingHistory = true)
    (hadd : ((empty keepingHistory).carryOutAll calls).1.add b = .ok (ix', true))
    (hkeeps : ∀ c ∈ b.changes, c.purges = false) (hlater : t < b.info.timestamp) :
    AnswersAlikeAt t ((empty keepingHistory).carryOutAll calls).1 ix' := by
  have hplaced := placed_carryOutAll keepingHistory calls
  generalize ((empty keepingHistory).carryOutAll calls).1 = ix at *
  obtain ⟨-, rfl⟩ := add_eq_ok_true_iff.mp hadd
  have hpast := upTo_apply hhistory hlater hkeeps
  exact (hplaced.answersAlikeAt_upTo t).symm.trans
    (hpast ▸ (hplaced.apply b).answersAlikeAt_upTo t)

/-- A bundle that writes over a box and clears a sequence from which it also takes an entry, after
another one that was written later has arrived. -/
theorem past_unchanged_overwriting :
    let box : Muid := ⟨-1, -1, 1⟩
    let sequence : Muid := ⟨-1, -1, 2⟩
    let write (behavior : Behavior) (container : Muid) (value : UInt8) : Change :=
      .entry { behavior, container := some container, value := some [value] }
    let first := Bundle.ofValid ⟨10, 1, 10, none, none⟩
      [write .box box 1, write .sequence sequence 2] rfl (by decide) (by decide)
    let purge := Bundle.ofValid ⟨40, 2, 40, none, none⟩ [.clearance ⟨⟨3, 3, 3⟩, true⟩] rfl
      (by decide) (by decide)
    let b := Bundle.ofValid ⟨30, 3, 30, none, none⟩ [write .box box 3,
      .movement ⟨none, ⟨10, 1, 2⟩, 0, false⟩, .clearance ⟨sequence, false⟩] rfl (by decide)
      (by decide)
    let ix := ((empty true).carryOutAll [.add first, .add purge]).1
    ix.add b = .ok (ix.apply b, true) ∧ AnswersAlikeAt 29 ix (ix.apply b)
      ∧ ix.entryByKey box .unit (.time 30) ≠ (ix.apply b).entryByKey box .unit (.time 30)
      ∧ ix.orderedEntries sequence none (.time 30)
        ≠ (ix.apply b).orderedEntries sequence none (.time 30) := by
  intro box sequence write first purge b ix
  have hadd : ix.add b = .ok (ix.apply b, true) := by decide +kernel
  have halike := past_unchanged true [.add first, .add purge] b (ix.apply b) 29 (by decide +kernel)
    hadd (by decide +kernel) (by decide +kernel)
  exact ⟨hadd, halike, by decide +kernel, by decide +kernel⟩

end Index

end GossipStore
