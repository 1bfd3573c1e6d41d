import GossipStore.Proofs.Index.Built
import GossipStore.Proofs.Index.Stopping
import GossipStore.Proofs.Store.Refinement

set_option autoImplicit false

/-! # Opening a store again that keeps no history

A durable store that stops keeping history drops what it has, and its log says from then on that
none is kept. When the log is opened again, all bundles are applied to an index that never keeps
history, also those that came in while the store did. That index is followed here beside the one of
the store (`Shadows`). The store has all that it has (`stopped_reopens`), and both answer alike
about the present unless an entry has passed over another one before the store stopped.
-/

namespace GossipStore

/-! ## Calls -/

/-- A call that writes to a durable store, or makes it stop keeping history. -/
inductive DurableCall where
  | call (call : StoreCall)
  | stopHistory

namespace LoggedStore

variable {s : LoggedStore} {plain : Index} {changes : List (Muid × Change)}
  {P : List (Muid × Change) → Index → Index → Prop}

/-- The store after a call, and the bundle that the call has added. -/
def serve (s : LoggedStore) : DurableCall → LoggedStore × Option Bundle
  | .call call => ((s.perform call).1, accepted? (call, (s.perform call).2))
  | .stopHistory => (s.stopHistory, none)

/-- The store after some calls, and the bundles that they have added. -/
def serveAll (s : LoggedStore) : List DurableCall → LoggedStore × List Bundle
  | [] => (s, [])
  | call :: rest =>
    let others := (s.serve call).1.serveAll rest
    (others.1, (s.serve call).2.toList ++ others.2)

theorem serveAll_append (s : LoggedStore) (calls later : List DurableCall) :
    s.serveAll (calls ++ later) = (((s.serveAll calls).1.serveAll later).1,
      (s.serveAll calls).2 ++ ((s.serveAll calls).1.serveAll later).2) := by
  induction calls generalizing s with
  | nil => rfl
  | cons call rest ih =>
      rw [List.cons_append, serveAll, ih, serveAll, List.append_assoc]

/-- A call leaves the store as it is, or adds a bundle of which neither the index nor the log has
had any, or makes a claim, or stops keeping history. -/
theorem serve_cases (s : LoggedStore) (call : DurableCall) :
    ((s.serve call).1 = s ∧ (s.serve call).2 = none)
    ∨ (∃ b, s.index.check b.info = .ok true ∧ s.log.hasKey b.key = false
        ∧ s.serve call = (⟨s.log.withBundles [b], s.index.apply b⟩, some b))
    ∨ (∃ chain actor, s.serve call = (s.claimChain chain actor, none))
    ∨ call = .stopHistory := by
  cases call with
  | stopHistory => exact .inr (.inr (.inr rfl))
  | call call =>
      rcases perform_cases s call with
        ⟨hs, haccepted, -⟩ | ⟨b, hb, hc, hs, hanswer, -⟩ | ⟨claim, -, hanswer, hs⟩
      · exact .inl ⟨hs, haccepted⟩
      · refine .inr (.inl ⟨b, hc, ?_, ?_⟩)
        · rw [← Bool.not_eq_true]
          intro hkey
          rw [perform_repeatsRow ⟨b, hb, hc, hkey⟩] at hanswer
          cases hanswer
        · rw [serve, hs, hanswer]
          exact congrArg (_, ·) hb
      · refine .inr (.inr (.inl ⟨claim.chain, claim.actor, ?_⟩))
        rw [serve, hs, hanswer]
        rfl

/-- A store on an empty log. It keeps history. -/
def fresh : LoggedStore := ⟨.empty, .empty true⟩

/-! ## The log -/

/-- Whether history is kept changes only when the store stops. -/
theorem keepHistory_serve (h : s.log.keepHistory = some 0) (call : DurableCall) :
    (s.serve call).1.log.keepHistory = some 0 := by
  rcases serve_cases s call with ⟨hs, -⟩ | ⟨b, -, -, hs⟩ | ⟨chain, actor, hs⟩ | rfl
  · rw [hs]
    exact h
  · rw [hs]
    exact h
  · rw [hs]
    exact h
  · rfl

theorem keepHistory_serveAll (h : s.log.keepHistory = some 0) (calls : List DurableCall) :
    (s.serveAll calls).1.log.keepHistory = some 0 := by
  induction calls generalizing s with
  | nil => exact h
  | cons call rest ih => exact ih (keepHistory_serve h call)

/-- A log has the rows of the accepted bundles, and never two of the same time and owner. -/
structure HasRows (accepted : List Bundle) (l : Log) : Prop where
  keys : l.rows.map (·.key) = accepted.map Bundle.key
  nodup : (accepted.map Bundle.key).Nodup

theorem HasRows.serve {accepted : List Bundle} (h : HasRows accepted s.log) (call : DurableCall) :
    HasRows (accepted ++ (s.serve call).2.toList) (s.serve call).1.log := by
  have hsame {l : Log} (hl : l.rows = s.log.rows) :
      HasRows (accepted ++ (none : Option Bundle).toList) l := by
    rw [Option.toList_none, List.append_nil]
    exact ⟨hl ▸ h.keys, h.nodup⟩
  rcases serve_cases s call with ⟨hs, hnone⟩ | ⟨b, -, hkey, hs⟩ | ⟨chain, actor, hs⟩ | rfl
  · rw [hs, hnone]
    exact hsame rfl
  · have hfresh : b.key ∉ accepted.map Bundle.key := by
      rw [← h.keys]
      intro hmem
      obtain ⟨row, hrow, hrowkey⟩ := List.mem_map.mp hmem
      rw [Log.hasKey, List.any_eq_false] at hkey
      exact hkey row hrow (decide_eq_true hrowkey)
    rw [hs, Option.toList_some]
    refine ⟨?_, ?_⟩
    · rw [Log.withBundles, List.map_append, h.keys, List.map_append]
      rfl
    · rw [List.map_append, List.nodup_append]
      refine ⟨h.nodup, List.nodup_singleton _, ?_⟩
      rintro key hold key' hnew rfl
      exact hfresh (List.mem_singleton.mp hnew ▸ hold)
  · rw [hs]
    exact hsame rfl
  · exact hsame rfl

theorem HasRows.serveAll {accepted : List Bundle} (h : HasRows accepted s.log)
    (calls : List DurableCall) :
    HasRows (accepted ++ (s.serveAll calls).2) (s.serveAll calls).1.log := by
  induction calls generalizing s accepted with
  | nil =>
      rw [LoggedStore.serveAll, List.append_nil]
      exact h
  | cons call rest ih =>
      have hrest := ih (h.serve call)
      rw [List.append_assoc] at hrest
      exact hrest

/-! ## The index of the log without history -/

/-- Whether an index is what a log describes as far as no history is kept, and has the chains of the
index of the store. -/
structure Shadows (s : LoggedStore) (plain : Index) : Prop where
  replay : (s.log.setKeepHistory 0).replay = .ok plain
  chains : plain.chains = s.index.chains

theorem Shadows.stopHistory (h : s.Shadows plain) : s.stopHistory.Shadows plain where
  replay := h.replay
  chains := h.chains.trans (Index.dropHistoryUpTo_records
    { s.index with keepingHistory := false } none Int64.maxValue).1.symm

/-- The shadow of a store follows all calls. What is upheld for both indexes by changes that they
apply together goes on to hold, if stopping upholds it as well, as far as there is a stop. -/
theorem Shadows.serve (hshadow : s.Shadows plain) (hP : Index.UpheldTogether P)
    (h : P changes s.index plain) {call : DurableCall}
    (hstop : call = .stopHistory → ∀ {changes live plain}, P changes live plain →
      P changes live.stopHistory plain)
    (hids : ((changes ++ (s.serve call).2.toList.flatMap Bundle.changesWithIds).map
      Prod.fst).Nodup) :
    ∃ plain', (s.serve call).1.Shadows plain'
      ∧ P (changes ++ (s.serve call).2.toList.flatMap Bundle.changesWithIds)
        (s.serve call).1.index plain' := by
  have hnone {live plain : Index} (h : P changes live plain) :
      P (changes ++ (none : Option Bundle).toList.flatMap Bundle.changesWithIds) live plain := by
    rw [Option.toList_none, List.flatMap_nil, List.append_nil]
    exact h
  rcases serve_cases s call with ⟨hs, haccepted⟩ | ⟨b, hc, -, hs⟩ | ⟨chain, actor, hs⟩ | rfl
  · rw [hs, haccepted]
    exact ⟨plain, hshadow, hnone h⟩
  · rw [hs] at hids ⊢
    rw [Option.toList_some, List.flatMap_singleton] at hids ⊢
    refine ⟨plain.apply b, ⟨?_, ?_⟩, hP.apply h hids⟩
    · have hcheck : plain.check b.info = .ok true := by
        rw [Index.check_congr hshadow.chains, hc]
      exact Log.replay_withBundle hshadow.replay hcheck
    · rw [Index.apply_chains, Index.apply_chains, hshadow.chains]
  · rw [hs]
    refine ⟨plain.claimChain chain actor,
      ⟨Log.replay_appendClaim hshadow.replay chain actor, hshadow.chains⟩, hnone ?_⟩
    exact hP.withRecords h _ _ _ _ _ _
  · exact ⟨plain, hshadow.stopHistory, hnone (hstop rfl h)⟩

theorem Shadows.serveAll (hshadow : s.Shadows plain) (hP : Index.UpheldTogether P)
    (h : P changes s.index plain) {calls : List DurableCall}
    (hstop : DurableCall.stopHistory ∈ calls → ∀ {changes live plain}, P changes live plain →
      P changes live.stopHistory plain)
    (hids : ((changes ++ (s.serveAll calls).2.flatMap Bundle.changesWithIds).map Prod.fst).Nodup) :
    ∃ plain', (s.serveAll calls).1.Shadows plain'
      ∧ P (changes ++ (s.serveAll calls).2.flatMap Bundle.changesWithIds)
        (s.serveAll calls).1.index plain' := by
  induction calls generalizing s plain changes with
  | nil =>
      rw [LoggedStore.serveAll, List.flatMap_nil, List.append_nil]
      exact ⟨plain, hshadow, h⟩
  | cons call rest ih =>
      rw [LoggedStore.serveAll, List.flatMap_append, ← List.append_assoc] at hids ⊢
      have hbefore := hids.sublist ((List.sublist_append_left _ _).map Prod.fst)
      obtain ⟨plain', hshadow', h'⟩ := hshadow.serve hP h
        (fun hcall => hstop (hcall ▸ List.mem_cons_self)) hbefore
      exact ih hshadow' h' (fun hmem => hstop (List.mem_cons_of_mem call hmem)) hids

/-- A log that says that no history is kept describes the shadow. -/
theorem Shadows.ofLog_eq (h : s.Shadows plain) (hoff : s.log.keepHistory = some 0) :
    ofLog s.log = .ok ⟨s.log, plain⟩ := by
  have hlog : s.log.setKeepHistory 0 = s.log := by
    rw [Log.setKeepHistory, ← hoff]
  exact ofLog_eq_ok_iff.mpr ⟨rfl, hlog ▸ h.replay⟩

/-! ## Opening the log again -/

/-- **A store that has stopped keeping history can be opened again.** Let a store on an empty log
take any calls, then stop keeping history and take any more, such that the accepted bundles have no
more changes than there are offsets. Then its log can be opened, and the store has all placements
that the opened one has. If movements name no container or that of their entry, both answer alike
about the present exactly if nothing that stands is missing, and nothing is if no entry has passed
over another one before the store stopped. -/
theorem stopped_reopens (kept : List StoreCall) (later : List DurableCall)
    (hsize : ∀ b ∈ (fresh.serveAll (kept.map .call ++ .stopHistory :: later)).2,
      b.changes.length ≤ 0x100000000) :
    let before := (fresh.serveAll (kept.map .call)).2
    let s := (fresh.serveAll (kept.map .call ++ .stopHistory :: later)).1
    let accepted := (fresh.serveAll (kept.map .call ++ .stopHistory :: later)).2
    ∃ s', ofLog s.log = .ok s'
      ∧ (∀ p x, s'.index.entries.get? p = some x → s.index.entries.get? p = some x)
      ∧ (Index.MovesAtHome (accepted.flatMap Bundle.changesWithIds) →
        (Index.ReadAlike .latest s.index s'.index ↔ ∀ x, s.index.StandsAt Int64.maxValue x →
            s'.index.entries.get? x.placement = some x)
          ∧ ((Index.empty true).everPassesOver (before.flatMap Bundle.changesWithIds) = false →
            Index.ReadAlike .latest s.index s'.index)) := by
  intro before s accepted
  have hstart : HasRows [] fresh.log := ⟨rfl, .nil⟩
  have hrows : HasRows accepted s.log := hstart.serveAll _
  have hids : ((accepted.flatMap Bundle.changesWithIds).map Prod.fst).Nodup :=
    Index.nodup_flatMap_changesWithIds
      ((List.pairwise_map.mp hrows.nodup).imp Bundle.key_ne_iff.mp) hsize
  -- the calls before the stop, the stop, and the calls after it
  let early := (fresh.serveAll (kept.map .call)).1
  let after := early.stopHistory.serveAll later
  have happend := serveAll_append fresh (kept.map .call) (.stopHistory :: later)
  have hs : s = after.1 := (congrArg Prod.fst happend).trans rfl
  have haccepted : accepted = before ++ after.2 := (congrArg Prod.snd happend).trans rfl
  rw [haccepted, List.flatMap_append] at hids
  rw [haccepted, List.flatMap_append, hs]
  have hbefore := hids.sublist ((List.sublist_append_left _ _).map Prod.fst)
  obtain ⟨plain, hshadow, hboth⟩ : ∃ plain, early.Shadows plain
      ∧ Index.AfterBoth (before.flatMap Bundle.changesWithIds) early.index plain := by
    have hfresh : fresh.Shadows (.empty false) := ⟨rfl, rfl⟩
    have hempty : Index.AfterBoth [] fresh.index (.empty false) := Index.afterBoth_empty
    refine hfresh.serveAll Index.upheldTogether_afterBoth hempty (fun hmem => ?_) hbefore
    obtain ⟨call, -, hcall⟩ := List.mem_map.mp hmem
    cases hcall
  have hstopped : Index.Stopped (before.flatMap Bundle.changesWithIds)
      (before.flatMap Bundle.changesWithIds) early.index.stopHistory plain :=
    hboth.stopHistory hbefore
  obtain ⟨plain', hshadow', hstopped'⟩ := hshadow.stopHistory.serveAll
    (Index.upheldTogether_stopped _) hstopped (fun _ _ _ _ h => h.stopHistory) hids
  have hopen := hshadow'.ofLog_eq (keepHistory_serveAll rfl later)
  refine ⟨⟨after.1.log, plain'⟩, hopen, fun p x hx => ?_, fun hhome =>
    ⟨hstopped'.readAlike_iff hids hhome, hstopped'.readAlike hids hhome⟩⟩
  exact (hstopped'.remnant.part p x (hstopped'.remnant.forgetful.remains_iff.mpr hx)).1

/-- Entries are replaced, moved and taken away before and after the store stops, which it does
twice, and one of them comes in after its successor. -/
theorem stopped_reopens_lateArrival :
    let sequence : Muid := ⟨-1, -1, 2⟩
    let write (value : UInt8) : Change := .setKey .root (.text "k") [value]
    let first := Bundle.ofValid ⟨10, 1, 10, none, none⟩
      [write 1, .push sequence [2], .push sequence [3]] rfl (by decide) (by decide)
    let second := Bundle.ofValid ⟨20, 2, 20, none, none⟩
      [write 4, .moveEntry sequence ⟨10, 1, 2⟩ 5] rfl (by decide) (by decide)
    let late := Bundle.ofValid ⟨15, 3, 15, none, none⟩ [write 6] rfl (by decide) (by decide)
    let third := Bundle.ofValid ⟨30, 4, 30, none, none⟩
      [write 7, .removeEntry sequence ⟨10, 1, 3⟩ false] rfl (by decide) (by decide)
    let fourth := Bundle.ofValid ⟨40, 5, 40, none, none⟩
      [.moveEntry sequence ⟨10, 1, 2⟩ 8, .push sequence [9]] rfl (by decide) (by decide)
    let kept : List StoreCall :=
      [.add first, .addBytes second.bytes, .add late, .claimChain ⟨1, 10⟩ 3]
    let later : List DurableCall := [.call (.add third), .stopHistory, .call (.add fourth)]
    let ran := fresh.serveAll (kept.map .call ++ .stopHistory :: later)
    ran.2 = [first, second, late, third, fourth] ∧ ran.1.index.entryCount = 4
      ∧ ∃ s', ofLog ran.1.log = .ok s' ∧ Index.ReadAlike .latest ran.1.index s'.index := by
  intro sequence write first second late third fourth kept later ran
  have haccepted : ran.2 = [first, second, late, third, fourth] := by decide +kernel
  have hhome : Index.MovesAtHome (ran.2.flatMap Bundle.changesWithIds) := by
    rw [haccepted]
    exact Index.names_of_forall (by decide +kernel)
  obtain ⟨s', hopen, -, halike⟩ := stopped_reopens kept later (by decide +kernel)
  exact ⟨haccepted, by decide +kernel, s', hopen, (halike hhome).2 (by decide +kernel)⟩

/-- The entry that comes in last passes over one that has come in after its successor: that remains
as long as the store is open, and is gone when its log is opened again. -/
theorem stopped_reopens_passedOver :
    let write (value : UInt8) : Change := .setKey .root (.text "k") [value]
    let successor := Bundle.ofValid ⟨20, 2, 20, none, none⟩ [write 2] rfl (by decide) (by decide)
    let late := Bundle.ofValid ⟨10, 1, 10, none, none⟩ [write 1] rfl (by decide) (by decide)
    let newest := Bundle.ofValid ⟨30, 3, 30, none, none⟩ [write 3] rfl (by decide) (by decide)
    let last := Bundle.ofValid ⟨25, 4, 25, none, none⟩ [write 4] rfl (by decide) (by decide)
    let s := (fresh.serveAll [.call (.add successor), .call (.add late), .call (.add newest),
      .call (.add last), .stopHistory]).1
    s.index.entryById ⟨10, 1, 1⟩ .latest ≠ .ok none
      ∧ ((ofLog s.log).bind fun s' => s'.index.entryById ⟨10, 1, 1⟩ .latest) = .ok none := by
  decide +kernel

end LoggedStore

end GossipStore
