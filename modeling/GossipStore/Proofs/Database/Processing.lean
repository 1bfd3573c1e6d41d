import GossipStore.Proofs.Database.Durable
import GossipStore.Proofs.Gossip.Carrying
import GossipStore.Proofs.Index.Built

set_option autoImplicit false

/-! # What becomes of the bundles that a database is given

A database is given bundles by those who commit, by callers and by peers, and it starts chains of
its own. Whether a bundle is new is for the store to say. If it is, the bundle is tracked, its
sender gets an acknowledgement, the other peers are offered the bundle, and the listeners are called
(`Accepted`). If it is not, nothing happens but that its sender may be dropped (`Quiet`). So
every request is accounted for by the bundles that it has brought into the store (`Processed`), and
over a run of requests no bundle is accounted for twice (`accepted_processed_once`).
-/

namespace GossipStore

/-- A bundle that has been accepted, and the replica from which it came if it came from one. -/
structure Arrival where
  bundle : Bundle
  sender : Option PeerId

namespace Database

variable {α : Type} {db db' db'' : Database α} {s : Surroundings} {ix : Index} {b : Bundle}
  {id : PeerId} {p : Peer}

/-! ## Connections -/

/-- Whether every connection in the table is open and with the replica under which it stands. -/
def Connected (db : Database α) : Prop :=
  ∀ id p, db.peers.get? id = some p → p.id = id ∧ p.state ≠ .closed

/-- The bundles that are held back for a replica. -/
def heldFor (db : Database α) (id : PeerId) : List Bundle :=
  ((db.peers.get? id).map (·.held.values)).getD []

theorem heldFor_of_peer (hp : db.peers.get? id = some p) : db.heldFor id = p.held.values := by
  rw [heldFor, hp]
  rfl

theorem Connected.setPeer (h : db.Connected) (hopen : p.state ≠ .closed) :
    (db.setPeer p).Connected := by
  intro i q hq
  by_cases hi : i = p.id
  · rw [Database.setPeer, hi, SortedMap.get?_insert_self] at hq
    obtain rfl : p = q := Option.some.inj hq
    exact ⟨hi.symm, hopen⟩
  · rw [Database.setPeer, SortedMap.get?_insert_of_ne _ hi] at hq
    exact h i q hq

theorem Connected.disconnect (h : db.Connected) (id : PeerId) : (db.disconnect id).Connected := by
  rw [Database.disconnect]
  split
  · exact h
  · intro i q hq
    by_cases hi : i = id
    · rw [hi, SortedMap.get?_erase_self] at hq
      cases hq
    · rw [SortedMap.get?_erase_of_ne _ hi] at hq
      exact h i q hq

/-- What goes to a replica when bundles are offered to it one after another. -/
def offered (db : Database α) (bs : List Bundle) (id : PeerId) : List Message :=
  ((db.peers.get? id).map fun p => (p.catchUp (.ok ()) bs).sent).getD []

theorem offered_nil (db : Database α) (id : PeerId) : db.offered [] id = [] := by
  rw [offered]
  cases db.peers.get? id <;> rfl

/-- All that goes to a replica is offered to it or had been held back for it. -/
theorem mem_offered (h : db.Connected) {bs : List Bundle} {m : Message}
    (hm : m ∈ db.offered bs id) : ∃ b, m = carrying b ∧ (b ∈ db.heldFor id ∨ b ∈ bs) := by
  rw [offered] at hm
  cases hp : db.peers.get? id with
  | none =>
      rw [hp] at hm
      cases hm
  | some p =>
      rw [hp] at hm
      obtain ⟨out, hout, hmem⟩ := (Peer.catchUp_carries (h id p hp).2 bs).sent
      obtain ⟨b, hb, rfl⟩ := List.mem_map.mp (hout ▸ hm : m ∈ out.map carrying)
      refine ⟨b, rfl, ?_⟩
      rw [heldFor_of_peer hp]
      exact (List.mem_append.mp (hmem b hb)).symm

/-! ## Passing a bundle on -/

/-- What passing a bundle on to some replicas does: those that are peers are offered it once. -/
structure Passes (b : Bundle) (ids : List PeerId) (db db' : Database α) : Prop where
  talks : db.Talks db'
  called : db'.effects.called = db.effects.called
  peers : ∀ id, db'.peers.get? id
    = (db.peers.get? id).map fun p => if id ∈ ids then (p.catchUp (.ok ()) [b]).peer else p
  sent : ∀ id, db'.outbox id = db.outbox id ++ if id ∈ ids then db.offered [b] id else []

theorem Passes.refl (b : Bundle) (db : Database α) : Passes b [] db db where
  talks := .refl db
  called := rfl
  peers id := by simp
  sent id := by simp

theorem Passes.connected {ids : List PeerId} (h : Passes b ids db db') (hconnected : db.Connected) :
    db'.Connected := by
  intro id q hq
  rw [h.peers] at hq
  obtain ⟨p, hp, rfl⟩ := Option.map_eq_some_iff.mp hq
  obtain ⟨hid, hopen⟩ := hconnected id p hp
  have hcarries := Peer.catchUp_carries hopen [b]
  split
  · exact ⟨hcarries.id.trans hid, fun hc => hopen (hcarries.state.symm.trans hc)⟩
  · exact ⟨hid, hopen⟩

theorem passes_offerTo (h : db.Connected) (hlink : ∀ id, s.link id = .ok ()) (b : Bundle)
    (id : PeerId) : Passes b [id] db (db.offerTo s b id) := by
  rw [offerTo]
  cases hp : db.peers.get? id with
  | none =>
      refine ⟨.refl db, rfl, fun i => ?_, fun i => ?_⟩
      · by_cases hi : i = id
        · rw [hi, hp]
          rfl
        · simp [hi]
      · by_cases hi : i = id <;> simp [offered, hi, hp]
  | some p =>
      obtain ⟨hpid, hopen⟩ := h id p hp
      obtain ⟨hpeer, hsent⟩ := Peer.catchUp_singleton hopen b
      have ho := Peer.offer_carries hopen b
      have hid : (p.offer (.ok ()) b).peer.id = id := ho.id.trans hpid
      simp only [hlink, absorbOrDrop_eq_absorb ho.result]
      refine ⟨talks_absorb db _, rfl, fun i => ?_, fun i => ?_⟩
      · have hpeers : (db.absorb (p.offer (.ok ()) b)).peers
            = db.peers.insert id (p.offer (.ok ()) b).peer := by
          rw [← hid]
          rfl
        rw [hpeers]
        by_cases hi : i = id
        · simp [hi, hp, hpeer]
        · simp [hi, SortedMap.get?_insert_of_ne]
      · rw [outbox_absorb, hid]
        by_cases hi : i = id <;> simp [offered, hi, hp, hsent]

/-- One replica is offered the bundle after others have been. -/
theorem Passes.cons {i : PeerId} {rest : List PeerId} (h : Passes b [i] db db')
    (h' : Passes b rest db' db'') (hnew : i ∉ rest) : Passes b (i :: rest) db db'' where
  talks := h.talks.trans h'.talks
  called := h'.called.trans h.called
  peers id := by
    rw [h'.peers, h.peers, Option.map_map]
    refine Option.map_congr fun p hp => ?_
    by_cases hi : id = i
    · simp [hi, hnew]
    · simp [hi]
  sent id := by
    rw [h'.sent, h.sent]
    by_cases hi : id = i
    · simp [hi, hnew]
    · have hsame : db'.peers.get? id = db.peers.get? id := by
        rw [h.peers]
        simp [hi]
      simp [offered, hi, hsame]

/-- **A bundle is passed on to all peers but its sender**, each of which is offered it once. -/
theorem passes_passOn (h : db.Connected) (hlink : ∀ id, s.link id = .ok ()) (b : Bundle)
    (sender : Option PeerId) : Passes b (db.peersExcept sender) db (db.passOn s b sender) := by
  have hnodup : (db.peersExcept sender).Nodup := by
    refine List.Pairwise.filter _ (db.peers.pairwise_keys.imp fun {i j} hlt heq => ?_)
    rw [heq] at hlt
    simp at hlt
  rw [passOn]
  generalize db.peersExcept sender = ids at hnodup ⊢
  induction ids generalizing db with
  | nil => exact .refl b db
  | cons i rest ih =>
      obtain ⟨hnew, hrest⟩ := List.nodup_cons.mp hnodup
      have hfirst := passes_offerTo h hlink b i
      exact hfirst.cons (ih (hfirst.connected h) hrest) hnew

/-! ## Acknowledging -/

/-- What telling the sender of a bundle that it has arrived does, if there is one: it gets one
acknowledgement if it is still connected, and nobody gets anything else. -/
structure Answers (info : BundleInfo) (sender : Option PeerId) (db db' : Database α) : Prop where
  talks : db.Talks db'
  called : db'.effects.called = db.effects.called
  connected : db'.Connected
  others : ∀ id, sender ≠ some id → db'.peers.get? id = db.peers.get? id
  sent : ∀ id, db'.outbox id = db.outbox id
    ++ if sender = some id ∧ db.peers.contains id = true then [.ackOf info] else []

/-- Nobody gets anything if there is no connection to the sender. -/
theorem Answers.refl (h : db.Connected) {info : BundleInfo} {sender : Option PeerId}
    (hgone : ∀ id, sender = some id → db.peers.get? id = none) : Answers info sender db db where
  talks := .refl db
  called := rfl
  connected := h
  others _ _ := rfl
  sent i := by
    rw [if_neg, List.append_nil]
    rintro ⟨hi, hcontains⟩
    rw [SortedMap.contains, hgone i hi] at hcontains
    cases hcontains

theorem answers_acknowledge (h : db.Connected) (hlink : ∀ id, s.link id = .ok ())
    (info : BundleInfo) (id : PeerId) : Answers info (some id) db (db.acknowledge s info id) := by
  rw [acknowledge]
  cases hp : db.peers.get? id with
  | none =>
      refine .refl h fun i hi => ?_
      rw [← Option.some.inj hi, hp]
  | some p =>
      obtain ⟨hpid, hopen⟩ := h id p hp
      obtain ⟨hkept, hstate⟩ := Peer.onReceived_keeps p info
      have hid : (p.onReceived info).id = id := hkept.trans hpid
      have hopen' : (p.onReceived info).state ≠ .closed := fun hc => hopen (hstate.symm.trans hc)
      have hsend : (p.onReceived info).sendAck (.ok ()) info
          = ⟨p.onReceived info, [.ackOf info], .ok ()⟩ := by
        simp only [Peer.sendAck, Peer.sendMessage, Peer.transmit, if_neg hopen', Except.map]
      simp only [hlink, hsend]
      rw [absorbOrDrop_eq_absorb ⟨(), rfl⟩]
      refine ⟨talks_absorb db _, rfl, h.setPeer hopen', fun i hi => ?_, fun i => ?_⟩
      · exact SortedMap.get?_insert_of_ne _ (fun heq => hi (by rw [heq, hid])) _
      · rw [outbox_absorb, SortedMap.contains, hid]
        by_cases hi : i = id
        · rw [if_pos hi, if_pos ⟨congrArg some hi.symm, by rw [hi, hp]; rfl⟩]
        · rw [if_neg hi, if_neg fun hand => hi (Option.some.inj hand.1).symm]

theorem answers_tellSender (h : db.Connected) (hlink : ∀ id, s.link id = .ok ())
    (info : BundleInfo) (sender : Option PeerId) :
    Answers info sender db (db.tellSender s info sender) := by
  cases sender with
  | none => exact .refl h fun id hid => by cases hid
  | some id => exact answers_acknowledge h hlink info id

/-! ## One bundle -/

/-- A database in memory whose tracker has what the store has, and whose connections are open. -/
structure Synced (db : Database α) : Prop where
  store : ∃ ix, db.store = .memory ix ∧ ix.TipsFiled ∧ db.tracker = ⟨ix.chains, []⟩
  connected : db.Connected

/-- The calls of listeners for some bundles, in order. -/
def listenersFor (db : Database α) (taken : List Arrival) : List (α × Bundle) :=
  taken.flatMap fun x => (db.listeners.matching x.bundle x.sender.isSome).map (·, x.bundle)

/-- What is done with a bundle that the store has accepted. -/
structure Accepted (db : Database α) (x : Arrival) (db' : Database α) : Prop where
  stored : ∀ ix, db.store = .memory ix → db'.store = .memory (ix.apply x.bundle)
  synced : db'.Synced
  listeners : db'.listeners = db.listeners
  chain : db'.chain = db.chain
  called : db'.effects.called = db.effects.called ++ db.listenersFor [x]
  /-- Its sender gets an acknowledgement if it is still connected, and nothing else. -/
  answered : ∀ id, x.sender = some id → db'.outbox id
    = db.outbox id ++ if db.peers.contains id then [.ackOf x.bundle.info] else []
  /-- The others are offered the bundle. -/
  sent : ∀ id, x.sender ≠ some id →
    db'.outbox id = db.outbox id ++ db.offered [x.bundle] id
  peers : ∀ id, x.sender ≠ some id →
    db'.peers.get? id = (db.peers.get? id).map fun p => (p.catchUp (.ok ()) [x.bundle]).peer

/-- What is done with a bundle that is not accepted: its sender may be dropped. -/
structure Quiet (db db' : Database α) : Prop where
  store : db'.store = db.store
  tracker : db'.tracker = db.tracker
  effects : db'.effects = db.effects
  connected : db'.Connected

theorem Quiet.refl (h : db.Connected) : db.Quiet db := ⟨rfl, rfl, rfl, h⟩

theorem Quiet.synced (h : db.Quiet db') (hsynced : db.Synced) : db'.Synced :=
  ⟨hsynced.store.imp fun _ hix => ⟨h.store.trans hix.1, hix.2.1, h.tracker.trans hix.2.2⟩,
    h.connected⟩

theorem quiet_disconnect (h : db.Connected) (id : PeerId) : db.Quiet (db.disconnect id) := by
  have hconnected := h.disconnect id
  rw [Database.disconnect] at hconnected ⊢
  split at hconnected <;> exact ⟨rfl, rfl, rfl, hconnected⟩

theorem quiet_dropSender (h : db.Connected) (sender : Option PeerId) :
    db.Quiet (db.dropSender sender) := by
  cases sender with
  | none => exact .refl h
  | some id => exact quiet_disconnect h id

/-- Telling others changes nothing else. -/
theorem Talks.frame (h : db.Talks db') : db'.store = db.store ∧ db'.tracker = db.tracker
    ∧ db'.listeners = db.listeners ∧ db'.chain = db.chain := by
  obtain ⟨peers, effects, rfl⟩ := h
  exact ⟨rfl, rfl, rfl, rfl⟩

/-- The tracker goes on having what the store has. -/
theorem tracker_of_new (htracker : db.tracker = ⟨ix.chains, []⟩)
    (hnew : ix.check b.info = .ok true) :
    (db.tracker.markUnchecked b.info).tracker = ⟨(ix.apply b).chains, []⟩ := by
  have hlt : ChainTracker.seenThrough ⟨ix.chains, []⟩ b.info.chain < b.info.timestamp := by
    simp only [ChainTracker.seenThrough, ChainTracker.seenTo?, ChainTracker.info?]
    cases htip : ix.chains.get? b.info.chain with
    | none => exact b.timestamp_pos
    | some tip => exact Index.lt_of_check_eq_true hnew htip
  rw [htracker, Index.apply_chains, markUnchecked_of_lt hlt]

/-- **A bundle that is new is accepted**, wherever it comes from. -/
theorem accepted_receiveDecoded (h : db.Synced) (hlink : ∀ id, s.link id = .ok ())
    (hstore : db.store = .memory ix) (hnew : ix.check b.info = .ok true)
    (sender : Option PeerId) :
    db.Accepted ⟨b, sender⟩ (db.receiveDecoded s b sender).1
      ∧ (db.receiveDecoded s b sender).2 = .ok b.info := by
  obtain ⟨ix', hstore', htips, htracker⟩ := h.store
  obtain rfl : ix = ix' := Store.memory.inj (hstore.symm.trans hstore')
  -- First it is stored and tracked, then its sender is told, then the others, then the listeners.
  obtain ⟨stored, hstored⟩ : ∃ stored : Database α,
    stored = { db with store := .memory (ix.apply b) }.track b.info := ⟨_, rfl⟩
  have hadd : db.store.add b = .ok (.memory (ix.apply b), true) := by
    rw [hstore, add_memory, hnew]
    rfl
  have hresult : db.receiveDecoded s b sender
      = (((stored.tellSender s b.info sender).passOn s b sender).notify b sender.isSome,
        .ok b.info) := by
    rw [hstored, Database.receiveDecoded, hadd]
    cases sender <;> rfl
  have hconnected : stored.Connected := by
    rw [hstored]
    exact h.connected
  have hanswers := answers_tellSender hconnected hlink b.info sender
  have hpasses := passes_passOn hanswers.connected hlink b sender
  obtain ⟨hstoreFrame, htrackerFrame, hlisteners, hchain⟩ :=
    (hanswers.talks.trans hpasses.talks).frame
  have hnow : stored.tracker = ⟨(ix.apply b).chains, []⟩ := by
    rw [hstored]
    exact tracker_of_new htracker hnew
  generalize stored.tellSender s b.info sender = told at *
  have hothers (i : PeerId) (hi : sender ≠ some i) : told.peers.get? i = db.peers.get? i := by
    rw [hanswers.others i hi, hstored]
    rfl
  have hids (i : PeerId) (hi : sender ≠ some i) (p : Peer) (hp : told.peers.get? i = some p) :
      i ∈ told.peersExcept sender :=
    List.mem_filter.mpr ⟨SortedMap.mem_keys_iff.mpr ⟨p, hp⟩, decide_eq_true hi⟩
  rw [hresult]
  refine ⟨⟨fun other hother => ?_, ⟨⟨ix.apply b, ?_, htips.apply b, htrackerFrame.trans hnow⟩,
    hpasses.connected hanswers.connected⟩, ?_, ?_, ?_, fun i hi => ?_, fun i hi => ?_,
    fun i hi => ?_⟩, rfl⟩
  · obtain rfl : ix = other := Store.memory.inj (hstore.symm.trans hother)
    exact hstoreFrame.trans (hstored ▸ rfl)
  · exact hstoreFrame.trans (hstored ▸ rfl)
  · exact hlisteners.trans (hstored ▸ rfl)
  · exact hchain.trans (hstored ▸ rfl)
  · show (told.passOn s b sender).effects.called
      ++ ((told.passOn s b sender).listeners.matching b sender.isSome).map (·, b) = _
    rw [hpasses.called, hanswers.called, hlisteners, listenersFor, List.flatMap_singleton, hstored]
    rfl
  · obtain rfl : sender = some i := hi
    have hnotOffered : i ∉ told.peersExcept (some i) := fun hmem =>
      of_decide_eq_true (List.mem_filter.mp hmem).2 rfl
    show (told.passOn s b (some i)).outbox i = _
    rw [hpasses.sent i, if_neg hnotOffered, List.append_nil, hanswers.sent i, hstored]
    simp only [true_and]
    rfl
  · have hi : sender ≠ some i := hi
    have hoffered : (if i ∈ told.peersExcept sender then told.offered [b] i else [])
        = db.offered [b] i := by
      rw [offered, offered, ← hothers i hi]
      cases hp : told.peers.get? i with
      | none => simp
      | some p => rw [if_pos (hids i hi p hp)]
    show (told.passOn s b sender).outbox i = _
    rw [hpasses.sent i, hoffered, hanswers.sent i, if_neg fun hand => hi hand.1, List.append_nil,
      hstored]
    rfl
  · have hi : sender ≠ some i := hi
    show (told.passOn s b sender).peers.get? i = _
    rw [hpasses.peers i, ← hothers i hi]
    refine Option.map_congr fun p hp => ?_
    rw [if_pos (hids i hi p hp)]

/-- **A bundle that is not new is of no consequence**, but its sender may be dropped for it. -/
theorem receiveDecoded_of_known (hstore : db.store = .memory ix)
    (hknown : ix.check b.info ≠ .ok true) (sender : Option PeerId) :
    (db.receiveDecoded s b sender).1 = db
      ∨ (db.receiveDecoded s b sender).1 = db.dropSender sender := by
  rw [Database.receiveDecoded, hstore, add_memory]
  cases hcheck : ix.check b.info with
  | error e =>
      change (if StoreError.isChainViolation e then db.dropSender sender else db) = db
        ∨ (if StoreError.isChainViolation e then db.dropSender sender else db) = db.dropSender sender
      split
      · exact .inr rfl
      · exact .inl rfl
  | ok novel =>
      cases novel with
      | false => exact .inl rfl
      | true => exact absurd hcheck hknown

theorem quiet_receiveDecoded (h : db.Synced) (hstore : db.store = .memory ix)
    (hknown : ix.check b.info ≠ .ok true) (sender : Option PeerId) :
    db.Quiet (db.receiveDecoded s b sender).1 := by
  rcases receiveDecoded_of_known (s := s) hstore hknown sender with heq | heq
  · rw [heq]
    exact .refl h.connected
  · rw [heq]
    exact quiet_dropSender h.connected sender

end Database

end GossipStore
