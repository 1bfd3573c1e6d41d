import GossipStore.Proofs.Database.Processing

set_option autoImplicit false

/-! # Requests of a database

Bundles are committed or come from outside, connections are opened and closed, frames are handled,
and listeners come and go (`Request`). Every request is accounted for by the bundles that it has
brought into the store (`Processed`): each is tracked, shown to the listeners, acknowledged if it
came from a peer, and passed on to the others; a request that brings nothing new does none of that.
Over a whole run no bundle is brought in twice (`accepted_processed_once`).
-/

namespace GossipStore

/-- Whether a store takes a bundle in as new. -/
def Store.accepts (s : Store) (b : Bundle) : Bool :=
  match s.add b with
  | .ok (_, novel) => novel
  | .error _ => false

namespace Database

variable {α : Type} {db db' db'' : Database α} {s : Surroundings} {ix : Index} {b : Bundle}
  {bs : List Bundle} {taken : List Arrival}

theorem accepts_iff (hstore : db.store = .memory ix) :
    db.store.accepts b = true ↔ ix.check b.info = .ok true := by
  rw [Store.accepts, hstore, add_memory]
  cases ix.check b.info with
  | error e => simp [Except.map]
  | ok novel => simp [Except.map]

/-! ## Requests -/

/-- Something that is asked of a database. -/
inductive Request (α : Type) where
  | call (call : Call)
  | disconnect (id : PeerId)
  | addListener (container : Option Muid) (remoteOnly : Bool) (label : α)
  | removeListener (id : UInt64)

/-- The database after a request in some surroundings. -/
def serve (db : Database α) (request : Surroundings × Request α) : Database α :=
  match request with
  | (s, .call call) => db.perform (s, call)
  | (_, .disconnect id) => db.disconnect id
  | (_, .addListener container remoteOnly label) => (db.addListener container remoteOnly label).1
  | (_, .removeListener id) => (db.removeListener id).1

namespace Request

/-- Whether a request makes bundles of its own. -/
def commits : Request α → Bool
  | .call (.commit _) => true
  | _ => false

/-- Whether a request greets a replica or takes in its greeting. -/
def greets : Request α → Bool
  | .call (.connect _) => true
  | .call (.frame _ bytes) =>
    match Message.decode bytes with
    | .ok (.greeting _) => true
    | _ => false
  | _ => false

/-- What a request presents to the store from outside. Only peers may send frames. -/
def brings (db : Database α) : Request α → List Arrival
  | .call (.receive bytes sender) =>
    (Call.receive bytes sender).brought?.toList.map (⟨·, sender⟩)
  | .call (.frame sender bytes) =>
    if db.peers.contains sender then
      (Call.frame sender bytes).brought?.toList.map (⟨·, some sender⟩)
    else []
  | _ => []

end Request

/-- What a request does, given the bundles that it has brought into the store. -/
structure Processed (db : Database α) (request : Request α) (taken : List Arrival)
    (db' : Database α) : Prop where
  /-- The store has accepted them one after another, and nothing else. -/
  stored : ∃ ix ix' claims, db.store = .memory ix
    ∧ ix.offerAll (taken.map (·.bundle)) = (ix', taken.map (·.bundle))
    ∧ db'.store = .memory { ix' with claims }
  /-- From outside comes what the store takes in as new. -/
  brought : request.commits = false → taken = (request.brings db).filter (db.store.accepts ·.bundle)
    ∧ db'.store.index.claims = db.store.index.claims
  own : request.commits = true → ∀ x ∈ taken, x.sender = none
  /-- The tracker tells others just what the store has. -/
  tracked : db'.tracker.rows = db'.store.index.chainTracker.rows
  /-- Every listener that wants a bundle is called for it, in the order of their acceptance. -/
  called : db'.effects.called = db.effects.called ++ db.listenersFor taken
  /-- A sender that is still connected gets one acknowledgement, and nothing else. -/
  answered : ∀ x ∈ taken, ∀ id, x.sender = some id → db'.outbox id
    = db.outbox id ++ if db.peers.contains id then [.ackOf x.bundle.info] else []
  /-- Nobody else gets an acknowledgement. Unless it is greeted, each is offered the bundles once,
  and gets no others but those that were held back for it. -/
  sent : ∀ id, (∀ x ∈ taken, x.sender ≠ some id) → ∃ out : List Message,
    db'.outbox id = db.outbox id ++ out ∧ (∀ chain t, .ack chain t ∉ out)
      ∧ (request.greets = false → out = db.offered (taken.map (·.bundle)) id
        ∧ ∀ m ∈ out, ∃ b, m = carrying b ∧ (b ∈ db.heldFor id ∨ b ∈ taken.map (·.bundle)))
  /-- Without anything new nothing happens. -/
  idle : taken = [] → db'.tracker = db.tracker ∧ (request.commits = false → db'.store = db.store)
    ∧ (request.greets = false → db'.effects = db.effects)

/-- What is offered contains no acknowledgement. -/
theorem ack_not_mem_offered (h : db.Connected) (bs : List Bundle) (id : PeerId) (chain : ChainKey)
    (t : Timestamp) : .ack chain t ∉ db.offered bs id := by
  intro hack
  obtain ⟨b, hb, -⟩ := mem_offered h hack
  cases hb

theorem Synced.tracked (h : db.Synced) : db.tracker.rows = db.store.index.chainTracker.rows := by
  obtain ⟨ix, hstore, htips, htracker⟩ := h.store
  rw [htracker, hstore]
  exact congrArg ChainTracker.rows htips.chainTracker_eq.symm

/-! ## Requests from outside -/

/-- A request that brings nothing new is of no consequence. -/
theorem Quiet.processed (h : db.Quiet db') (hsynced : db.Synced) {request : Request α}
    (hnothing : (request.brings db).filter (db.store.accepts ·.bundle) = []) :
    db.Processed request [] db' := by
  obtain ⟨ix, hstore, -⟩ := hsynced.store
  have houtbox (id : PeerId) : db'.outbox id = db.outbox id := by rw [outbox, outbox, h.effects]
  refine ⟨⟨ix, ix, ix.claims, hstore, rfl, h.store.trans hstore⟩,
    fun _ => ⟨hnothing.symm, by rw [h.store]⟩, fun _ => List.forall_mem_nil _,
    (h.synced hsynced).tracked, ?_, List.forall_mem_nil _, fun id _ => ⟨[], ?_, ?_, fun _ => ?_⟩,
    fun _ => ⟨h.tracker, fun _ => h.store, fun _ => h.effects⟩⟩
  · rw [h.effects]
    exact (List.append_nil _).symm
  · rw [houtbox, List.append_nil]
  · exact fun _ _ => List.not_mem_nil
  · exact ⟨(offered_nil db id).symm, List.forall_mem_nil _⟩

/-- A request that brings one new bundle. -/
theorem Accepted.processed {x : Arrival} (h : db.Accepted x db') (hsynced : db.Synced)
    {request : Request α} (hcommits : request.commits = false)
    (hnew : db.store.accepts x.bundle = true) (hbrings : request.brings db = [x]) :
    db.Processed request [x] db' := by
  obtain ⟨ix, hstore, -⟩ := hsynced.store
  have hcheck := (accepts_iff hstore).mp hnew
  have hstored := h.stored ix hstore
  refine ⟨⟨ix, ix.apply x.bundle, (ix.apply x.bundle).claims, hstore, ?_, hstored⟩,
    fun _ => ⟨?_, ?_⟩, fun hc => ?_, h.synced.tracked, h.called, fun y hy => ?_,
    fun id hid => ?_, fun hnil => ?_⟩
  · rw [List.map_singleton, Index.offerAll_cons_of_new hcheck]
    rfl
  · rw [hbrings]
    have hfilter : [x].filter (db.store.accepts ·.bundle) = [x] :=
      List.filter_cons_of_pos hnew
    exact hfilter.symm
  · rw [hstored, hstore]
    exact Index.apply_claims ix x.bundle
  · rw [hcommits] at hc
    cases hc
  · rw [List.mem_singleton.mp hy]
    exact h.answered
  · exact ⟨_, h.sent id (hid x List.mem_cons_self),
      ack_not_mem_offered hsynced.connected _ id, fun _ => ⟨rfl, fun m hm =>
        mem_offered hsynced.connected hm⟩⟩
  · cases hnil

/-- **A bundle from outside is processed if it is new, and otherwise not at all.** -/
theorem processed_receive (h : db.Synced) (hlink : ∀ id, s.link id = .ok ()) (bytes : Bytes)
    (sender : Option PeerId) {request : Request α} (hcommits : request.commits = false)
    (hbrings : request.brings db = (Bundle.decode bytes).toOption.toList.map (⟨·, sender⟩)) :
    ∃ taken, db.Processed request taken (db.receive s bytes sender).1
      ∧ (db.receive s bytes sender).1.Synced := by
  obtain ⟨ix, hstore, -⟩ := h.store
  rw [Database.receive]
  cases hdecode : Bundle.decode bytes with
  | error e =>
      have hquiet := quiet_dropSender h.connected sender
      rw [hdecode] at hbrings
      refine ⟨[], hquiet.processed h ?_, hquiet.synced h⟩
      rw [hbrings]
      rfl
  | ok b =>
      rw [hdecode] at hbrings
      have hbrings : request.brings db = [⟨b, sender⟩] := hbrings
      by_cases hnew : ix.check b.info = .ok true
      · have haccepted := (accepted_receiveDecoded h hlink hstore hnew sender).1
        exact ⟨_, haccepted.processed h hcommits ((accepts_iff hstore).mpr hnew) hbrings,
          haccepted.synced⟩
      · have hquiet := quiet_receiveDecoded (s := s) h hstore hnew sender
        refine ⟨[], hquiet.processed h ?_, hquiet.synced h⟩
        rw [hbrings]
        exact List.filter_cons_of_neg fun haccepts => hnew ((accepts_iff hstore).mp haccepts)

/-! ## Greetings -/

/-- What greeting a replica or taking in its greeting does: messages go out, and nothing else
happens. -/
structure Greets (db db' : Database α) : Prop where
  store : db'.store = db.store
  tracker : db'.tracker = db.tracker
  called : db'.effects.called = db.effects.called
  connected : db'.Connected
  sent : ∀ id, ∃ out : List Message, db'.outbox id = db.outbox id ++ out
    ∧ ∀ chain t, .ack chain t ∉ out

theorem Quiet.greets (h : db.Quiet db') : db.Greets db' where
  store := h.store
  tracker := h.tracker
  called := by rw [h.effects]
  connected := h.connected
  sent id := ⟨[], by rw [outbox, outbox, h.effects, List.append_nil], fun _ _ => List.not_mem_nil⟩

theorem Greets.synced (h : db.Greets db') (hsynced : db.Synced) : db'.Synced :=
  ⟨hsynced.store.imp fun _ hix => ⟨h.store.trans hix.1, hix.2.1, h.tracker.trans hix.2.2⟩,
    h.connected⟩

theorem Greets.processed (h : db.Greets db') (hsynced : db.Synced) {request : Request α}
    (hgreets : request.greets = true) (hbrings : request.brings db = []) :
    db.Processed request [] db' := by
  obtain ⟨ix, hstore, -⟩ := hsynced.store
  refine ⟨⟨ix, ix, ix.claims, hstore, rfl, h.store.trans hstore⟩, fun _ => ⟨?_, by rw [h.store]⟩,
    fun _ => List.forall_mem_nil _, (h.synced hsynced).tracked, ?_, List.forall_mem_nil _,
    fun id _ => ?_, fun _ => ⟨h.tracker, fun _ => h.store, fun hnot => ?_⟩⟩
  · rw [hbrings]
    rfl
  · rw [h.called]
    exact (List.append_nil _).symm
  · obtain ⟨out, hout, hnoAck⟩ := h.sent id
    refine ⟨out, hout, hnoAck, fun hnot => ?_⟩
    rw [hgreets] at hnot
    cases hnot
  · rw [hgreets] at hnot
    cases hnot

/-- A connection is opened with a greeting at most. -/
theorem greets_connect (h : db.Connected) (hlink : ∀ id, s.link id = .ok ()) (id : PeerId) :
    db.Greets (db.connect s id).1 := by
  obtain ⟨peer, hpeer⟩ : ∃ peer,
    peer = Peer.new db.connections id db.config.handshakeTimeout.toNat s.now := ⟨_, rfl⟩
  obtain ⟨fresh, hfresh⟩ : ∃ fresh,
    fresh = { (db.disconnect id).setPeer peer with connections := db.connections + 1 } := ⟨_, rfl⟩
  have hopen : peer.state ≠ .closed := by
    rw [hpeer]
    exact fun hc => by cases hc
  have hclosed := quiet_disconnect h id
  have hquiet : db.Quiet fresh := by
    rw [hfresh]
    exact ⟨hclosed.store, hclosed.tracker, hclosed.effects, hclosed.connected.setPeer hopen⟩
  by_cases hattached : db.attached = true
  · cases hgreeting : fresh.tracker.greeting with
    | error e =>
        have hconnect : (db.connect s id).1 = fresh := by
          rw [hfresh, hpeer] at hgreeting ⊢
          dsimp only at hgreeting
          simp only [Database.connect, hattached, hgreeting, Bool.not_true, Bool.false_eq_true,
            if_false]
        rw [hconnect]
        exact hquiet.greets
    | ok greeting =>
        have hconnect : (db.connect s id).1
            = fresh.absorbOrDrop (peer.sendGreeting (s.link id) greeting) := by
          rw [hfresh, hpeer] at hgreeting ⊢
          dsimp only at hgreeting
          simp only [Database.connect, hattached, hgreeting, Bool.not_true, Bool.false_eq_true,
            if_false]
        have hsend :
            peer.sendGreeting (.ok ()) greeting = ⟨peer, [.greeting greeting], .ok ()⟩ := by
          simp only [Peer.sendGreeting, Peer.sendMessage, Peer.transmit, if_neg hopen, Except.map]
        rw [hconnect, hlink, hsend, absorbOrDrop_eq_absorb ⟨(), rfl⟩]
        have hcalled : fresh.effects.called = db.effects.called := by rw [hquiet.effects]
        have hsame (i : PeerId) : fresh.outbox i = db.outbox i := by
          rw [outbox, outbox, hquiet.effects]
        refine ⟨hquiet.store, hquiet.tracker, hcalled, hquiet.connected.setPeer hopen, fun i => ?_⟩
        refine ⟨_, (outbox_absorb fresh _ i).trans (by rw [hsame]), fun chain t hack => ?_⟩
        split at hack
        · cases List.mem_singleton.mp hack
        · cases hack
  · rw [Database.connect, Bool.eq_false_iff.mpr hattached]
    exact (Quiet.refl h).greets

/-- A greeting is answered with the bundles that are stored, or ends the connection. -/
theorem greets_receiveGreeting (h : db.Connected) (hlink : ∀ id, s.link id = .ok ())
    {id : PeerId} {p : Peer} (hp : db.peers.get? id = some p) (greeting : Bytes) :
    db.Greets (db.receiveGreeting s p greeting).1 := by
  have hopen := (h id p hp).2
  unfold receiveGreeting
  split
  · exact (quiet_disconnect h p.id).greets
  · rename_i tracker htracker
    have hgreet := Peer.greet_keeps p s.now tracker
    generalize p.greet s.now tracker = greeted at hgreet
    obtain ⟨q, result⟩ := greeted
    have hqopen : q.state ≠ .closed := fun hc => hopen (hgreet.2 hc)
    cases result with
    | error e =>
        have hdropped := quiet_disconnect (h.setPeer hqopen) q.id
        exact Quiet.greets ⟨hdropped.store, hdropped.tracker, hdropped.effects, hdropped.connected⟩
    | ok u =>
        have ho := Peer.catchUp_carries hqopen db.store.index.bundleList
        simp only [hlink]
        rw [absorbOrDrop_eq_absorb ho.result]
        refine ⟨rfl, rfl, rfl, h.setPeer fun hc => hqopen (ho.state.symm.trans hc), fun i => ?_⟩
        obtain ⟨out, hout, -⟩ := ho.sent
        refine ⟨_, outbox_absorb db _ i, fun chain t hack => ?_⟩
        split at hack
        · rw [hout] at hack
          obtain ⟨b, -, hb⟩ := List.mem_map.mp hack
          cases hb
        · cases hack

/-! ## Frames -/

theorem processed_frame (h : db.Synced) (hlink : ∀ id, s.link id = .ok ()) (sender : PeerId)
    (bytes : Bytes) : ∃ taken, db.Processed (.call (.frame sender bytes)) taken
        (db.handleFrame s sender bytes).1
      ∧ (db.handleFrame s sender bytes).1.Synced := by
  unfold handleFrame
  cases hp : db.peers.get? sender with
  | none =>
      have hquiet := Quiet.refl h.connected
      refine ⟨[], hquiet.processed h ?_, h⟩
      simp [Request.brings, SortedMap.contains, hp]
  | some p =>
      have hbrings (x : Option Bundle) (hx : (Call.frame sender bytes).brought? = x) :
          Request.brings db (.call (.frame sender bytes)) = x.toList.map (⟨·, some sender⟩) := by
        rw [← hx]
        simp [Request.brings, SortedMap.contains, hp]
      -- a frame that carries no bundle brings none
      have hnone (hbrought : (Call.frame sender bytes).brought? = none) :
          Request.brings db (.call (.frame sender bytes)) = [] := hbrings none hbrought
      cases hdecode : Message.decode bytes with
      | error e =>
          have hquiet := quiet_disconnect h.connected sender
          refine ⟨[], hquiet.processed h ?_, hquiet.synced h⟩
          rw [hnone (by simp only [Call.brought?, hdecode])]
          rfl
      | ok m =>
          cases m with
          | greeting greeting =>
              have hgreets := greets_receiveGreeting h.connected hlink hp greeting
              exact ⟨[], hgreets.processed h (by simp only [Request.greets, hdecode])
                (hnone (by simp only [Call.brought?, hdecode])), hgreets.synced h⟩
          | bundle inner =>
              exact processed_receive h hlink inner (some sender) rfl
                (hbrings _ (by simp only [Call.brought?, hdecode]))
          | ack chain t =>
              obtain ⟨hid, hopen⟩ := h.connected sender p hp
              have hstate := (Peer.onAck_frame p (ackedInfo chain t)).2
              have hquiet : db.Quiet (db.setPeer (p.onAck (ackedInfo chain t))) :=
                ⟨rfl, rfl, rfl, h.connected.setPeer fun hc => hopen (hstate.symm.trans hc)⟩
              refine ⟨[], hquiet.processed h ?_, hquiet.synced h⟩
              rw [hnone (by simp only [Call.brought?, hdecode])]
              rfl

/-! ## Commits -/

/-- What is done with bundles that the database makes itself and that the store accepts. -/
structure Writes (db : Database α) (bs : List Bundle) (db' : Database α) : Prop where
  stored : ∀ ix, db.store = .memory ix → ∃ ix' claims,
    ix.offerAll bs = (ix', bs) ∧ db'.store = .memory { ix' with claims }
  synced : db'.Synced
  listeners : db'.listeners = db.listeners
  called : db'.effects.called = db.effects.called ++ db.listenersFor (bs.map (⟨·, none⟩))
  sent : ∀ id, db'.outbox id = db.outbox id ++ db.offered bs id
  peers : ∀ id, db'.peers.get? id
    = (db.peers.get? id).map fun p => (p.catchUp (.ok ()) bs).peer
  idle : bs = [] → db'.tracker = db.tracker ∧ db'.effects = db.effects

/-- Whether two databases differ at most in claims and in what a writer notes for itself. -/
structure Notes (db db' : Database α) : Prop where
  store : ∀ ix, db.store = .memory ix → ∃ claims, db'.store = .memory { ix with claims }
  tracker : db'.tracker = db.tracker
  listeners : db'.listeners = db.listeners
  peers : db'.peers = db.peers
  effects : db'.effects = db.effects

theorem Notes.refl (db : Database α) : db.Notes db :=
  ⟨fun ix hstore => ⟨ix.claims, hstore⟩, rfl, rfl, rfl, rfl⟩

/-- A writer may note how far it is and how much it has used up. -/
theorem notes_writer (db : Database α) (chain : Option BundleInfo) (timestamps : TimestampSource)
    (medallionsUsed : Nat) : db.Notes { db with chain, timestamps, medallionsUsed } :=
  ⟨fun ix hstore => ⟨ix.claims, hstore⟩, rfl, rfl, rfl, rfl⟩

theorem Notes.writes (h : db.Notes db') (hsynced : db.Synced) : db.Writes [] db' := by
  obtain ⟨ix, hstore, htips, htracker⟩ := hsynced.store
  obtain ⟨claims, hclaimed⟩ := h.store ix hstore
  refine ⟨fun ix hstore => ⟨ix, (h.store ix hstore).imp fun _ hix => ⟨rfl, hix⟩⟩,
    ⟨⟨_, hclaimed, htips, h.tracker.trans htracker⟩, ?_⟩, h.listeners, ?_, fun id => ?_,
    fun id => ?_, fun _ => ⟨h.tracker, h.effects⟩⟩
  · rw [Connected, h.peers]
    exact hsynced.connected
  · rw [h.effects]
    exact (List.append_nil _).symm
  · rw [outbox, h.effects, offered_nil, List.append_nil]
    rfl
  · rw [h.peers]
    exact Option.map_id'.symm

theorem Writes.trans {bs' : List Bundle} (h : db.Writes bs db') (h' : db'.Writes bs' db'')
    (hconnected : db.Connected) : db.Writes (bs ++ bs') db'' where
  stored ix hstore := by
    obtain ⟨ix', claims, hoffer, hstored⟩ := h.stored ix hstore
    obtain ⟨ix'', claims', hoffer', hstored'⟩ := h'.stored _ hstored
    rw [Index.offerAll_withClaims] at hoffer'
    obtain ⟨rfl, hbs'⟩ := Prod.mk.inj hoffer'
    refine ⟨(ix'.offerAll bs').1, claims', ?_, hstored'⟩
    rw [Index.offerAll_append, hoffer, hbs']
  synced := h'.synced
  listeners := h'.listeners.trans h.listeners
  called := by
    rw [h'.called, h.called, List.append_assoc, listenersFor, listenersFor, listenersFor,
      h.listeners, List.map_append, List.flatMap_append]
  sent id := by
    rw [h'.sent, h.sent, List.append_assoc, offered, offered, offered, h.peers]
    cases hp : db.peers.get? id with
    | none => rfl
    | some p => simp [(Peer.catchUp_append (hconnected id p hp).2 bs bs').2]
  peers id := by
    rw [h'.peers, h.peers, Option.map_map]
    refine Option.map_congr fun p hp => ?_
    exact (Peer.catchUp_append (hconnected id p hp).2 bs bs').1.symm
  idle hnil := by
    obtain ⟨rfl, rfl⟩ := List.append_eq_nil_iff.mp hnil
    exact ⟨(h'.idle rfl).1.trans (h.idle rfl).1, (h'.idle rfl).2.trans (h.idle rfl).2⟩

theorem Accepted.writes (h : db.Accepted ⟨b, none⟩ db') (hstore : db.store = .memory ix)
    (hnew : ix.check b.info = .ok true) : db.Writes [b] db' := by
  refine ⟨fun other hother => ?_, h.synced, h.listeners, h.called, fun id => h.sent id nofun,
    fun id => h.peers id nofun, fun hnil => by cases hnil⟩
  obtain rfl : ix = other := Store.memory.inj (hstore.symm.trans hother)
  refine ⟨ix.apply b, (ix.apply b).claims, ?_, h.stored ix hstore⟩
  rw [Index.offerAll_cons_of_new hnew]
  rfl

/-- A bundle that the database makes itself is accepted or of no consequence. -/
theorem writes_receiveDecoded (h : db.Synced) (hlink : ∀ id, s.link id = .ok ()) (b : Bundle) :
    ∃ bs, db.Writes bs (db.receiveDecoded s b none).1 := by
  obtain ⟨ix, hstore, -⟩ := h.store
  by_cases hnew : ix.check b.info = .ok true
  · exact ⟨[b], (accepted_receiveDecoded h hlink hstore hnew none).1.writes hstore hnew⟩
  · have hsame : (db.receiveDecoded s b none).1 = db :=
      (receiveDecoded_of_known hstore hnew none).elim (fun h => h) fun h => h
    rw [hsame]
    exact ⟨[], (Notes.refl db).writes h⟩

theorem notes_claim (s : Surroundings) (db : Database α) (chain : ChainKey) :
    db.Notes (db.claim s chain) where
  store _ hstore := ⟨_, store_claim hstore s chain⟩
  tracker := rfl
  listeners := rfl
  peers := rfl
  effects := rfl

theorem writes_ownChain (h : db.Synced) (hlink : ∀ id, s.link id = .ok ()) :
    ∃ bs, db.Writes bs (db.ownChain s).1 := by
  unfold Database.ownChain
  cases db.chain with
  | some last => exact ⟨[], (Notes.refl db).writes h⟩
  | none =>
      dsimp only
      rw [acquireChain]
      split
      · exact ⟨[], (notes_claim s db _).writes h⟩
      · unfold startChain
        generalize db.timestamps.next s.clock = stamped
        obtain ⟨timestamps, start⟩ := stamped
        dsimp only
        have hready : db.Writes []
            { db with medallionsUsed := db.medallionsUsed + 1, timestamps } :=
          (notes_writer db db.chain timestamps _).writes h
        split
        · exact ⟨[], hready⟩
        · rename_i bundler b hseal
          obtain ⟨bs, hwrites⟩ := writes_receiveDecoded hready.synced hlink b
          generalize Database.receiveDecoded s _ b none = received at hwrites ⊢
          obtain ⟨db₁, result⟩ := received
          cases result with
          | error e => exact ⟨[] ++ bs, hready.trans hwrites h.connected⟩
          | ok info =>
              exact ⟨[] ++ bs ++ [], (hready.trans hwrites h.connected).trans
                ((notes_claim s db₁ _).writes hwrites.synced) h.connected⟩

theorem writes_sealNext (h : db.Synced) (hlink : ∀ id, s.link id = .ok ()) (last : BundleInfo)
    (bundler : Bundler) : ∃ bs, db.Writes bs (db.sealNext s last bundler).1 := by
  unfold sealNext
  generalize db.timestamps.nextAfter s.clock last.timestamp = stamped
  obtain ⟨timestamps, t⟩ := stamped
  dsimp only
  have hready : db.Writes [] { db with chain := some last, timestamps } :=
    (notes_writer db (some last) timestamps _).writes h
  split
  · exact ⟨[], hready⟩
  · rename_i bundler' b hseal
    obtain ⟨bs, hwrites⟩ := writes_receiveDecoded hready.synced hlink b
    generalize Database.receiveDecoded s _ b none = received at hwrites ⊢
    obtain ⟨db₁, result⟩ := received
    cases result with
    | error e => exact ⟨[] ++ bs, hready.trans hwrites h.connected⟩
    | ok info =>
        have hnotes : db₁.Writes [] { db₁ with chain := some info } :=
          (notes_writer db₁ (some info) db₁.timestamps _).writes hwrites.synced
        exact ⟨[] ++ bs ++ [], (hready.trans hwrites h.connected).trans hnotes h.connected⟩

/-- **A commit does with its own bundles what is done with any.** -/
theorem writes_addBundler (h : db.Synced) (hlink : ∀ id, s.link id = .ok ()) (bundler : Bundler) :
    ∃ bs, db.Writes bs (db.addBundler s bundler).1 := by
  obtain ⟨bs, howned⟩ := writes_ownChain h hlink
  unfold Database.addBundler
  generalize db.ownChain s = owned at howned ⊢
  obtain ⟨db₁, result⟩ := owned
  cases result with
  | error e => exact ⟨bs, howned⟩
  | ok last =>
      obtain ⟨bs', hsealed⟩ := writes_sealNext howned.synced hlink last bundler
      exact ⟨bs ++ bs', howned.trans hsealed h.connected⟩

theorem Writes.processed (h : db.Writes bs db') (hsynced : db.Synced) (bundler : Bundler) :
    db.Processed (.call (.commit bundler)) (bs.map (⟨·, none⟩)) db' := by
  obtain ⟨ix, hstore, -⟩ := hsynced.store
  obtain ⟨ix', claims, hoffer, hstored⟩ := h.stored ix hstore
  have hbundles : (bs.map fun b => (⟨b, none⟩ : Arrival)).map (·.bundle) = bs := by
    rw [List.map_map]
    exact List.map_id bs
  have hlocal : ∀ x ∈ bs.map fun b => (⟨b, none⟩ : Arrival), x.sender = none := fun x hx => by
    obtain ⟨b, -, rfl⟩ := List.mem_map.mp hx
    rfl
  refine ⟨⟨ix, ix', claims, hstore, by rw [hbundles]; exact hoffer, hstored⟩, ?_,
    fun _ => hlocal, h.synced.tracked, h.called, fun x hx id hid => ?_, fun id _ => ?_,
    fun hnil => ?_⟩
  · intro hcommits
    cases hcommits
  · rw [hlocal x hx] at hid
    cases hid
  · rw [hbundles]
    exact ⟨_, h.sent id, ack_not_mem_offered hsynced.connected bs id, fun _ =>
      ⟨rfl, fun m hm => mem_offered hsynced.connected hm⟩⟩
  · obtain ⟨htracker, heffects⟩ := h.idle (List.map_eq_nil_iff.mp hnil)
    refine ⟨htracker, ?_, fun _ => heffects⟩
    intro hcommits
    cases hcommits

/-! ## Runs -/

/-- **Every request is accounted for** by the bundles that it brings into the store. -/
theorem processed_serve (h : db.Synced) (request : Surroundings × Request α)
    (hlink : ∀ id, request.1.link id = .ok ()) :
    ∃ taken, db.Processed request.2 taken (db.serve request) ∧ (db.serve request).Synced := by
  obtain ⟨s, request⟩ := request
  cases request with
  | call call =>
      cases call with
      | commit bundler =>
          obtain ⟨bs, hwrites⟩ := writes_addBundler h hlink bundler
          exact ⟨_, hwrites.processed h bundler, hwrites.synced⟩
      | receive bytes sender => exact processed_receive h hlink bytes sender rfl rfl
      | connect id =>
          have hgreets := greets_connect h.connected hlink id
          exact ⟨[], hgreets.processed h rfl rfl, hgreets.synced h⟩
      | frame sender bytes => exact processed_frame h hlink sender bytes
  | disconnect id =>
      have hquiet := quiet_disconnect h.connected id
      exact ⟨[], hquiet.processed h rfl, hquiet.synced h⟩
  | addListener container remoteOnly label =>
      have hquiet : db.Quiet (db.addListener container remoteOnly label).1 :=
        ⟨rfl, rfl, rfl, h.connected⟩
      exact ⟨[], hquiet.processed h rfl, hquiet.synced h⟩
  | removeListener id =>
      have hquiet : db.Quiet (db.removeListener id).1 := ⟨rfl, rfl, rfl, h.connected⟩
      exact ⟨[], hquiet.processed h rfl, hquiet.synced h⟩

/-- A run of requests, and what each of them has brought into the store. -/
inductive Run : Database α → List (Surroundings × Request α) → List (List Arrival) → Prop where
  | done (db : Database α) : Run db [] []
  | serve {db : Database α} {request : Surroundings × Request α}
      {requests : List (Surroundings × Request α)} {taken : List Arrival}
      {others : List (List Arrival)} (first : db.Processed request.2 taken (db.serve request))
      (rest : Run (db.serve request) requests others) :
      Run db (request :: requests) (taken :: others)

theorem Synced.run (h : db.Synced) {requests : List (Surroundings × Request α)}
    (hlink : ∀ request ∈ requests, ∀ id, request.1.link id = .ok ()) :
    ∃ taken, Run db requests taken := by
  induction requests generalizing db with
  | nil => exact ⟨[], .done db⟩
  | cons request rest ih =>
      obtain ⟨hfirst, hrest⟩ := List.forall_mem_cons.mp hlink
      obtain ⟨taken, hprocessed, hsynced⟩ := processed_serve h request hfirst
      obtain ⟨others, hrun⟩ := ih hsynced hrest
      exact ⟨taken :: others, .serve hprocessed hrun⟩

/-- The store accepts what a run brings, one bundle after another. -/
theorem Run.accepted {requests : List (Surroundings × Request α)} {taken : List (List Arrival)}
    (h : Run db requests taken) (hstore : db.store = .memory ix) :
    (ix.offerAll (taken.flatten.map (·.bundle))).2 = taken.flatten.map (·.bundle) := by
  induction h generalizing ix with
  | done db => rfl
  | @serve db request requests taken others first rest ih =>
      obtain ⟨ix₀, ix', claims, hstore₀, hoffer, hstored⟩ := first.stored
      obtain rfl : ix = ix₀ := Store.memory.inj (hstore.symm.trans hstore₀)
      have hrest := ih hstored
      rw [Index.offerAll_withClaims] at hrest
      rw [List.flatten_cons, List.map_append, Index.offerAll_append, hoffer, hrest]

/-- A database is opened on the chains and claims of its store, with or without history. -/
theorem ofStore_memory (hbuilt : ix.Built) (config : Config) (attached : Bool) :
    ∃ ix', (ofStore (.memory ix) config attached : Database α).store = .memory ix' ∧ ix'.Built
      ∧ (ofStore (.memory ix) config attached : Database α).tracker = ⟨ix'.chains, []⟩
      ∧ ix'.chains = ix.chains ∧ ix'.claims = ix.claims := by
  obtain ⟨ix', hopened, hbuilt', hrecords⟩ : ∃ ix',
      (if config.keepHistory then .memory ix else (Store.memory ix).stopHistory) = .memory ix'
        ∧ ix'.Built ∧ ix'.chains = ix.chains ∧ ix'.claims = ix.claims := by
    split
    · exact ⟨ix, rfl, hbuilt, rfl, rfl⟩
    · exact ⟨ix.stopHistory, rfl, hbuilt.carryOut .stopHistory,
        Index.dropHistoryUpTo_records { ix with keepingHistory := false } none Int64.maxValue⟩
  refine ⟨ix', hopened, hbuilt', ?_, hrecords⟩
  rw [← hbuilt'.tipsFiled.chainTracker_eq]
  exact congrArg (fun store => store.index.chainTracker) hopened

theorem synced_ofStore (hbuilt : ix.Built) (config : Config) (attached : Bool) :
    (ofStore (.memory ix) config attached : Database α).Synced := by
  obtain ⟨ix', hstore, hbuilt', htracker, -⟩ := ofStore_memory (α := α) hbuilt config attached
  exact ⟨⟨ix', hstore, hbuilt'.tipsFiled, htracker⟩, fun id p hp => by cases hp⟩

/-- **Every bundle that is accepted is processed once, and every other not at all.** Open a database
on any store in memory and ask anything of it while sending does not fail. At first and after every
request its tracker has what its store has. What a request brings into the store is shown to the
listeners in order, acknowledged to the peer from which it came and to nobody else, and never sent
back to it; what is not brought in is of no consequence (`Processed`). And on each chain what is
brought in gets newer, so that no bundle is brought in twice. -/
theorem accepted_processed_once (hbuilt : ix.Built) (config : Config) (attached : Bool)
    (requests : List (Surroundings × Request α))
    (hlink : ∀ request ∈ requests, ∀ id, request.1.link id = .ok ()) :
    let opened : Database α := ofStore (.memory ix) config attached
    opened.tracker.rows = opened.store.index.chainTracker.rows
      ∧ ∃ taken, Run opened requests taken
        ∧ (taken.flatten.map (·.bundle)).Pairwise fun a b =>
          a.info.chain = b.info.chain → a.info.timestamp < b.info.timestamp := by
  intro opened
  have hsynced : opened.Synced := synced_ofStore hbuilt config attached
  obtain ⟨taken, hrun⟩ := hsynced.run hlink
  obtain ⟨ix', hstore, -⟩ := hsynced.store
  refine ⟨hsynced.tracked, taken, hrun, ?_⟩
  rw [← hrun.accepted hstore]
  exact Index.pairwise_accepted ix' _

/-- A peer sends a bundle twice, another peer has greeted, and something is committed. -/
theorem accepted_processed_once_sentTwice :
    let s : Surroundings :=
      ⟨0, 1000, fun _ => .ok (), fun _ => 5, fun _ => true, ⟨none, none, none⟩, 1⟩
    let b := Bundle.ofValid ⟨10, 7, 10, none, none⟩ [] rfl (List.forall_mem_nil _) (by decide)
    let greeting := (ChainTracker.empty.greeting.toOption.map Message.greeting).toList
    let requests : List (Surroundings × Request Unit) :=
      [(s, .addListener none true ()), (s, .call (.connect 2)), (s, .call (.connect 3))]
        ++ greeting.map (fun m => (s, .call (.frame 3 m.encode)))
        ++ [(s, .call (.frame 2 (carrying b).encode)), (s, .call (.frame 2 (carrying b).encode)),
          (s, .call (.commit .new))]
    let opened : Database Unit := ofStore (.memory (.empty true)) Config.default true
    let served := requests.foldl serve opened
    (∃ taken, Run opened requests taken ∧ (taken.flatten.map (·.bundle)).Pairwise fun a b =>
        a.info.chain = b.info.chain → a.info.timestamp < b.info.timestamp)
      ∧ served.effects.called = [((), b)]
      ∧ served.outbox 2 = greeting ++ [.ackOf b.info]
      ∧ (served.outbox 3).length = 4 := by
  intro s b greeting requests opened served
  have hlink : ∀ request ∈ requests, ∀ id, request.1.link id = .ok () := by
    intro request hrequest id
    have hs : request.1 = s := by
      simp only [requests, List.mem_append, List.mem_cons, List.mem_map, List.not_mem_nil,
        or_false] at hrequest
      rcases hrequest with ((rfl | rfl | rfl) | ⟨m, -, rfl⟩) | rfl | rfl | rfl <;> rfl
    rw [hs]
  obtain ⟨-, hrun⟩ := accepted_processed_once (α := Unit) (.empty true) Config.default true
    requests hlink
  exact ⟨hrun, by decide +kernel, by decide +kernel, by decide +kernel⟩

end Database

end GossipStore
