import GossipStore.Proofs.Database.Requests
import GossipStore.Proofs.Gossip.Handshake

set_option autoImplicit false

/-! # Bad frames

A frame may fail in many ways. It cannot be read, or the greeting or bundle in it cannot; the
greeting comes again or too late; what is sent in answer does not go out; the bundle leaves a gap or
forks its chain. By then a connection may have moved on and messages may have been sent, but always
the connection of the sender, which is closed in the end, and messages to the sender (`Touches`).

This needs no more of a database than that it is in memory, where a bundle is refused only for its
place in its chain, and that every connection stands under the replica that it leads to. Whatever
goes on, also while sending fails, keeps both (`Housed`).
-/

namespace GossipStore.Database

variable {α : Type} {db db' db'' : Database α} {ix : Index} {sender : PeerId}

/-! ## What is kept whatever goes on -/

/-- Whether a database is in memory and every connection stands under the replica it leads to. -/
structure Housed (db : Database α) : Prop where
  memory : ∃ ix, db.store = .memory ix
  named : ∀ id p, db.peers.get? id = some p → p.id = id

namespace Housed

/-- Nothing else matters than the store and the connections. -/
theorem congr (h : db.Housed) (hstore : db'.store = db.store) (hpeers : db'.peers = db.peers) :
    db'.Housed where
  memory := h.memory.imp fun _ hix => hstore.trans hix
  named id p hp := h.named id p (hpeers ▸ hp)

theorem withStore (h : db.Housed) (ix : Index) : { db with store := .memory ix }.Housed where
  memory := ⟨ix, rfl⟩
  named := h.named

theorem setPeer (h : db.Housed) (p : Peer) : (db.setPeer p).Housed where
  memory := h.memory
  named id q hq := by
    rw [Database.setPeer] at hq
    by_cases hid : id = p.id
    · rw [hid, SortedMap.get?_insert_self] at hq
      rw [← Option.some.inj hq, hid]
    · rw [SortedMap.get?_insert_of_ne _ hid] at hq
      exact h.named id q hq

theorem disconnect (h : db.Housed) (id : PeerId) : (db.disconnect id).Housed := by
  rw [Database.disconnect]
  split
  · exact h
  · refine ⟨h.memory, fun i q hq => ?_⟩
    by_cases hi : i = id
    · rw [hi, SortedMap.get?_erase_self] at hq
      cases hq
    · rw [SortedMap.get?_erase_of_ne _ hi] at hq
      exact h.named i q hq

theorem disconnectAll (h : db.Housed) (ids : List PeerId) :
    (ids.foldl Database.disconnect db).Housed :=
  List.foldlRecOn ids _ h fun _ h id _ => h.disconnect id

theorem absorbOrDrop {β : Type} (h : db.Housed) (o : Peer.Outcome β) :
    (db.absorbOrDrop o).Housed := by
  have habsorb : (db.absorb o).Housed := (h.setPeer o.peer).congr rfl rfl
  rw [Database.absorbOrDrop]
  split
  · exact habsorb
  · exact habsorb.disconnect _

theorem dropSender (h : db.Housed) (sender : Option PeerId) : (db.dropSender sender).Housed := by
  cases sender with
  | none => exact h
  | some id => exact h.disconnect id

theorem tellSender (h : db.Housed) (s : Surroundings) (info : BundleInfo)
    (sender : Option PeerId) : (db.tellSender s info sender).Housed := by
  cases sender with
  | none => exact h
  | some id =>
      rw [Database.tellSender, acknowledge]
      split
      · exact h
      · exact h.absorbOrDrop _

theorem passOn (h : db.Housed) (s : Surroundings) (b : Bundle) (sender : Option PeerId) :
    (db.passOn s b sender).Housed := by
  rw [Database.passOn]
  refine List.foldlRecOn _ _ h fun db₁ h₁ id _ => ?_
  rw [offerTo]
  split
  · exact h₁
  · exact h₁.absorbOrDrop _

theorem receiveDecoded (h : db.Housed) (s : Surroundings) (b : Bundle) (sender : Option PeerId) :
    (db.receiveDecoded s b sender).1.Housed := by
  obtain ⟨ix, hstore⟩ := h.memory
  rw [Database.receiveDecoded, hstore, add_memory]
  rcases ix.check b.info with e | _ | _
  · change (if e.isChainViolation then db.dropSender sender else db).Housed
    split
    · exact h.dropSender sender
    · exact h
  · exact h
  · have hstored : ({ db with store := .memory (ix.apply b) }.track b.info).Housed :=
      (h.withStore (ix.apply b)).congr rfl rfl
    have htold := (hstored.tellSender s b.info sender).passOn s b sender
    cases sender <;> exact htold.congr rfl rfl

theorem receive (h : db.Housed) (s : Surroundings) (bytes : Bytes) (sender : Option PeerId) :
    (db.receive s bytes sender).1.Housed := by
  rw [Database.receive]
  split
  · exact h.dropSender sender
  · exact h.receiveDecoded s _ sender

theorem receiveGreeting (h : db.Housed) (s : Surroundings) (p : Peer) (greeting : Bytes) :
    (db.receiveGreeting s p greeting).1.Housed := by
  unfold Database.receiveGreeting
  split
  · exact h.disconnect _
  · split
    · exact (h.setPeer _).disconnect _
    · exact h.absorbOrDrop _

theorem handleFrame (h : db.Housed) (s : Surroundings) (sender : PeerId) (frame : Bytes) :
    (db.handleFrame s sender frame).1.Housed := by
  rw [Database.handleFrame]
  split
  · exact h
  · split
    · exact h.disconnect sender
    · exact h.receiveGreeting s _ _
    · exact h.receive s _ _
    · exact h.setPeer _

theorem connect (h : db.Housed) (s : Surroundings) (id : PeerId) :
    (db.connect s id).1.Housed := by
  unfold Database.connect
  split
  · exact h
  · dsimp only
    generalize Peer.new db.connections id db.config.handshakeTimeout.toNat s.now = peer
    have hopened : { (db.disconnect id).setPeer peer with
        connections := db.connections + 1 }.Housed :=
      ((h.disconnect id).setPeer peer).congr rfl rfl
    split
    · exact hopened
    · exact hopened.absorbOrDrop _

theorem claim (h : db.Housed) (s : Surroundings) (chain : ChainKey) :
    (db.claim s chain).Housed := by
  obtain ⟨ix, hstore⟩ := h.memory
  exact ⟨⟨_, store_claim hstore s chain⟩, h.named⟩

theorem startChain (h : db.Housed) (s : Surroundings) : (db.startChain s).1.Housed := by
  unfold Database.startChain
  generalize db.timestamps.next s.clock = stamped
  obtain ⟨timestamps, start⟩ := stamped
  dsimp only
  have hready : { db with medallionsUsed := db.medallionsUsed + 1, timestamps }.Housed :=
    h.congr rfl rfl
  split
  · exact hready
  · rename_i bundler b hseal
    have hreceived := hready.receiveDecoded s b none
    generalize Database.receiveDecoded s _ b none = received at hreceived ⊢
    obtain ⟨db₁, result⟩ := received
    cases result with
    | error e => exact hreceived
    | ok info => exact hreceived.claim s _

theorem ownChain (h : db.Housed) (s : Surroundings) : (db.ownChain s).1.Housed := by
  unfold Database.ownChain
  split
  · exact h
  · rw [acquireChain]
    split
    · exact h.claim s _
    · exact h.startChain s

theorem sealNext (h : db.Housed) (s : Surroundings) (last : BundleInfo) (bundler : Bundler) :
    (db.sealNext s last bundler).1.Housed := by
  unfold Database.sealNext
  generalize db.timestamps.nextAfter s.clock last.timestamp = stamped
  obtain ⟨timestamps, t⟩ := stamped
  dsimp only
  have hready : { db with chain := some last, timestamps }.Housed := h.congr rfl rfl
  split
  · exact hready
  · rename_i bundler' b hseal
    have hreceived := hready.receiveDecoded s b none
    generalize Database.receiveDecoded s _ b none = received at hreceived ⊢
    obtain ⟨db₁, result⟩ := received
    cases result with
    | error e => exact hreceived
    | ok info => exact hreceived.congr rfl rfl

theorem addBundler (h : db.Housed) (s : Surroundings) (bundler : Bundler) :
    (db.addBundler s bundler).1.Housed := by
  have howned := h.ownChain s
  unfold Database.addBundler
  generalize db.ownChain s = owned at howned ⊢
  obtain ⟨db₁, result⟩ := owned
  cases result with
  | error e => exact howned
  | ok last => exact howned.sealNext s last bundler

theorem serve (h : db.Housed) (request : Surroundings × Request α) : (db.serve request).Housed := by
  obtain ⟨s, request⟩ := request
  cases request with
  | call call =>
      cases call with
      | commit bundler => exact h.addBundler s bundler
      | receive bytes sender => exact h.receive s bytes sender
      | connect id => exact h.connect s id
      | frame sender bytes => exact h.handleFrame s sender bytes
  | disconnect id => exact h.disconnect id
  | addListener container remoteOnly label => exact h.congr rfl rfl
  | removeListener id => exact h.congr rfl rfl

end Housed

/-- What can become of a database in memory that is on a network. -/
inductive Reachable : Database α → Prop where
  | opened (ix : Index) (config : Config) : Reachable (.ofStore (.memory ix) config true)
  | served {db : Database α} (before : Reachable db) (request : Surroundings × Request α) :
      Reachable (db.serve request)
  | waited {db : Database α} (before : Reachable db) (ticket : Nat) (m : Muid) :
      Reachable (db.wait ticket m)
  | waitClosed {db : Database α} (before : Reachable db) (ticket : Nat) :
      Reachable { db with tracker := db.tracker.closeWait ticket }
  | handshakesDropped {db : Database α} (before : Reachable db) (s : Surroundings) :
      Reachable (db.dropFailedHandshakes s).1
  | closed {db : Database α} (before : Reachable db) : Reachable db.close
  | effectsTaken {db : Database α} (before : Reachable db) : Reachable db.takeEffects.1
  | posted {db : Database α} (before : Reachable db) (own : PeerId) (net : Network) :
      Reachable (db.post own net).1
  /-- Somebody has used the store itself. -/
  | storeUsed {db : Database α} (before : Reachable db) (ix : Index) :
      Reachable { db with store := .memory ix }
  /-- Somebody has used a connection itself. -/
  | peerUsed {db : Database α} (before : Reachable db) (p : Peer)
      (connected : db.peers.contains p.id = true) : Reachable (db.setPeer p)

theorem Reachable.servedAll (h : Reachable db) (requests : List (Surroundings × Request α)) :
    Reachable (requests.foldl serve db) :=
  List.foldlRecOn requests _ h fun _ h request _ => h.served request

theorem Reachable.housed (h : Reachable db) : db.Housed := by
  induction h with
  | opened ix config =>
      refine ⟨?_, fun id p hp => by cases hp⟩
      change ∃ ix', (if config.keepHistory then Store.memory ix
        else (Store.memory ix).stopHistory) = .memory ix'
      split
      · exact ⟨ix, rfl⟩
      · exact ⟨ix.stopHistory, rfl⟩
  | served before request ih => exact ih.serve request
  | waited before ticket m ih =>
      rw [wait]
      split <;> exact ih.congr rfl rfl
  | waitClosed before ticket ih => exact ih.congr rfl rfl
  | handshakesDropped before s ih => exact ih.disconnectAll _
  | closed before ih => exact ih.disconnectAll _
  | effectsTaken before ih => exact ih.congr rfl rfl
  | posted before own net ih => exact ih.congr rfl rfl
  | storeUsed before ix ih => exact ih.withStore ix
  | peerUsed before p connected ih => exact ih.setPeer p

/-! ## What a bad frame costs -/

/-- Whether nothing has happened but to the connection of one replica, to which messages may have
been sent. -/
structure Touches (id : PeerId) (db db' : Database α) : Prop where
  others : ∀ i, i ≠ id → db'.peers.get? i = db.peers.get? i
  sent : ∃ out : List Message, db'.effects.sent = db.effects.sent ++ out.map (id, ·)
  rest : ∃ peers former sent,
    db' = { db with peers, former, effects := { db.effects with sent } }

/-- Whether that connection is also gone. -/
structure Drops (id : PeerId) (db db' : Database α) : Prop extends Touches id db db' where
  gone : db'.peers.get? id = none

theorem Touches.trans {id : PeerId} (h : Touches id db db') (h' : Touches id db' db'') :
    Touches id db db'' where
  others i hi := (h'.others i hi).trans (h.others i hi)
  sent := by
    obtain ⟨out, hout⟩ := h.sent
    obtain ⟨out', hout'⟩ := h'.sent
    exact ⟨out ++ out', by rw [hout', hout, List.map_append, List.append_assoc]⟩
  rest := by
    obtain ⟨peers, former, sent, rfl⟩ := h.rest
    obtain ⟨peers', former', sent', rfl⟩ := h'.rest
    exact ⟨peers', former', sent', rfl⟩

theorem touches_setPeer (db : Database α) (p : Peer) : Touches p.id db (db.setPeer p) where
  others _ hi := SortedMap.get?_insert_of_ne _ hi p
  sent := ⟨[], (List.append_nil _).symm⟩
  rest := ⟨_, _, _, rfl⟩

theorem touches_absorb {β : Type} (db : Database α) (o : Peer.Outcome β) :
    Touches o.peer.id db (db.absorb o) where
  others _ hi := SortedMap.get?_insert_of_ne _ hi o.peer
  sent := ⟨o.sent, rfl⟩
  rest := ⟨_, _, _, rfl⟩

theorem drops_disconnect (db : Database α) (id : PeerId) : Drops id db (db.disconnect id) := by
  rw [Database.disconnect]
  split
  · rename_i hnone
    exact ⟨⟨fun _ _ => rfl, ⟨[], (List.append_nil _).symm⟩, ⟨_, _, _, rfl⟩⟩, hnone⟩
  · exact ⟨⟨fun i hi => SortedMap.get?_erase_of_ne _ hi, ⟨[], (List.append_nil _).symm⟩,
      ⟨_, _, _, rfl⟩⟩, SortedMap.get?_erase_self _ id⟩

/-- A connection that was touched is closed. -/
theorem Touches.disconnect {id : PeerId} (h : Touches id db db') :
    Drops id db (db'.disconnect id) :=
  ⟨h.trans (drops_disconnect db' id).toTouches, (drops_disconnect db' id).gone⟩

/-- A greeting that fails: it cannot be read, is not accepted, or is not answered. -/
theorem drops_of_receiveGreeting {s : Surroundings} {p : Peer} {greeting : Bytes}
    {e : DatabaseError} (hfails : (db.receiveGreeting s p greeting).2 = .error e) :
    Drops p.id db (db.receiveGreeting s p greeting).1 := by
  unfold receiveGreeting at hfails ⊢
  cases htracker : ChainTracker.ofGreeting greeting with
  | error e => exact drops_disconnect db p.id
  | ok tracker =>
      simp only [htracker] at hfails ⊢
      have hid := (Peer.greet_keeps p s.now tracker).1
      generalize p.greet s.now tracker = greeted at hfails hid ⊢
      obtain ⟨q, result⟩ := greeted
      have hid : q.id = p.id := hid
      cases result with
      | error e =>
          rw [← hid]
          exact (touches_setPeer db q).disconnect
      | ok u =>
          have hcaught := (Peer.sameStage_catchUp q (s.link q.id) db.store.index.bundleList).id
          simp only at hfails ⊢
          generalize q.catchUp (s.link q.id) db.store.index.bundleList = o at hfails hcaught ⊢
          rw [← hid, ← hcaught, absorbOrDrop]
          cases hresult : o.result with
          | error e => exact (touches_absorb db o).disconnect
          | ok count =>
              rw [hresult] at hfails
              cases hfails

/-- A bundle that fails: it cannot be read, or breaks its chain. -/
theorem drops_of_receive (hstore : db.store = .memory ix) {s : Surroundings} {bytes : Bytes}
    {e : DatabaseError} (hfails : (db.receive s bytes (some sender)).2 = .error e) :
    Drops sender db (db.receive s bytes (some sender)).1 := by
  rw [receive] at hfails ⊢
  cases hdecode : Bundle.decode bytes with
  | error e => exact drops_disconnect db sender
  | ok b =>
      simp only [hdecode, receiveDecoded, hstore, add_memory] at hfails ⊢
      rcases hcheck : ix.check b.info with e | _ | _
      · -- a chain violation is all that a store in memory complains of
        have hviolation : e.isChainViolation = true := by
          rcases Index.check_eq_error_iff.mp hcheck with ⟨tip, -, -, -, rfl⟩ | ⟨-, -, rfl⟩ <;> rfl
        simp only [Except.map, hviolation, if_true]
        exact drops_disconnect db sender
      · rw [hcheck] at hfails
        cases hfails
      · rw [hcheck] at hfails
        cases hfails

/-- **A bad frame costs its sender the connection, and nothing else.** Take any database in memory
that is on a network, whatever has been asked of it before and whatever became of what it sent. If a
frame from a peer is answered with an error, the peer is no longer connected. All other connections
are as before, with what is known of the other side and what is held back; nothing has been sent to
anybody but the sender; and everything else is as before as well: the store, the tracker, the own
chain, the listeners, and who has been called. A frame from a replica that is no peer changes
nothing at all. -/
theorem handleFrame_costs_sender (h : Reachable db) (s : Surroundings) (sender : PeerId)
    (frame : Bytes) :
    (db.peers.get? sender = none →
        db.handleFrame s sender frame = (db, .error (.unknownPeer sender)))
      ∧ ∀ p e, db.peers.get? sender = some p → (db.handleFrame s sender frame).2 = .error e →
        Drops sender db (db.handleFrame s sender frame).1 := by
  refine ⟨fun hnone => by rw [handleFrame, hnone], fun p e hp hfails => ?_⟩
  obtain ⟨ix, hstore⟩ := h.housed.memory
  have hid : p.id = sender := h.housed.named sender p hp
  rw [handleFrame, hp] at hfails ⊢
  simp only at hfails ⊢
  cases hdecode : Message.decode frame with
  | error e => exact drops_disconnect db sender
  | ok m =>
      cases m with
      | greeting greeting =>
          simp only [hdecode] at hfails ⊢
          rw [← hid]
          exact drops_of_receiveGreeting hfails
      | bundle bytes =>
          simp only [hdecode] at hfails ⊢
          cases hresult : (db.receive s bytes (some sender)).2 with
          | error e => exact drops_of_receive hstore hresult
          | ok info =>
              rw [hresult] at hfails
              cases hfails
      | ack chain t =>
          -- an acknowledgement is always taken in
          rw [hdecode] at hfails
          cases hfails

/-- One peer sends a bundle of which the predecessor is missing, and another one greets twice. -/
theorem handleFrame_costs_sender_gapAndSecondGreeting :
    let s : Surroundings :=
      ⟨0, 1000, fun _ => .ok (), fun _ => 5, fun _ => true, ⟨none, none, none⟩, 1⟩
    let gap := (carrying (Bundle.ofValid ⟨20, 7, 10, some 10, none⟩ [] rfl (List.forall_mem_nil _)
      (by decide))).encode
    let hello := (Message.greeting [0x80]).encode
    let requests : List (Surroundings × Request Unit) :=
      [(s, .addListener none false ()), (s, .call (.connect 2)), (s, .call (.connect 3)),
        (s, .call (.frame 3 hello))]
    let db : Database Unit := requests.foldl serve (ofStore (.memory (.empty true)) .default true)
    (db.handleFrame s 2 gap).2 = .error (.store (.missingChainStart 7 10 20))
      ∧ Drops 2 db (db.handleFrame s 2 gap).1
      ∧ (db.handleFrame s 3 hello).2 = .error (.gossip (.duplicateGreeting 3))
      ∧ Drops 3 db (db.handleFrame s 3 hello).1
      ∧ db.handleFrame s 4 gap = (db, .error (.unknownPeer 4)) := by
  intro s gap hello requests db
  have hreachable : db.Reachable := (Reachable.opened (.empty true) .default).servedAll requests
  have hgap : (db.handleFrame s 2 gap).2 = .error (.store (.missingChainStart 7 10 20)) := by
    decide +kernel
  have hhello : (db.handleFrame s 3 hello).2 = .error (.gossip (.duplicateGreeting 3)) := by
    decide +kernel
  obtain ⟨p, hp⟩ : ∃ p, db.peers.get? 2 = some p := Option.isSome_iff_exists.mp (by decide +kernel)
  obtain ⟨q, hq⟩ : ∃ q, db.peers.get? 3 = some q := Option.isSome_iff_exists.mp (by decide +kernel)
  exact ⟨hgap, (handleFrame_costs_sender hreachable s 2 gap).2 p _ hp hgap, hhello,
    (handleFrame_costs_sender hreachable s 3 hello).2 q _ hq hhello,
    (handleFrame_costs_sender hreachable s 4 gap).1
      (Option.not_isSome_iff_eq_none.mp (by decide +kernel))⟩

end GossipStore.Database
