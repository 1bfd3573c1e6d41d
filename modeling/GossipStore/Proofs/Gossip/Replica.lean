import GossipStore.Proofs.Gossip.Codec
import GossipStore.Proofs.Gossip.Holdings
import GossipStore.Proofs.Gossip.Sending

set_option autoImplicit false

/-! # A database in step with a history

A database is in step with a history (`Database.InStep`) if it holds a part of every chain of it
(`Holds`), its tracker says which, all its peers know at least that much, and none was ever dropped.
Each operation that others can cause keeps it in step and succeeds: taking in a bundle
(`Database.InStep.receiveDecoded`), opening a connection (`Database.InStep.connect`) and handling a
message that can be taken in (`Database.InStep.handleFrame`).
-/

namespace GossipStore

/-- The outlook after a message from a replica, which a greeting makes ready. -/
def Outlook.after (o : Outlook) (id : PeerId) : Message → Outlook
  | .greeting _ => o.withPeer id true 0
  | _ => o

theorem Outlook.reach_after (o : Outlook) (id : PeerId) (m : Message) :
    (o.after id m).reach = o.reach := by cases m <;> rfl

theorem Outlook.stage_after (o : Outlook) (id : PeerId) (m : Message) (i : PeerId) :
    (o.after id m).stage i = if i = id ∧ m.isGreeting = true then some true else o.stage i := by
  cases m <;> simp [after, withPeer, Message.isGreeting]

theorem Outlook.greeted_after (o : Outlook) (id : PeerId) (m : Message) :
    (o.after id m).greeted = o.greeted := by
  funext i
  cases m <;> simp [after, withPeer]

/-- What somebody may say fits into a frame. -/
theorem Backed.fitting {history : List Bundle} {r : Progress} {m : Message}
    (h : Backed history r m) : m.Fitting := by
  cases m with
  | bundle bytes =>
      obtain ⟨b, -, rfl, -⟩ := h
      exact (BundleFormat.eq_form_of_encode b.encodes).2
  | greeting bytes => exact Nat.lt_trans h.1 (by decide)
  | ack chain t => trivial

theorem SortedMap.insert_insert {κ ν : Type} [Ord κ] [Std.TransOrd κ] [Std.LawfulEqOrd κ]
    (m : SortedMap κ ν) (k : κ) (v w : ν) : (m.insert k v).insert k w = m.insert k w := by
  refine ext_get? fun k' => ?_
  by_cases h : k' = k
  · subst h
    rw [get?_insert_self, get?_insert_self]
  · rw [get?_insert_of_ne _ h, get?_insert_of_ne _ h, get?_insert_of_ne _ h]

namespace Database

variable {α : Type}

/-- A database in memory that has a part of every chain of a history, knows which, and has told its
peers of it. -/
structure InStep (history : List Bundle) (outlook : Outlook) (db : Database α) : Prop where
  store : ∃ ix, db.store = .memory ix ∧ Holds history ix ∧ db.tracker = ⟨ix.chains, []⟩
  attached : db.attached = true
  former : db.former = []
  sending : db.Sending history outlook fun _ => db.seen

/-- Whether two databases write the same chain and have made the same claims. -/
def SameClaims (db db' : Database α) : Prop :=
  db'.chain = db.chain ∧ db'.store.index.claims = db.store.index.claims

variable {history : List Bundle} {outlook : Outlook} {db db' : Database α} {id : PeerId} {p : Peer}
  {s : Surroundings}

theorem SameClaims.refl (db : Database α) : db.SameClaims db := ⟨rfl, rfl⟩

theorem SameClaims.trans {db'' : Database α} (h : db.SameClaims db') (h' : db'.SameClaims db'') :
    db.SameClaims db'' :=
  ⟨h'.1.trans h.1, h'.2.trans h.2⟩

theorem Talks.sameClaims (h : db.Talks db') : db.SameClaims db' := by
  obtain ⟨peers, effects, rfl⟩ := h
  exact ⟨rfl, rfl⟩

theorem Talks.seen_eq (h : db.Talks db') : db'.seen = db.seen := by
  obtain ⟨peers, effects, rfl⟩ := h
  rfl

theorem seen_eq_reached {ix : Index} (htracker : db.tracker = ⟨ix.chains, []⟩) :
    db.seen = ix.reached := by
  rw [seen, htracker]
  rfl

theorem InStep.isPoint (h : db.InStep history outlook) (c : ChainKey) :
    IsPoint history c (db.seen c) := by
  obtain ⟨ix, -, hholds, htracker⟩ := h.store
  rw [seen_eq_reached htracker]
  exact hholds.isPoint c

/-! ## Bundles -/

theorem markUnchecked_of_lt {chains : SortedMap ChainKey BundleInfo} {info : BundleInfo}
    (h : ChainTracker.seenThrough ⟨chains, []⟩ info.chain < info.timestamp) :
    (ChainTracker.markUnchecked ⟨chains, []⟩ info).tracker
      = ⟨chains.insert info.chain info, []⟩ := by
  simp only [ChainTracker.markUnchecked, ChainTracker.mark, if_neg (Std.not_le.mpr h),
    Bool.false_and, Bool.false_eq_true, if_false, List.filter_nil]

/-- **A bundle whose predecessor is there is taken in**, wherever it comes from. -/
theorem InStep.receiveDecoded (h : db.InStep history outlook) (hh : History history)
    (hlink : ∀ id, s.link id = .ok ()) {b : Bundle} (hb : b ∈ history)
    (hprior : b.prior ≤ db.seen b.info.chain) (sender : Option PeerId)
    (hsender : ∀ id, sender = some id → b.info.timestamp ≤ outlook.reach id b.info.chain) :
    ∃ db', db.receiveDecoded s b sender = (db', .ok b.info) ∧ db'.InStep history outlook
      ∧ db'.seen = db.seen.raise b.info.chain b.info.timestamp ∧ db.SameClaims db' := by
  obtain ⟨ix, hstore, hholds, htracker⟩ := h.store
  have hseen : db.seen = ix.reached := seen_eq_reached htracker
  have hcheck := hholds.check hh hb (hseen ▸ hprior)
  have hadd : db.store.add b = .ok (.memory
      (if decide (ix.reached b.info.chain < b.info.timestamp) then ix.apply b else ix),
      decide (ix.reached b.info.chain < b.info.timestamp)) := by
    rw [hstore]
    simp only [Store.add, Index.add_eq, hcheck, Except.map]
  by_cases hnew : ix.reached b.info.chain < b.info.timestamp
  · simp only [hnew, decide_true, if_true] at hadd
    -- First it is stored and tracked, then everybody is told.
    let stored := { db with store := .memory (ix.apply b) }.track b.info
    have hnow : stored.tracker = ⟨(ix.apply b).chains, []⟩ := by
      show (db.tracker.markUnchecked b.info).tracker = _
      rw [htracker, Index.apply_chains]
      exact markUnchecked_of_lt hnew
    have hraised : stored.seen = db.seen.raise b.info.chain b.info.timestamp :=
      ChainTracker.seenThrough_markUnchecked db.tracker b.info
    have hsending : stored.Sending history outlook fun _ => db.seen :=
      h.sending.mono rfl rfl (List.Subset.refl _) fun c => by
        rw [hraised]
        exact Progress.le_raise _ _ _ c
    obtain ⟨hspread, htalks⟩ := hsending.spread hlink hh hb
      (by rw [hraised]; exact Progress.raise_self_ge _ _ _) hprior hsender
    rw [← hraised] at hspread
    have hresult : db.receiveDecoded s b sender
        = (((stored.tellSender s b.info sender).passOn s b sender).notify b sender.isSome,
          .ok b.info) := by
      rw [Database.receiveDecoded, hadd]
      cases sender <;> rfl
    refine ⟨_, hresult, ?_, ?_, ?_⟩
    · obtain ⟨peers, effects, heq⟩ := htalks
      rw [heq] at hspread ⊢
      exact ⟨⟨ix.apply b, rfl, hholds.apply hh hb (hseen ▸ hprior) hnew, hnow⟩, h.attached,
        h.former, hspread.mono rfl rfl (List.Subset.refl _) fun c => Std.le_refl _⟩
    · exact htalks.seen_eq.trans hraised
    · have hclaims : db.SameClaims stored := by
        refine ⟨rfl, ?_⟩
        rw [hstore]
        exact Index.apply_claims ix b
      exact hclaims.trans htalks.sameClaims
  · -- what is known already is a success without consequences
    simp only [hnew, decide_false] at hadd
    refine ⟨db, by rw [Database.receiveDecoded, hadd], h, ?_, SameClaims.refl db⟩
    rw [Progress.raise_of_le]
    rw [hseen]
    exact Std.not_lt.mp hnew

/-! ## Connections -/

/-- **A connection is opened with a greeting** to a replica to which there is none. -/
theorem InStep.connect (h : db.InStep history outlook) (hlink : ∀ id, s.link id = .ok ())
    (hnone : db.peers.get? id = none) (hsize : 28 * db.tracker.chains.size < 0xfffffffffffffe00) :
    ∃ db', db.connect s id = (db', .ok id) ∧ db'.InStep history (outlook.withPeer id false 1)
      ∧ db'.seen = db.seen ∧ db.SameClaims db' := by
  obtain ⟨greeting, hgreeting, hlen, tracker, htracker, hrows⟩ :=
    ChainTracker.ofGreeting_of_greeting (t := db.tracker) (by omega)
  -- the new peer is named, or its fields would be computed everywhere below
  obtain ⟨peer, hpeer⟩ : ∃ peer,
    Peer.new db.connections id db.config.handshakeTimeout.toNat s.now = peer := ⟨_, rfl⟩
  have hid : peer.id = id := hpeer ▸ rfl
  have hready : peer.hasMap.isSome = false := hpeer ▸ rfl
  have hbacked : Backed history db.seen (.greeting greeting) := by
    refine ⟨by omega, tracker, htracker, fun c => ?_⟩
    rw [hrows]
    exact ⟨h.isPoint c, Std.le_refl _⟩
  have hnew : peer.Believes history db.seen (settled (outlook.reach id) (db.outbox id)) :=
    hpeer ▸ Peer.believes_new _ _ _ _
  obtain ⟨hsend, ho⟩ := Peer.sendGreeting_sound hnew hbacked
  have hdisconnect : db.disconnect id = db := by rw [Database.disconnect, hnone]
  let fresh := { db.setPeer peer with connections := db.connections + 1 }
  have hresult : db.connect s id
      = (fresh.absorb (⟨peer, [.greeting greeting], .ok ()⟩ : Peer.Outcome Unit), .ok id) := by
    have htracked : (db.setPeer peer).tracker.greeting = .ok greeting := hgreeting
    rw [Database.connect, h.attached]
    simp only [Bool.not_true, Bool.false_eq_true, if_false, hpeer, htracked, hlink, hdisconnect,
      hsend]
    rfl
  have hsending := h.sending.absorb hid ho
  rw [hready] at hsending
  -- the peer is put into the table before and after it has greeted
  have hpeers : (fresh.absorb (⟨peer, [.greeting greeting], .ok ()⟩ : Peer.Outcome Unit)).peers
      = (db.absorb (⟨peer, [.greeting greeting], .ok ()⟩ : Peer.Outcome Unit)).peers :=
    SortedMap.insert_insert db.peers peer.id peer peer
  refine ⟨_, hresult, ⟨h.store, h.attached, h.former, ?_⟩, rfl, rfl, rfl⟩
  refine (hsending.mono hpeers rfl (List.Subset.refl _) fun c => Std.le_refl _).weaken ?_
  intro i _ c
  split <;> exact Std.le_refl _

/-! ## Frames -/

theorem receive_eq {b : Bundle} {sender : Option PeerId} :
    db.receive s b.bytes sender = db.receiveDecoded s b sender := by
  rw [receive, b.decode_bytes]

/-- **A message that can be taken in is handled**, and its sender stays a peer. -/
theorem InStep.handleFrame (h : db.InStep history outlook) (hh : History history)
    (hlink : ∀ id, s.link id = .ok ()) (hp : db.peers.get? id = some p) {m : Message}
    (hfitting : m.Fitting) (hbacked : Backed history (outlook.reach id) m) (hfits : Fits db.seen m)
    (hgreet : m.isGreeting = true → p.hasMap.isSome = false ∧ p.expire s.now = p) :
    ∃ db', db.handleFrame s id m.encode = (db', .ok ())
      ∧ db'.InStep history (outlook.after id m) ∧ db'.seen = settle db.seen m
      ∧ db.SameClaims db' := by
  have hpid := h.sending.ids id p hp
  have hbelieves := h.sending.believes id p hp
  have hdecode := Message.decode_encode hfitting
  cases m with
  | bundle bytes =>
      -- its sender has it, so it is not offered there again
      obtain ⟨b, hb, rfl, hle⟩ := hbacked
      obtain ⟨db', hreceive, hstep, hseen, hclaims⟩ :=
        h.receiveDecoded hh hlink hb (hfits b b.decode_bytes) (some id)
          fun i hi => Option.some.inj hi ▸ hle
      refine ⟨db', ?_, hstep, ?_, hclaims⟩
      · simp only [Database.handleFrame, hp, hdecode, receive_eq, hreceive]
        rfl
      · rw [hseen, settle_bundle]
  | ack chain t =>
      -- the acknowledged bundle has been seen by its recipient, so the has-map may move there
      have hle := Std.le_trans hbacked.2 (le_settled (outlook.reach id) (db.outbox id) chain)
      have ho : Peer.Outcome.Routine _ db.seen _ _ p ⟨p.onAck (ackedInfo chain t), [], .ok ()⟩ :=
        Peer.onAck_routine hbelieves hbacked.1 hle
      refine ⟨db.setPeer (p.onAck (ackedInfo chain t)), ?_, ⟨h.store, h.attached, h.former, ?_⟩,
        rfl, rfl, rfl⟩
      · simp only [Database.handleFrame, hp, hdecode]
      · have hsent : (db.setPeer (p.onAck (ackedInfo chain t))).effects.sent = (db.absorb
            (⟨p.onAck (ackedInfo chain t), [], .ok ()⟩ : Peer.Outcome Unit)).effects.sent := by
          simp [setPeer, Database.absorb]
        have hsending : (db.setPeer (p.onAck (ackedInfo chain t))).Sending history outlook
            (raisedAt (fun _ => db.seen) [id] chain t) :=
          (h.sending.absorb_routine hp ho).mono rfl hsent (List.Subset.refl _) fun c =>
            Std.le_refl _
        refine hsending.weaken fun i _ c => ?_
        unfold raisedAt
        split
        · exact Progress.le_raise _ _ _ c
        · exact Std.le_refl _
  | greeting bytes =>
      obtain ⟨-, tracker, htracker, hpoints⟩ := hbacked
      obtain ⟨hnew, hexpire⟩ := hgreet rfl
      obtain ⟨ix, hstore, hholds, hown⟩ := h.store
      have hseen : db.seen = ix.reached := seen_eq_reached hown
      obtain ⟨q, hgreeted, hqid, hqready, hready⟩ := Peer.believes_greet hbelieves hnew hexpire
        (fun c => (hpoints c).1)
        fun c => Std.le_trans (hpoints c).2 (le_settled _ (db.outbox id) c)
      -- the peer is known to have nothing for certain, and is offered all that is held
      have ho := Peer.catchUp_routine hh hready
        (fun b hb => by
          obtain ⟨hb, hle⟩ := hholds.mem_bundleList.mp hb
          exact ⟨hb, hseen ▸ hle⟩)
        (hholds.deliverable hh)
      have hsending := h.sending.absorb (ho.id.trans (hqid.trans hpid)) ho.toSound
      rw [ho.quiet, ho.stage, hqready] at hsending
      obtain ⟨count, hcount⟩ := ho.result
      refine ⟨db.absorb (q.catchUp (.ok ()) ix.bundleList), ?_,
        ⟨h.store, h.attached, h.former, ?_⟩, rfl, rfl, rfl⟩
      · simp only [Database.handleFrame, hp, hdecode, Database.receiveGreeting, htracker, hgreeted,
          hlink, hstore, Store.index, absorbOrDrop_eq_absorb ho.result, hcount]
        rfl
      · refine hsending.weaken fun i _ c => ?_
        split
        · show db.seen c ≤ _
          rw [hseen]
          exact hholds.reached_le_settled c
        · exact Std.le_refl _

end Database

end GossipStore
