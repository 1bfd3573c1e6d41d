import GossipStore.Proofs.Gossip.Outbound

set_option autoImplicit false

/-! # The handshake

A connection starts out connecting. The first greeting that comes before the deadline makes it
ready. If none does, it fails, which nobody notices until a greeting comes too late or somebody
looks. It can be closed at any time, and there is no other way to go on (`Turn`).

What is known of the other side is kept apart from the state of the connection, and so is what is
held back. Sending and hearing of bundles leave the handshake alone, whatever the link does
(`Peer.SameStage`). So the other side is known exactly while the connection is ready, bundles are
held back and sent only then, and nothing at all is sent after closing (`handshake_one_way`).
-/

namespace GossipStore

namespace Peer

variable {p q r : Peer} {link : Link}

/-! ## What leaves the handshake alone -/

/-- Whether two peers are one connection at one stage of the handshake. -/
structure SameStage (p q : Peer) : Prop where
  id : q.id = p.id
  timeout : q.timeout = p.timeout
  deadline : q.deadline = p.deadline
  state : q.state = p.state
  known : q.hasMap.isSome = p.hasMap.isSome

theorem SameStage.refl (p : Peer) : SameStage p p := ⟨rfl, rfl, rfl, rfl, rfl⟩

theorem SameStage.trans (h : SameStage p q) (h' : SameStage q r) : SameStage p r :=
  ⟨h'.id.trans h.id, h'.timeout.trans h.timeout, h'.deadline.trans h.deadline,
    h'.state.trans h.state, h'.known.trans h.known⟩

theorem sameStage_foldl_hold (bs : List Bundle) (p : Peer) : SameStage p (bs.foldl hold p) :=
  List.foldlRecOn bs hold (motive := SameStage p) (.refl p) fun _ h _ _ =>
    h.trans ⟨rfl, rfl, rfl, rfl, rfl⟩

theorem sameStage_prune (p : Peer) (chain : ChainKey) : SameStage p (p.prune chain) := by
  rw [prune]
  split <;> exact ⟨rfl, rfl, rfl, rfl, rfl⟩

theorem sameStage_sendMessage (p : Peer) (link : Link) (m : Message) :
    SameStage p (p.sendMessage link m).peer := by
  rw [sendMessage]
  split <;> exact .refl p

theorem sameStage_sendBundle (p : Peer) (link : Link) (b : Bundle) :
    SameStage p (p.sendBundle link b).peer := by
  rw [sendBundle]
  split
  · exact .refl p
  · exact ⟨rfl, rfl, rfl, rfl, rfl⟩

/-- The has-map passes a bundle, which is sent. -/
theorem sameStage_marked {t : ChainTracker} (ht : p.hasMap = some t) (u : ChainTracker)
    (link : Link) (b : Bundle) :
    SameStage p (({ p with hasMap := some u } : Peer).sendBundle link b).peer := by
  have hmarked : SameStage p { p with hasMap := some u } := ⟨rfl, rfl, rfl, rfl, by rw [ht]; rfl⟩
  exact hmarked.trans (sameStage_sendBundle _ link b)

theorem sameStage_flush (p : Peer) (link : Link) (bs : List Bundle) :
    SameStage p (p.flush link bs).peer := by
  induction bs generalizing p with
  | nil => exact .refl p
  | cons b rest ih =>
      have hheld := sameStage_foldl_hold (b :: rest) p
      rw [flush]
      cases ht : p.hasMap with
      | none => exact hheld
      | some t =>
          simp only
          split
          · exact hheld
          · rename_i u reached hmark
            have hfirst := sameStage_marked ht u link b
            split
            · exact hfirst.trans (sameStage_foldl_hold rest _)
            · exact hfirst.trans (ih _)
          · exact ih p

theorem sameStage_flushChain (p : Peer) (link : Link) (chain : ChainKey) :
    SameStage p (p.flushChain link chain).peer := by
  have hpruned := sameStage_prune p chain
  have hreleased : SameStage p ((p.prune chain).releaseChain chain) :=
    hpruned.trans ⟨rfl, rfl, rfl, rfl, rfl⟩
  exact hreleased.trans (sameStage_flush _ link _)

theorem sameStage_offer (p : Peer) (link : Link) (b : Bundle) :
    SameStage p (p.offer link b).peer := by
  rw [offer]
  cases ht : p.hasMap with
  | none => exact .refl p
  | some t =>
      simp only
      split
      · exact sameStage_foldl_hold [b] p
      · exact .refl p
      · rename_i u reached hmark
        have hfirst := sameStage_marked ht u link b
        split
        · exact hfirst
        · exact hfirst.trans (sameStage_flushChain _ link _)

theorem sameStage_catchUp (p : Peer) (link : Link) (bs : List Bundle) :
    SameStage p (p.catchUp link bs).peer := by
  induction bs generalizing p with
  | nil => exact .refl p
  | cons b rest ih =>
      have hfirst := sameStage_offer p link b
      rw [catchUp]
      simp only
      split
      · exact hfirst
      · exact hfirst.trans (ih _)

theorem sameStage_onReceived (p : Peer) (info : BundleInfo) :
    SameStage p (p.onReceived info) := by
  have htold : SameStage p { p with hasMap := p.hasMap.map fun t =>
      (t.markUnchecked info).tracker } := ⟨rfl, rfl, rfl, rfl, Option.isSome_map⟩
  exact htold.trans (sameStage_prune _ info.chain)

theorem sameStage_onAck (p : Peer) (info : BundleInfo) : SameStage p (p.onAck info) := by
  have hreceived := sameStage_onReceived p info
  rw [onAck]
  split
  · exact hreceived.trans ⟨rfl, rfl, rfl, rfl, rfl⟩
  · exact hreceived

/-! ## Before the greeting and after closing -/

/-- Of a peer that is not known nothing is known to be missing. -/
theorem offer_of_unknown (h : p.hasMap = none) (link : Link) (b : Bundle) :
    p.offer link b = ⟨p, [], .ok false⟩ := by
  rw [offer, h]

theorem catchUp_of_unknown (h : p.hasMap = none) (link : Link) (bs : List Bundle) :
    p.catchUp link bs = ⟨p, [], .ok 0⟩ := by
  induction bs with
  | nil => rfl
  | cons b rest ih => simp [catchUp, offer_of_unknown h, ih, Except.map]

theorem onReceived_of_unknown (h : p.hasMap = none) (info : BundleInfo) :
    p.onReceived info = p := by
  cases p
  cases h
  rfl

theorem held_onAck_of_unknown (h : p.hasMap = none) (info : BundleInfo) :
    (p.onAck info).held = p.held := by
  rw [onAck, onReceived_of_unknown h]
  split <;> rfl

/-- Acknowledgements and greetings are no bundles. -/
theorem mem_sent_sendMessage {m m' : Message} (h : m' ∈ (p.sendMessage link m).sent) :
    m' = m ∧ p.state ≠ .closed := by
  rw [sendMessage, transmit] at h
  by_cases hclosed : p.state = .closed
  · simp [hclosed] at h
  · cases link with
    | error e => simp [hclosed, Except.map] at h
    | ok u =>
        simp only [if_neg hclosed, Except.map, List.mem_singleton] at h
        exact ⟨h, hclosed⟩

theorem state_close (p : Peer) : p.close.state = .closed := by
  rw [close]
  split
  · assumption
  · rfl

theorem close_close (p : Peer) : p.close.close = p.close := by
  rw [close, if_pos (state_close p)]

/-- Whether what is known of the other side and what is held back fit the state. -/
structure Staged (p : Peer) : Prop where
  known : p.hasMap.isSome = true ↔ p.state = .ready
  held : p.state ≠ .ready → p.held = .empty

theorem Staged.unknown (h : p.Staged) (hstate : p.state ≠ .ready) : p.hasMap = none :=
  Option.not_isSome_iff_eq_none.mp fun hknown => hstate (h.known.mp hknown)

/-- What leaves the handshake alone may hold bundles back if the connection is ready. -/
theorem Staged.sameStage (h : p.Staged) (hsame : SameStage p q)
    (hheld : p.state ≠ .ready → q.held = p.held) : q.Staged where
  known := by rw [hsame.known, hsame.state, h.known]
  held hstate := by
    rw [hsame.state] at hstate
    rw [hheld hstate, h.held hstate]

end Peer

/-! ## Connections in time -/

/-- A connection and the time in milliseconds. -/
structure Connection where
  peer : Peer
  now : Nat

namespace Connection

/-- What happens to a connection. What may send is given the state of the link. -/
inductive Call where
  /-- The other side greets. -/
  | greet (tracker : ChainTracker)
  /-- Somebody looks at the state. -/
  | look
  | offer (link : Peer.Link) (b : Bundle)
  | catchUp (link : Peer.Link) (bs : List Bundle)
  | received (info : BundleInfo)
  | acked (info : BundleInfo)
  | sendAck (link : Peer.Link) (info : BundleInfo)
  | sendGreeting (link : Peer.Link) (greeting : Bytes)
  | close
  /-- Time passes. -/
  | wait (ms : Nat)

/-- A new connection. -/
def start (serial : Nat) (id : PeerId) (timeout now : Nat) : Connection :=
  ⟨.new serial id timeout now, now⟩

/-- The connection that an operation leaves, and what it has sent. -/
def after {α : Type} (c : Connection) (o : Peer.Outcome α) : Connection × List Message :=
  ({ c with peer := o.peer }, o.sent)

/-- The connection after a call, and what has been sent. -/
def serve (c : Connection) : Call → Connection × List Message
  | .greet tracker => ({ c with peer := (c.peer.greet c.now tracker).1 }, [])
  | .look => ({ c with peer := c.peer.expire c.now }, [])
  | .offer link b => c.after (c.peer.offer link b)
  | .catchUp link bs => c.after (c.peer.catchUp link bs)
  | .received info => ({ c with peer := c.peer.onReceived info }, [])
  | .acked info => ({ c with peer := c.peer.onAck info }, [])
  | .sendAck link info => c.after (c.peer.sendAck link info)
  | .sendGreeting link greeting => c.after (c.peer.sendGreeting link greeting)
  | .close => ({ c with peer := c.peer.close }, [])
  | .wait ms => ({ c with now := c.now + ms }, [])

/-- The connection after some calls. -/
def serveAll (c : Connection) (calls : List Call) : Connection :=
  calls.foldl (fun c call => (c.serve call).1) c

/-- What the other side is told when it greets. -/
def answer? (c : Connection) : Call → Option (Except GossipError Unit)
  | .greet tracker => some (c.peer.greet c.now tracker).2
  | _ => none

/-- What the other side is told whenever it greets. -/
def answers (c : Connection) : List Call → List (Except GossipError Unit)
  | [] => []
  | call :: rest => (c.answer? call).toList ++ (c.serve call).1.answers rest

variable {c c' : Connection} {call : Call}

/-! ### One call -/

/-- The states that a call may lead to. -/
inductive Turn (c : Connection) : Call → PeerState → Prop where
  | stays (call : Call) : Turn c call c.peer.state
  | greeted (tracker : ChainTracker) (connecting : c.peer.state = .connecting)
      (inTime : c.now < c.peer.deadline) : Turn c (.greet tracker) .ready
  | expired (call : Call) (connecting : c.peer.state = .connecting)
      (overdue : c.peer.deadline ≤ c.now) : Turn c call .failed
  | closed : Turn c .close .closed

theorem Turn.ne_connecting {state : PeerState} (h : Turn c call state)
    (hpast : c.peer.state ≠ .connecting) : state ≠ .connecting := by
  cases h with
  | stays => exact hpast
  | greeted => decide
  | expired => decide
  | closed => decide

theorem Turn.eq_closed {state : PeerState} (h : Turn c call state)
    (hclosed : c.peer.state = .closed) : state = .closed := by
  cases h with
  | stays => exact hclosed
  | greeted tracker connecting => cases connecting.symm.trans hclosed
  | expired call connecting => cases connecting.symm.trans hclosed
  | closed => rfl

/-- How a greeting is answered, and the peer afterwards. -/
inductive Answered (c : Connection) (tracker : ChainTracker) :
    Except GossipError Unit → Peer → Prop where
  | accepted (connecting : c.peer.state = .connecting) (inTime : c.now < c.peer.deadline) :
      Answered c tracker (.ok ()) { c.peer with hasMap := some tracker, state := .ready }
  | late (connecting : c.peer.state = .connecting) (overdue : c.peer.deadline ≤ c.now) :
      Answered c tracker (.error (.handshakeTimeout c.peer.id c.peer.timeout))
        { c.peer with state := .failed }
  | repeated (ready : c.peer.state = .ready) :
      Answered c tracker (.error (.duplicateGreeting c.peer.id)) c.peer
  | failed (failed : c.peer.state = .failed) :
      Answered c tracker (.error (.handshakeTimeout c.peer.id c.peer.timeout)) c.peer
  | closed (closed : c.peer.state = .closed) :
      Answered c tracker (.error (.peerClosed c.peer.id)) c.peer

theorem greet_answered (c : Connection) (tracker : ChainTracker) :
    Answered c tracker (c.peer.greet c.now tracker).2 (c.peer.greet c.now tracker).1 := by
  cases hstate : c.peer.state with
  | connecting =>
      by_cases hlate : c.peer.deadline ≤ c.now
      · have hexpired : c.peer.expire c.now = { c.peer with state := .failed } :=
          if_pos ⟨hstate, hlate⟩
        rw [Peer.greet, hexpired]
        exact .late hstate hlate
      · have hopen : c.peer.expire c.now = c.peer := if_neg fun h => hlate h.2
        simp only [Peer.greet, hopen, hstate]
        exact .accepted hstate (by omega)
  | ready =>
      simp only [Peer.greet, Peer.expire, hstate, reduceCtorEq, false_and, if_false]
      exact .repeated hstate
  | failed =>
      simp only [Peer.greet, Peer.expire, hstate, reduceCtorEq, false_and, if_false]
      exact .failed hstate
  | closed =>
      simp only [Peer.greet, Peer.expire, hstate, reduceCtorEq, false_and, if_false]
      exact .closed hstate

/-- What a call makes of the peer of a connection, and what is sent by it. -/
structure Served (c : Connection) (call : Call) (q : Peer) (sent : List Message) : Prop where
  id : q.id = c.peer.id
  timeout : q.timeout = c.peer.timeout
  deadline : q.deadline = c.peer.deadline
  staged : q.Staged
  turn : Turn c call q.state
  /-- Bundles go out only on a connection that is ready. -/
  bundles : ∀ bytes, .bundle bytes ∈ sent → c.peer.state = .ready ∧ q.state = .ready
  /-- Nothing goes out on a connection that is closed. -/
  silent : c.peer.state = .closed → sent = []

/-- A call that leaves the handshake alone. -/
theorem served_of_sameStage {q : Peer} {sent : List Message} (hstaged : c.peer.Staged)
    (hsame : Peer.SameStage c.peer q) (hheld : c.peer.state ≠ .ready → q.held = c.peer.held)
    (hbundles : ∀ bytes, .bundle bytes ∈ sent → c.peer.state = .ready)
    (hsilent : c.peer.state = .closed → sent = []) (call : Call) : Served c call q sent where
  id := hsame.id
  timeout := hsame.timeout
  deadline := hsame.deadline
  staged := hstaged.sameStage hsame hheld
  turn := hsame.state ▸ .stays call
  bundles bytes h := by
    have hready := hbundles bytes h
    exact ⟨hready, hsame.state.trans hready⟩
  silent := hsilent

/-- A call that leaves the handshake alone and sends nothing. -/
theorem served_quiet {q : Peer} (hstaged : c.peer.Staged) (hsame : Peer.SameStage c.peer q)
    (hheld : c.peer.state ≠ .ready → q.held = c.peer.held) (call : Call) : Served c call q [] :=
  served_of_sameStage hstaged hsame hheld (fun _ h => absurd h List.not_mem_nil) (fun _ => rfl) call

theorem served_stays (hstaged : c.peer.Staged) (call : Call) : Served c call c.peer [] :=
  served_quiet hstaged (.refl c.peer) (fun _ => rfl) call

/-- A call by which it is noticed that the deadline has passed. -/
theorem served_expired (hstaged : c.peer.Staged) (hconnecting : c.peer.state = .connecting)
    (hoverdue : c.peer.deadline ≤ c.now) (call : Call) :
    Served c call { c.peer with state := .failed } [] := by
  have hearly : c.peer.state ≠ .ready := by simp [hconnecting]
  have hunknown : c.peer.hasMap = none := hstaged.unknown hearly
  exact ⟨rfl, rfl, rfl, ⟨by simp [hunknown], fun _ => hstaged.held hearly⟩,
    .expired call hconnecting hoverdue, fun _ h => absurd h List.not_mem_nil, fun _ => rfl⟩

theorem served_greet (hstaged : c.peer.Staged) (tracker : ChainTracker) :
    Served c (.greet tracker) (c.peer.greet c.now tracker).1 [] := by
  have hanswered := greet_answered c tracker
  generalize (c.peer.greet c.now tracker).2 = result at hanswered
  generalize (c.peer.greet c.now tracker).1 = q at hanswered ⊢
  cases hanswered with
  | accepted connecting inTime =>
      exact ⟨rfl, rfl, rfl, ⟨iff_of_true rfl rfl, fun h => absurd rfl h⟩,
        .greeted tracker connecting inTime, fun _ h => absurd h List.not_mem_nil, fun _ => rfl⟩
  | late connecting overdue => exact served_expired hstaged connecting overdue _
  | repeated => exact served_stays hstaged _
  | failed => exact served_stays hstaged _
  | closed => exact served_stays hstaged _

theorem served_look (hstaged : c.peer.Staged) : Served c .look (c.peer.expire c.now) [] := by
  rw [Peer.expire]
  split
  · rename_i hlate
    exact served_expired hstaged hlate.1 hlate.2 _
  · exact served_stays hstaged _

theorem served_close (hstaged : c.peer.Staged) : Served c .close c.peer.close [] := by
  rw [Peer.close]
  split
  · exact served_stays hstaged _
  · exact ⟨rfl, rfl, rfl, ⟨by simp, fun _ => rfl⟩, .closed,
      fun _ h => absurd h List.not_mem_nil, fun _ => rfl⟩

/-- A message that is no bundle is sent. -/
theorem served_message (hstaged : c.peer.Staged) {m : Message}
    (hm : ∀ bytes, m ≠ .bundle bytes) (link : Peer.Link) (call : Call) :
    Served c call (c.peer.sendMessage link m).peer (c.peer.sendMessage link m).sent := by
  refine served_of_sameStage hstaged (Peer.sameStage_sendMessage _ link m) (fun _ => ?_)
    (fun bytes h => absurd (Peer.mem_sent_sendMessage h).1.symm (hm bytes)) (fun hclosed => ?_) call
  · rw [Peer.sendMessage]
    split <;> rfl
  · exact List.eq_nil_iff_forall_not_mem.mpr fun _ h => (Peer.mem_sent_sendMessage h).2 hclosed

/-- Bundles are offered. -/
theorem served_bundles {α : Type} {o : Peer.Outcome α} (hstaged : c.peer.Staged)
    (hsame : Peer.SameStage c.peer o.peer)
    (hunknown : c.peer.hasMap = none → o.peer = c.peer ∧ o.sent = []) (call : Call) :
    Served c call o.peer o.sent := by
  have hnothing (hstate : c.peer.state ≠ .ready) : o.peer = c.peer ∧ o.sent = [] :=
    hunknown (hstaged.unknown hstate)
  refine served_of_sameStage hstaged hsame (fun hstate => by rw [(hnothing hstate).1])
    (fun bytes h => ?_) (fun hclosed => (hnothing (by simp [hclosed])).2) call
  by_contra hstate
  rw [(hnothing hstate).2] at h
  cases h

theorem served_serve (hstaged : c.peer.Staged) (call : Call) :
    Served c call (c.serve call).1.peer (c.serve call).2 := by
  cases call with
  | greet tracker => exact served_greet hstaged tracker
  | look => exact served_look hstaged
  | offer link b =>
      refine served_bundles hstaged (Peer.sameStage_offer _ link b) (fun hunknown => ?_) _
      rw [Peer.offer_of_unknown hunknown]
      exact ⟨rfl, rfl⟩
  | catchUp link bs =>
      refine served_bundles hstaged (Peer.sameStage_catchUp _ link bs) (fun hunknown => ?_) _
      rw [Peer.catchUp_of_unknown hunknown]
      exact ⟨rfl, rfl⟩
  | received info =>
      refine served_quiet hstaged (Peer.sameStage_onReceived _ info) (fun hstate => ?_) _
      rw [Peer.onReceived_of_unknown (hstaged.unknown hstate)]
  | acked info =>
      exact served_quiet hstaged (Peer.sameStage_onAck _ info)
        (fun hstate => Peer.held_onAck_of_unknown (hstaged.unknown hstate) info) _
  | sendAck link info => exact served_message hstaged (by simp [Message.ackOf]) link _
  | sendGreeting link greeting => exact served_message hstaged (by simp) link _
  | close => exact served_close hstaged
  | wait ms => exact served_stays hstaged _

/-! ### Whole runs -/

/-- A connection of a replica with a time to greet by, as it stands at any time. -/
structure Underway (id : PeerId) (timeout deadline : Nat) (c : Connection) : Prop where
  id : c.peer.id = id
  timeout : c.peer.timeout = timeout
  deadline : c.peer.deadline = deadline
  staged : c.peer.Staged

variable {id : PeerId} {timeout deadline : Nat}

theorem underway_start (serial : Nat) (id : PeerId) (timeout now : Nat) :
    Underway id timeout (now + timeout) (start serial id timeout now) :=
  ⟨rfl, rfl, rfl, ⟨by simp [start, Peer.new], fun _ => rfl⟩⟩

theorem Underway.serveAll (h : Underway id timeout deadline c) (calls : List Call) :
    Underway id timeout deadline (c.serveAll calls) :=
  List.foldlRecOn calls _ (motive := Underway id timeout deadline) h fun _ h call _ =>
    have hserved := served_serve h.staged call
    ⟨hserved.id.trans h.id, hserved.timeout.trans h.timeout, hserved.deadline.trans h.deadline,
      hserved.staged⟩

theorem Underway.serve (h : Underway id timeout deadline c) (call : Call) :
    Underway id timeout deadline (c.serve call).1 := h.serveAll [call]

/-- A connection that has been closed stays closed. -/
theorem Underway.closed_serveAll (h : Underway id timeout deadline c) (calls : List Call)
    (hclosed : c.peer.state = .closed ∨ .close ∈ calls) :
    (c.serveAll calls).peer.state = .closed := by
  induction calls generalizing c with
  | nil =>
      rcases hclosed with hclosed | hmem
      · exact hclosed
      · cases hmem
  | cons call rest ih =>
      refine ih (h.serve call) ?_
      rcases hclosed with hclosed | hmem
      · exact .inl ((served_serve h.staged call).turn.eq_closed hclosed)
      · rcases List.mem_cons.mp hmem with rfl | hmem
        · exact .inl (Peer.state_close c.peer)
        · exact .inr hmem

/-- Once the connection is past its handshake no greeting is accepted. -/
theorem Underway.answers_of_past (h : Underway id timeout deadline c)
    (hpast : c.peer.state ≠ .connecting) (calls : List Call) :
    (c.answers calls).countP Except.isOk = 0 := by
  induction calls generalizing c with
  | nil => rfl
  | cons call rest ih =>
      have hrest := ih (h.serve call) ((served_serve h.staged call).turn.ne_connecting hpast)
      rw [answers, List.countP_append, hrest, Nat.add_zero]
      cases call with
      | greet tracker =>
          have hanswered := greet_answered c tracker
          rw [answer?]
          generalize (c.peer.greet c.now tracker).2 = result at hanswered
          generalize (c.peer.greet c.now tracker).1 = q at hanswered
          cases hanswered with
          | accepted connecting => exact absurd connecting hpast
          | late connecting => exact absurd connecting hpast
          | repeated => rfl
          | failed => rfl
          | closed => rfl
      | _ => rfl

/-- A greeting that is accepted is the last that is. -/
theorem Underway.answers_le_one (h : Underway id timeout deadline c) (calls : List Call) :
    (c.answers calls).countP Except.isOk ≤ 1 := by
  induction calls generalizing c with
  | nil => exact Nat.zero_le 1
  | cons call rest ih =>
      have hrest := ih (h.serve call)
      rw [answers, List.countP_append]
      cases call with
      | greet tracker =>
          have hanswered := greet_answered c tracker
          have hpast hne := (h.serve (.greet tracker)).answers_of_past hne rest
          rw [Connection.serve] at hpast hrest ⊢
          rw [answer?]
          generalize (c.peer.greet c.now tracker).2 = result at hanswered
          generalize (c.peer.greet c.now tracker).1 = q at hanswered hpast hrest ⊢
          cases hanswered with
          | accepted connecting inTime =>
              rw [hpast (show PeerState.ready ≠ .connecting by decide)]
              exact Nat.le_refl 1
          | late => simpa [Except.isOk, Except.toBool] using hrest
          | repeated => simpa [Except.isOk, Except.toBool] using hrest
          | failed => simpa [Except.isOk, Except.toBool] using hrest
          | closed => simpa [Except.isOk, Except.toBool] using hrest
      | _ => simpa [answer?] using hrest

/-- **The handshake goes one way.** Take a connection after any calls, some of which may have failed
to send, and one call more. The call turns the connection, if at all, from connecting to ready by a
greeting before the deadline, from connecting to failed at the deadline or later, or to closed. A
greeting is accepted only while the connection is connecting and in time; any other is refused for
the state that the connection is in and changes nothing but that a deadline which has passed is
noticed. Not more than one greeting is accepted. The other side is known exactly while the
connection is ready, and bundles are held back and sent only then. Once it has been closed nothing
is sent, and closing it again does nothing. -/
theorem handshake_one_way (serial : Nat) (id : PeerId) (timeout now : Nat) (calls : List Call)
    (call : Call) :
    let c := (start serial id timeout now).serveAll calls
    let c' := (c.serve call).1
    let sent := (c.serve call).2
    (c.peer.id = id ∧ c.peer.timeout = timeout ∧ c.peer.deadline = now + timeout)
      ∧ Turn c call c'.peer.state
      ∧ (∀ tracker, call = .greet tracker → c'.now = c.now ∧ sent = []
          ∧ Answered c tracker (c.peer.greet c.now tracker).2 c'.peer)
      ∧ ((start serial id timeout now).answers calls).countP Except.isOk ≤ 1
      ∧ (c.peer.hasMap.isSome = true ↔ c.peer.state = .ready)
      ∧ (c.peer.state ≠ .ready → c.peer.held = .empty)
      ∧ (∀ bytes, .bundle bytes ∈ sent → c.peer.state = .ready ∧ c'.peer.state = .ready)
      ∧ (.close ∈ calls → sent = [] ∧ c'.peer.state = .closed)
      ∧ c.peer.close.close = c.peer.close := by
  intro c c' sent
  have hstart := underway_start serial id timeout now
  have hunderway := hstart.serveAll calls
  have hserved := served_serve hunderway.staged call
  refine ⟨⟨hunderway.id, hunderway.timeout, hunderway.deadline⟩, hserved.turn, ?_,
    hstart.answers_le_one calls, hunderway.staged.known, hunderway.staged.held, hserved.bundles,
    fun hclose => ?_, Peer.close_close c.peer⟩
  · rintro tracker rfl
    exact ⟨rfl, rfl, greet_answered c tracker⟩
  · have hclosed := hstart.closed_serveAll calls (.inr hclose)
    exact ⟨hserved.silent hclosed, hserved.turn.eq_closed hclosed⟩

/-- A greeting at the deadline is too late, and nobody has to look before it comes. -/
example : (start 0 7 1000 5).answers
    [.wait 1000, .greet .empty, .close, .greet .empty]
      = [.error (.handshakeTimeout 7 1000), .error (.peerClosed 7)] := rfl

end Connection

end GossipStore
