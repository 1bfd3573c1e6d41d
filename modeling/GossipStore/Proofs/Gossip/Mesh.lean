import GossipStore.Proofs.Gossip.Writing

set_option autoImplicit false

/-! # A mesh of replicas

Any number of databases, each opened on an empty store in memory and writing under medallions of its
own, send frames to each other over channels that keep the order of the frames between two of them
and lose none. In one step a replica commits something, connects to a replica to which it has no
peer, or handles the frame at the front of a channel to it (`Mesh.Step`). The clocks may show
anything, and the steps may come in any order; only handshakes do not time out.
-/

namespace GossipStore

/-! ## Replicas and channels -/

/-- The replicas of a mesh and what each is started with. -/
structure Community where
  members : List PeerId
  /-- The medallions of a replica, in the order in which they are given out. -/
  medallion : PeerId → Nat → Medallion
  keepsHistory : PeerId → Bool
  config : PeerId → Config
  /-- A greeting with a row for every member fits into a frame. -/
  few : members.length < 0x800000000000000
  distinct : ∀ a ∈ members, ∀ b ∈ members, a ≠ b → ∀ k l, medallion a k ≠ medallion b l

/-- Whether a medallion is one of a replica. -/
def Community.Mine (c : Community) (a : PeerId) (medallion : Medallion) : Prop :=
  ∃ k, c.medallion a k = medallion

/-- Whether surroundings are those of a replica on a network that refuses nothing. The time, the
clock and everything else may be anything. -/
structure Community.Sees (c : Community) (a : PeerId) (s : Surroundings) : Prop where
  medallion : s.medallion = c.medallion a
  link : ∀ id, s.link id = .ok ()

/-- The databases of replicas, and the frames on the way from one to another, oldest first. -/
structure Mesh (α : Type) where
  database : PeerId → Database α
  inFlight : PeerId → PeerId → List Bytes

namespace Database

variable {α : Type}

/-- Makes the sender of a frame a peer if it is none yet, which is what comes before handling the
frame. -/
def welcome (s : Surroundings) (db : Database α) (sender : PeerId) :
    Database α × Except DatabaseError Unit :=
  if db.peers.contains sender then (db, .ok ())
  else ((db.connect s sender).1, (db.connect s sender).2.map fun _ => ())

theorem dispatch_eq (s : Surroundings) (db : Database α) (sender : PeerId) (frame : Bytes) :
    db.dispatch s sender frame = match db.welcome s sender with
      | (db, .error e) => (db, .error e)
      | (db, .ok ()) => ((db.handleFrame s sender frame).1, .ok ()) := by
  unfold dispatch welcome
  split
  · rfl
  · cases h : db.connect s sender with
    | mk db' result => cases result <;> rfl

end Database

namespace Mesh

variable {α : Type}

/-- All replicas have just been started, and nothing is on the way. -/
def start (c : Community) : Mesh α where
  database a := .ofStore (.memory (.empty (c.keepsHistory a))) (c.config a) true
  inFlight _ _ := []

/-- Takes the frame at the front of a channel. -/
def take (m : Mesh α) (a b : PeerId) : Mesh α where
  database := m.database
  inFlight x y := if x = a ∧ y = b then (m.inFlight x y).tail else m.inFlight x y

/-- Puts a database back that has done something, and its messages into the channels. -/
def put (m : Mesh α) (a : PeerId) (db : Database α) : Mesh α where
  database x := if x = a then db.takeEffects.1 else m.database x
  inFlight x y :=
    if x = a then m.inFlight x y ++ (db.outbox y).map Message.encode else m.inFlight x y

/-- Lets a replica handle the frame at the front of a channel to it, if there is one. -/
def deliver (m : Mesh α) (s : Surroundings) (sender recipient : PeerId) : Mesh α :=
  match m.inFlight sender recipient with
  | [] => m
  | frame :: _ => (m.take sender recipient).put recipient
      ((m.database recipient).dispatch s sender frame).1

/-- Whether the handshake with a replica, which may be about to begin, is not overdue. -/
def InTime (m : Mesh α) (s : Surroundings) (a sender : PeerId) : Prop :=
  (((m.database a).welcome s sender).1.peers.get? sender).all fun p => p.expire s.now = p

instance (m : Mesh α) (s : Surroundings) (a sender : PeerId) : Decidable (m.InTime s a sender) :=
  inferInstanceAs (Decidable (_ = true))

/-- What can happen next in a mesh. -/
inductive Step (c : Community) : Mesh α → Mesh α → Prop where
  /-- A replica commits whatever is given to it. -/
  | commit {m : Mesh α} {a : PeerId} {s : Surroundings} (member : a ∈ c.members) (sees : c.Sees a s)
      (bundler : Bundler) : Step c m (m.put a ((m.database a).addBundler s bundler).1)
  /-- A replica connects to one to which it has no peer. -/
  | connect {m : Mesh α} {a b : PeerId} {s : Surroundings} (member : a ∈ c.members)
      (other : b ∈ c.members) (sees : c.Sees a s) (new : (m.database a).peers.get? b = none) :
      Step c m (m.put a ((m.database a).connect s b).1)
  /-- A replica handles the oldest frame from another. -/
  | dispatch {m : Mesh α} {a b : PeerId} {s : Surroundings} (member : a ∈ c.members)
      (other : b ∈ c.members) (sees : c.Sees a s) (frame : m.inFlight b a ≠ [])
      (inTime : m.InTime s a b) : Step c m (m.deliver s b a)

/-- The states that a mesh can get into. -/
inductive Reachable (c : Community) : Mesh α → Prop where
  | start : Reachable c (start c)
  | step {m m' : Mesh α} (before : Reachable c m) (step : Step c m m') : Reachable c m'

end Mesh

/-! ## Channels -/

/-- What holds of the messages on the way from one replica to another: `own` and `seen` are how far
the sender and the recipient have come, `toward` and `back` whether they have a peer for each other
and whether it has greeted. A greeting is the first message to a replica, which is not ready for the
sender before. -/
structure Channel (history : List Bundle) (own seen : Progress) (toward back : Option Bool)
    (messages : List Message) : Prop where
  backed : ∀ m ∈ messages, Backed history own m
  deliverable : Deliverable seen messages
  strangers : toward = none → messages = [] ∧ back ≠ some true
  greetings : messages.countP Message.isGreeting ≤ 1
  ready : back = some true → messages.countP Message.isGreeting = 0

/-- What may become of the messages to a replica, and of its peer for the sender, when it has come
from one progress to another. -/
structure Receives (seen seen' : Progress) (back back' : Option Bool)
    (messages messages' : List Message) : Prop where
  sublist : messages'.Sublist messages
  deliverable : Deliverable seen' messages'
  settled : ∀ c, settled seen messages c ≤ settled seen' messages' c
  kept : back' = none → back = none
  ready : back' = some true →
    back = some true ∨ messages ≠ [] ∧ messages'.countP Message.isGreeting = 0

section Channel

variable {history history' : List Bundle} {own own' seen seen' : Progress}
  {toward toward' back back' : Option Bool} {messages messages' out : List Message}

/-- Nothing becomes of the messages if none is taken. -/
theorem Receives.refl (hd : Deliverable seen messages) (hseen : ∀ c, seen c ≤ seen' c)
    (hkept : back' = none → back = none) (hready : back' = some true → back = some true) :
    Receives seen seen' back back' messages messages where
  sublist := List.Sublist.refl _
  deliverable := hd.mono hseen
  settled := settled_mono hseen messages
  kept := hkept
  ready h := .inl (hready h)

theorem channel_nil (toward : Option Bool) (h : back ≠ some true) :
    Channel history own seen toward back [] :=
  ⟨nofun, trivial, fun _ => ⟨rfl, h⟩, Nat.zero_le _, fun hback => absurd hback h⟩

/-- A channel after its recipient has done something. -/
theorem Channel.receive (h : Channel history own seen toward back messages)
    (hr : Receives seen seen' back back' messages messages') :
    Channel history own seen' toward back' messages' where
  backed m hm := h.backed m (hr.sublist.subset hm)
  deliverable := hr.deliverable
  strangers hnone := by
    obtain ⟨hempty, hback⟩ := h.strangers hnone
    refine ⟨List.sublist_nil.mp (hempty ▸ hr.sublist), fun hready => ?_⟩
    rcases hr.ready hready with hready | ⟨hne, -⟩
    · exact hback hready
    · exact hne hempty
  greetings := Nat.le_trans hr.sublist.countP_le h.greetings
  ready hready := by
    rcases hr.ready hready with hready | ⟨-, hzero⟩
    · exact Nat.le_zero.mp (h.ready hready ▸ hr.sublist.countP_le)
    · exact hzero

/-- A channel after its sender has done something. It greets only strangers. -/
theorem Channel.send (h : Channel history own seen toward back messages)
    (hsub : history ⊆ history') (hown : ∀ c, own c ≤ own' c)
    (hbacked : ∀ m ∈ out, Backed history' own' m) (hd : Deliverable (settled seen messages) out)
    (hkept : toward' = none → toward = none ∧ out = [])
    (hgreet : out.countP Message.isGreeting = 0
      ∨ out.countP Message.isGreeting = 1 ∧ toward = none) :
    Channel history' own' seen toward' back (messages ++ out) where
  backed m hm :=
    (List.mem_append.mp hm).elim (fun hm => (h.backed m hm).mono hsub hown) (hbacked m)
  deliverable := deliverable_append.mpr ⟨h.deliverable, hd⟩
  strangers hnone := by
    obtain ⟨hnone, hout⟩ := hkept hnone
    obtain ⟨hempty, hback⟩ := h.strangers hnone
    exact ⟨by rw [hempty, hout, List.append_nil], hback⟩
  greetings := by
    rw [List.countP_append]
    rcases hgreet with hzero | ⟨hone, hnone⟩
    · rw [hzero]
      exact h.greetings
    · rw [(h.strangers hnone).1, hone]
      exact Nat.le_refl _
  ready hready := by
    rw [List.countP_append, h.ready hready, Nat.zero_add]
    rcases hgreet with hzero | ⟨-, hnone⟩
    · exact hzero
    · exact absurd hready (h.strangers hnone).2

theorem Channel.mono (h : Channel history own seen toward back messages)
    (hsub : history ⊆ history') : Channel history' own seen toward back messages :=
  { h with backed := fun m hm => (h.backed m hm).mono hsub fun _ => Std.le_refl _ }

end Channel

/-! ## The invariant -/

namespace Mesh

variable {α : Type}

/-- What a replica does not know: how far the others will have come once everything that it has
sent them has arrived. -/
def outlook (m : Mesh α) (wire : PeerId → PeerId → List Message) (a : PeerId) : Outlook where
  reach b := settled (m.database b).seen (wire a b)
  stage := (m.database a).stage
  greeted _ := 0

/-- What holds of every reachable mesh: the replicas are in step with one history, to which only
they have contributed, and the channels between them are in order. -/
structure Invariant (c : Community) (history : List Bundle)
    (wire : PeerId → PeerId → List Message) (m : Mesh α) : Prop where
  linked : History history
  authors : ∀ x ∈ history, ∃ a ∈ c.members, c.Mine a x.info.medallion
  frames : ∀ a b, m.inFlight a b = (wire a b).map Message.encode
  inStep : ∀ a, (m.database a).InStep history (m.outlook wire a)
  owns : ∀ a ∈ c.members, (m.database a).Owns (c.Mine a) history
  idle : ∀ a b, (m.database a).outbox b = []
  channels : ∀ a b, Channel history (m.database a).seen (m.database b).seen
    ((m.database a).stage b) ((m.database b).stage a) (wire a b)

theorem invariant_start (c : Community) :
    Invariant c [] (fun _ _ => []) (start c : Mesh α) where
  linked := History.nil
  authors := nofun
  frames _ _ := rfl
  inStep a := by
    have hstore : (Database.ofStore (α := α) (.memory (.empty (c.keepsHistory a))) (c.config a)
        true).store = .memory (.empty ((c.config a).keepHistory && c.keepsHistory a)) := by
      unfold Database.ofStore
      cases (c.config a).keepHistory <;> rfl
    refine ⟨⟨_, hstore, Holds.empty _, ?_⟩, rfl, rfl, nofun, nofun, nofun, fun _ => trivial,
      fun _ _ => rfl, fun _ => rfl, fun _ => rfl⟩
    show (Database.ofStore (α := α) (.memory (.empty (c.keepsHistory a))) (c.config a)
        true).store.index.chainTracker = _
    rw [hstore]
    rfl
  owns a _ := by
    refine ⟨fun _ => ⟨?_, nofun⟩, nofun⟩
    show (if (c.config a).keepHistory then _ else _ : Store).index.claims = []
    cases (c.config a).keepHistory <;> rfl
  idle _ _ := rfl
  channels _ _ := channel_nil _ nofun

/-! ## One replica does something -/

section Put

variable (m : Mesh α) (a : PeerId) (db : Database α)

theorem database_put_self : (m.put a db).database a = db.takeEffects.1 := if_pos rfl

theorem inFlight_take_self (b : PeerId) : (m.take a b).inFlight a b = (m.inFlight a b).tail :=
  if_pos ⟨rfl, rfl⟩

theorem inFlight_take_other {b x y : PeerId} (h : ¬ (x = a ∧ y = b)) :
    (m.take a b).inFlight x y = m.inFlight x y := if_neg h

theorem database_put_other {x : PeerId} (h : x ≠ a) : (m.put a db).database x = m.database x :=
  if_neg h

end Put

variable {c : Community} {history history' : List Bundle}
  {wire wire' : PeerId → PeerId → List Message} {m m' : Mesh α} {a : PeerId} {db : Database α}
  {o : Outlook}

/-- **What one replica does preserves the invariant** if it stays in step, continues nothing but its
own chain, and greets nobody but strangers. -/
theorem Invariant.put (h : Invariant c history wire m) (ha : a ∈ c.members)
    (hdatabase : m'.database = m.database)
    (hframes : ∀ x y, m'.inFlight x y = (wire' x y).map Message.encode)
    (hsame : ∀ x y, y ≠ a → wire' x y = wire x y) (hw : Written (c.Mine a) history history')
    (hstep : db.InStep history' o) (howns : db.Owns (c.Mine a) history')
    (hreach : o.reach = (m.outlook wire a).reach) (hseen : ∀ k, (m.database a).seen k ≤ db.seen k)
    (hreceives : ∀ x, Receives (m.database a).seen db.seen ((m.database a).stage x) (o.stage x)
      (wire x a) (wire' x a))
    (hgreeted : ∀ x, o.greeted x = 0 ∨ o.greeted x = 1 ∧ (m.database a).stage x = none) :
    ∃ wire'', Invariant c history' wire'' (m'.put a db) := by
  have hself : (m'.put a db).database a = db.takeEffects.1 := database_put_self m' a db
  have hother {x : PeerId} (hx : x ≠ a) : (m'.put a db).database x = m.database x := by
    rw [database_put_other m' a db hx, hdatabase]
  have hstage (x : PeerId) : ((m'.put a db).database a).stage x = o.stage x := by
    rw [hself]
    exact hstep.sending.stage x
  -- First the frame is taken, then the messages are sent.
  have hreceived (x y : PeerId) : Channel history (m.database x).seen
      ((m'.put a db).database y).seen ((m.database x).stage y)
      (((m'.put a db).database y).stage x) (wire' x y) := by
    by_cases hy : y = a
    · subst hy
      rw [hstage, hself]
      exact (h.channels x y).receive (hreceives x)
    · rw [hother hy, hsame x y hy]
      exact h.channels x y
  have hsettled (x y : PeerId) (k : ChainKey) : settled (m.database y).seen (wire x y) k
      ≤ settled ((m'.put a db).database y).seen (wire' x y) k := by
    by_cases hy : y = a
    · subst hy
      rw [hself]
      exact (hreceives x).settled k
    · rw [hother hy, hsame x y hy]
      exact Std.le_refl _
  have hreach' (y : PeerId) : o.reach y = settled (m.database y).seen (wire a y) := by
    rw [hreach]
    rfl
  let wire'' x y := if x = a then wire' x y ++ db.outbox y else wire' x y
  -- each field is about a replica or a pair of them: `a` has done something, the others have not
  have hout (y : PeerId) : wire'' a y = wire' a y ++ db.outbox y := if_pos rfl
  have hin {x : PeerId} (hx : x ≠ a) (y : PeerId) : wire'' x y = wire' x y := if_neg hx
  refine ⟨wire'', hw.isHistory h.linked, ?_, ?_, ?_, ?_, ?_, ?_⟩
  · intro x hx
    exact (hw.mem hx).elim (h.authors x) fun hx => ⟨a, ha, hx⟩
  · intro x y
    by_cases hx : x = a
    · subst hx
      rw [hout, List.map_append, ← hframes]
      exact if_pos rfl
    · rw [hin hx, ← hframes]
      exact if_neg hx
  · -- in step: what `a` has sent is on the way now, and `a` has come further for the others
    intro x
    by_cases hx : x = a
    · subst hx
      rw [hself]
      refine ⟨hstep.store, hstep.attached, hstep.former,
        hstep.sending.takeEffects (fun y k => ?_) (funext hstage) fun _ => rfl⟩
      show _ ≤ settled _ (wire'' x y) k
      rw [hout, settled_append, hreach']
      exact settled_mono (hsettled x y) _ k
    · rw [hother hx]
      have hold := (h.inStep x).written hw
      refine ⟨hold.store, hold.attached, hold.former,
        hold.sending.reach_mono (fun y k => ?_) (funext fun y => ?_) rfl⟩
      · show settled (m.database y).seen (wire x y) k ≤ settled _ (wire'' x y) k
        rw [hin hx]
        exact hsettled x y k
      · show Database.stage _ y = Database.stage _ y
        rw [hother hx]
  · intro x hx
    by_cases hxa : x = a
    · subst hxa
      rw [hself]
      exact howns.mono ⟨rfl, rfl⟩ fun _ => Std.le_refl _
    · -- no two replicas share a medallion
      rw [hother hxa]
      refine (h.owns x hx).written hw fun medallion hmine hother => ?_
      obtain ⟨k, hk⟩ := hmine
      obtain ⟨l, hl⟩ := hother
      exact c.distinct x hx a ha hxa k l (hk.trans hl.symm)
  · intro x y
    by_cases hx : x = a
    · subst hx
      rw [hself]
      rfl
    · rw [hother hx]
      exact h.idle x y
  · intro x y
    by_cases hx : x = a
    · subst hx
      rw [hout, hstage, hself]
      refine (hreceived x y).send hw.subset hseen (hstep.sending.backed y)
        ((hstep.sending.deliverable y).mono fun k => ?_) (fun hnone => ?_) ?_
      · rw [hreach']
        exact hsettled x y k
      · have hpeer : db.peers.get? y = none :=
          Option.map_eq_none_iff.mp ((hstep.sending.stage y).trans hnone)
        exact ⟨(hreceives y).kept hnone, hstep.sending.strangers y hpeer⟩
      · rw [hstep.sending.greeted y]
        exact hgreeted y
    · rw [hin hx, hother hx]
      exact (hreceived x y).mono hw.subset

end Mesh

end GossipStore
