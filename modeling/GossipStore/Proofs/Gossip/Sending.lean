import GossipStore.Database.Frame
import GossipStore.Proofs.Gossip.Offers

set_option autoImplicit false

/-! # What a database sends

While a database handles something, its messages pile up in its effects: the *outbox* for every
replica. What a peer may be sent depends on what its replica will have reached by then, and that is
not in the database. So the state of a database that sends (`Database.Sending`) is described against
an `Outlook` on the others: it holds before every operation on a peer and after it
(`Sending.absorb`), and thereby after offering a bundle to all of them (`Sending.passOn`).
-/

namespace GossipStore

/-- What a database that handles something does not know of the others or does not change. -/
structure Outlook where
  /-- How far each replica will have come when it has taken in what was sent to it before. -/
  reach : PeerId → Progress
  /-- To which replicas there is a peer, and whether it has greeted. -/
  stage : PeerId → Option Bool
  /-- How many greetings go out to each replica. -/
  greeted : PeerId → Nat

/-- The outlook once there is a peer for a replica that has greeted or not, and after some more
greetings to it. -/
def Outlook.withPeer (o : Outlook) (id : PeerId) (ready : Bool) (greetings : Nat) : Outlook :=
  { o with
    stage := fun i => if i = id then some ready else o.stage i
    greeted := fun i => if i = id then o.greeted i + greetings else o.greeted i }

theorem Outlook.stage_withPeer (o : Outlook) (id : PeerId) (ready : Bool) (greetings : Nat)
    (i : PeerId) :
    (o.withPeer id ready greetings).stage i = if i = id then some ready else o.stage i := rfl

theorem Outlook.greeted_withPeer (o : Outlook) (id : PeerId) (ready : Bool) (greetings : Nat)
    (i : PeerId) : (o.withPeer id ready greetings).greeted i
      = if i = id then o.greeted i + greetings else o.greeted i := rfl

theorem Outlook.withPeer_self {o : Outlook} {id : PeerId} {ready : Bool}
    (h : o.stage id = some ready) : o.withPeer id ready 0 = o := by
  unfold withPeer
  have hstage : (fun i => if i = id then some ready else o.stage i) = o.stage := by
    funext i
    split
    · rename_i hi
      rw [hi, h]
    · rfl
  simp only [hstage, Nat.add_zero, ite_self]

/-- What peers must know after some of them have learned of a time on a chain. -/
def raisedAt (need : PeerId → Progress) (ids : List PeerId) (chain : ChainKey) (t : Timestamp)
    (id : PeerId) : Progress :=
  if id ∈ ids then (need id).raise chain t else need id

theorem raisedAt_raisedAt (need : PeerId → Progress) (ids ids' : List PeerId) (chain : ChainKey)
    (t : Timestamp) :
    raisedAt (raisedAt need ids chain t) ids' chain t = raisedAt need (ids ++ ids') chain t := by
  funext id
  have htwice : ((need id).raise chain t).raise chain t = (need id).raise chain t :=
    Progress.raise_of_le (Progress.raise_self_ge _ _ _)
  unfold raisedAt
  by_cases h : id ∈ ids <;> by_cases h' : id ∈ ids' <;> simp [h, h', htwice]

namespace Database

variable {α : Type}

/-- The messages for a replica that have been sent, in order. -/
def outbox (db : Database α) (id : PeerId) : List Message :=
  (db.effects.sent.filter (·.1 = id)).map (·.2)

/-- How far the database has come on each chain. -/
def seen (db : Database α) : Progress := db.tracker.seenThrough

/-- Whether there is a peer for a replica, and whether it has greeted. -/
def stage (db : Database α) (id : PeerId) : Option Bool :=
  (db.peers.get? id).map (·.hasMap.isSome)

/-- Whether two databases differ in their peers and their effects only. -/
def Talks (db db' : Database α) : Prop := ∃ peers effects, db' = { db with peers, effects }

theorem Talks.refl (db : Database α) : db.Talks db := ⟨db.peers, db.effects, rfl⟩

theorem Talks.trans {db db' db'' : Database α} (h : db.Talks db') (h' : db'.Talks db'') :
    db.Talks db'' := by
  obtain ⟨peers, effects, rfl⟩ := h
  obtain ⟨peers', effects', rfl⟩ := h'
  exact ⟨peers', effects', rfl⟩

/-- The peers and the outboxes of a database while it handles something. -/
structure Sending (history : List Bundle) (outlook : Outlook) (need : PeerId → Progress)
    (db : Database α) : Prop where
  ids : ∀ id p, db.peers.get? id = some p → p.id = id
  believes : ∀ id p, db.peers.get? id = some p →
    p.Believes history (need id) (settled (outlook.reach id) (db.outbox id))
  backed : ∀ id, ∀ m ∈ db.outbox id, Backed history db.seen m
  deliverable : ∀ id, Deliverable (outlook.reach id) (db.outbox id)
  strangers : ∀ id, db.peers.get? id = none → db.outbox id = []
  stage : ∀ id, db.stage id = outlook.stage id
  greeted : ∀ id, (db.outbox id).countP Message.isGreeting = outlook.greeted id

variable {history : List Bundle} {outlook : Outlook} {need : PeerId → Progress}
  {db : Database α} {id : PeerId} {p : Peer}

/-! ## Operations on one peer -/

theorem outbox_absorb {β : Type} (db : Database α) (o : Peer.Outcome β) (id : PeerId) :
    (db.absorb o).outbox id = db.outbox id ++ if id = o.peer.id then o.sent else [] := by
  simp only [outbox, absorb, List.filter_append, List.map_append, List.filter_map, List.map_map]
  by_cases h : id = o.peer.id
  · simp [h, Function.comp_def]
  · have hne : ¬ o.peer.id = id := fun heq => h heq.symm
    simp [h, hne, Function.comp_def]

theorem talks_absorb {β : Type} (db : Database α) (o : Peer.Outcome β) : db.Talks (db.absorb o) :=
  ⟨_, _, rfl⟩

theorem absorbOrDrop_eq_absorb {β : Type} {o : Peer.Outcome β} (h : ∃ x, o.result = .ok x) :
    db.absorbOrDrop o = db.absorb o := by
  obtain ⟨x, hx⟩ := h
  rw [absorbOrDrop, hx]

/-- **A sound operation on a peer keeps a database sending.** -/
theorem Sending.absorb {β : Type} {o : Peer.Outcome β} {need' : Progress}
    (h : db.Sending history outlook need) (hid : o.peer.id = id)
    (ho : o.Sound history db.seen need' (settled (outlook.reach id) (db.outbox id))) :
    (db.absorb o).Sending history
      (outlook.withPeer id o.peer.hasMap.isSome (o.sent.countP Message.isGreeting))
      fun i => if i = id then need' else need i := by
  have hself : (db.absorb o).outbox id = db.outbox id ++ o.sent := by
    rw [outbox_absorb, if_pos hid.symm]
  have hother {i : PeerId} (hi : i ≠ id) : (db.absorb o).outbox i = db.outbox i := by
    rw [outbox_absorb, if_neg (hid ▸ hi), List.append_nil]
  have hpeer : (db.absorb o).peers.get? id = some o.peer := by
    show (db.peers.insert o.peer.id o.peer).get? id = some o.peer
    rw [hid, SortedMap.get?_insert_self]
  have hpeers {i : PeerId} (hi : i ≠ id) : (db.absorb o).peers.get? i = db.peers.get? i := by
    show (db.peers.insert o.peer.id o.peer).get? i = _
    rw [hid, SortedMap.get?_insert_of_ne _ hi]
  -- every field is about one replica: either the one of the operation, or one left alone
  refine ⟨?_, ?_, ?_, ?_, ?_, ?_, ?_⟩
  · intro i q hq
    by_cases hi : i = id
    · subst hi
      rw [hpeer] at hq
      exact Option.some.inj hq ▸ hid
    · exact h.ids i q (hpeers hi ▸ hq)
  · intro i q hq
    by_cases hi : i = id
    · subst hi
      rw [hpeer] at hq
      cases hq
      rw [hself, settled_append, if_pos rfl]
      exact ho.believes
    · rw [hother hi, if_neg hi]
      exact h.believes i q (hpeers hi ▸ hq)
  · intro i m hm
    by_cases hi : i = id
    · subst hi
      rw [hself] at hm
      exact (List.mem_append.mp hm).elim (h.backed i m) (ho.backed m)
    · exact h.backed i m (hother hi ▸ hm)
  · intro i
    by_cases hi : i = id
    · subst hi
      rw [hself]
      exact deliverable_append.mpr ⟨h.deliverable i, ho.deliverable⟩
    · rw [hother hi]
      exact h.deliverable i
  · intro i hnone
    by_cases hi : i = id
    · subst hi
      rw [hpeer] at hnone
      cases hnone
    · rw [hother hi]
      exact h.strangers i (hpeers hi ▸ hnone)
  · intro i
    by_cases hi : i = id
    · subst hi
      rw [Database.stage, hpeer, Outlook.stage_withPeer, if_pos rfl]
      rfl
    · rw [Database.stage, hpeers hi, Outlook.stage_withPeer, if_neg hi]
      exact h.stage i
  · intro i
    by_cases hi : i = id
    · subst hi
      rw [hself, List.countP_append, h.greeted i, Outlook.greeted_withPeer,
        if_pos rfl]
    · rw [hother hi, Outlook.greeted_withPeer, if_neg hi]
      exact h.greeted i

/-- A routine operation changes only what its peer must know. -/
theorem Sending.absorb_routine {β : Type} {o : Peer.Outcome β} {chain : ChainKey} {t : Timestamp}
    (h : db.Sending history outlook need) (hp : db.peers.get? id = some p)
    (ho : o.Routine history db.seen ((need id).raise chain t)
      (settled (outlook.reach id) (db.outbox id)) p) :
    (db.absorb o).Sending history outlook (raisedAt need [id] chain t) := by
  have hid : o.peer.id = id := ho.id.trans (h.ids id p hp)
  have hstage : outlook.stage id = some o.peer.hasMap.isSome := by
    rw [← h.stage id, Database.stage, hp, Option.map_some, ho.stage]
  have hneed : (fun i => if i = id then (need id).raise chain t else need i)
      = raisedAt need [id] chain t := by
    funext i
    unfold raisedAt
    by_cases hi : i = id
    · subst hi
      rw [if_pos rfl, if_pos (List.mem_singleton.mpr rfl)]
    · rw [if_neg hi, if_neg fun hmem => hi (List.mem_singleton.mp hmem)]
  have h' := h.absorb hid ho.toSound
  rwa [ho.quiet, Outlook.withPeer_self hstage, hneed] at h'

theorem Sending.weaken {need' : PeerId → Progress} (h : db.Sending history outlook need)
    (hneed : ∀ i, (∃ p, db.peers.get? i = some p) → ∀ c, need' i c ≤ need i c) :
    db.Sending history outlook need' :=
  { h with
    believes := fun i p hp =>
      (h.believes i p hp).mono (List.Subset.refl _) (hneed i ⟨p, hp⟩) fun _ => Std.le_refl _ }

/-- A replica without a peer need not know anything. -/
theorem Sending.raisedAt_of_none (h : db.Sending history outlook need)
    (hp : db.peers.get? id = none) (chain : ChainKey) (t : Timestamp) :
    db.Sending history outlook (raisedAt need [id] chain t) := by
  refine h.weaken fun i hi c => ?_
  have hne : i ≠ id := by
    rintro rfl
    obtain ⟨p, hp'⟩ := hi
    rw [hp] at hp'
    cases hp'
  rw [raisedAt, if_neg fun hmem => hne (List.mem_singleton.mp hmem)]
  exact Std.le_refl _

/-- Who sends goes on sending when more has been written or seen. -/
theorem Sending.mono {history' : List Bundle} {db' : Database α}
    (h : db.Sending history outlook need) (hpeers : db'.peers = db.peers)
    (hsent : db'.effects.sent = db.effects.sent) (hsub : history ⊆ history')
    (hseen : ∀ c, db.seen c ≤ db'.seen c) : db'.Sending history' outlook need := by
  have houtbox (i : PeerId) : db'.outbox i = db.outbox i := by rw [outbox, outbox, hsent]
  refine ⟨?_, ?_, ?_, ?_, ?_, ?_, ?_⟩
  · rw [hpeers]
    exact h.ids
  · intro i p hp
    rw [houtbox]
    exact (h.believes i p (hpeers ▸ hp)).mono hsub (fun _ => Std.le_refl _) fun _ => Std.le_refl _
  · intro i m hm
    exact (h.backed i m (houtbox i ▸ hm)).mono hsub hseen
  · intro i
    rw [houtbox]
    exact h.deliverable i
  · intro i hnone
    rw [houtbox]
    exact h.strangers i (hpeers ▸ hnone)
  · intro i
    rw [Database.stage, hpeers]
    exact h.stage i
  · intro i
    rw [houtbox]
    exact h.greeted i

/-- Once everything in the outboxes is on its way, they are empty and the others have it before
them. -/
theorem Sending.takeEffects {outlook' : Outlook} (h : db.Sending history outlook need)
    (hreach : ∀ i c, settled (outlook.reach i) (db.outbox i) c ≤ outlook'.reach i c)
    (hstage : outlook'.stage = outlook.stage) (hgreeted : ∀ i, outlook'.greeted i = 0) :
    db.takeEffects.1.Sending history outlook' need where
  ids := h.ids
  believes i p hp :=
    (h.believes i p hp).mono (List.Subset.refl _) (fun _ => Std.le_refl _) (hreach i)
  backed := nofun
  deliverable _ := trivial
  strangers _ _ := rfl
  stage i := (h.stage i).trans (by rw [hstage])
  greeted i := (hgreeted i).symm

/-- It does no harm if the others come further. -/
theorem Sending.reach_mono {outlook' : Outlook} (h : db.Sending history outlook need)
    (hreach : ∀ i c, outlook.reach i c ≤ outlook'.reach i c)
    (hstage : outlook'.stage = outlook.stage) (hgreeted : outlook'.greeted = outlook.greeted) :
    db.Sending history outlook' need where
  ids := h.ids
  believes i p hp := (h.believes i p hp).mono (List.Subset.refl _) (fun _ => Std.le_refl _)
    (settled_mono (hreach i) _)
  backed := h.backed
  deliverable i := (h.deliverable i).mono (hreach i)
  strangers := h.strangers
  stage i := (h.stage i).trans (by rw [hstage])
  greeted i := (h.greeted i).trans (by rw [hgreeted])

/-! ## Telling of a bundle -/

/-- Tells the replica from which a bundle came, if it came from one, that it has arrived. -/
def tellSender (s : Surroundings) (db : Database α) (info : BundleInfo) :
    Option PeerId → Database α
  | none => db
  | some id => db.acknowledge s info id

section Telling

variable {s : Surroundings} (hlink : ∀ id, s.link id = .ok ())

include hlink

/-- The replica from which a bundle came is told that it has arrived. -/
theorem Sending.acknowledge (h : db.Sending history outlook need) {info : BundleInfo}
    (hpoint : IsPoint history info.chain info.timestamp)
    (hreach : info.timestamp ≤ outlook.reach id info.chain)
    (hown : info.timestamp ≤ db.seen info.chain) :
    (db.acknowledge s info id).Sending history outlook
        (raisedAt need [id] info.chain info.timestamp)
      ∧ db.Talks (db.acknowledge s info id) := by
  unfold Database.acknowledge
  cases hp : db.peers.get? id with
  | none => exact ⟨h.raisedAt_of_none hp _ _, Talks.refl db⟩
  | some p =>
      have ho := Peer.sendAck_routine (h.believes id p hp) hpoint
        (Std.le_trans hreach (le_settled _ _ _)) hown
      simp only [hlink, absorbOrDrop_eq_absorb ho.result]
      exact ⟨h.absorb_routine hp ho, talks_absorb _ _⟩

/-- A replica is offered a bundle. -/
theorem Sending.offerTo (h : db.Sending history outlook need) (hh : History history) {b : Bundle}
    (hb : b ∈ history) (hown : b.info.timestamp ≤ db.seen b.info.chain)
    (hprior : b.prior ≤ need id b.info.chain) :
    (db.offerTo s b id).Sending history outlook
        (raisedAt need [id] b.info.chain b.info.timestamp)
      ∧ db.Talks (db.offerTo s b id) := by
  unfold Database.offerTo
  cases hp : db.peers.get? id with
  | none => exact ⟨h.raisedAt_of_none hp _ _, Talks.refl db⟩
  | some p =>
      have ho := Peer.offer_routine hh (h.believes id p hp) hb hown hprior
      simp only [hlink, absorbOrDrop_eq_absorb ho.result]
      exact ⟨h.absorb_routine hp ho, talks_absorb _ _⟩

/-- **A bundle is passed on to one replica after the other.** -/
theorem Sending.passOn (h : db.Sending history outlook need) (hh : History history) {b : Bundle}
    (hb : b ∈ history) (hown : b.info.timestamp ≤ db.seen b.info.chain)
    (hprior : ∀ id, b.prior ≤ need id b.info.chain) (ids : List PeerId) :
    (ids.foldl (Database.offerTo s b) db).Sending history outlook
        (raisedAt need ids b.info.chain b.info.timestamp)
      ∧ db.Talks (ids.foldl (Database.offerTo s b) db) := by
  induction ids generalizing db need with
  | nil => exact ⟨h.weaken fun i _ c => Std.le_refl _, Talks.refl db⟩
  | cons id rest ih =>
      obtain ⟨hfirst, htalks⟩ := h.offerTo hlink hh hb hown (hprior id)
      have hseen : (db.offerTo s b id).seen = db.seen := by
        obtain ⟨peers, effects, heq⟩ := htalks
        rw [heq]
        rfl
      obtain ⟨hrest, htalks'⟩ := ih hfirst (hseen ▸ hown) fun i => by
        unfold raisedAt
        split
        · exact Std.le_trans (hprior i) (Progress.le_raise _ _ _ _)
        · exact hprior i
      rw [raisedAt_raisedAt] at hrest
      exact ⟨hrest, htalks.trans htalks'⟩

/-- **Every peer learns of a bundle that is new**, from here or as the one from which it came. -/
theorem Sending.spread {r : Progress} (h : db.Sending history outlook fun _ => r)
    (hh : History history) {b : Bundle} (hb : b ∈ history)
    (hown : b.info.timestamp ≤ db.seen b.info.chain) (hprior : b.prior ≤ r b.info.chain)
    {sender : Option PeerId}
    (hsender : ∀ id, sender = some id → b.info.timestamp ≤ outlook.reach id b.info.chain) :
    ((db.tellSender s b.info sender).passOn s b sender).Sending history outlook
        (fun _ => r.raise b.info.chain b.info.timestamp)
      ∧ db.Talks ((db.tellSender s b.info sender).passOn s b sender) := by
  have htold : (db.tellSender s b.info sender).Sending history outlook
        (raisedAt (fun _ => r) sender.toList b.info.chain b.info.timestamp)
      ∧ db.Talks (db.tellSender s b.info sender) := by
    cases sender with
    | none => exact ⟨h.weaken fun i _ c => Std.le_refl _, Talks.refl db⟩
    | some id => exact h.acknowledge hlink (isPoint_of_mem hb) (hsender id rfl) hown
  -- from here on it does not matter whether somebody was told
  generalize db.tellSender s b.info sender = db' at htold ⊢
  obtain ⟨htold, htalks⟩ := htold
  have hseen : db'.seen = db.seen := by
    obtain ⟨peers, effects, rfl⟩ := htalks
    rfl
  obtain ⟨hpassed, htalks'⟩ := htold.passOn hlink hh hb (hseen ▸ hown) (fun i => by
    unfold raisedAt
    split
    · exact Std.le_trans hprior (Progress.le_raise _ _ _ _)
    · exact hprior) (db'.peersExcept sender)
  rw [raisedAt_raisedAt] at hpassed
  refine ⟨hpassed.weaken fun i hi c => ?_, htalks.trans htalks'⟩
  have hkey : i ∈ db'.peers.keys := by
    obtain ⟨p, hp⟩ := hi
    have hstage : (db'.peers.get? i).isSome := by
      have := (htold.stage i).trans (hpassed.stage i).symm
      rw [Database.stage, Database.stage, hp] at this
      cases hget : db'.peers.get? i with
      | none => rw [hget] at this; cases this
      | some q => rfl
    exact SortedMap.mem_keys_iff.mpr (Option.isSome_iff_exists.mp hstage)
  -- everybody has been told, either as the sender or as one of the others
  have hmem : i ∈ sender.toList ++ db'.peersExcept sender := by
    by_cases hsend : sender = some i
    · exact List.mem_append_left _ (by simp [hsend])
    · exact List.mem_append_right _ (List.mem_filter.mpr ⟨hkey, by simpa using hsend⟩)
  rw [raisedAt, if_pos hmem]
  exact Std.le_refl _

end Telling

end Database

end GossipStore
