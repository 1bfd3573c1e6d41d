import GossipStore.Gossip.Peer
import GossipStore.Proofs.Gossip.Timeline

set_option autoImplicit false

/-! # What a peer is offered

A peer's has-map is a progress. While it stands at points of the history, an offered bundle whose
predecessor the other side has is either known to it or directly continues its has-map: it is sent
at once and never held back (`Peer.offer_routine`). Offering a whole store, oldest bundle first,
brings the has-map up to the store in the same way (`Peer.catchUp_routine`).

An operation of a peer is *sound* (`Peer.Outcome.Sound`) if it succeeds, sends only what the sender
may say and the recipient can take in, and leaves a has-map that is neither ahead of what the
recipient will have reached nor behind what it must know. All but those of the handshake are
*routine* (`Peer.Outcome.Routine`).
-/

namespace GossipStore

/-! ## Marking -/

namespace ChainTracker

variable {t : ChainTracker} {info : BundleInfo} {check : Bool}

theorem seenThrough_insert (t : ChainTracker) (info : BundleInfo) (waiters : List Waiter)
    (h : t.seenThrough info.chain < info.timestamp) :
    ChainTracker.seenThrough ⟨t.chains.insert info.chain info, waiters⟩
      = Progress.raise t.seenThrough info.chain info.timestamp := by
  funext c
  unfold Progress.raise
  by_cases hc : c = info.chain
  · subst hc
    rw [if_pos ⟨rfl, h⟩]
    simp [seenThrough, seenTo?, info?]
  · rw [if_neg fun hand => hc hand.1]
    simp [seenThrough, seenTo?, info?, SortedMap.get?_insert_of_ne _ hc]

theorem mark_of_le (h : info.timestamp ≤ t.seenThrough info.chain) :
    t.mark info check = .ok ⟨t, false, []⟩ := by
  simp only [mark, if_pos h]

/-- A bundle that directly continues what has been seen is recorded with and without a check. -/
theorem mark_eq_of_lt (h : t.seenThrough info.chain < info.timestamp)
    (hcheck : check = true → continuesFrom info (t.seenThrough info.chain) = true) :
    t.mark info check = .ok ⟨⟨t.chains.insert info.chain info,
        t.waiters.filter fun w => !reaches info w && !w.closed⟩, true,
      (t.waiters.filter (reaches info)).map (·.ticket)⟩ := by
  have hnle : ¬ info.timestamp ≤ t.seenThrough info.chain := Std.not_le.mpr h
  have hpass : (check && !continuesFrom info (t.seenThrough info.chain)) = false := by
    cases check with
    | false => rfl
    | true => simp [hcheck rfl]
  simp only [mark, if_neg hnle, hpass, Bool.false_eq_true, if_false]

theorem mark_of_lt (h : t.seenThrough info.chain < info.timestamp)
    (hcheck : check = true → continuesFrom info (t.seenThrough info.chain) = true) :
    ∃ u reached, t.mark info check = .ok ⟨u, true, reached⟩
      ∧ u.seenThrough = Progress.raise t.seenThrough info.chain info.timestamp :=
  ⟨_, _, mark_eq_of_lt h hcheck, seenThrough_insert t info _ h⟩

theorem seenThrough_markUnchecked (t : ChainTracker) (info : BundleInfo) :
    (t.markUnchecked info).tracker.seenThrough
      = Progress.raise t.seenThrough info.chain info.timestamp := by
  by_cases h : info.timestamp ≤ t.seenThrough info.chain
  · rw [markUnchecked, mark_of_le h, Progress.raise_of_le h]
  · obtain ⟨u, reached, hmark, hseen⟩ := @mark_of_lt t info false (Std.not_le.mp h) (by simp)
    rw [markUnchecked, hmark, hseen]

end ChainTracker

namespace Peer

/-! ## Belief -/

/-- What is known of a peer between two operations: nothing is held back, it is ready once it has
greeted, and its has-map stands at points of the history between two progresses. -/
structure Believes (history : List Bundle) (need reach : Progress) (p : Peer) : Prop where
  held : p.held = .empty
  state : p.state = if p.hasMap.isSome then .ready else .connecting
  points : ∀ t, p.hasMap = some t → ∀ c, IsPoint history c (t.seenThrough c)
  above : ∀ t, p.hasMap = some t → ∀ c, need c ≤ t.seenThrough c
  below : ∀ t, p.hasMap = some t → ∀ c, t.seenThrough c ≤ reach c

variable {history : List Bundle} {own need need' reach reach' : Progress} {p : Peer}

theorem Believes.mono {history' : List Bundle} (h : p.Believes history need reach)
    (hsub : history ⊆ history') (hneed : ∀ c, need' c ≤ need c)
    (hreach : ∀ c, reach c ≤ reach' c) : p.Believes history' need' reach' where
  held := h.held
  state := h.state
  points t ht c := (h.points t ht c).mono hsub
  above t ht c := Std.le_trans (hneed c) (h.above t ht c)
  below t ht c := Std.le_trans (h.below t ht c) (hreach c)

theorem Believes.not_closed (h : p.Believes history need reach) : p.state ≠ .closed := by
  rw [h.state]
  split <;> simp

/-- A new peer has not greeted. -/
theorem believes_new (serial : Nat) (id : PeerId) (timeout now : Nat) :
    (Peer.new serial id timeout now).Believes history need reach :=
  ⟨rfl, rfl, nofun, nofun, nofun⟩

/-! ## Sound operations -/

/-- Whether an operation on a peer does what the other side can live with. -/
structure Outcome.Sound {β : Type} (history : List Bundle) (own need reach : Progress)
    (o : Outcome β) : Prop where
  result : ∃ x, o.result = .ok x
  backed : ∀ m ∈ o.sent, Backed history own m
  deliverable : Deliverable reach o.sent
  believes : o.peer.Believes history need (settled reach o.sent)

/-- Whether an operation also leaves the handshake alone. -/
structure Outcome.Routine {β : Type} (history : List Bundle) (own need reach : Progress) (p : Peer)
    (o : Outcome β) : Prop extends o.Sound history own need reach where
  id : o.peer.id = p.id
  stage : o.peer.hasMap.isSome = p.hasMap.isSome
  quiet : o.sent.countP Message.isGreeting = 0

/-- Two operations one after the other. -/
theorem Outcome.Routine.append {β γ δ : Type} {o : Outcome β} {o' : Outcome γ}
    {result : Except GossipError δ} (h : o.Routine history own need reach p)
    (h' : o'.Routine history own need' (settled reach o.sent) o.peer)
    (hresult : ∃ x, result = .ok x) :
    Outcome.Routine history own need' reach p ⟨o'.peer, o.sent ++ o'.sent, result⟩ where
  result := hresult
  backed m hm := (List.mem_append.mp hm).elim (h.backed m) (h'.backed m)
  deliverable := deliverable_append.mpr ⟨h.deliverable, h'.deliverable⟩
  believes := by
    rw [settled_append]
    exact h'.believes
  id := h'.id.trans h.id
  stage := h'.stage.trans h.stage
  quiet := by rw [List.countP_append, h.quiet, h'.quiet]

/-- Sending nothing. -/
theorem routine_nil {β : Type} (h : p.Believes history need reach) (x : β) :
    Outcome.Routine history own need reach p ⟨p, [], .ok x⟩ :=
  ⟨⟨⟨x, rfl⟩, nofun, trivial, h⟩, rfl, rfl, rfl⟩

/-! ## What arrives -/

theorem prune_of_held_empty (h : p.held = .empty) (chain : ChainKey) : p.prune chain = p := by
  unfold prune
  split
  · rfl
  · rw [h]
    cases p
    cases h
    rfl

theorem onReceived_eq (h : p.held = .empty) (info : BundleInfo) :
    p.onReceived info
      = { p with hasMap := p.hasMap.map fun t => (t.markUnchecked info).tracker } := by
  let q : Peer := { p with hasMap := p.hasMap.map fun t => (t.markUnchecked info).tracker }
  exact prune_of_held_empty (p := q) h info.chain

/-- Whatever the other side has told of itself may be taken over. -/
theorem believes_onReceived (h : p.Believes history need reach) {info : BundleInfo}
    (hpoint : IsPoint history info.chain info.timestamp)
    (hle : info.timestamp ≤ reach info.chain) :
    (p.onReceived info).Believes history (need.raise info.chain info.timestamp) reach
      ∧ (p.onReceived info).hasMap.isSome = p.hasMap.isSome := by
  rw [onReceived_eq h.held]
  -- the has-map moves up to the time that was told, if there is a has-map
  have hseen (u : ChainTracker)
      (hu : (p.hasMap.map fun t => (t.markUnchecked info).tracker) = some u) :
      ∃ t, p.hasMap = some t
        ∧ u.seenThrough = Progress.raise t.seenThrough info.chain info.timestamp := by
    obtain ⟨t, ht, rfl⟩ := Option.map_eq_some_iff.mp hu
    exact ⟨t, ht, ChainTracker.seenThrough_markUnchecked t info⟩
  have hstage : (p.hasMap.map fun t => (t.markUnchecked info).tracker).isSome = p.hasMap.isSome :=
    Option.isSome_map
  refine ⟨⟨h.held, h.state.trans (by rw [hstage]), ?_, ?_, ?_⟩, hstage⟩
  · intro u hu c
    obtain ⟨t, ht, hseen⟩ := hseen u hu
    rw [hseen]
    exact Progress.isPoint_raise (h.points t ht) hpoint c
  · intro u hu c
    obtain ⟨t, ht, hseen⟩ := hseen u hu
    rw [hseen]
    exact Progress.raise_mono (h.above t ht) c
  · intro u hu c
    obtain ⟨t, ht, hseen⟩ := hseen u hu
    rw [hseen]
    exact Progress.raise_le (h.below t ht) hle c

theorem believes_onAck (h : p.Believes history need reach) {info : BundleInfo}
    (hpoint : IsPoint history info.chain info.timestamp)
    (hle : info.timestamp ≤ reach info.chain) :
    (p.onAck info).Believes history (need.raise info.chain info.timestamp) reach
      ∧ (p.onAck info).hasMap.isSome = p.hasMap.isSome := by
  obtain ⟨hbelieves, hstage⟩ := believes_onReceived h hpoint hle
  simp only [onAck]
  split
  · exact ⟨⟨hbelieves.held, hbelieves.state, hbelieves.points, hbelieves.above, hbelieves.below⟩,
      hstage⟩
  · exact ⟨hbelieves, hstage⟩

/-- Accepting the first greeting makes a peer ready. -/
theorem believes_greet (h : p.Believes history need reach) (hnew : p.hasMap.isSome = false)
    {now : Nat} (hexpire : p.expire now = p) {t : ChainTracker}
    (hpoints : ∀ c, IsPoint history c (t.seenThrough c)) (hle : ∀ c, t.seenThrough c ≤ reach c) :
    ∃ q, p.greet now t = (q, .ok ()) ∧ q.id = p.id ∧ q.hasMap.isSome = true
      ∧ q.Believes history (fun _ => 0) reach := by
  have hstate : p.state = .connecting := by rw [h.state, hnew]; rfl
  refine ⟨{ p with hasMap := some t, state := .ready }, by simp only [greet, hexpire, hstate], rfl,
    rfl, h.held, rfl, ?_, ?_, ?_⟩
  · intro u hu
    cases hu
    exact hpoints
  · intro u hu
    cases hu
    exact fun c => (hpoints c).nonneg
  · intro u hu
    cases hu
    exact hle

/-! ## What goes out -/

theorem id_onReceived (h : p.held = .empty) (info : BundleInfo) :
    (p.onReceived info).id = p.id := by
  rw [onReceived_eq h]

/-- An acknowledgement that is taken in. -/
theorem onAck_routine (h : p.Believes history need reach) {info : BundleInfo}
    (hpoint : IsPoint history info.chain info.timestamp)
    (hle : info.timestamp ≤ reach info.chain) :
    Outcome.Routine history own (need.raise info.chain info.timestamp) reach p
      ⟨p.onAck info, [], .ok ()⟩ := by
  obtain ⟨hbelieves, hstage⟩ := believes_onAck h hpoint hle
  refine ⟨⟨⟨(), rfl⟩, nofun, trivial, hbelieves⟩, ?_, hstage, rfl⟩
  simp only [onAck]
  split
  · exact id_onReceived h.held info
  · exact id_onReceived h.held info

/-- Telling the other side that its bundle has arrived. -/
theorem sendAck_routine (h : p.Believes history need reach) {info : BundleInfo}
    (hpoint : IsPoint history info.chain info.timestamp)
    (hle : info.timestamp ≤ reach info.chain) (hown : info.timestamp ≤ own info.chain) :
    ((p.onReceived info).sendAck (.ok ()) info).Routine history own
      (need.raise info.chain info.timestamp) reach p := by
  obtain ⟨hbelieves, hstage⟩ := believes_onReceived h hpoint hle
  have hsend : (p.onReceived info).sendAck (.ok ()) info
      = ⟨p.onReceived info, [.ackOf info], .ok ()⟩ := by
    simp only [sendAck, sendMessage, transmit, if_neg hbelieves.not_closed, Except.map]
  rw [hsend]
  refine ⟨⟨⟨(), rfl⟩, ?_, ⟨trivial, trivial⟩, hbelieves⟩, id_onReceived h.held info, hstage, rfl⟩
  intro m hm
  rw [List.mem_singleton.mp hm]
  exact ⟨hpoint, hown⟩

/-- Greeting the other side. -/
theorem sendGreeting_sound (h : p.Believes history need reach) {greeting : Bytes}
    (hbacked : Backed history own (.greeting greeting)) :
    p.sendGreeting (.ok ()) greeting = ⟨p, [.greeting greeting], .ok ()⟩
      ∧ Outcome.Sound history own need reach
        (⟨p, [.greeting greeting], .ok ()⟩ : Outcome Unit) := by
  refine ⟨by simp only [sendGreeting, sendMessage, transmit, if_neg h.not_closed, Except.map],
    ⟨(), rfl⟩, ?_, ⟨trivial, trivial⟩, h⟩
  intro m hm
  rw [List.mem_singleton.mp hm]
  exact hbacked

/-- Nothing is held back, so there is nothing to flush. -/
theorem flushChain_of_held_empty (h : p.held = .empty) (link : Link) (chain : ChainKey) :
    p.flushChain link chain = ⟨p, [], .ok ()⟩ := by
  have hprune := prune_of_held_empty h chain
  have hrelease : p.releaseChain chain = p := by
    rw [releaseChain, h]
    cases p
    cases h
    rfl
  have hon : p.heldOn chain = [] := by
    rw [heldOn, h]
    rfl
  simp only [flushChain, hprune, hrelease, hon, flush]

/-- **An offered bundle goes out at once or is known.** Of a bundle whose predecessor the other
side has, nothing is held back. -/
theorem offer_routine (hh : History history) (h : p.Believes history need reach) {b : Bundle}
    (hb : b ∈ history) (hown : b.info.timestamp ≤ own b.info.chain)
    (hprior : b.prior ≤ need b.info.chain) :
    (p.offer (.ok ()) b).Routine history own (need.raise b.info.chain b.info.timestamp) reach
      p := by
  unfold offer
  cases hmap : p.hasMap with
  | none =>
      -- before its greeting a peer is offered nothing, and there is nothing to know of it
      exact routine_nil ⟨h.held, h.state, by simp [hmap], by simp [hmap], by simp [hmap]⟩ false
  | some t =>
      have hneed : b.prior ≤ t.seenThrough b.info.chain :=
        Std.le_trans hprior (h.above t hmap b.info.chain)
      by_cases hle : b.info.timestamp ≤ t.seenThrough b.info.chain
      · -- the other side has it
        simp only [ChainTracker.mark_of_le hle]
        refine routine_nil ⟨h.held, h.state, h.points, ?_, h.below⟩ false
        intro u hu c
        cases hmap.symm.trans hu
        exact Progress.raise_le (h.above t hmap) hle c
      · have hlt : t.seenThrough b.info.chain < b.info.timestamp := Std.not_le.mp hle
        -- the has-map stands between the predecessor and the bundle, hence at the predecessor
        have hnext : b.prior = t.seenThrough b.info.chain :=
          hh.prior_eq hb (h.points t hmap b.info.chain) hlt hneed
        obtain ⟨u, reached, hmark, hseen⟩ :=
          @ChainTracker.mark_of_lt t b.info true hlt fun _ => b.continuesFrom_iff.mpr hnext
        have hsend : ({ p with hasMap := some u } : Peer).sendBundle (.ok ()) b
            = ⟨({ p with hasMap := some u } : Peer).noteSent b.info, [.bundle b.bytes],
              .ok ()⟩ := by
          simp only [sendBundle, transmit, if_neg h.not_closed, Except.map]
        have hflush := flushChain_of_held_empty (p := ({ p with hasMap := some u } : Peer).noteSent
          b.info) h.held (.ok ()) b.info.chain
        simp only [hmark, hsend, hflush]
        refine ⟨⟨⟨true, rfl⟩, ?_, ⟨?_, trivial⟩, h.held, ?_, ?_, ?_, ?_⟩, rfl,
          by rw [hmap]; rfl, rfl⟩
        · intro m hm
          rw [List.mem_singleton.mp hm]
          exact ⟨b, hb, rfl, hown⟩
        · intro b' hb'
          rw [b.decode_bytes] at hb'
          cases hb'
          exact hnext ▸ h.below t hmap b.info.chain
        · have hready := h.state
          rw [hmap] at hready
          exact hready
        · intro u' hu' c
          cases hu'
          rw [hseen]
          exact Progress.isPoint_raise (h.points t hmap) (isPoint_of_mem hb) c
        · intro u' hu' c
          cases hu'
          rw [hseen]
          exact Progress.raise_mono (h.above t hmap) c
        · intro u' hu' c
          cases hu'
          rw [hseen]
          show _ ≤ settle reach (.bundle b.bytes) c
          rw [settle_bundle]
          exact Progress.raise_mono (h.below t hmap) c

/-- **Catching up leaves nothing out.** Bundles that can be taken in one after the other by somebody
who has what is needed are taken in by a peer that has that much or more. -/
theorem catchUp_routine (hh : History history) {bs : List Bundle}
    (h : p.Believes history need reach)
    (hmem : ∀ b ∈ bs, b ∈ history ∧ b.info.timestamp ≤ own b.info.chain)
    (hd : Deliverable need (bs.map carrying)) :
    (p.catchUp (.ok ()) bs).Routine history own (settled need (bs.map carrying)) reach p := by
  -- what the peer must know grows with every bundle offered, whether it is sent or not
  induction bs generalizing p need reach with
  | nil => exact routine_nil h 0
  | cons b rest ih =>
      obtain ⟨hfits, hrest⟩ := hd
      have hfirst := offer_routine hh h (hmem b List.mem_cons_self).1 (hmem b List.mem_cons_self).2
        (hfits b b.decode_bytes)
      rw [← settle_bundle] at hfirst
      have hothers := ih hfirst.believes (fun b' hb' => hmem b' (List.mem_cons_of_mem _ hb')) hrest
      obtain ⟨sent, hsent⟩ := hfirst.result
      obtain ⟨count, hcount⟩ := hothers.result
      simp only [catchUp, hsent]
      exact hfirst.append hothers ⟨_, by rw [hcount]; rfl⟩

end Peer

end GossipStore
