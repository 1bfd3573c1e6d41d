import GossipStore.Proofs.Gossip.Release

set_option autoImplicit false

/-! # What an open connection carries

An operation that sends bundles succeeds on a connection that is not closed as long as the link does
not fail, and it leaves the connection open and with the same replica. All that goes out or is held
back by it was at hand: it was offered, or it was held back before (`Peer.Outcome.Carries`).
-/

namespace GossipStore.Peer

variable {p q : Peer} {β γ : Type} {b : Bundle} {bs hand : List Bundle}

/-- What an operation does on an open connection with some bundles at hand. -/
structure Outcome.Carries (o : Outcome β) (p : Peer) (hand : List Bundle) : Prop where
  id : o.peer.id = p.id
  state : o.peer.state = p.state
  sent : ∃ out : List Bundle, o.sent = out.map carrying ∧ ∀ b ∈ out, b ∈ hand
  held : ∀ b ∈ o.peer.held.values, b ∈ p.held.values ∨ b ∈ hand
  result : ∃ x, o.result = .ok x

theorem Outcome.Carries.mono {o : Outcome β} (h : o.Carries p hand) {hand' : List Bundle}
    (hsub : ∀ b ∈ hand, b ∈ hand') : o.Carries p hand' where
  id := h.id
  state := h.state
  sent := h.sent.imp fun _ hout => ⟨hout.1, fun b hb => hsub b (hout.2 b hb)⟩
  held b hb := (h.held b hb).imp_right (hsub b)
  result := h.result

/-- One operation after another, each with the same at hand. -/
theorem Outcome.Carries.append {o : Outcome β} {o' : Outcome γ} (h : o.Carries p hand)
    (h' : o'.Carries o.peer hand) {δ : Type} {result : Except GossipError δ}
    (hresult : ∃ x, result = .ok x) :
    (⟨o'.peer, o.sent ++ o'.sent, result⟩ : Outcome δ).Carries p hand where
  id := h'.id.trans h.id
  state := h'.state.trans h.state
  sent := by
    obtain ⟨out, hout, hmem⟩ := h.sent
    obtain ⟨out', hout', hmem'⟩ := h'.sent
    refine ⟨out ++ out', by rw [hout, hout', List.map_append], fun b hb => ?_⟩
    exact (List.mem_append.mp hb).elim (hmem b) (hmem' b)
  held b hb := (h'.held b hb).elim (h.held b) .inr
  result := hresult

/-- Nothing is sent, and nothing is held back but what was before or is at hand. -/
theorem carries_nil (hid : q.id = p.id) (hstate : q.state = p.state)
    (hheld : ∀ b ∈ q.held.values, b ∈ p.held.values ∨ b ∈ hand) (x : β) :
    (⟨q, [], .ok x⟩ : Outcome β).Carries p hand :=
  ⟨hid, hstate, ⟨[], rfl, List.forall_mem_nil _⟩, hheld, x, rfl⟩

theorem foldl_hold_id (bs : List Bundle) (p : Peer) : (bs.foldl hold p).id = p.id :=
  List.foldlRecOn bs hold (motive := fun q : Peer => q.id = p.id) rfl fun _ h _ _ => h

theorem held_foldl_hold (bs : List Bundle) (p : Peer) :
    ∀ b ∈ (bs.foldl hold p).held.values, b ∈ p.held.values ∨ b ∈ bs := by
  intro b hb
  obtain ⟨k, hk⟩ := SortedMap.mem_values_iff.mp hb
  rcases get?_foldl_hold bs p k with ⟨x, hx, -, hget⟩ | ⟨-, hsame⟩
  · obtain rfl : x = b := Option.some.inj (hget.symm.trans hk)
    exact .inr hx
  · exact .inl (SortedMap.mem_values_iff.mpr ⟨k, hsame.symm.trans hk⟩)

theorem held_filter {held : SortedMap ChainPoint Bundle} {f : ChainPoint → Bundle → Bool} :
    ∀ b ∈ (held.filter f).values, b ∈ held.values := by
  intro b hb
  obtain ⟨k, hk⟩ := SortedMap.mem_values_iff.mp hb
  rw [SortedMap.get?_filter] at hk
  exact SortedMap.mem_values_iff.mpr ⟨k, (Option.filter_eq_some_iff.mp hk).1⟩

/-- Pruning a chain only drops what is held back. -/
theorem prune_keeps (p : Peer) (chain : ChainKey) :
    (p.prune chain).id = p.id ∧ ∀ b ∈ (p.prune chain).held.values, b ∈ p.held.values := by
  rw [prune]
  split
  · exact ⟨rfl, fun b hb => hb⟩
  · exact ⟨rfl, held_filter⟩

/-- A bundle that the has-map passes goes out. -/
theorem sendBundle_carries (hopen : p.state ≠ .closed) (u : ChainTracker) (hb : b ∈ hand) :
    (({ p with hasMap := some u } : Peer).sendBundle (.ok ()) b).Carries p hand := by
  rw [sendBundle_eq (p := { p with hasMap := some u }) hopen]
  exact ⟨rfl, rfl, ⟨[b], rfl, List.forall_mem_singleton.mpr hb⟩, fun x hx => .inl hx, (), rfl⟩

theorem flush_carries (hopen : p.state ≠ .closed) (hbs : ∀ b ∈ bs, b ∈ hand) :
    (p.flush (.ok ()) bs).Carries p hand := by
  induction bs generalizing p with
  | nil => exact carries_nil rfl rfl (fun b hb => .inl hb) ()
  | cons b rest ih =>
      obtain ⟨hb, hrest⟩ := List.forall_mem_cons.mp hbs
      have hheld : (⟨(b :: rest).foldl hold p, [], .ok ()⟩ : Outcome Unit).Carries p hand :=
        carries_nil (foldl_hold_id (b :: rest) p) (foldl_hold_frame (b :: rest) p).2
          (fun x hx => (held_foldl_hold (b :: rest) p x hx).imp_right (hbs x)) ()
      rw [flush]
      cases ht : p.hasMap with
      | none => exact hheld
      | some t =>
          simp only
          split
          · exact hheld
          · rename_i u reached hmark
            have hfirst := sendBundle_carries (b := b) hopen u hb
            have hopen' : ({ p with hasMap := some u } : Peer).state ≠ .closed := hopen
            rw [sendBundle_eq hopen'] at hfirst ⊢
            have hrestCarries := ih (p := ({ p with hasMap := some u } : Peer).noteSent b.info)
              hopen hrest
            exact hfirst.append hrestCarries hrestCarries.result
          · exact ih hopen hrest

theorem flushChain_carries (hopen : p.state ≠ .closed) (chain : ChainKey) :
    (p.flushChain (.ok ()) chain).Carries p p.held.values := by
  obtain ⟨hid, hheld⟩ := prune_keeps p chain
  have hstate := (prune_frame p chain).2
  -- what is released was held back, so it is at hand
  have hhand : ∀ b ∈ (p.prune chain).heldOn chain, b ∈ p.held.values :=
    fun b hb => hheld b (held_filter b hb)
  have hflush := flush_carries (p := (p.prune chain).releaseChain chain)
    (fun h => hopen (hstate.symm.trans h)) hhand
  exact ⟨hflush.id.trans hid, hflush.state.trans hstate, hflush.sent,
    fun b hb => .inl ((hflush.held b hb).elim (fun h => hheld b (held_filter b h)) fun h => h),
    hflush.result⟩

/-- **What is offered goes out or is held back**, and what had been held back may go out with it. -/
theorem offer_carries (hopen : p.state ≠ .closed) (b : Bundle) :
    (p.offer (.ok ()) b).Carries p (b :: p.held.values) := by
  have hb : b ∈ b :: p.held.values := List.mem_cons_self
  rw [offer]
  cases ht : p.hasMap with
  | none => exact carries_nil rfl rfl (fun x hx => .inl hx) false
  | some t =>
      simp only
      split
      · refine carries_nil (p := p) (q := p.hold b) rfl rfl (fun x hx => ?_) false
        refine (held_foldl_hold [b] p x hx).imp_right fun hx => ?_
        rw [List.mem_singleton.mp hx]
        exact hb
      · exact carries_nil rfl rfl (fun x hx => .inl hx) false
      · rename_i u reached hmark
        have hfirst := sendBundle_carries hopen u hb
        have hopen' : ({ p with hasMap := some u } : Peer).state ≠ .closed := hopen
        rw [sendBundle_eq hopen'] at hfirst ⊢
        have hothers := flushChain_carries
          (p := ({ p with hasMap := some u } : Peer).noteSent b.info) hopen b.info.chain
        obtain ⟨x, hx⟩ := hothers.result
        exact hfirst.append (hothers.mono fun _ => List.mem_cons_of_mem b) ⟨true, by rw [hx]; rfl⟩

/-- What an offer tells: whether the bundle is the next of its chain and has gone out. Nothing goes
out by the offer of any other bundle. -/
theorem offer_answers (hopen : p.state ≠ .closed) (hknown : p.hasMap.isSome = true) (b : Bundle) :
    (b.prior = p.progress b.info.chain ∧ (p.offer (.ok ()) b).result = .ok true
        ∧ ∃ others, (p.offer (.ok ()) b).sent = carrying b :: others)
      ∨ (b.prior ≠ p.progress b.info.chain ∧ (p.offer (.ok ()) b).result = .ok false
        ∧ (p.offer (.ok ()) b).sent = []) := by
  obtain ⟨t, ht⟩ := Option.isSome_iff_exists.mp hknown
  rw [offer, ht, progress_of_hasMap ht]
  simp only
  rcases t.mark_cases b with ⟨hle, hmark⟩ | ⟨-, hgap, e, hmark⟩ | ⟨u, reached, hmark⟩
  · have hbehind : b.prior ≠ t.seenThrough b.info.chain :=
      Std.ne_of_lt (Std.lt_of_lt_of_le b.prior_lt hle)
    exact .inr ⟨hbehind, by rw [hmark], by rw [hmark]⟩
  · exact .inr ⟨hgap, by rw [hmark], by rw [hmark]⟩
  · have hopen' : ({ p with hasMap := some u } : Peer).state ≠ .closed := hopen
    obtain ⟨x, hx⟩ := (flushChain_carries
      (p := ({ p with hasMap := some u } : Peer).noteSent b.info) hopen b.info.chain).result
    refine .inl ⟨(ChainTracker.mark_bundle hmark).1, ?_, ?_⟩
    · simp only [hmark, sendBundle_eq hopen', hx, Except.map]
    · simp only [hmark, sendBundle_eq hopen', List.singleton_append]
      exact ⟨_, rfl⟩

theorem catchUp_carries (hopen : p.state ≠ .closed) (bs : List Bundle) :
    (p.catchUp (.ok ()) bs).Carries p (bs ++ p.held.values) := by
  induction bs generalizing p with
  | nil => exact carries_nil rfl rfl (fun b hb => .inl hb) 0
  | cons b rest ih =>
      have hfirst := offer_carries hopen b
      have hrest := ih (p := (p.offer (.ok ()) b).peer) (hfirst.state ▸ hopen)
      obtain ⟨sent, hsent⟩ := hfirst.result
      obtain ⟨count, hcount⟩ := hrest.result
      rw [catchUp]
      simp only [hsent]
      refine (hfirst.mono fun x hx => ?_).append (hrest.mono fun x hx => ?_) ⟨_, by rw [hcount]; rfl⟩
      · rcases List.mem_cons.mp hx with rfl | hx
        · exact List.mem_append_left _ List.mem_cons_self
        · exact List.mem_append_right _ hx
      · rcases List.mem_append.mp hx with hx | hx
        · exact List.mem_append_left _ (List.mem_cons_of_mem b hx)
        · rcases hfirst.held x hx with hx | hx
          · exact List.mem_append_right _ hx
          · exact (List.mem_cons.mp hx).elim
              (fun h => h ▸ List.mem_append_left _ List.mem_cons_self)
              (List.mem_append_right _)

/-- A bundle is offered by itself or as the only one to catch up with. -/
theorem catchUp_singleton (hopen : p.state ≠ .closed) (b : Bundle) :
    (p.catchUp (.ok ()) [b]).peer = (p.offer (.ok ()) b).peer
      ∧ (p.catchUp (.ok ()) [b]).sent = (p.offer (.ok ()) b).sent := by
  obtain ⟨sent, hsent⟩ := (offer_carries hopen b).result
  simp only [catchUp, hsent, List.append_nil, and_self]

/-- To catch up can be interrupted. -/
theorem catchUp_append (hopen : p.state ≠ .closed) (bs bs' : List Bundle) :
    (p.catchUp (.ok ()) (bs ++ bs')).peer
        = ((p.catchUp (.ok ()) bs).peer.catchUp (.ok ()) bs').peer
      ∧ (p.catchUp (.ok ()) (bs ++ bs')).sent = (p.catchUp (.ok ()) bs).sent
        ++ ((p.catchUp (.ok ()) bs).peer.catchUp (.ok ()) bs').sent := by
  induction bs generalizing p with
  | nil => exact ⟨rfl, rfl⟩
  | cons b rest ih =>
      have hfirst := offer_carries hopen b
      obtain ⟨sent, hsent⟩ := hfirst.result
      obtain ⟨hpeer, hrest⟩ := ih (p := (p.offer (.ok ()) b).peer) (hfirst.state ▸ hopen)
      simp only [List.cons_append, catchUp, hsent, hpeer, hrest, List.append_assoc, and_self]

/-- What the other side tells of itself leaves the connection as it is. -/
theorem onReceived_keeps (p : Peer) (info : BundleInfo) :
    (p.onReceived info).id = p.id ∧ (p.onReceived info).state = p.state :=
  ⟨(prune_keeps _ info.chain).1, (onReceived_frame p info).2⟩

/-- A greeting, accepted or not, closes nothing. -/
theorem greet_keeps (p : Peer) (now : Nat) (tracker : ChainTracker) :
    (p.greet now tracker).1.id = p.id
      ∧ ((p.greet now tracker).1.state = .closed → p.state = .closed) := by
  cases hstate : p.state with
  | connecting => by_cases hlate : p.deadline ≤ now <;> simp [greet, expire, hstate, hlate]
  | ready => simp [greet, expire, hstate]
  | failed => simp [greet, expire, hstate]
  | closed => simp [greet, expire, hstate]

end GossipStore.Peer
