import GossipStore.Proofs.Gossip.Release

set_option autoImplicit false

/-! # Bundles that stall

A held bundle goes out when its predecessor is sent. When instead the other side tells that it has
the predecessor, held bundles that it has are dropped, but none goes out (`Told.step`). So in a run
nothing that could go out stays held back exactly as long as no report is the first of the
predecessor of a held bundle (`stallsNothing_iff`). Such a report stalls its chain
(`stallsNothing_iff_reportedPredecessor`); without one, a chain of which everything has been offered
or reported has nothing held.
-/

namespace GossipStore.Peer

variable {history : List Bundle} {p q : Peer} {chain : ChainKey}

/-! ## Reports of the other side -/

/-- Whether an act is about bundles of a history only: they are offered, or the other side tells
that it has one of them. -/
def Act.Over (history : List Bundle) : Act → Prop
  | offer b => b ∈ history
  | catchUp bs => ∀ b ∈ bs, b ∈ history
  | received info | acked info =>
    ∃ b ∈ history, b.info.chain = info.chain ∧ b.info.timestamp = info.timestamp
  | greet _ _ | close => False

/-- Whether a bundle is offered by an act, or the other side tells by it that it has the bundle. -/
def Act.Brings (x : Bundle) : Act → Prop
  | offer b => b = x
  | catchUp bs => x ∈ bs
  | received info | acked info => info.chain = x.info.chain ∧ x.info.timestamp ≤ info.timestamp
  | greet _ _ | close => False

/-- Whether the other side tells by an act, for the first time, that it has the predecessor of a
bundle that is held back. -/
def Act.Unblocks (act : Act) (p : Peer) : Prop :=
  ∃ info, act.tells = some info ∧ p.progress info.chain < info.timestamp
    ∧ ∃ k b, p.held.get? k = some b ∧ b.info.chain = info.chain ∧ b.prior = info.timestamp

/-- What a report leaves held back. -/
structure Told (p q : Peer) (info : BundleInfo) : Prop where
  known : q.hasMap.isSome = true
  ready : q.state = .ready
  progress : q.progress = Progress.raise p.progress info.chain info.timestamp
  held : ∀ k b, q.held.get? k = some b ↔ p.held.get? k = some b
    ∧ (k.chain = info.chain → q.progress info.chain < k.timestamp)

theorem onReceived_told (hflowing : p.Flowing history) (info : BundleInfo) :
    Told p (p.onReceived info) info := by
  obtain ⟨hmap, hstate⟩ := onReceived_frame p info
  refine ⟨by rw [hmap, Option.isSome_map, hflowing.known], hstate.trans hflowing.ready,
    progress_told hmap hflowing.known, fun k b => ?_⟩
  -- it is pruned after its map has been raised
  let raised : Peer := { p with hasMap := p.hasMap.map fun t => (t.markUnchecked info).tracker }
  have hprogress : (p.onReceived info).progress info.chain = raised.progress info.chain := by
    rw [progress, progress, hmap]
  rw [hprogress]
  have hplaces : ∀ k b, raised.held.get? k = some b → b.point = k :=
    fun k b h => (hflowing.filed k b h).2
  exact get?_held_prune hplaces k b

theorem onAck_told (hflowing : p.Flowing history) (info : BundleInfo) :
    Told p (p.onAck info) info := by
  have h := onReceived_told hflowing info
  rw [onAck]
  split
  · exact ⟨h.known, h.ready, h.progress, h.held⟩
  · exact h

theorem Told.covers {info : BundleInfo} (h : Told p q info) {x : Bundle}
    (hx : info.chain = x.info.chain ∧ x.info.timestamp ≤ info.timestamp) : q.Covers x.point := by
  refine .inl (Std.le_trans hx.2 ?_)
  rw [h.progress, Bundle.point, ← hx.1]
  exact Progress.raise_self_ge _ _ _

/-- A report stalls something exactly if it is the first of the predecessor of a held bundle. -/
theorem Told.step (hflowing : p.Flowing history) {info : BundleInfo} (h : Told p q info)
    (hinfo : ∃ b ∈ history, b.info.chain = info.chain ∧ b.info.timestamp = info.timestamp)
    {act : Act} (htells : act.tells = some info) :
    q.Flowing history ∧ Onward history p q ∧ (p.StallsNothing →
      (q.StallsNothing ↔ ¬ act.Unblocks p)) := by
  have hle (c : ChainKey) : p.progress c ≤ q.progress c := by
    rw [h.progress]
    exact Progress.le_raise _ _ _ c
  have hothers (c : ChainKey) (hc : c ≠ info.chain) : q.progress c = p.progress c := by
    rw [h.progress, Progress.raise_of_ne hc]
  have hchain (k : ChainPoint) (b : Bundle) (hb : p.held.get? k = some b) :
      b.info.chain = k.chain := congrArg ChainPoint.chain (hflowing.filed k b hb).2
  refine ⟨⟨h.known, h.ready, fun k b hb => hflowing.filed k b ((h.held k b).mp hb).1,
    fun k b hb => ?_⟩, ⟨hle, fun k hk => ?_, fun hpoints c => ?_⟩, fun hcalm => ?_⟩
  · obtain ⟨hb, hahead⟩ := (h.held k b).mp hb
    by_cases hk : k.chain = info.chain
    · rw [hk]
      exact hahead hk
    · rw [hothers k.chain hk]
      exact hflowing.ahead k b hb
  · rcases hk with hreached | hwaiting
    · exact .inl (Std.le_trans hreached (hle k.chain))
    · obtain ⟨b, hb⟩ := Option.isSome_iff_exists.mp hwaiting
      by_cases hahead : k.chain = info.chain → q.progress info.chain < k.timestamp
      · exact .inr (Option.isSome_iff_exists.mpr ⟨b, (h.held k b).mpr ⟨hb, hahead⟩⟩)
      · obtain ⟨hk, hreached⟩ := Classical.not_imp.mp hahead
        exact .inl (hk ▸ Std.not_lt.mp hreached)
  · rw [h.progress]
    exact Progress.isPoint_raise hpoints (.inr hinfo) c
  · constructor
    · rintro hstill ⟨other, hother, hlt, k, b, hb, hbchain, hprior⟩
      obtain rfl : other = info := Option.some.inj (hother.symm.trans htells)
      -- the bundle stays held, and the other side has its predecessor now
      have hreached : q.progress other.chain = other.timestamp := by
        rw [h.progress]
        rcases Progress.raise_self_cases p.progress other.chain other.timestamp with
          ⟨-, hle⟩ | ⟨hraised, -⟩
        · exact absurd hlt (Std.not_lt.mpr hle)
        · exact hraised
      have hkept : q.held.get? k = some b := by
        refine (h.held k b).mpr ⟨hb, fun _ => ?_⟩
        rw [hreached, ← hprior, ← (hflowing.filed k b hb).2]
        exact b.prior_lt
      exact hstill k b hkept (by rw [hbchain, hreached, hprior])
    · intro hnothing k b hb
      obtain ⟨hb, -⟩ := (h.held k b).mp hb
      by_cases hbchain : b.info.chain = info.chain
      · rw [hbchain, h.progress]
        rcases Progress.raise_self_cases p.progress info.chain info.timestamp with
          ⟨hsame, -⟩ | ⟨hraised, hlt⟩
        · rw [hsame, ← hbchain]
          exact hcalm k b hb
        · rw [hraised]
          exact fun hprior => hnothing ⟨info, htells, hlt, k, b, hb, hbchain, hprior⟩
      · rw [hothers b.info.chain hbchain]
        exact hcalm k b hb

/-! ## Whole runs -/

/-- What one act does. -/
theorem perform_step (hhistory : Unforked history) (hflowing : p.Flowing history) {act : Act}
    (hact : act.Over history) : (p.perform act).1.Flowing history
      ∧ Onward history p (p.perform act).1
      ∧ (p.StallsNothing → ((p.perform act).1.StallsNothing ↔ ¬ act.Unblocks p))
      ∧ ∀ x, act.Brings x → (p.perform act).1.Covers x.point := by
  -- offers tell nothing
  have hsilent (hnone : act.tells = none) : ¬ act.Unblocks p := by
    rintro ⟨info, htells, -⟩
    cases hnone.symm.trans htells
  cases act with
  | greet now tracker => exact hact.elim
  | close => exact hact.elim
  | offer b =>
      obtain ⟨hstep, hcovers, -⟩ := offer_continues hhistory hflowing hact
      refine ⟨hstep.flowing, hstep.onward, fun hcalm => ?_, fun x hx => ?_⟩
      · exact iff_of_true (hstep.calm hcalm) (hsilent rfl)
      · obtain rfl : b = x := hx
        exact hcovers
  | catchUp bs =>
      obtain ⟨hstep, hcovers⟩ := catchUp_continues hhistory hflowing hact
      exact ⟨hstep.flowing, hstep.onward,
        fun hcalm => iff_of_true (hstep.calm hcalm) (hsilent rfl), hcovers⟩
  | received info =>
      have htold := onReceived_told hflowing info
      obtain ⟨hnext, honward, hcalm⟩ := htold.step hflowing hact
        (rfl : (Act.received info).tells = some info)
      exact ⟨hnext, honward, hcalm, fun x hx => htold.covers hx⟩
  | acked info =>
      have htold := onAck_told hflowing info
      obtain ⟨hnext, honward, hcalm⟩ := htold.step hflowing hact
        (rfl : (Act.acked info).tells = some info)
      exact ⟨hnext, honward, hcalm, fun x hx => htold.covers hx⟩

theorem live_step (hhistory : Unforked history) (hflowing : p.Flowing history) {acts : List Act}
    (hacts : ∀ act ∈ acts, act.Over history) : (p.live acts).1.Flowing history
      ∧ Onward history p (p.live acts).1
      ∧ ∀ act ∈ acts, ∀ x, act.Brings x → (p.live acts).1.Covers x.point := by
  induction acts generalizing p with
  | nil => exact ⟨hflowing, .refl history p, List.forall_mem_nil _⟩
  | cons act rest ih =>
      obtain ⟨hact, hrest⟩ := List.forall_mem_cons.mp hacts
      obtain ⟨hnext, honward, -, hcovers⟩ := perform_step hhistory hflowing hact
      obtain ⟨hlast, honward', hcovers'⟩ := ih hnext hrest
      exact ⟨hlast, honward.trans honward', List.forall_mem_cons.mpr
        ⟨fun x hx => honward'.covers _ (hcovers x hx), hcovers'⟩⟩

/-- In a run nothing is ever stalled exactly if no report unblocks what is held back. -/
theorem live_stallsNothing_iff (hhistory : Unforked history) (hflowing : p.Flowing history)
    (hcalm : p.StallsNothing) {acts : List Act} (hacts : ∀ act ∈ acts, act.Over history) :
    (∀ before after, acts = before ++ after → (p.live before).1.StallsNothing)
      ↔ ∀ before act after, acts = before ++ act :: after →
        ¬ act.Unblocks (p.live before).1 := by
  induction acts generalizing p with
  | nil =>
      refine iff_of_true (fun before after h => ?_) fun before act after h => ?_
      · obtain ⟨rfl, -⟩ := List.append_eq_nil_iff.mp h.symm
        exact hcalm
      · cases before <;> cases h
  | cons first rest ih =>
      obtain ⟨hfirst, hrest⟩ := List.forall_mem_cons.mp hacts
      obtain ⟨hnext, -, hstep, -⟩ := perform_step hhistory hflowing hfirst
      have hstep := hstep hcalm
      constructor
      · intro hall
        have hnow : (p.perform first).1.StallsNothing := hall [first] rest rfl
        have hlater := (ih hnext hnow hrest).mp fun before after h =>
          hall (first :: before) after (by rw [h, List.cons_append])
        intro before act after h
        cases before with
        | nil =>
            obtain ⟨rfl, -⟩ := List.cons.inj h
            exact hstep.mp hnow
        | cons other before =>
            obtain ⟨rfl, htail⟩ := List.cons.inj h
            exact hlater before act after htail
      · intro hnone
        have hnow : (p.perform first).1.StallsNothing := hstep.mpr (hnone [] first rest rfl)
        have hlater := (ih hnext hnow hrest).mpr fun before act after h =>
          hnone (first :: before) act after (by rw [h, List.cons_append])
        intro before after h
        cases before with
        | nil => exact hcalm
        | cons other before =>
            obtain ⟨rfl, htail⟩ := List.cons.inj h
            exact hlater before after htail

/-- If nothing is stalled, the oldest bundle of a chain that is held back waits for one that has
been neither offered nor reported. -/
theorem Flowing.nothing_held_on (hflowing : p.Flowing history) (hhistory : Unforked history)
    (hpoint : IsPoint history chain (p.progress chain)) (hcalm : p.StallsNothing)
    (hall : ∀ x ∈ history, x.info.chain = chain → p.Covers x.point) (k : ChainPoint) (b : Bundle)
    (hb : p.held.get? k = some b) : b.info.chain ≠ chain := by
  intro hchain
  have hfiled (k : ChainPoint) (x : Bundle) (hx : p.held.get? k = some x) : x.point = k :=
    (hflowing.filed k x hx).2
  have hon {x : Bundle} (hx : p.held.get? x.point = some x) (hc : x.info.chain = chain) :
      x ∈ p.heldOn chain := mem_heldOn_iff.mpr ⟨x.point, hx, hc⟩
  have hmem : b ∈ p.heldOn chain := hon ((hfiled k b hb).symm ▸ hb) hchain
  have hsorted := pairwise_heldOn hfiled chain
  cases hlist : p.heldOn chain with
  | nil =>
      rw [hlist] at hmem
      cases hmem
  | cons oldest others =>
      rw [hlist] at hsorted
      obtain ⟨k', hk', hchain'⟩ := mem_heldOn_iff.mp (hlist ▸ List.mem_cons_self)
      obtain rfl : oldest.point = k' := hfiled k' oldest hk'
      have hpoint : IsPoint history oldest.info.chain (p.progress oldest.info.chain) := by
        rwa [show oldest.info.chain = chain from hchain']
      obtain ⟨hwritten, -⟩ := hflowing.filed oldest.point oldest hk'
      have hahead : p.progress oldest.info.chain < oldest.info.timestamp :=
        hflowing.ahead oldest.point oldest hk'
      have hle := hhistory.le_prior hwritten hpoint hahead
      have hlt : p.progress oldest.info.chain < oldest.prior :=
        Std.lt_of_le_of_ne hle fun h => hcalm oldest.point oldest hk' h.symm
      -- so the predecessor exists, and it is not with the other side
      rcases hhistory.linked oldest hwritten with hzero | ⟨x, hx, hxchain, hxtime⟩
      · have hnonneg := hpoint.nonneg
        rw [hzero] at hlt
        exact absurd hlt (Std.not_lt.mpr hnonneg)
      · rcases hall x hx (hxchain.trans hchain') with hreached | hwaiting
        · have hreached : x.info.timestamp ≤ p.progress x.info.chain := hreached
          rw [hxtime, hxchain] at hreached
          exact absurd hlt (Std.not_lt.mpr hreached)
        · obtain ⟨y, hy⟩ := Option.isSome_iff_exists.mp hwaiting
          have hpoint : y.point = x.point := hfiled x.point y hy
          obtain ⟨hychain, hytime⟩ := ChainPoint.mk.inj hpoint
          have holder : y.info.timestamp < oldest.info.timestamp := by
            rw [hytime, hxtime]
            exact oldest.prior_lt
          have hy : y ∈ oldest :: others := by
            rw [← hlist]
            exact hon (hpoint ▸ hy) (hychain.trans (hxchain.trans hchain'))
          rcases List.mem_cons.mp hy with rfl | hy
          · exact absurd holder Std.lt_irrefl
          · exact absurd ((List.pairwise_cons.mp hsorted).1 y hy)
              (Std.not_lt.mpr (Std.le_of_lt holder))

theorem Flowing.nothing_held (hflowing : p.Flowing history) (hhistory : Unforked history)
    (hpoints : ∀ c, IsPoint history c (p.progress c)) (hcalm : p.StallsNothing)
    (hall : ∀ x ∈ history, x.info.chain = chain → p.Covers x.point) (k : ChainPoint) (b : Bundle)
    (hb : p.held.get? k = some b) : b.info.chain ≠ chain :=
  hflowing.nothing_held_on hhistory (hpoints chain) hcalm hall k b hb

/-- A greeting that is accepted makes the connection ready. -/
theorem eq_of_greet {now : Nat} {tracker : ChainTracker} (h : p.greet now tracker = (q, .ok ())) :
    q = { p with hasMap := some tracker, state := .ready } := by
  have hopen : p.expire now = p := by
    rw [expire]
    split
    · rename_i hlate
      simp [greet, expire, hlate] at h
    · rfl
  rw [greet, hopen] at h
  cases hstate : p.state with
  | connecting =>
      simp only [hstate] at h
      exact (Prod.mk.inj h).1.symm
  | ready => simp [hstate] at h
  | closed => simp [hstate] at h
  | failed => simp [hstate] at h

/-- **When a held bundle goes out.** Let a peer greet, and let bundles of unforked chains be offered
to it, one by one or in catching up, and reported by it in any order, such that sending succeeds. In
no state of the run is a bundle held back whose predecessor is the last that the other side has of
the chain, exactly if no report catches up with the predecessor of a held bundle. In a last state in
which nothing is stalled like this, nothing is held of a chain of which every bundle has been
offered or reported, by the greeting at least. -/
theorem stallsNothing_iff {history : List Bundle} (hhistory : Unforked history) (serial : Nat)
    (id : PeerId) (timeout now time : Nat) (tracker : ChainTracker) (p : Peer)
    (hgreet : (new serial id timeout now).greet time tracker = (p, .ok ())) (acts : List Act)
    (hacts : ∀ act ∈ acts, act.Over history) :
    ((∀ before after, acts = before ++ after → (p.live before).1.StallsNothing)
        ↔ ∀ before act after, acts = before ++ act :: after → ¬ act.Unblocks (p.live before).1)
      ∧ ((∀ c, IsPoint history c (tracker.seenThrough c)) → (p.live acts).1.StallsNothing →
        ∀ chain, (∀ x ∈ history, x.info.chain = chain →
            x.info.timestamp ≤ tracker.seenThrough chain ∨ ∃ act ∈ acts, act.Brings x) →
          ∀ k b, (p.live acts).1.held.get? k = some b → b.info.chain ≠ chain) := by
  obtain rfl := eq_of_greet hgreet
  obtain ⟨p, hp⟩ : ∃ p, p = ({ new serial id timeout now with
    hasMap := some tracker, state := .ready } : Peer) := ⟨_, rfl⟩
  rw [← hp]
  have hmap : p.hasMap = some tracker := by rw [hp]
  have hready : p.state = .ready := by rw [hp]
  have hnothing (k : ChainPoint) (b : Bundle) : p.held.get? k ≠ some b := by
    rw [hp]
    exact fun h => by cases h
  have hflowing : p.Flowing history :=
    ⟨by rw [hmap]; rfl, hready, fun k b h => absurd h (hnothing k b),
      fun k b h => absurd h (hnothing k b)⟩
  have hcalm : p.StallsNothing := fun k b h => absurd h (hnothing k b)
  refine ⟨live_stallsNothing_iff hhistory hflowing hcalm hacts, fun hpoints hlast chain hall => ?_⟩
  obtain ⟨hend, honward, hcovers⟩ := live_step hhistory hflowing hacts
  have hstart : p.progress = tracker.seenThrough := progress_of_hasMap hmap
  refine hend.nothing_held hhistory (honward.standing (hstart ▸ hpoints)) hlast fun x hx hchain => ?_
  rcases hall x hx hchain with hgreeted | ⟨act, hact, hbrings⟩
  · refine honward.covers _ (.inl ?_)
    rw [hstart, Bundle.point, hchain]
    exact hgreeted
  · exact hcovers act hact x hbrings

/-- The other side tells that it has the predecessor of a held bundle: the bundle stays held back,
though all of its chain has been offered or reported. If the predecessor is offered instead, both go
out. -/
theorem stallsNothing_iff_bothOrders :
    let first := Bundle.ofValid ⟨10, 1, 10, none, none⟩ [] rfl (List.forall_mem_nil _) (by decide)
    let second := Bundle.ofValid ⟨20, 1, 10, some 10, none⟩ [] rfl (List.forall_mem_nil _)
      (by decide)
    let p := ((new 0 7 1000 0).greet 5 .empty).1
    (¬ ∀ before after, [Act.offer second, .acked first.info] = before ++ after →
        (p.live before).1.StallsNothing)
      ∧ ∀ k b, (p.live [.offer second, .offer first, .acked second.info]).1.held.get? k = some b →
        b.info.chain ≠ ⟨1, 10⟩ := by
  intro first second p
  have hhistory : Unforked [first, second] := ⟨by decide +kernel, by decide +kernel⟩
  have hgreet : (new 0 7 1000 0).greet 5 .empty = (p, .ok ()) := rfl
  have hreported := (stallsNothing_iff hhistory 0 7 1000 0 5 .empty p hgreet
    [.offer second, .acked first.info] (by simp [Act.Over])).1
  have hoffered := (stallsNothing_iff hhistory 0 7 1000 0 5 .empty p hgreet
    [.offer second, .offer first, .acked second.info] (by simp [Act.Over])).2
  constructor
  · intro hall
    refine hreported.mp hall [.offer second] (.acked first.info) [] rfl ⟨first.info, rfl, ?_⟩
    exact ⟨by decide +kernel, second.point, second, by decide +kernel, by decide +kernel,
      by decide +kernel⟩
  · have hempty : (p.live [.offer second, .offer first, .acked second.info]).1.held = .empty := by
      decide +kernel
    refine hoffered (fun c => .inl rfl) (fun k b hb => ?_) ⟨1, 10⟩ fun x hx _ => .inr ?_
    · rw [hempty] at hb
      cases hb
    · have hx : x = first ∨ x = second := by simpa using hx
      rcases hx with rfl | rfl
      · exact ⟨.offer first, by simp, rfl⟩
      · exact ⟨.offer second, by simp, rfl⟩

/-- The other side tells, by a bundle of its own or by an acknowledgement, that it has the
predecessor of a held bundle. Then the held bundle could go out, but it stays. -/
theorem stallsNothing_iff_reportedPredecessor :
    let first := Bundle.ofValid ⟨10, 1, 10, none, none⟩ [] rfl (List.forall_mem_nil _) (by decide)
    let second := Bundle.ofValid ⟨20, 1, 10, some 10, none⟩ [] rfl (List.forall_mem_nil _)
      (by decide)
    let p := ((new 0 7 1000 0).greet 5 .empty).1
    let received := p.live [.offer second, .received first.info]
    let acked := p.live [.offer second, .acked first.info]
    p.state = .ready
      ∧ received.1.held.get? second.point = some second
      ∧ second.prior = received.1.progress second.info.chain
      ∧ acked.1.held.get? second.point = some second
      ∧ second.prior = acked.1.progress second.info.chain
      ∧ received.2 = [] ∧ acked.2 = [] := by
  decide +kernel

end GossipStore.Peer
