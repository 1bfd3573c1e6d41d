import GossipStore.Proofs.Gossip.Outbound
import GossipStore.Proofs.Order

set_option autoImplicit false

/-! # Releasing held bundles

A bundle that is offered ahead of its predecessor is held back. When the predecessor goes out, the
held bundles of its chain are looked through from the oldest to the newest: what the other side has
is dropped, and the others go out as long as each directly continues the one before
(`flush_splits`). On chains that do not fork none of those that stay could go out. So an offer
leaves nothing held back that could go out, unless there was something before (`offer_continues`),
and catching up does neither (`catchUp_continues`).
-/

namespace GossipStore

/-! ## Places of bundles -/

/-- The place of a bundle on its chain. -/
def Bundle.point (b : Bundle) : ChainPoint := ⟨b.info.chain, b.info.timestamp⟩

/-- A checked mark of a bundle finds it known, or ahead of its predecessor, or the next one. -/
theorem ChainTracker.mark_cases (t : ChainTracker) (b : Bundle) :
    (b.info.timestamp ≤ t.seenThrough b.info.chain ∧ t.mark b.info true = .ok ⟨t, false, []⟩)
      ∨ (t.seenThrough b.info.chain < b.info.timestamp ∧ b.prior ≠ t.seenThrough b.info.chain
        ∧ ∃ e, t.mark b.info true = .error e)
      ∨ ∃ u reached, t.mark b.info true = .ok ⟨u, true, reached⟩ := by
  rw [mark]
  simp only
  split
  · rename_i hle
    exact .inl ⟨hle, rfl⟩
  · rename_i hlt
    split
    · rename_i hgap
      simp only [Bool.true_and, Bool.not_eq_true'] at hgap
      refine .inr (.inl ⟨Std.not_le.mp hlt, fun hprior => ?_, _, rfl⟩)
      rw [b.continuesFrom_iff.mpr hprior] at hgap
      cases hgap
    · exact .inr (.inr ⟨_, _, rfl⟩)

namespace Peer

variable {history : List Bundle} {p q : Peer} {chain : ChainKey}

/-! ## The state of a connection -/

/-- A connection on which bundles flow. What is held back is stored under its own place, and the
other side is not known to have it. -/
structure Flowing (history : List Bundle) (p : Peer) : Prop where
  known : p.hasMap.isSome = true
  ready : p.state = .ready
  filed : ∀ k b, p.held.get? k = some b → b ∈ history ∧ b.point = k
  ahead : ∀ k b, p.held.get? k = some b → p.progress k.chain < k.timestamp

/-- Whether nothing is held back of which the other side has the predecessor. -/
def StallsNothing (p : Peer) : Prop :=
  ∀ k b, p.held.get? k = some b → b.prior ≠ p.progress b.info.chain

/-- Whether the other side has what stands at a place, or it is held back. -/
def Covers (p : Peer) (k : ChainPoint) : Prop :=
  k.timestamp ≤ p.progress k.chain ∨ (p.held.get? k).isSome = true

/-- What every operation does: it forgets nothing, and the other side stands at a bundle or at
the beginning if it stood so before. -/
structure Onward (history : List Bundle) (p q : Peer) : Prop where
  le : ∀ c, p.progress c ≤ q.progress c
  covers : ∀ k, p.Covers k → q.Covers k
  standing : (∀ c, IsPoint history c (p.progress c)) → ∀ c, IsPoint history c (q.progress c)

theorem Onward.refl (history : List Bundle) (p : Peer) : Onward history p p :=
  ⟨fun _ => Std.le_refl _, fun _ h => h, fun h => h⟩

theorem Onward.trans {r : Peer} (h : Onward history p q) (h' : Onward history q r) :
    Onward history p r :=
  ⟨fun c => Std.le_trans (h.le c) (h'.le c), fun k hk => h'.covers k (h.covers k hk),
    fun hp => h'.standing (h.standing hp)⟩

/-! ## Holding back -/

/-- What stands at a place after bundles have been held back: one of them, or what stood there. -/
theorem get?_foldl_hold (bs : List Bundle) (p : Peer) (k : ChainPoint) :
    (∃ b ∈ bs, b.point = k ∧ (bs.foldl hold p).held.get? k = some b)
      ∨ (∀ b ∈ bs, b.point ≠ k) ∧ (bs.foldl hold p).held.get? k = p.held.get? k := by
  induction bs generalizing p with
  | nil => exact .inr ⟨List.forall_mem_nil _, rfl⟩
  | cons b rest ih =>
      rw [List.foldl_cons]
      rcases ih (p.hold b) with ⟨x, hx, hk, hget⟩ | ⟨hother, hget⟩
      · exact .inl ⟨x, List.mem_cons_of_mem b hx, hk, hget⟩
      · rw [hget]
        by_cases hb : b.point = k
        · refine .inl ⟨b, List.mem_cons_self, hb, ?_⟩
          rw [← hb]
          exact SortedMap.get?_insert_self p.held b.point b
        · refine .inr ⟨List.forall_mem_cons.mpr ⟨hb, hother⟩, ?_⟩
          exact SortedMap.get?_insert_of_ne p.held (Ne.symm hb) b

/-- A bundle that the has-map passes is where its chain stands next. -/
theorem progress_of_mark {t u : ChainTracker} {b : Bundle} {reached : List Nat}
    (ht : p.hasMap = some t) (hmark : t.mark b.info true = .ok ⟨u, true, reached⟩) :
    (({ p with hasMap := some u } : Peer).noteSent b.info).progress
      = Function.update p.progress b.info.chain b.info.timestamp := by
  rw [progress_of_hasMap ht, ← (ChainTracker.mark_bundle hmark).2]
  exact progress_of_hasMap rfl

/-! ## Releasing held bundles -/

/-- A peer from which some bundles of a chain have gone out, and others are held back. -/
structure Released (p q : Peer) (chain : ChainKey) (sent kept : List Bundle) : Prop where
  held : q.held = (kept.foldl hold p).held
  known : q.hasMap.isSome = true
  ready : q.state = .ready
  others : ∀ c ≠ chain, q.progress c = p.progress c
  gone : ∀ b ∈ sent, b.info.timestamp ≤ q.progress chain
  stands : q.progress chain = p.progress chain ∨ ∃ b ∈ sent, b.info.timestamp = q.progress chain
  waiting : ∀ b ∈ kept, q.progress chain < b.info.timestamp ∧ b.prior ≠ q.progress chain

theorem held_foldl_hold_congr (bs : List Bundle) (hheld : p.held = q.held) :
    (bs.foldl hold p).held = (bs.foldl hold q).held := by
  induction bs generalizing p q with
  | nil => exact hheld
  | cons b rest ih => exact ih (congrArg (·.insert b.point b) hheld)

/-- Nothing goes out if every bundle has to wait. -/
theorem released_nothing (hknown : p.hasMap.isSome = true) (hready : p.state = .ready)
    {kept : List Bundle} (hwaiting : ∀ b ∈ kept,
      p.progress chain < b.info.timestamp ∧ b.prior ≠ p.progress chain) :
    Released p (kept.foldl hold p) chain [] kept := by
  have hframe := foldl_hold_frame kept p
  have hsame : (kept.foldl hold p).progress = p.progress := by
    funext c
    rw [progress, progress, hframe.1]
  refine ⟨rfl, hframe.1 ▸ hknown, hframe.2.trans hready, fun c _ => congrFun hsame c,
    List.forall_mem_nil _, .inl (congrFun hsame chain), ?_⟩
  rw [hsame]
  exact hwaiting

/-- What goes out after a bundle that has gone out. -/
theorem Released.cons {next : Peer} {b : Bundle} {sent kept : List Bundle}
    (h : Released next q chain sent kept) (hheld : next.held = p.held)
    (hprogress : next.progress = Function.update p.progress chain b.info.timestamp)
    (hle : next.progress chain ≤ q.progress chain) : Released p q chain (b :: sent) kept where
  held := h.held.trans (held_foldl_hold_congr kept hheld)
  known := h.known
  ready := h.ready
  others c hc := by rw [h.others c hc, hprogress, Function.update_of_ne hc]
  gone := by
    rw [hprogress, Function.update_self] at hle
    exact List.forall_mem_cons.mpr ⟨hle, h.gone⟩
  stands := by
    right
    rcases h.stands with hsame | ⟨x, hx, hat⟩
    · exact ⟨b, List.mem_cons_self, by rw [hsame, hprogress, Function.update_self]⟩
    · exact ⟨x, List.mem_cons_of_mem b hx, hat⟩
  waiting := h.waiting

/-- **Held bundles of an unforked chain go out until one is missing**, and none of the others
directly continues what has gone out. -/
theorem flush_splits (hhistory : Unforked history) (hknown : p.hasMap.isSome = true)
    (hready : p.state = .ready) {bs : List Bundle} (hmem : ∀ b ∈ bs, b ∈ history)
    (hchain : ∀ b ∈ bs, b.info.chain = chain)
    (hahead : ∀ b ∈ bs, p.progress chain < b.info.timestamp)
    (hsorted : bs.Pairwise fun a b => a.info.timestamp < b.info.timestamp) :
    ∃ sent kept, bs = sent ++ kept ∧ Released p (p.flush (.ok ()) bs).peer chain sent kept := by
  induction bs generalizing p with
  | nil => exact ⟨[], [], rfl, released_nothing hknown hready (List.forall_mem_nil _)⟩
  | cons b rest ih =>
      obtain ⟨hb, hrest⟩ := List.forall_mem_cons.mp hmem
      obtain ⟨rfl, hrestchain⟩ := List.forall_mem_cons.mp hchain
      obtain ⟨hbahead, -⟩ := List.forall_mem_cons.mp hahead
      obtain ⟨hfirst, hlater⟩ := List.pairwise_cons.mp hsorted
      obtain ⟨t, ht⟩ := Option.isSome_iff_exists.mp hknown
      rcases t.mark_cases b with ⟨hle, -⟩ | ⟨-, hgap, e, hmark⟩ | ⟨u, reached, hmark⟩
      · rw [progress_of_hasMap ht] at hbahead
        exact absurd hbahead (Std.not_lt.mpr hle)
      · have hstop : (p.flush (.ok ()) (b :: rest)).peer = (b :: rest).foldl hold p := by
          rw [flush, ht]
          simp only [hmark]
        rw [hstop]
        refine ⟨[], b :: rest, rfl, released_nothing hknown hready (List.forall_mem_cons.mpr
          ⟨⟨hbahead, progress_of_hasMap ht ▸ hgap⟩, fun y hy => ?_⟩)⟩
        -- what comes after a bundle that has to wait goes on from it or from a later one
        have hlt := hfirst y hy
        have hfollows : b.info.timestamp ≤ y.prior :=
          hhistory.consecutive y (hrest y hy) b hb (hrestchain y hy) hlt
        exact ⟨Std.lt_trans hbahead hlt, (Std.ne_of_lt (Std.lt_of_lt_of_le hbahead hfollows)).symm⟩
      · obtain ⟨next, hnext⟩ :
            ∃ next, next = ({ p with hasMap := some u } : Peer).noteSent b.info :=
          ⟨_, rfl⟩
        have hgo : (p.flush (.ok ()) (b :: rest)).peer = (next.flush (.ok ()) rest).peer := by
          have hopen : ({ p with hasMap := some u } : Peer).state ≠ .closed := by simp [hready]
          rw [flush, ht]
          simp only [hmark, sendBundle_eq hopen, hnext]
        have hheld : next.held = p.held := by rw [hnext]; rfl
        have hready' : next.state = .ready := by rw [hnext]; exact hready
        have hmarked : next.progress
            = Function.update p.progress b.info.chain b.info.timestamp := by
          rw [hnext]
          exact progress_of_mark ht hmark
        have hreached : next.progress b.info.chain = b.info.timestamp := by
          rw [hmarked, Function.update_self]
        obtain ⟨sent, kept, hsplit, hreleased⟩ := ih (by rw [hnext]; rfl) hready' hrest hrestchain
          (fun y hy => hreached ▸ hfirst y hy) hlater
        have hle := (flush_leadsOn (fun _ => hready') rest).le b.info.chain
        rw [hgo]
        exact ⟨b :: sent, kept, by rw [hsplit, List.cons_append],
          hreleased.cons hheld hmarked hle⟩

theorem flush_result (hopen : p.state ≠ .closed) (bs : List Bundle) :
    (p.flush (.ok ()) bs).result = .ok () := by
  induction bs generalizing p with
  | nil => rfl
  | cons b rest ih =>
      rw [flush]
      cases ht : p.hasMap with
      | none => rfl
      | some t =>
          simp only
          split
          · rfl
          · rename_i u reached _
            have hopen' : ({ p with hasMap := some u } : Peer).state ≠ .closed := hopen
            simp only [sendBundle_eq hopen']
            exact ih hopen
          · exact ih hopen

/-- A peer after the held bundles of a chain have been looked through: some have gone out or were
known to the other side already, and the others wait. -/
structure Drained (history : List Bundle) (p q : Peer) (chain : ChainKey) : Prop where
  known : q.hasMap.isSome = true
  ready : q.state = .ready
  others : ∀ c ≠ chain, q.progress c = p.progress c
  le : p.progress chain ≤ q.progress chain
  stands : q.progress chain = p.progress chain
    ∨ ∃ b ∈ history, b.info.chain = chain ∧ b.info.timestamp = q.progress chain
  elsewhere : ∀ k, k.chain ≠ chain → q.held.get? k = p.held.get? k
  waiting : ∀ k b, k.chain = chain → q.held.get? k = some b → p.held.get? k = some b
    ∧ q.progress chain < k.timestamp ∧ b.prior ≠ q.progress chain
  covers : ∀ k, k.chain = chain → (p.held.get? k).isSome = true → q.Covers k

/-- Pruning drops the held bundles of a chain that the other side has. -/
theorem get?_held_prune (hfiled : ∀ k b, p.held.get? k = some b → b.point = k) (k : ChainPoint)
    (b : Bundle) : (p.prune chain).held.get? k = some b
      ↔ p.held.get? k = some b ∧ (k.chain = chain → p.progress chain < k.timestamp) := by
  rw [prune]
  cases hseen : p.seenTo? chain with
  | none =>
      have hzero : p.progress chain = 0 := by
        rw [seenTo?] at hseen
        cases ht : p.hasMap with
        | none =>
            rw [progress, ht]
            rfl
        | some t =>
            rw [ht, Option.bind_some] at hseen
            rw [progress_of_hasMap ht, ChainTracker.seenThrough, hseen]
            rfl
      refine ⟨fun h => ⟨h, fun _ => ?_⟩, fun h => h.1⟩
      rw [hzero, ← hfiled k b h]
      exact b.timestamp_pos
  | some seen =>
      have hprogress : p.progress chain = seen := by
        rw [seenTo?, Option.bind_eq_some_iff] at hseen
        obtain ⟨t, ht, hrow⟩ := hseen
        rw [progress_of_hasMap ht, ChainTracker.seenThrough, hrow]
        rfl
      simp only [hprogress, SortedMap.get?_filter, Option.filter_eq_some_iff, Bool.or_eq_true,
        decide_eq_true_eq, Decidable.imp_iff_not_or]

theorem mem_heldOn_iff {b : Bundle} :
    b ∈ p.heldOn chain ↔ ∃ k, p.held.get? k = some b ∧ k.chain = chain := by
  simp only [heldOn, SortedMap.mem_values_iff, SortedMap.get?_filter, Option.filter_eq_some_iff,
    decide_eq_true_eq]

/-- The held bundles of a chain stand by age. -/
theorem pairwise_heldOn (hfiled : ∀ k b, p.held.get? k = some b → b.point = k)
    (chain : ChainKey) :
    (p.heldOn chain).Pairwise fun a b => a.info.timestamp < b.info.timestamp := by
  rw [heldOn, SortedMap.values, List.pairwise_map]
  refine (SortedMap.sorted _).imp_of_mem fun {e f} he hf hlt => ?_
  obtain ⟨he, hechain⟩ := Option.filter_eq_some_iff.mp
    ((SortedMap.get?_filter _ _ _).symm.trans (SortedMap.mem_toList_iff.mp he))
  obtain ⟨hf, hfchain⟩ := Option.filter_eq_some_iff.mp
    ((SortedMap.get?_filter _ _ _).symm.trans (SortedMap.mem_toList_iff.mp hf))
  have hechain : e.1.chain = chain := of_decide_eq_true hechain
  have hfchain : f.1.chain = chain := of_decide_eq_true hfchain
  have hlater : compare e.1.timestamp f.1.timestamp = .lt :=
    Parted.compare_rest_eq_lt ChainPoint hlt (hechain.trans hfchain.symm)
  rw [← hfiled e.1 e.2 he, ← hfiled f.1 f.2 hf] at hlater
  exact Std.compare_eq_lt.mp hlater

theorem get?_held_releaseChain (p : Peer) (chain : ChainKey) (k : ChainPoint) :
    (p.releaseChain chain).held.get? k = if k.chain = chain then none else p.held.get? k := by
  rw [releaseChain, SortedMap.get?_filter]
  by_cases hk : k.chain = chain
  · simp [hk]
  · cases p.held.get? k <;> simp [hk]

/-- The held bundles of a chain that the other side does not have. -/
theorem mem_heldOn_prune_iff (hfiled : ∀ k b, p.held.get? k = some b → b.point = k) {b : Bundle} :
    b ∈ (p.prune chain).heldOn chain ↔ p.held.get? b.point = some b ∧ b.info.chain = chain
      ∧ p.progress chain < b.info.timestamp := by
  rw [mem_heldOn_iff]
  constructor
  · rintro ⟨k, hk, hchain⟩
    obtain ⟨hheld, hahead⟩ := (get?_held_prune hfiled k b).mp hk
    obtain rfl : b.point = k := hfiled k b hheld
    exact ⟨hheld, hchain, hahead hchain⟩
  · rintro ⟨hheld, hchain, hahead⟩
    exact ⟨b.point, (get?_held_prune hfiled b.point b).mpr ⟨hheld, fun _ => hahead⟩, hchain⟩

theorem flushChain_drained (hhistory : Unforked history) (hknown : p.hasMap.isSome = true)
    (hready : p.state = .ready)
    (hfiled : ∀ k b, p.held.get? k = some b → b ∈ history ∧ b.point = k) (chain : ChainKey) :
    Drained history p (p.flushChain (.ok ()) chain).peer chain := by
  have hplaces (k : ChainPoint) (b : Bundle) (h : p.held.get? k = some b) : b.point = k :=
    (hfiled k b h).2
  obtain ⟨hmap, hstate⟩ := prune_frame p chain
  obtain ⟨start, hstart⟩ : ∃ start, start = (p.prune chain).releaseChain chain := ⟨_, rfl⟩
  have hprogress : start.progress = p.progress := by
    funext c
    rw [progress, progress, hstart, show ((p.prune chain).releaseChain chain).hasMap = p.hasMap
      from hmap]
  have hsorted := pairwise_heldOn (p := p.prune chain)
    (fun k b h => hplaces k b ((get?_held_prune hplaces k b).mp h).1) chain
  obtain ⟨bs, hbs⟩ : ∃ bs, bs = (p.prune chain).heldOn chain := ⟨_, rfl⟩
  have hmem {b : Bundle} : b ∈ bs ↔ p.held.get? b.point = some b ∧ b.info.chain = chain
      ∧ p.progress chain < b.info.timestamp := hbs ▸ mem_heldOn_prune_iff hplaces
  have hwritten : ∀ b ∈ bs, b ∈ history := fun b hb => (hfiled _ b (hmem.mp hb).1).1
  obtain ⟨sent, kept, hsplit, hreleased⟩ := flush_splits (p := start) hhistory
    (by rw [hstart, ← hknown, ← hmap]; rfl) (by rw [hstart]; exact hstate.trans hready)
    hwritten (fun b hb => (hmem.mp hb).2.1)
    (fun b hb => hprogress ▸ (hmem.mp hb).2.2) (hbs ▸ hsorted)
  have hkept {b : Bundle} (hb : b ∈ kept) : b ∈ bs := hsplit ▸ List.mem_append_right sent hb
  have hsent {b : Bundle} (hb : b ∈ sent) : b ∈ bs := hsplit ▸ List.mem_append_left kept hb
  have hend : (p.flushChain (.ok ()) chain).peer = (start.flush (.ok ()) bs).peer := by
    rw [flushChain, hstart, hbs]
  have hle := (flushChain_leadsOn (fun _ => hready) chain).le chain
  rw [hend] at hle ⊢
  generalize (start.flush (.ok ()) bs).peer = q at *
  -- what is held afterwards on the chain has been held back again
  have hgets (k : ChainPoint) := get?_foldl_hold kept start k
  rw [← hreleased.held] at hgets
  have hempty (k : ChainPoint) (hk : k.chain = chain) : start.held.get? k = none := by
    rw [hstart, get?_held_releaseChain, if_pos hk]
  refine {
    known := hreleased.known
    ready := hreleased.ready
    others := fun c hc => (hreleased.others c hc).trans (congrFun hprogress c)
    le := hle
    stands := ?_
    elsewhere := fun k hk => ?_
    waiting := fun k b hk hb => ?_
    covers := fun k hk hheld => ?_ }
  · rcases hreleased.stands with hsame | ⟨b, hb, hat⟩
    · exact .inl (hsame.trans (congrFun hprogress chain))
    · obtain ⟨hheld, hbchain, -⟩ := hmem.mp (hsent hb)
      exact .inr ⟨b, (hfiled _ b hheld).1, hbchain, hat⟩
  · rcases hgets k with ⟨b, hb, rfl, -⟩ | ⟨-, hsame⟩
    · exact absurd (hmem.mp (hkept hb)).2.1 hk
    · rw [hsame, hstart, get?_held_releaseChain, if_neg hk]
      refine Option.ext fun b => ?_
      exact (get?_held_prune hplaces k b).trans (and_iff_left fun h => absurd h hk)
  · rcases hgets k with ⟨x, hx, rfl, hget⟩ | ⟨-, hsame⟩
    · obtain rfl : x = b := Option.some.inj (hget.symm.trans hb)
      exact ⟨(hmem.mp (hkept hx)).1, hreleased.waiting x hx⟩
    · rw [hsame, hempty k hk] at hb
      cases hb
  · obtain ⟨b, hb⟩ := Option.isSome_iff_exists.mp hheld
    obtain rfl : b.point = k := hplaces k b hb
    by_cases hlt : p.progress chain < b.info.timestamp
    · have hbs : b ∈ sent ++ kept := hsplit ▸ hmem.mpr ⟨hb, hk, hlt⟩
      rcases List.mem_append.mp hbs with hgone | hwaits
      · refine .inl ?_
        rw [hk]
        exact hreleased.gone b hgone
      · rcases hgets b.point with ⟨x, -, -, hget⟩ | ⟨hno, -⟩
        · exact .inr (by rw [hget]; rfl)
        · exact absurd rfl (hno b hwaits)
    · refine .inl ?_
      rw [hk]
      exact Std.le_trans (Std.not_lt.mp hlt) hle

/-! ## Offers -/

/-- A bundle that is offered is known to the other side, or held back, or goes out and takes others
of its chain along. -/
theorem offer_cases (hflowing : p.Flowing history) (b : Bundle) :
    (b.info.timestamp ≤ p.progress b.info.chain ∧ p.offer (.ok ()) b = ⟨p, [], .ok false⟩)
      ∨ (p.progress b.info.chain < b.info.timestamp ∧ b.prior ≠ p.progress b.info.chain
        ∧ p.offer (.ok ()) b = ⟨p.hold b, [], .ok false⟩)
      ∨ ∃ next : Peer, next.hasMap.isSome = true ∧ next.state = .ready ∧ next.held = p.held
        ∧ next.progress = Function.update p.progress b.info.chain b.info.timestamp
        ∧ (p.offer (.ok ()) b).peer = (next.flushChain (.ok ()) b.info.chain).peer
        ∧ (p.offer (.ok ()) b).result = .ok true := by
  obtain ⟨t, ht⟩ := Option.isSome_iff_exists.mp hflowing.known
  rw [offer, ht, progress_of_hasMap ht]
  simp only
  rcases t.mark_cases b with ⟨hle, hmark⟩ | ⟨hlt, hgap, e, hmark⟩ | ⟨u, reached, hmark⟩
  · exact .inl ⟨hle, by rw [hmark]⟩
  · exact .inr (.inl ⟨hlt, hgap, by rw [hmark]⟩)
  · have hopen : ({ p with hasMap := some u } : Peer).state ≠ .closed := by
      simp [hflowing.ready]
    refine .inr (.inr ⟨({ p with hasMap := some u } : Peer).noteSent b.info, rfl, hflowing.ready,
      rfl, ?_, ?_, ?_⟩)
    · rw [progress_of_mark ht hmark, progress_of_hasMap ht]
    · simp only [hmark, sendBundle_eq hopen]
    · have hready := (prune_frame (({ p with hasMap := some u } : Peer).noteSent b.info)
        b.info.chain).2.trans hflowing.ready
      have hflush := flush_result (p := ((({ p with hasMap := some u } : Peer).noteSent
        b.info).prune b.info.chain).releaseChain b.info.chain)
        (fun h => by cases hready.symm.trans h)
        (((({ p with hasMap := some u } : Peer).noteSent b.info).prune b.info.chain).heldOn
          b.info.chain)
      simp only [hmark, sendBundle_eq hopen, flushChain, hflush, Except.map]

/-- What offering bundles does: it forgets nothing, and if nothing was stalled, nothing is. -/
structure Continues (history : List Bundle) (p q : Peer) : Prop where
  flowing : q.Flowing history
  onward : Onward history p q
  calm : p.StallsNothing → q.StallsNothing

theorem Continues.trans {r : Peer} (h : Continues history p q) (h' : Continues history q r) :
    Continues history p r :=
  ⟨h'.flowing, h.onward.trans h'.onward, fun hp => h'.calm (h.calm hp)⟩

/-- A bundle that has to wait is held back. -/
theorem hold_continues (hflowing : p.Flowing history) {b : Bundle} (hb : b ∈ history)
    (hahead : p.progress b.info.chain < b.info.timestamp)
    (hgap : b.prior ≠ p.progress b.info.chain) : Continues history p (p.hold b) := by
  have hget {k : ChainPoint} {x : Bundle} (hx : (p.hold b).held.get? k = some x) :
      k = b.point ∧ x = b ∨ p.held.get? k = some x := by
    by_cases hk : k = b.point
    · have hself : (p.hold b).held.get? b.point = some b := SortedMap.get?_insert_self _ _ _
      rw [hk] at hx
      exact .inl ⟨hk, Option.some.inj (hx.symm.trans hself)⟩
    · exact .inr ((SortedMap.get?_insert_of_ne p.held hk b).symm.trans hx)
  refine ⟨⟨hflowing.known, hflowing.ready, fun k x hx => ?_, fun k x hx => ?_⟩,
    ⟨fun _ => Std.le_refl _, fun k hk => ?_, fun h => h⟩, fun hcalm k x hx => ?_⟩
  · rcases hget hx with ⟨rfl, rfl⟩ | hx
    · exact ⟨hb, rfl⟩
    · exact hflowing.filed k x hx
  · rcases hget hx with ⟨rfl, rfl⟩ | hx
    · exact hahead
    · exact hflowing.ahead k x hx
  · rcases hk with hle | hheld
    · exact .inl hle
    · right
      rcases get?_foldl_hold [b] p k with ⟨x, -, -, hx⟩ | ⟨-, hsame⟩
      · exact Option.isSome_iff_exists.mpr ⟨x, hx⟩
      · exact (congrArg Option.isSome hsame).trans hheld
  · rcases hget hx with ⟨-, rfl⟩ | hx
    · exact hgap
    · exact hcalm k x hx

/-- When a bundle has gone out, the held bundles of its chain are looked through. -/
theorem Drained.continues {next : Peer} {b : Bundle} (hflowing : p.Flowing history)
    (hdrained : Drained history next q b.info.chain) (hb : b ∈ history)
    (hheld : next.held = p.held)
    (hprogress : next.progress = Function.update p.progress b.info.chain b.info.timestamp)
    (hle : ∀ c, p.progress c ≤ q.progress c) : Continues history p q := by
  have hothers (c : ChainKey) (hc : c ≠ b.info.chain) : q.progress c = p.progress c := by
    rw [hdrained.others c hc, hprogress, Function.update_of_ne hc]
  -- the other chains are as they were
  have hget (k : ChainPoint) (x : Bundle) (hx : q.held.get? k = some x) :
      p.held.get? k = some x := by
    by_cases hk : k.chain = b.info.chain
    · exact hheld ▸ (hdrained.waiting k x hk hx).1
    · rw [← hheld, ← hdrained.elsewhere k hk]
      exact hx
  refine ⟨⟨hdrained.known, hdrained.ready, fun k x hx => hflowing.filed k x (hget k x hx),
    fun k x hx => ?_⟩, ⟨hle, fun k hk => ?_, fun hpoints c => ?_⟩, fun hcalm k x hx => ?_⟩
  · by_cases hk : k.chain = b.info.chain
    · rw [hk]
      exact (hdrained.waiting k x hk hx).2.1
    · rw [hothers k.chain hk]
      exact hflowing.ahead k x (hget k x hx)
  · rcases hk with hreached | hwaiting
    · exact .inl (Std.le_trans hreached (hle k.chain))
    · by_cases hk : k.chain = b.info.chain
      · exact hdrained.covers k hk (hheld ▸ hwaiting)
      · refine .inr ?_
        rw [hdrained.elsewhere k hk, hheld]
        exact hwaiting
  · by_cases hc : c = b.info.chain
    · rw [hc]
      rcases hdrained.stands with hsame | ⟨x, hx, hchain, hat⟩
      · rw [hsame, hprogress, Function.update_self]
        exact isPoint_of_mem hb
      · exact .inr ⟨x, hx, hchain, hat⟩
    · rw [hothers c hc]
      exact hpoints c
  · have hfiled : x.info.chain = k.chain :=
      congrArg ChainPoint.chain (hflowing.filed k x (hget k x hx)).2
    by_cases hk : k.chain = b.info.chain
    · rw [hfiled, hk]
      exact (hdrained.waiting k x hk hx).2.2
    · rw [hfiled, hothers k.chain hk, ← hfiled]
      exact hcalm k x (hget k x hx)

/-- **An offer leaves nothing stalled**, and afterwards the other side has the bundle or it is held
back. -/
theorem offer_continues (hhistory : Unforked history) (hflowing : p.Flowing history) {b : Bundle}
    (hb : b ∈ history) : Continues history p (p.offer (.ok ()) b).peer
      ∧ (p.offer (.ok ()) b).peer.Covers b.point ∧ ∃ sent, (p.offer (.ok ()) b).result = .ok sent := by
  rcases offer_cases hflowing b with ⟨hle, hknown⟩ | ⟨hahead, hgap, hhold⟩ |
      ⟨next, hnext, hready, hheld, hprogress, hpeer, hresult⟩
  · rw [hknown]
    exact ⟨⟨hflowing, .refl history p, fun h => h⟩, .inl hle, false, rfl⟩
  · rw [hhold]
    refine ⟨hold_continues hflowing hb hahead hgap, .inr ?_, false, rfl⟩
    exact Option.isSome_iff_exists.mpr ⟨b, SortedMap.get?_insert_self p.held b.point b⟩
  · have hle := (offer_leadsOn (fun _ => hflowing.ready) b).le
    have hdrained := flushChain_drained hhistory hnext hready (hheld ▸ hflowing.filed) b.info.chain
    rw [hpeer] at hle ⊢
    refine ⟨hdrained.continues hflowing hb hheld hprogress hle, .inl ?_, true, hresult⟩
    have hreached := hdrained.le
    rw [hprogress, Function.update_self] at hreached
    exact hreached

theorem catchUp_continues (hhistory : Unforked history) (hflowing : p.Flowing history)
    {bs : List Bundle} (hbs : ∀ b ∈ bs, b ∈ history) :
    Continues history p (p.catchUp (.ok ()) bs).peer
      ∧ ∀ b ∈ bs, (p.catchUp (.ok ()) bs).peer.Covers b.point := by
  induction bs generalizing p with
  | nil => exact ⟨⟨hflowing, .refl history p, fun h => h⟩, List.forall_mem_nil _⟩
  | cons b rest ih =>
      obtain ⟨hb, hrest⟩ := List.forall_mem_cons.mp hbs
      obtain ⟨hfirst, hcovers, sent, hresult⟩ := offer_continues hhistory hflowing hb
      obtain ⟨hothers, hcovered⟩ := ih hfirst.flowing hrest
      have hpeer : (p.catchUp (.ok ()) (b :: rest)).peer
          = ((p.offer (.ok ()) b).peer.catchUp (.ok ()) rest).peer := by
        rw [catchUp]
        simp only [hresult]
      rw [hpeer]
      exact ⟨hfirst.trans hothers, List.forall_mem_cons.mpr
        ⟨hothers.onward.covers _ hcovers, hcovered⟩⟩

end Peer

end GossipStore
