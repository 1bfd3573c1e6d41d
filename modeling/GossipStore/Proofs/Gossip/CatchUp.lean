import GossipStore.Proofs.Gossip.Codec
import GossipStore.Proofs.Gossip.Reordering
import GossipStore.Proofs.Gossip.Waiting

set_option autoImplicit false

/-! # Catching up from a store

A store is offered to a peer oldest bundle first, which interleaves its chains. Of each chain the
greeting of the peer has said how far it has been seen: not at all, up to a bundle of the store, or
beyond them all. So when the turn of a bundle comes, its chain stands at what the greeting says or
at a bundle offered before (`CaughtUp`). Then either the other side has the bundle, or its chain
stands at the predecessor and the bundle goes out (`CaughtUp.offer`). Nothing is ever held back.
-/

namespace GossipStore

/-! ## What a greeting says -/

/-- The chain that a row is about. -/
def GreetingRow.chain (r : GreetingRow) : ChainKey := ⟨r.medallion, r.chainStart⟩

namespace ChainTracker

variable {rows : List GreetingRow} {chain : ChainKey} {seen : Timestamp}

/-- Rows of different chains are recorded over what was known before. -/
theorem get?_foldl_insert_rows (hrows : rows.Pairwise fun r s => r.chain ≠ s.chain)
    (m : SortedMap ChainKey BundleInfo) (info : BundleInfo) :
    (rows.foldl (fun m r => m.insert ⟨r.medallion, r.chainStart⟩ (infoOfRow r)) m).get? chain
        = some info
      ↔ (∃ r ∈ rows, r.chain = chain ∧ infoOfRow r = info)
        ∨ m.get? chain = some info ∧ ∀ r ∈ rows, r.chain ≠ chain := by
  induction rows generalizing m with
  | nil => simp
  | cons r rest ih =>
      obtain ⟨hr, hrest⟩ := List.pairwise_cons.mp hrows
      rw [List.foldl_cons, ih hrest]
      by_cases hchain : r.chain = chain
      · have hothers : ∀ s ∈ rest, s.chain ≠ chain := fun s hs => hchain ▸ (hr s hs).symm
        have hkey : (⟨r.medallion, r.chainStart⟩ : ChainKey) = chain := hchain
        rw [hkey, SortedMap.get?_insert_self]
        grind
      · have hkey : chain ≠ (⟨r.medallion, r.chainStart⟩ : ChainKey) := Ne.symm hchain
        rw [SortedMap.get?_insert_of_ne _ hkey]
        grind

/-- A chain has been seen as far as its row says. -/
theorem seenTo?_ofRows (hrows : rows.Pairwise fun r s => r.chain ≠ s.chain) :
    (ofRows rows).seenTo? chain = some seen
      ↔ ∃ r ∈ rows, r.chain = chain ∧ r.seenThrough = seen := by
  rw [seenTo?, info?, ofRows, Option.map_eq_some_iff]
  constructor
  · rintro ⟨info, hget, rfl⟩
    rcases (get?_foldl_insert_rows hrows _ _).mp hget with ⟨r, hr, hchain, rfl⟩ | ⟨hempty, -⟩
    · exact ⟨r, hr, hchain, rfl⟩
    · cases hempty
  · rintro ⟨r, hr, hchain, rfl⟩
    exact ⟨infoOfRow r, (get?_foldl_insert_rows hrows _ _).mpr (.inl ⟨r, hr, hchain, rfl⟩), rfl⟩

/-- A bundle is ahead of what has been seen if it is later than the row of its chain. -/
theorem seenThrough_ofRows_lt_iff (hrows : rows.Pairwise fun r s => r.chain ≠ s.chain)
    {b : Bundle} : (ofRows rows).seenThrough b.info.chain < b.info.timestamp
      ↔ ∀ r ∈ rows, r.chain = b.info.chain → r.seenThrough < b.info.timestamp := by
  rw [seenThrough]
  cases hseen : (ofRows rows).seenTo? b.info.chain with
  | none =>
      refine ⟨fun _ r hr hchain => ?_, fun _ => b.timestamp_pos⟩
      cases hseen.symm.trans ((seenTo?_ofRows hrows).mpr ⟨r, hr, hchain, rfl⟩)
  | some seen =>
      refine ⟨fun hlt r hr hchain => ?_, fun h => ?_⟩
      · cases hseen.symm.trans ((seenTo?_ofRows hrows).mpr ⟨r, hr, hchain, rfl⟩)
        exact hlt
      · obtain ⟨r, hr, hchain, rfl⟩ := (seenTo?_ofRows hrows).mp hseen
        exact h r hr hchain

/-- What has been seen through covers its time and owner. -/
theorem has_of_le_seenThrough {t : ChainTracker} {b : Bundle}
    (h : b.info.timestamp ≤ t.seenThrough b.info.chain) :
    t.has b.info.medallion b.info.timestamp = true := by
  rw [seenThrough] at h
  cases hseen : t.seenTo? b.info.chain with
  | none =>
      rw [hseen] at h
      exact absurd b.timestamp_pos (Std.not_lt.mpr h)
  | some seen =>
      rw [hseen] at h
      obtain ⟨-, -, -, hstart, -, -⟩ := BundleInfo.validate_eq_ok_iff.mp b.infoValid
      exact has_iff.mpr ⟨b.info.chain, seen, hseen, rfl, hstart, h⟩

end ChainTracker

namespace Peer

variable {done rest : List Bundle} {row : Progress} {p : Peer} {b : Bundle}

/-! ## One offer to a peer that holds nothing back -/

/-- What the other side has is not sent again. -/
theorem offer_of_le (hknown : p.hasMap.isSome = true)
    (hle : b.info.timestamp ≤ p.progress b.info.chain) :
    p.offer (.ok ()) b = ⟨p, [], .ok false⟩ := by
  obtain ⟨t, ht⟩ := Option.isSome_iff_exists.mp hknown
  rw [progress_of_hasMap ht] at hle
  simp only [offer, ht, ChainTracker.mark_of_le hle]

/-- The next bundle of a chain goes out, and nothing else as nothing is held back. -/
theorem offer_of_next (hknown : p.hasMap.isSome = true) (hready : p.state = .ready)
    (hheld : p.held = .empty) (hnext : b.prior = p.progress b.info.chain) :
    ∃ q : Peer, p.offer (.ok ()) b = ⟨q, [carrying b], .ok true⟩ ∧ q.hasMap.isSome = true
      ∧ q.state = .ready ∧ q.held = .empty
      ∧ q.progress = Function.update p.progress b.info.chain b.info.timestamp := by
  obtain ⟨t, ht⟩ := Option.isSome_iff_exists.mp hknown
  rw [progress_of_hasMap ht] at hnext ⊢
  have hlt : t.seenThrough b.info.chain < b.info.timestamp := hnext ▸ b.prior_lt
  obtain ⟨u, reached, hmark, -⟩ :=
    @ChainTracker.mark_of_lt t b.info true hlt fun _ => b.continuesFrom_iff.mpr hnext
  let q : Peer := ({ p with hasMap := some u } : Peer).noteSent b.info
  have hopen : ({ p with hasMap := some u } : Peer).state ≠ .closed := by simp [hready]
  have hflush : q.flushChain (.ok ()) b.info.chain = ⟨q, [], .ok ()⟩ :=
    flushChain_of_held_empty (p := q) hheld _ _
  refine ⟨q, ?_, rfl, hready, hheld, ?_⟩
  · simp only [offer, ht, hmark, sendBundle_eq hopen]
    rw [hflush]
    rfl
  · have hseen : q.progress = u.seenThrough := progress_of_hasMap rfl
    rw [hseen, (ChainTracker.mark_bundle hmark).2]

/-! ## Offering a store -/

/-- Whether a list can be offered to a peer with some rows: its chains do not fork, of each of them
the older bundles come first, and its row stands at one of its bundles, before or behind them all. -/
structure Offerable (row : Progress) (bs : List Bundle) : Prop where
  unforked : Unforked bs
  sorted : bs.Pairwise fun a b => a.info.chain = b.info.chain → a.info.timestamp < b.info.timestamp
  rows : ∀ b ∈ bs, IsPoint bs b.info.chain (row b.info.chain)
    ∨ ∀ x ∈ bs, x.info.chain = b.info.chain → x.info.timestamp < row b.info.chain

namespace Offerable

/-- What is older than a bundle comes before it. -/
theorem mem_before (h : Offerable row (done ++ b :: rest)) {x : Bundle}
    (hx : x ∈ done ++ b :: rest) (hchain : x.info.chain = b.info.chain)
    (hlt : x.info.timestamp < b.info.timestamp) : x ∈ done := by
  obtain ⟨-, hlater, -⟩ := List.pairwise_append.mp h.sorted
  rcases List.mem_append.mp hx with hx | hx
  · exact hx
  · rcases List.mem_cons.mp hx with rfl | hx
    · exact absurd hlt Std.lt_irrefl
    · have hgt := (List.pairwise_cons.mp hlater).1 x hx hchain.symm
      exact absurd (Std.lt_trans hlt hgt) Std.lt_irrefl

/-- What comes before a bundle is older than it. -/
theorem lt_of_mem (h : Offerable row (done ++ b :: rest)) {x : Bundle} (hx : x ∈ done)
    (hchain : x.info.chain = b.info.chain) : x.info.timestamp < b.info.timestamp :=
  (List.pairwise_append.mp h.sorted).2.2 x hx b List.mem_cons_self hchain

end Offerable

/-- A peer that has greeted with some rows and has been offered some bundles: it holds nothing back,
has all that it was offered, and each chain stands at its row or at a bundle that was offered. -/
structure CaughtUp (row : Progress) (done : List Bundle) (p : Peer) : Prop where
  known : p.hasMap.isSome = true
  ready : p.state = .ready
  held : p.held = .empty
  stands : ∀ c, p.progress c = row c
    ∨ ∃ x ∈ done, x.info.chain = c ∧ p.progress c = x.info.timestamp
  above : ∀ c, row c ≤ p.progress c
  covers : ∀ x ∈ done, x.info.timestamp ≤ p.progress x.info.chain

namespace CaughtUp

/-- At its turn a bundle that is later than its row is the next of its chain. -/
theorem prior_eq (h : p.CaughtUp row done) (hall : Offerable row (done ++ b :: rest))
    (hlt : row b.info.chain < b.info.timestamp) : b.prior = p.progress b.info.chain := by
  have hb : b ∈ done ++ b :: rest := by simp
  -- the row is not behind all bundles of the chain, for it is before this one
  have hpoint : IsPoint (done ++ b :: rest) b.info.chain (row b.info.chain) := by
    rcases hall.rows b hb with hpoint | hbeyond
    · exact hpoint
    · exact absurd (Std.lt_trans hlt (hbeyond b hb rfl)) Std.lt_irrefl
  refine Std.le_antisymm ?_ ?_
  · -- the predecessor has been offered, if there is one
    rcases hall.unforked.linked b hb with hzero | ⟨x, hx, hchain, htime⟩
    · rw [hzero]
      exact Std.le_trans hpoint.nonneg (h.above b.info.chain)
    · have hdone : x ∈ done := hall.mem_before hx hchain (htime ▸ b.prior_lt)
      rw [← htime, ← hchain]
      exact h.covers x hdone
  · -- nothing between the predecessor and the bundle is where the chain could stand
    rcases h.stands b.info.chain with hrow | ⟨x, hx, hchain, htime⟩
    · rw [hrow]
      exact hall.unforked.le_prior hb hpoint hlt
    · rw [htime]
      exact hall.unforked.consecutive b hb x (List.mem_append_left _ hx) hchain.symm
        (hall.lt_of_mem hx hchain)

/-- A bundle is passed over that the other side has. -/
theorem passOver (h : p.CaughtUp row done)
    (hle : b.info.timestamp ≤ p.progress b.info.chain) : p.CaughtUp row (done ++ [b]) where
  known := h.known
  ready := h.ready
  held := h.held
  stands c := (h.stands c).imp_right fun ⟨x, hx, hstands⟩ =>
    ⟨x, List.mem_append_left _ hx, hstands⟩
  above := h.above
  covers x hx := by
    rcases List.mem_append.mp hx with hx | hx
    · exact h.covers x hx
    · obtain rfl := List.mem_singleton.mp hx
      exact hle

/-- After a bundle has gone out, its chain stands at it. -/
theorem sendNext {q : Peer} (h : p.CaughtUp row done) (hknown : q.hasMap.isSome = true)
    (hready : q.state = .ready) (hheld : q.held = .empty)
    (hprogress : q.progress = Function.update p.progress b.info.chain b.info.timestamp)
    (hle : ∀ c, p.progress c ≤ q.progress c) : q.CaughtUp row (done ++ [b]) where
  known := hknown
  ready := hready
  held := hheld
  stands c := by
    rw [hprogress]
    by_cases hc : c = b.info.chain
    · rw [hc, Function.update_self]
      exact .inr ⟨b, by simp, rfl, rfl⟩
    · rw [Function.update_of_ne hc]
      exact (h.stands c).imp_right fun ⟨x, hx, hstands⟩ =>
        ⟨x, List.mem_append_left _ hx, hstands⟩
  above c := Std.le_trans (h.above c) (hle c)
  covers x hx := by
    rcases List.mem_append.mp hx with hx | hx
    · exact Std.le_trans (h.covers x hx) (hle x.info.chain)
    · obtain rfl := List.mem_singleton.mp hx
      rw [hprogress, Function.update_self]
      exact Std.le_refl _

/-- **A bundle goes out at its turn exactly if it is later than its row.** -/
theorem offer (h : p.CaughtUp row done) (hall : Offerable row (done ++ b :: rest)) :
    (p.offer (.ok ()) b).peer.CaughtUp row (done ++ [b])
      ∧ (p.offer (.ok ()) b).sent = (if row b.info.chain < b.info.timestamp then [carrying b]
        else [])
      ∧ (p.offer (.ok ()) b).result = .ok (decide (row b.info.chain < b.info.timestamp)) := by
  by_cases hlt : row b.info.chain < b.info.timestamp
  · have hnext := h.prior_eq hall hlt
    obtain ⟨q, hoffer, hknown, hready, hheld, hprogress⟩ :=
      offer_of_next h.known h.ready h.held hnext
    have hle : ∀ c, p.progress c ≤ q.progress c := by
      rw [hprogress]
      exact Leads.le_update hnext
    rw [hoffer, if_pos hlt, decide_eq_true hlt]
    exact ⟨h.sendNext hknown hready hheld hprogress hle, rfl, rfl⟩
  · have hle : b.info.timestamp ≤ p.progress b.info.chain :=
      Std.le_trans (Std.not_lt.mp hlt) (h.above b.info.chain)
    rw [offer_of_le h.known hle, if_neg hlt, decide_eq_false hlt]
    exact ⟨h.passOver hle, rfl, rfl⟩

/-- **What is later than its row goes out, in the order of the list.** -/
theorem catchUp (h : p.CaughtUp row done) (hall : Offerable row (done ++ rest)) :
    let lacking := rest.filter fun b => row b.info.chain < b.info.timestamp
    (p.catchUp (.ok ()) rest).peer.CaughtUp row (done ++ rest)
      ∧ (p.catchUp (.ok ()) rest).sent = lacking.map carrying
      ∧ (p.catchUp (.ok ()) rest).result = .ok lacking.length := by
  -- on what is left to offer: each bundle goes over to what has been offered
  induction rest generalizing p done with
  | nil =>
      rw [List.append_nil]
      exact ⟨h, rfl, rfl⟩
  | cons b rest ih =>
      obtain ⟨hnext, hsent, hresult⟩ := h.offer hall
      rw [List.append_cons] at hall ⊢
      obtain ⟨hlast, hothers, hcount⟩ := ih hnext hall
      simp only [Peer.catchUp, hresult, hsent, hothers, hcount, Except.map]
      refine ⟨hlast, ?_⟩
      by_cases hlt : row b.info.chain < b.info.timestamp
      · simp only [List.filter_cons, hlt, decide_true, if_true, List.map_cons, List.length_cons,
          List.singleton_append, and_self]
      · simp only [List.filter_cons, hlt, decide_false, Bool.false_eq_true, if_false,
          List.nil_append, Nat.add_zero, and_self]

end CaughtUp

/-- A peer has greeted and has not been offered anything. -/
theorem caughtUp_greeted {serial timeout now time : Nat} {id : PeerId} {tracker : ChainTracker}
    (hgreet : (new serial id timeout now).greet time tracker = (p, .ok ())) :
    p.CaughtUp tracker.seenThrough [] := by
  obtain rfl := eq_of_greet hgreet
  exact ⟨rfl, rfl, rfl, fun c => .inl rfl, fun c => Std.le_refl _, List.forall_mem_nil _⟩

end Peer

/-! ## What a store offers -/

/-- Whether chains fork depends only on which bundles there are. -/
theorem Unforked.of_mem_iff {history history' : List Bundle} (h : Unforked history)
    (hsame : ∀ b, b ∈ history' ↔ b ∈ history) : Unforked history' where
  linked x hx := (h.linked x ((hsame x).mp hx)).mono fun y hy => (hsame y).mpr hy
  consecutive x hx y hy := h.consecutive x ((hsame x).mp hx) y ((hsame y).mp hy)

/-- Of each chain the older bundles are listed first. -/
theorem Index.KeepsLast.pairwise_newer {accepted : List Bundle} {ix : Index}
    (h : KeepsLast accepted ix) : ix.bundleList.Pairwise fun a b =>
      a.info.chain = b.info.chain → a.info.timestamp < b.info.timestamp := by
  refine h.pairwise_bundleList.imp fun {a b} hlt hchain => ?_
  rcases BundleKey.lt_iff.mp hlt with hlt | ⟨-, howner⟩
  · exact hlt
  · have hsame : a.info.medallion = b.info.medallion := congrArg ChainKey.medallion hchain
    have howner : a.info.medallion < b.info.medallion := howner
    rw [hsame] at howner
    exact absurd howner Std.lt_irrefl

namespace Peer

/-- **Catching up sends exactly what the other side lacks.** Let a store in memory have accepted any
bundles, no two of one time and owner. Let a peer greet with rows of different chains, each of which
stands at a bundle of its chain or behind all of them; so a row may also be of a chain that the
store does not know, and a chain of the store may lack a row. Then catching up sends the bundles
that are later than the rows of their chains, each once, by time and then by owner, and tells how
many they are. Nothing is held back, and the other side is known to have all that is stored. -/
theorem catchUp_sends_lacking (keepingHistory : Bool) (arrivals accepted : List Bundle)
    (ix : Index) (serial : Nat) (id : PeerId) (timeout now time : Nat) (rows : List GreetingRow)
    (p : Peer) (hstore : (Index.empty keepingHistory).offerAll arrivals = (ix, accepted))
    (hkeys : accepted.Pairwise fun a b => a.key ≠ b.key)
    (hrows : rows.Pairwise fun r s => r.chain ≠ s.chain)
    (hfit : ∀ r ∈ rows,
      (∃ x ∈ ix.bundleList, x.info.chain = r.chain ∧ x.info.timestamp = r.seenThrough)
      ∨ ∀ x ∈ ix.bundleList, x.info.chain = r.chain → x.info.timestamp < r.seenThrough)
    (hgreet : (new serial id timeout now).greet time (.ofRows rows) = (p, .ok ())) :
    let lacking := ix.bundleList.filter fun b =>
      ∀ r ∈ rows, r.chain = b.info.chain → r.seenThrough < b.info.timestamp
    let o := p.catchUp (.ok ()) ix.bundleList
    o.sent = lacking.map carrying
      ∧ (lacking.Pairwise fun a b => a.info.timestamp < b.info.timestamp
        ∨ a.info.timestamp = b.info.timestamp ∧ a.info.medallion < b.info.medallion)
      ∧ o.result = .ok lacking.length
      ∧ o.peer.held = .empty
      ∧ ∃ tracker, o.peer.hasMap = some tracker ∧ ∀ b ∈ ix.bundleList,
        b.info.timestamp ≤ tracker.seenThrough b.info.chain
          ∧ tracker.has b.info.medallion b.info.timestamp = true := by
  intro lacking o
  have hlines := Index.followsLines_offerAll keepingHistory arrivals
  have hlasts := Index.keepsLast_offerAll keepingHistory arrivals
  rw [hstore] at hlines hlasts
  have hunforked : Unforked ix.bundleList :=
    (Index.unforked_of_lines fun chain => (hlines chain).1).of_mem_iff fun _ =>
      (hlasts.perm_bundleList_iff.mpr hkeys).mem_iff
  have hall : Offerable (ChainTracker.ofRows rows).seenThrough ix.bundleList := by
    refine ⟨hunforked, hlasts.pairwise_newer, fun b hb => ?_⟩
    rw [ChainTracker.seenThrough]
    cases hseen : (ChainTracker.ofRows rows).seenTo? b.info.chain with
    | none => exact .inl (.inl rfl)
    | some seen =>
        obtain ⟨r, hr, hchain, rfl⟩ := (ChainTracker.seenTo?_ofRows hrows).mp hseen
        rcases hfit r hr with ⟨x, hx, hx', htime⟩ | hbeyond
        · exact .inl (.inr ⟨x, hx, hx'.trans hchain, htime⟩)
        · exact .inr fun x hx hx' => hbeyond x hx (hx'.trans hchain.symm)
  obtain ⟨hlast, hsent, hcount⟩ := (caughtUp_greeted hgreet).catchUp hall
  have hlacking : lacking = ix.bundleList.filter fun b =>
      (ChainTracker.ofRows rows).seenThrough b.info.chain < b.info.timestamp :=
    List.filter_congr fun b _ => by simp only [ChainTracker.seenThrough_ofRows_lt_iff hrows]
  obtain ⟨tracker, htracker⟩ := Option.isSome_iff_exists.mp hlast.known
  refine ⟨?_, (hlasts.pairwise_bundleList.imp BundleKey.lt_iff.mp).filter _, ?_, hlast.held,
    tracker, htracker, fun b hb => ?_⟩
  · rw [hlacking]
    exact hsent
  · rw [hlacking]
    exact hcount
  · have hcovered := hlast.covers b hb
    rw [progress_of_hasMap htracker] at hcovered
    exact ⟨hcovered, ChainTracker.has_of_le_seenThrough hcovered⟩

/-- Of three chains the other side has the beginning of one, nothing of another, and more of the
third than the store. It also has a chain that the store does not know. -/
theorem catchUp_sends_lacking_ofThreeChains :
    let first := Bundle.ofValid ⟨10, 1, 10, none, none⟩ [] rfl (List.forall_mem_nil _) (by decide)
    let second := Bundle.ofValid ⟨20, 1, 10, some 10, none⟩ [] rfl (List.forall_mem_nil _)
      (by decide)
    let third := Bundle.ofValid ⟨30, 1, 10, some 20, none⟩ [] rfl (List.forall_mem_nil _)
      (by decide)
    let other := Bundle.ofValid ⟨20, 2, 20, none, none⟩ [] rfl (List.forall_mem_nil _) (by decide)
    let behind := Bundle.ofValid ⟨15, 3, 15, none, none⟩ [] rfl (List.forall_mem_nil _) (by decide)
    let ix := ((Index.empty true).offerAll [behind, first, second, third, other]).1
    let rows : List GreetingRow := [⟨1, 10, 10⟩, ⟨3, 15, 40⟩, ⟨9, 1, 5⟩]
    let p := ((new 0 7 1000 0).greet 5 (.ofRows rows)).1
    ix.bundleList = [first, behind, second, other, third]
      ∧ (p.catchUp (.ok ()) ix.bundleList).sent = [second, other, third].map carrying
      ∧ (p.catchUp (.ok ()) ix.bundleList).result = .ok 3
      ∧ (p.catchUp (.ok ()) ix.bundleList).peer.held = .empty := by
  intro first second third other behind ix rows p
  have hgreet : (new 0 7 1000 0).greet 5 (.ofRows rows) = (p, .ok ()) := rfl
  obtain ⟨hsent, -, hcount, hheld, -⟩ := catchUp_sends_lacking true
    [behind, first, second, third, other] _ ix 0 7 1000 0 5 rows p rfl (by decide +kernel)
    (by decide) (by decide +kernel) hgreet
  have hlacking : (ix.bundleList.filter fun b =>
      ∀ r ∈ rows, r.chain = b.info.chain → r.seenThrough < b.info.timestamp)
        = [second, other, third] := by decide +kernel
  rw [hlacking] at hsent hcount
  exact ⟨by decide +kernel, hsent, hcount, hheld⟩

end Peer

end GossipStore
