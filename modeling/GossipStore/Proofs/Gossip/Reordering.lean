import Mathlib.Data.List.Sort
import GossipStore.Proofs.Gossip.Carrying
import GossipStore.Proofs.Gossip.Stalls
import GossipStore.Proofs.Index.Chains

set_option autoImplicit false

/-! # Bundles that are offered in any order

The bundles of some chains may be offered to a peer in any order and any number of times. What goes
out leads the has-map on (`Leads`), and it is of the chains, so it jumps over none of their bundles
(`Leads.mem_of_between`). In the end nothing is held back, for nothing that is offered stalls and
every bundle is offered. So each chain has gone out from where the peer's greeting put it to its
end, in order (`live_offers_inOrder`).
-/

namespace GossipStore

/-! ## Lines of bundles -/

namespace Index

namespace IsLine

variable {bs before after : List Bundle} {x y : Bundle}

/-- The bundles of a line get newer. -/
theorem pairwise (h : IsLine bs) : bs.Pairwise fun a b => a.info.timestamp < b.info.timestamp := by
  have hnewer : bs.IsChain fun a b => a.info.timestamp < b.info.timestamp :=
    h.goesOn.imp fun _ _ hab => hab.2
  have : IsTrans Bundle fun a b => a.info.timestamp < b.info.timestamp :=
    ⟨fun _ _ _ => Std.lt_trans⟩
  exact List.isChain_iff_pairwise.mp hnewer

/-- A line has one bundle of a time at most. -/
theorem eq_of_timestamp (h : IsLine bs) (hx : x ∈ bs) (hy : y ∈ bs)
    (htime : x.info.timestamp = y.info.timestamp) : x = y := by
  have hnodup : (bs.map fun b => b.info.timestamp).Nodup :=
    List.pairwise_map.mpr (h.pairwise.imp Std.ne_of_lt)
  exact List.inj_on_of_nodup_map hnodup hx hy htime

/-- A bundle of a line is the first, or it goes on from the one right before it. -/
theorem first_or_goesOn (h : IsLine (before ++ x :: after)) : before = [] ∧ x.prior = 0
    ∨ ∃ earlier z, before = earlier ++ [z] ∧ x.prior = z.info.timestamp := by
  rcases List.eq_nil_or_concat' before with rfl | ⟨earlier, z, rfl⟩
  · refine .inl ⟨rfl, ?_⟩
    rw [Bundle.prior, (h.begins x rfl).1]
    rfl
  · have hgoesOn := h.goesOn
    rw [List.append_assoc, List.singleton_append] at hgoesOn
    have hnext := (List.isChain_cons_cons.mp (List.isChain_append.mp hgoesOn).2.1).1
    refine .inr ⟨earlier, z, rfl, ?_⟩
    rw [Bundle.prior, hnext.1]
    rfl

/-- What is older stands before. -/
theorem mem_before (h : IsLine (before ++ x :: after)) (hy : y ∈ before ++ x :: after)
    (hlt : y.info.timestamp < x.info.timestamp) : y ∈ before := by
  rcases List.mem_append.mp hy with hy | hy
  · exact hy
  · rcases List.mem_cons.mp hy with rfl | hy
    · exact absurd hlt Std.lt_irrefl
    · have hlater := (List.pairwise_append.mp h.pairwise).2.1
      have hgt := (List.pairwise_cons.mp hlater).1 y hy
      exact absurd (Std.lt_trans hlt hgt) Std.lt_irrefl

end IsLine

variable {history : List Bundle} {b : Bundle}

/-- Bundles that get newer are known by which they are. -/
theorem eq_of_newer {bs bs' : List Bundle}
    (h : bs.Pairwise fun a b => a.info.timestamp < b.info.timestamp)
    (h' : bs'.Pairwise fun a b => a.info.timestamp < b.info.timestamp)
    (hsame : ∀ b, b ∈ bs ↔ b ∈ bs') : bs = bs' := by
  have : Std.Irrefl fun a b : Bundle => a.info.timestamp < b.info.timestamp :=
    ⟨fun _ => Std.lt_irrefl⟩
  have : Std.Antisymm fun a b : Bundle => a.info.timestamp < b.info.timestamp :=
    ⟨fun _ _ hab hba => absurd (Std.lt_trans hab hba) Std.lt_irrefl⟩
  exact h.eq_of_mem_iff h' hsame

theorem mem_ofChain_iff {chain : ChainKey} :
    b ∈ ofChain history chain ↔ b ∈ history ∧ b.info.chain = chain := by
  rw [ofChain, List.mem_filter, decide_eq_true_iff]

/-- Lines do not fork. -/
theorem unforked_of_lines (hlines : ∀ chain, IsLine (ofChain history chain)) :
    Unforked history where
  linked x hx := by
    have hline := hlines x.info.chain
    obtain ⟨before, after, hsplit⟩ := List.append_of_mem (mem_ofChain_iff.mpr ⟨hx, rfl⟩)
    rw [hsplit] at hline
    rcases hline.first_or_goesOn with ⟨-, hzero⟩ | ⟨earlier, z, rfl, hprior⟩
    · exact .inl hzero
    · have hz : z ∈ ofChain history x.info.chain := by simp [hsplit]
      obtain ⟨hz, hchain⟩ := mem_ofChain_iff.mp hz
      exact .inr ⟨z, hz, hchain, hprior.symm⟩
  consecutive x hx y hy hchain hlt := by
    have hline := hlines x.info.chain
    have hy : y ∈ ofChain history x.info.chain := mem_ofChain_iff.mpr ⟨hy, hchain.symm⟩
    obtain ⟨before, after, hsplit⟩ := List.append_of_mem (mem_ofChain_iff.mpr ⟨hx, rfl⟩)
    rw [hsplit] at hline hy
    have hy := hline.mem_before hy hlt
    rcases hline.first_or_goesOn with ⟨rfl, -⟩ | ⟨earlier, z, rfl, hprior⟩
    · cases hy
    · rw [hprior]
      have hsorted := (List.pairwise_append.mp (List.pairwise_append.mp hline.pairwise).1).2.2
      rcases List.mem_append.mp hy with hy | hy
      · exact Std.le_of_lt (hsorted y hy z (List.mem_singleton.mpr rfl))
      · exact Std.le_of_eq (by rw [List.mem_singleton.mp hy])

end Index

/-! ## What leads from one progress to another -/

theorem carrying_injective : Function.Injective carrying :=
  fun _ _ hab => Bundle.bytes_injective (Message.bundle.inj hab)

/-- What goes out tells which bundles went out. -/
theorem map_carrying_injective : Function.Injective (List.map carrying) :=
  List.map_injective_iff.mpr carrying_injective

namespace Leads

variable {history bs : List Bundle} {r r' : Progress}

/-- Where a chain stands at last is one of its bundles if it was so before. -/
theorem isPoint (h : Leads r bs r') (hbs : ∀ b ∈ bs, b ∈ history) {c : ChainKey}
    (hpoint : IsPoint history c (r c)) : IsPoint history c (r' c) := by
  induction bs generalizing r with
  | nil =>
      obtain rfl : r = r' := h
      exact hpoint
  | cons b rest ih =>
      obtain ⟨hb, hrest⟩ := List.forall_mem_cons.mp hbs
      refine ih h.2 hrest ?_
      by_cases hc : c = b.info.chain
      · rw [hc, Function.update_self]
        exact isPoint_of_mem hb
      · rwa [Function.update_of_ne hc]

/-- **No bundle of a chain is jumped over.** -/
theorem mem_of_between (hlines : ∀ chain, Index.IsLine (Index.ofChain history chain))
    (h : Leads r bs r') (hbs : ∀ b ∈ bs, b ∈ history) {x : Bundle} (hx : x ∈ history)
    (hlt : r x.info.chain < x.info.timestamp) (hle : x.info.timestamp ≤ r' x.info.chain) :
    x ∈ bs := by
  induction bs generalizing r with
  | nil =>
      obtain rfl : r = r' := h
      exact absurd hlt (Std.not_lt.mpr hle)
  | cons b rest ih =>
      obtain ⟨hb, hrest⟩ := List.forall_mem_cons.mp hbs
      obtain ⟨hprior, hleads⟩ := h
      by_cases hchain : x.info.chain = b.info.chain
      · rcases Std.lt_trichotomy x.info.timestamp b.info.timestamp with hbefore | hsame | hafter
        · -- the first bundle goes on from where the chain stands, so nothing is between
          have hold := (Index.unforked_of_lines hlines).consecutive b hb x hx hchain.symm hbefore
          rw [hprior, ← hchain] at hold
          exact absurd hlt (Std.not_lt.mpr hold)
        · have hx : x ∈ Index.ofChain history b.info.chain := Index.mem_ofChain_iff.mpr ⟨hx, hchain⟩
          have hb : b ∈ Index.ofChain history b.info.chain := Index.mem_ofChain_iff.mpr ⟨hb, rfl⟩
          exact (hlines b.info.chain).eq_of_timestamp hx hb hsame ▸ List.mem_cons_self
        · refine List.mem_cons_of_mem b (ih hleads hrest ?_)
          rwa [hchain, Function.update_self]
      · refine List.mem_cons_of_mem b (ih hleads hrest ?_)
        rwa [Function.update_of_ne hchain]

/-- What leads along the chains of a history is, of each chain, what stands between the two. -/
theorem ofChain_eq (hlines : ∀ chain, Index.IsLine (Index.ofChain history chain))
    (h : Leads r bs r') (hbs : ∀ b ∈ bs, b ∈ history)
    (hend : ∀ b ∈ history, b.info.timestamp ≤ r' b.info.chain) (chain : ChainKey) :
    Index.ofChain bs chain
      = (Index.ofChain history chain).filter fun b => r chain < b.info.timestamp := by
  have hsorted : (Index.ofChain bs chain).Pairwise fun a b =>
      a.info.timestamp < b.info.timestamp := by
    refine (h.pairwise.filter _).imp_of_mem fun {a b} ha hb hlt => hlt ?_
    rw [(Index.mem_ofChain_iff.mp ha).2, (Index.mem_ofChain_iff.mp hb).2]
  refine Index.eq_of_newer hsorted ((hlines chain).pairwise.filter _) fun b => ?_
  rw [List.mem_filter, Index.mem_ofChain_iff, Index.mem_ofChain_iff, decide_eq_true_iff]
  constructor
  · rintro ⟨hb, rfl⟩
    exact ⟨⟨hbs b hb, rfl⟩, (h.lt_of_mem hb).1⟩
  · rintro ⟨⟨hb, rfl⟩, hlt⟩
    exact ⟨h.mem_of_between hlines hbs hb hlt (hend b hb), rfl⟩

end Leads

/-! ## Offers -/

namespace Peer

variable {history : List Bundle} {p : Peer}

/-- What an offer sends is of the history, and leads the has-map on. -/
theorem offer_leads (hflowing : p.Flowing history) {b : Bundle} (hb : b ∈ history) :
    ∃ bs : List Bundle, (p.offer (.ok ()) b).sent = bs.map carrying ∧ (∀ x ∈ bs, x ∈ history)
      ∧ Leads p.progress bs (p.offer (.ok ()) b).peer.progress := by
  have hopen : p.state ≠ .closed := by simp [hflowing.ready]
  obtain ⟨bs, hsent, hleads⟩ := (offer_leadsOn (fun _ => hflowing.ready) b).sends
  obtain ⟨out, hout, hhand⟩ := (offer_carries hopen b).sent
  obtain rfl : bs = out := map_carrying_injective (hsent.symm.trans hout)
  refine ⟨bs, hsent, fun x hx => ?_, hleads⟩
  rcases List.mem_cons.mp (hhand x hx) with rfl | hheld
  · exact hb
  · obtain ⟨k, hk⟩ := SortedMap.mem_values_iff.mp hheld
    exact (hflowing.filed k x hk).1

theorem live_offers_leads (hhistory : Unforked history) (hflowing : p.Flowing history)
    {offers : List Bundle} (hoffers : ∀ b ∈ offers, b ∈ history) :
    ∃ bs : List Bundle, (p.live (offers.map .offer)).2 = bs.map carrying
      ∧ (∀ b ∈ bs, b ∈ history) ∧ Leads p.progress bs (p.live (offers.map .offer)).1.progress := by
  induction offers generalizing p with
  | nil => exact ⟨[], rfl, List.forall_mem_nil _, rfl⟩
  | cons b rest ih =>
      obtain ⟨hb, hrest⟩ := List.forall_mem_cons.mp hoffers
      obtain ⟨first, hfirst, hmem, hleads⟩ := offer_leads hflowing hb
      have hnext := (offer_continues hhistory hflowing hb).1.flowing
      obtain ⟨others, hothers, hmem', hleads'⟩ := ih hnext hrest
      refine ⟨first ++ others, ?_, fun x hx => ?_, hleads.append hleads'⟩
      · rw [List.map_append, ← hfirst, ← hothers]
        rfl
      · exact (List.mem_append.mp hx).elim (hmem x) (hmem' x)

/-- **Nothing is held back in the end**, and so the other side has all that was offered. -/
theorem live_offers_done (hhistory : Unforked history) (hflowing : p.Flowing history)
    (hcalm : p.StallsNothing) (hpoints : ∀ b ∈ history, IsPoint history b.info.chain
      (p.progress b.info.chain)) {offers : List Bundle} (hoffers : ∀ b, b ∈ offers ↔ b ∈ history) :
    (p.live (offers.map .offer)).1.held = .empty ∧ ∀ b ∈ history,
      b.info.timestamp ≤ (p.live (offers.map .offer)).1.progress b.info.chain := by
  have hacts : ∀ act ∈ offers.map Act.offer, act.Over history := fun act hact => by
    obtain ⟨b, hb, rfl⟩ := List.mem_map.mp hact
    exact (hoffers b).mp hb
  have hend : (p.live (offers.map .offer)).1.StallsNothing := by
    refine (live_stallsNothing_iff hhistory hflowing hcalm hacts).mpr ?_ _ [] (by simp)
    -- offers tell nothing of the other side
    rintro before act after hsplit ⟨info, htells, -⟩
    have hact : act ∈ offers.map Act.offer := hsplit ▸ by simp
    obtain ⟨b, -, rfl⟩ := List.mem_map.mp hact
    cases htells
  obtain ⟨hlast, -, hcovers⟩ := live_step hhistory hflowing hacts
  obtain ⟨bs, -, hbs, hleads⟩ := live_offers_leads hhistory hflowing fun b hb => (hoffers b).mp hb
  have hcovered : ∀ b ∈ history, (p.live (offers.map .offer)).1.Covers b.point := fun b hb =>
    hcovers (.offer b) (List.mem_map_of_mem ((hoffers b).mpr hb)) b rfl
  have hheld : (p.live (offers.map .offer)).1.held = .empty := by
    refine SortedMap.ext_get? fun k => ?_
    cases hk : (p.live (offers.map .offer)).1.held.get? k with
    | none => rfl
    | some b =>
        have hb := (hlast.filed k b hk).1
        exact absurd rfl (hlast.nothing_held_on hhistory (hleads.isPoint hbs (hpoints b hb)) hend
          (fun x hx _ => hcovered x hx) k b hk)
  refine ⟨hheld, fun b hb => ?_⟩
  rcases hcovered b hb with hreached | hwaiting
  · exact hreached
  · rw [hheld] at hwaiting
    cases hwaiting

/-- After a greeting nothing is held back. -/
theorem greeted_flowing (history : List Bundle) {serial timeout now time : Nat} {id : PeerId}
    {tracker : ChainTracker}
    (hgreet : (new serial id timeout now).greet time tracker = (p, .ok ())) :
    p.hasMap = some tracker ∧ p.Flowing history ∧ p.StallsNothing := by
  obtain rfl := eq_of_greet hgreet
  have hnothing (k : ChainPoint) (b : Bundle) :
      (new serial id timeout now).held.get? k ≠ some b := fun h => by cases h
  refine ⟨rfl, ⟨rfl, rfl, ?_, ?_⟩, ?_⟩ <;> exact fun k b h => absurd h (hnothing k b)

/-- **Bundles that are offered in any order go out in the order of their chains.** Let a peer greet
such that each chain of a history has not been seen, or up to one of its bundles. Let the bundles of
the history be offered in any order and any number of times, such that sending succeeds. Then what
goes out of each chain is what comes after the greeting, each bundle once and in order; nothing is
held back in the end; and an offer tells that the bundle was sent exactly if it went out as the next
of its chain. -/
theorem live_offers_inOrder (history offers : List Bundle)
    (hlines : ∀ chain, Index.IsLine (Index.ofChain history chain))
    (hoffers : ∀ b, b ∈ offers ↔ b ∈ history) (serial : Nat) (id : PeerId)
    (timeout now time : Nat) (tracker : ChainTracker) (p : Peer)
    (hgreet : (new serial id timeout now).greet time tracker = (p, .ok ()))
    (hpoints : ∀ b ∈ history, tracker.seenTo? b.info.chain = none
      ∨ ∃ x ∈ history, x.info.chain = b.info.chain
        ∧ tracker.seenTo? b.info.chain = some x.info.timestamp) :
    (∃ bs : List Bundle, (p.live (offers.map .offer)).2 = bs.map carrying ∧ ∀ chain,
        Index.ofChain bs chain = (Index.ofChain history chain).filter fun b =>
          tracker.seenThrough chain < b.info.timestamp)
      ∧ (p.live (offers.map .offer)).1.held = .empty
      ∧ ∀ before b after, offers = before ++ b :: after →
        let q := (p.live (before.map .offer)).1
        (b.prior = q.progress b.info.chain ∧ (q.offer (.ok ()) b).result = .ok true
            ∧ ∃ others, (q.offer (.ok ()) b).sent = carrying b :: others)
          ∨ (b.prior ≠ q.progress b.info.chain ∧ (q.offer (.ok ()) b).result = .ok false
            ∧ (q.offer (.ok ()) b).sent = []) := by
  have hhistory := Index.unforked_of_lines hlines
  obtain ⟨hmap, hflowing, hcalm⟩ := greeted_flowing history hgreet
  have hprogress : p.progress = tracker.seenThrough := progress_of_hasMap hmap
  have hstands : ∀ b ∈ history, IsPoint history b.info.chain (p.progress b.info.chain) := by
    intro b hb
    rw [hprogress, ChainTracker.seenThrough]
    rcases hpoints b hb with hnone | ⟨x, hx, hchain, hseen⟩
    · rw [hnone]
      exact .inl rfl
    · rw [hseen]
      exact .inr ⟨x, hx, hchain, rfl⟩
  have hoffered : ∀ b ∈ offers, b ∈ history := fun b hb => (hoffers b).mp hb
  obtain ⟨bs, hsent, hbs, hleads⟩ := live_offers_leads hhistory hflowing hoffered
  obtain ⟨hheld, hend⟩ := live_offers_done hhistory hflowing hcalm hstands hoffers
  refine ⟨⟨bs, hsent, fun chain => ?_⟩, hheld, fun before b after hsplit => ?_⟩
  · rw [hleads.ofChain_eq hlines hbs hend chain, hprogress]
  · have hbefore : ∀ act ∈ before.map Act.offer, act.Over history := fun act hact => by
      obtain ⟨x, hx, rfl⟩ := List.mem_map.mp hact
      exact hoffered x (hsplit ▸ List.mem_append_left _ hx)
    have hthen := (live_step hhistory hflowing hbefore).1
    exact offer_answers (by simp [hthen.ready]) hthen.known b

/-- Of two chains the peer has the beginning of one. The others come back to front, and one of them
twice. -/
theorem live_offers_inOrder_backToFront :
    let first := Bundle.ofValid ⟨10, 1, 10, none, none⟩ [] rfl (List.forall_mem_nil _) (by decide)
    let second := Bundle.ofValid ⟨20, 1, 10, some 10, none⟩ [] rfl (List.forall_mem_nil _)
      (by decide)
    let third := Bundle.ofValid ⟨30, 1, 10, some 20, none⟩ [] rfl (List.forall_mem_nil _)
      (by decide)
    let other := Bundle.ofValid ⟨15, 2, 15, none, none⟩ [] rfl (List.forall_mem_nil _) (by decide)
    let p := ((new 0 7 1000 0).greet 5 (.ofRows [⟨1, 10, 10⟩])).1
    let last := p.live ([third, other, second, third, first].map .offer)
    (∃ bs : List Bundle, last.2 = bs.map carrying ∧ Index.ofChain bs ⟨1, 10⟩ = [second, third]
        ∧ Index.ofChain bs ⟨2, 15⟩ = [other])
      ∧ last.1.held = .empty := by
  intro first second third other p last
  have haccepted : ((Index.empty true).offerAll [first, other, second, third]).2
      = [first, other, second, third] := by decide +kernel
  have hlines (chain : ChainKey) :
      Index.IsLine (Index.ofChain [first, other, second, third] chain) := by
    have hfollows := Index.followsLines_offerAll true [first, other, second, third]
    rw [haccepted] at hfollows
    exact (hfollows chain).1
  have hgreet : (new 0 7 1000 0).greet 5 (.ofRows [⟨1, 10, 10⟩]) = (p, .ok ()) := rfl
  obtain ⟨⟨bs, hsent, hbs⟩, hheld, -⟩ := live_offers_inOrder [first, other, second, third]
    [third, other, second, third, first] hlines (fun b => by simp; tauto) 0 7 1000 0 5
    (.ofRows [⟨1, 10, 10⟩]) p hgreet (by decide +kernel)
  exact ⟨⟨bs, hsent, (hbs ⟨1, 10⟩).trans (by decide +kernel),
    (hbs ⟨2, 15⟩).trans (by decide +kernel)⟩, hheld⟩

end Peer

end GossipStore
