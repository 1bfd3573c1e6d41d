import GossipStore.Index.Apply
import GossipStore.Proofs.Gossip.Timeline
import GossipStore.Proofs.Index.Records
import GossipStore.Proofs.Order

set_option autoImplicit false

/-! # What a store holds of a history

A store of a replica holds, of every chain of the history, the bundles up to the one that the chain
has reached in it (`Holds`). So how far it has come decides what it holds (`Holds.eq_of_reached`),
and its bundles in the order of their times can be sent to somebody who has none of them
(`Holds.deliverable`). A bundle of the history whose predecessor is there is never refused
(`Holds.check`).
-/

namespace GossipStore

/-- How far each chain has come in an index. -/
def Index.reached (ix : Index) : Progress := ChainTracker.seenThrough ⟨ix.chains, []⟩

/-- An index that holds each chain of a history up to a bundle of it, and nothing else. -/
structure Holds (history : List Bundle) (ix : Index) : Prop where
  tips : ∀ c info, ix.chains.get? c = some info → ∃ x ∈ history, x.info = info ∧ info.chain = c
  bundles : ∀ k x, ix.bundles.get? k = some x ↔
    x ∈ history ∧ k = ⟨x.info.timestamp, x.info.medallion⟩
      ∧ x.info.timestamp ≤ ix.reached x.info.chain

variable {history : List Bundle} {ix : Index} {b : Bundle}

/-! ## Tips -/

theorem Index.reached_of_some {c : ChainKey} {info : BundleInfo}
    (h : ix.chains.get? c = some info) : ix.reached c = info.timestamp := by
  simp [reached, ChainTracker.seenThrough, ChainTracker.seenTo?, ChainTracker.info?, h]

theorem Index.reached_of_none {c : ChainKey} (h : ix.chains.get? c = none) : ix.reached c = 0 := by
  simp [reached, ChainTracker.seenThrough, ChainTracker.seenTo?, ChainTracker.info?, h]

namespace Holds

theorem isPoint (h : Holds history ix) (c : ChainKey) : IsPoint history c (ix.reached c) := by
  cases hc : ix.chains.get? c with
  | none => exact .inl (Index.reached_of_none hc)
  | some info =>
      obtain ⟨x, hx, rfl, hchain⟩ := h.tips c info hc
      exact .inr ⟨x, hx, hchain, (Index.reached_of_some hc).symm⟩

/-- An index without bundles holds the beginning of every history. -/
theorem empty (keepingHistory : Bool) : Holds [] (.empty keepingHistory) where
  tips := nofun
  bundles _ _ := ⟨nofun, fun hand => nomatch hand.1⟩

/-- A bundle that nobody has written before is not there. -/
theorem extend (h : Holds history ix) (hb : Extends history b) : Holds (history ++ [b]) ix where
  tips c info hc := by
    obtain ⟨x, hx, hinfo⟩ := h.tips c info hc
    exact ⟨x, List.mem_append_left _ hx, hinfo⟩
  bundles k x := by
    rw [h.bundles k x, List.mem_append, List.mem_singleton]
    constructor
    · rintro ⟨hx, hrest⟩
      exact ⟨.inl hx, hrest⟩
    · rintro ⟨hx | rfl, hk, hle⟩
      · exact ⟨hx, hk, hle⟩
      · exact absurd (Std.lt_of_le_of_lt hle (hb.lt (h.isPoint _))) Std.lt_irrefl

/-! ## Adding a bundle -/

/-- A bundle whose predecessor is there is new or known, and not refused. -/
theorem check (h : Holds history ix) (hh : History history) (hb : b ∈ history)
    (hprior : b.prior ≤ ix.reached b.info.chain) :
    ix.check b.info = .ok (decide (ix.reached b.info.chain < b.info.timestamp)) := by
  -- of a chain that is not there only the first bundle can have its predecessor there
  cases hc : ix.chains.get? b.info.chain with
  | none =>
      have hreached := Index.reached_of_none hc
      have hfirst : b.info.priorTime = none := by
        refine b.prior_eq_zero_iff.mp (Std.le_antisymm (hreached ▸ hprior) ?_)
        exact (hh.linked b hb).nonneg
      simp [Index.check, hc, hreached, hfirst, b.timestamp_pos]
  | some last =>
      have hreached := Index.reached_of_some hc
      by_cases hle : b.info.timestamp ≤ last.timestamp
      · simp [Index.check, hc, hreached, hle, Std.not_lt.mpr hle]
      · -- between its predecessor and a new bundle lies no other, so the chain ends with it
        have hlt := Std.not_le.mp hle
        have hnext := hh.prior_eq hb (h.isPoint _) (hreached ▸ hlt) hprior
        have hprior : b.info.priorTime = some last.timestamp := by
          obtain ⟨x, hx, rfl, -⟩ := h.tips _ _ hc
          have hpos := x.timestamp_pos
          rw [hreached, Bundle.prior] at hnext
          cases hp : b.info.priorTime with
          | none =>
              rw [hp, Option.getD_none] at hnext
              exact absurd (hnext ▸ hpos) Std.lt_irrefl
          | some p =>
              rw [hp, Option.getD_some] at hnext
              rw [hnext]
        simp [Index.check, hc, hreached, hle, hlt, hprior]

theorem reached_apply (hnew : ix.reached b.info.chain < b.info.timestamp) :
    (ix.apply b).reached = ix.reached.raise b.info.chain b.info.timestamp := by
  funext c
  unfold Progress.raise
  by_cases hc : c = b.info.chain
  · subst hc
    rw [if_pos ⟨rfl, hnew⟩]
    exact Index.reached_of_some (by simp)
  · rw [if_neg fun hand => hc hand.1]
    simp [Index.reached, ChainTracker.seenThrough, ChainTracker.seenTo?, ChainTracker.info?,
      SortedMap.get?_insert_of_ne _ hc]

/-- A bundle is determined by its time and its owner. -/
theorem eq_of_key (hh : History history) {x : Bundle} (hx : x ∈ history) (hb : b ∈ history)
    (ht : x.info.timestamp = b.info.timestamp) (hm : x.info.medallion = b.info.medallion) :
    x = b :=
  hh.unique x hx b hb (hh.oneChain x hx b hb hm) ht

/-- The next bundle of a chain goes on top of what is held. -/
theorem apply (h : Holds history ix) (hh : History history) (hb : b ∈ history)
    (hprior : b.prior ≤ ix.reached b.info.chain)
    (hnew : ix.reached b.info.chain < b.info.timestamp) : Holds history (ix.apply b) where
  tips c info hc := by
    rw [Index.apply_chains] at hc
    by_cases hchain : c = b.info.chain
    · subst hchain
      rw [SortedMap.get?_insert_self] at hc
      exact ⟨b, hb, Option.some.inj hc, by rw [← Option.some.inj hc]⟩
    · rw [SortedMap.get?_insert_of_ne _ hchain] at hc
      exact h.tips c info hc
  bundles k x := by
    rw [Index.apply_bundles, reached_apply hnew]
    by_cases hk : k = ⟨b.info.timestamp, b.info.medallion⟩
    · subst hk
      rw [SortedMap.get?_insert_self]
      constructor
      · rintro heq
        cases heq
        exact ⟨hb, rfl, Progress.raise_self_ge _ _ _⟩
      · rintro ⟨hx, hkey, -⟩
        obtain ⟨ht, hm⟩ := BundleKey.mk.inj hkey
        rw [eq_of_key hh hx hb ht.symm hm.symm]
    · rw [SortedMap.get?_insert_of_ne _ hk, h.bundles k x]
      refine and_congr_right fun hx => and_congr_right fun hkey => ?_
      constructor
      · exact fun hle => Std.le_trans hle (Progress.le_raise _ _ _ _)
      · intro hle
        unfold Progress.raise at hle
        split at hle
        · -- An earlier bundle of the chain is not after what the new one goes on from.
          rename_i hchain
          have hne : x.info.timestamp ≠ b.info.timestamp := fun ht =>
            hk (by rw [hkey, hh.unique x hx b hb hchain.1 ht])
          have hlt : x.info.timestamp < b.info.timestamp := Std.lt_of_le_of_ne hle hne
          have hle' := hh.consecutive b hb x hx hchain.1.symm hlt
          rw [hchain.1]
          exact Std.le_trans hle' hprior
        · exact hle

/-! ## What is held -/

theorem mem_bundleList (h : Holds history ix) {x : Bundle} :
    x ∈ ix.bundleList ↔ x ∈ history ∧ x.info.timestamp ≤ ix.reached x.info.chain := by
  simp only [Index.bundleList, SortedMap.values, List.mem_map, Prod.exists, exists_eq_right,
    SortedMap.mem_toList_iff, h.bundles]
  constructor
  · rintro ⟨k, hx, -, hle⟩
    exact ⟨hx, hle⟩
  · rintro ⟨hx, hle⟩
    exact ⟨_, hx, rfl, hle⟩

theorem bundleList_pairwise (h : Holds history ix) :
    ix.bundleList.Pairwise fun x y => x.info.timestamp ≤ y.info.timestamp := by
  rw [Index.bundleList, SortedMap.values, List.pairwise_map]
  refine ix.bundles.sorted.imp_of_mem fun {e f} he hf hlt => ?_
  obtain ⟨-, hke, -⟩ := (h.bundles e.1 e.2).mp (SortedMap.mem_toList_iff.mp he)
  obtain ⟨-, hkf, -⟩ := (h.bundles f.1 f.2).mp (SortedMap.mem_toList_iff.mp hf)
  rw [hke, hkf] at hlt
  -- the table stands by time first and by owner second
  rcases BundleKey.lt_iff.mp hlt with hlt | ⟨heq, -⟩
  · exact Std.le_of_lt hlt
  · exact Std.le_of_eq heq

/-- **All that is held can be sent in the order of time** to somebody who has nothing. -/
theorem deliverable (h : Holds history ix) (hh : History history) :
    Deliverable (fun _ => 0) (ix.bundleList.map carrying) := by
  refine deliverable_of_pairwise h.bundleList_pairwise fun x hx => ?_
  obtain ⟨hx, hle⟩ := h.mem_bundleList.mp hx
  rcases hh.linked x hx with h0 | ⟨y, hy, hc, ht⟩
  · exact .inl (Std.le_of_eq h0)
  · refine .inr ⟨y, h.mem_bundleList.mpr ⟨hy, ?_⟩, hc, ht⟩
    rw [ht, hc]
    exact Std.le_trans (Std.le_of_lt x.prior_lt) hle

/-- Who has taken in all that is held has come as far. -/
theorem reached_le_settled (h : Holds history ix) (c : ChainKey) :
    ix.reached c ≤ settled (fun _ => 0) (ix.bundleList.map carrying) c := by
  rcases h.isPoint c with h0 | ⟨x, hx, hc, ht⟩
  · rw [h0]
    exact le_settled (fun _ => 0) _ c
  · rw [← ht, ← hc]
    exact le_settled_of_mem (h.mem_bundleList.mpr ⟨hx, by rw [hc, ht]; exact Std.le_refl _⟩) _

/-- **How far an index has come decides what it holds.** -/
theorem eq_of_reached {ix' : Index} (h : Holds history ix) (h' : Holds history ix')
    (hh : History history) (heq : ix.reached = ix'.reached) :
    ix.bundles = ix'.bundles ∧ ix.chains = ix'.chains := by
  constructor
  · refine SortedMap.ext_get? fun k => Option.ext fun x => ?_
    rw [h.bundles, h'.bundles, heq]
  · -- a chain that is there has come further than nowhere, and ends with the bundle of its time
    refine SortedMap.ext_get? fun c => ?_
    have hpos {ix : Index} (h : Holds history ix) {info : BundleInfo}
        (hc : ix.chains.get? c = some info) : 0 < ix.reached c := by
      obtain ⟨x, -, rfl, -⟩ := h.tips c info hc
      rw [Index.reached_of_some hc]
      exact x.timestamp_pos
    cases hc : ix.chains.get? c with
    | none =>
        cases hc' : ix'.chains.get? c with
        | none => rfl
        | some info' =>
            have hlt := hpos h' hc'
            rw [← heq, Index.reached_of_none hc] at hlt
            exact absurd hlt Std.lt_irrefl
    | some info =>
        cases hc' : ix'.chains.get? c with
        | none =>
            have hlt := hpos h hc
            rw [heq, Index.reached_of_none hc'] at hlt
            exact absurd hlt Std.lt_irrefl
        | some info' =>
            have ht : info.timestamp = info'.timestamp := by
              rw [← Index.reached_of_some hc, ← Index.reached_of_some hc', heq]
            obtain ⟨x, hx, rfl, hchain⟩ := h.tips c info hc
            obtain ⟨y, hy, rfl, hchain'⟩ := h'.tips c info' hc'
            rw [hh.unique x hx y hy (hchain.trans hchain'.symm) ht]

end Holds

end GossipStore
