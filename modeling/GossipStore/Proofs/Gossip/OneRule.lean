import GossipStore.Proofs.Gossip.Carrying
import GossipStore.Proofs.Index.Built

set_option autoImplicit false

/-! # One rule for chains

An index lets a bundle in by the end of its chain, if it knows the chain. A tracker lets a bundle
pass by how far the chain has been seen, and takes zero for a chain that it does not know as well
as for a prior time that is not there. Both come to the same (`FollowsTips.decidesAlike`), since
no bundle has a time of zero and none goes on from before the beginning of its chain. So a tracker
that has seen what an index has keeps in step with it, whatever bundles come
(`FollowsTips.passAll`). The has-map of a peer is such a tracker: it lets out what the other side
will accept (`tracker_decides_alike`).
-/

namespace GossipStore

/-! ## What trackers say alike -/

namespace ChainTracker

variable {t u : ChainTracker}

theorem seenTo?_eq_some_iff {c : ChainKey} {time : Timestamp} :
    t.seenTo? c = some time ↔ ⟨c.medallion, c.chainStart, time⟩ ∈ t.rows := by
  rw [seenTo?, info?, Option.map_eq_some_iff, rows, List.mem_map]
  constructor
  · rintro ⟨info, hinfo, rfl⟩
    exact ⟨(c, info), SortedMap.mem_toList_iff.mpr hinfo, rfl⟩
  · rintro ⟨⟨c', info⟩, hmem, hrow⟩
    obtain ⟨hm, hs, rfl⟩ := GreetingRow.mk.inj hrow
    obtain rfl : c' = c := by
      cases c'
      cases c
      simp_all
    exact ⟨info, SortedMap.mem_toList_iff.mp hmem, rfl⟩

/-- Trackers have the same rows if they have seen every chain equally far. -/
theorem sameRows_iff : t.sameRows u = true ↔ t.seenTo? = u.seenTo? := by
  rw [sameRows, decide_eq_true_iff]
  constructor
  · intro hrows
    funext c
    refine Option.ext fun time => ?_
    rw [seenTo?_eq_some_iff, seenTo?_eq_some_iff, hrows]
  · intro hseen
    -- the rows stand in the order of their chains
    have hsorted (t : ChainTracker) : (t.chains.toList.map fun e => (e.1, e.2.timestamp)).Pairwise
        fun a b => compare a.1 b.1 = .lt := List.pairwise_map.mpr t.chains.sorted
    have hmem (t : ChainTracker) (c : ChainKey) (time : Timestamp) :
        (c, time) ∈ t.chains.toList.map (fun e => (e.1, e.2.timestamp))
          ↔ t.seenTo? c = some time := by
      simp [seenTo?, info?, ← SortedMap.mem_toList_iff]
    have hlists := SortedMap.eq_of_mem_iff (hsorted t) (hsorted u) fun e => by
      rw [hmem, hmem, hseen]
    have hrows (t : ChainTracker) : t.rows = (t.chains.toList.map fun e =>
        (e.1, e.2.timestamp)).map fun e => ⟨e.1.medallion, e.1.chainStart, e.2⟩ := by
      rw [List.map_map]
      rfl
    rw [hrows, hrows, hlists]

/-- The tracker after some bundles have been marked with a check, and those that have passed. -/
def passAll (t : ChainTracker) : List Bundle → ChainTracker × List Bundle
  | [] => (t, [])
  | b :: rest =>
    match t.mark b.info true with
    | .ok ⟨u, true, _⟩ => ((u.passAll rest).1, b :: (u.passAll rest).2)
    | .ok ⟨_, false, _⟩ => t.passAll rest
    | .error _ => t.passAll rest

end ChainTracker

/-! ## Two rules that are one -/

namespace Index

variable {ix ix' : Index} {t : ChainTracker} {info : BundleInfo} {b : Bundle}

/-- Whether a tracker, asked to pass metadata, and an index, asked whether a bundle is new, answer
alike. Where both refuse, they agree on how far the chain goes. -/
inductive DecidesAlike (info : BundleInfo) :
    Except BundleError ChainTracker.Marking → Except StoreError Bool → Prop where
  | decided (m : ChainTracker.Marking) : DecidesAlike info (.ok m) (.ok m.advanced)
  | gap (seenThrough : Timestamp) : DecidesAlike info
      (.error (.invalidExtension info.medallion info.chainStart info.timestamp seenThrough))
      (.error (.chainMismatch info.medallion info.chainStart info.timestamp info.priorTime
        seenThrough))
  | unknown : DecidesAlike info
      (.error (.invalidExtension info.medallion info.chainStart info.timestamp 0))
      (.error (.missingChainStart info.medallion info.chainStart info.timestamp))

/-- Whether a tracker has seen every chain to the end that an index knows. -/
def FollowsTips (t : ChainTracker) (ix : Index) : Prop :=
  ∀ c, t.seenTo? c = (ix.chains.get? c).map (·.timestamp)

theorem FollowsTips.seenThrough_of_none (h : FollowsTips t ix) {c : ChainKey}
    (hnone : ix.chains.get? c = none) : t.seenThrough c = 0 := by
  rw [ChainTracker.seenThrough, h, hnone]
  rfl

theorem FollowsTips.seenThrough_of_some (h : FollowsTips t ix) {c : ChainKey} {tip : BundleInfo}
    (htip : ix.chains.get? c = some tip) : t.seenThrough c = tip.timestamp := by
  rw [ChainTracker.seenThrough, h, htip]
  rfl

/-- **A tracker and an index decide by one rule.** -/
theorem FollowsTips.decidesAlike (h : FollowsTips t ix) (hfiled : ix.TipsFiled)
    (hvalid : info.validate = .ok ()) : DecidesAlike info (t.mark info true) (ix.check info) := by
  obtain ⟨-, hpos, hstart, -, -, hprior⟩ := BundleInfo.validate_eq_ok_iff.mp hvalid
  have hcontinues (seen : Timestamp) :=
    ChainTracker.continuesFrom_iff_of_validate hvalid (t := seen)
  rw [ChainTracker.mark, check]
  cases htip : ix.chains.get? info.chain with
  | none =>
      simp only [h.seenThrough_of_none htip, Std.not_le.mpr hpos, if_false, Bool.true_and]
      cases hp : info.priorTime with
      | none =>
          have hfirst : ChainTracker.continuesFrom info 0 = true := by
            rw [hcontinues, hp]
            rfl
          simp only [hfirst, Bool.not_true, Bool.false_eq_true, if_false, Option.isSome_none]
          exact .decided _
      | some p =>
          -- a chain does not begin at time zero, so no prior time stands for a chain not known
          have hlater : p ≠ 0 := by
            rintro rfl
            exact absurd (hprior 0 hp).2 (Std.not_le.mpr hstart)
          have hgap : ChainTracker.continuesFrom info 0 = false := by
            rw [Bool.eq_false_iff, Ne, hcontinues, hp]
            exact hlater
          simp only [hgap, Bool.not_false, if_true, Option.isSome_some]
          exact .unknown
  | some tip =>
      obtain ⟨-, last, rfl⟩ := hfiled info.chain tip htip
      simp only [h.seenThrough_of_some htip, Bool.true_and]
      by_cases hle : info.timestamp ≤ last.info.timestamp
      · simp only [if_pos hle]
        exact .decided ⟨t, false, []⟩
      · simp only [if_neg hle]
        by_cases hnext : info.priorTime = some last.info.timestamp
        · have hgoes : ChainTracker.continuesFrom info last.info.timestamp = true := by
            rw [hcontinues, hnext]
            rfl
          simp only [hgoes, hnext, Bool.not_true, Bool.false_eq_true, if_false, ne_eq,
            not_true_eq_false]
          exact .decided _
        · have hgap : ChainTracker.continuesFrom info last.info.timestamp = false := by
            rw [Bool.eq_false_iff, Ne, hcontinues]
            intro hsame
            cases hp : info.priorTime with
            | none =>
                -- without a prior time the chain would have to end at time zero
                rw [hp] at hsame
                exact absurd hsame (Std.ne_of_lt last.timestamp_pos)
            | some p =>
                rw [hp] at hsame hnext
                exact hnext (congrArg some hsame)
          simp only [hgap, Bool.not_false, if_true, if_pos hnext, ne_eq]
          exact .gap _

/-- A bundle is new to an index if it goes on from where the tracker has seen its chain. -/
theorem FollowsTips.check_eq_true_iff (h : FollowsTips t ix) (hfiled : ix.TipsFiled) :
    ix.check b.info = .ok true ↔ b.prior = t.seenThrough b.info.chain := by
  rw [Index.check_eq_true_iff]
  cases htip : ix.chains.get? b.info.chain with
  | none =>
      rw [h.seenThrough_of_none htip]
      exact b.prior_eq_zero_iff.symm
  | some tip =>
      obtain ⟨-, last, rfl⟩ := hfiled _ tip htip
      rw [h.seenThrough_of_some htip, Continues, Bundle.prior]
      have hlt := b.prior_lt
      have hpos := last.timestamp_pos
      rw [Bundle.prior] at hlt
      cases hp : b.info.priorTime with
      | none => simp [Std.ne_of_lt hpos]
      | some p =>
          rw [hp] at hlt
          simp only [Option.some.injEq, Option.getD_some]
          constructor
          · exact fun hnext => hnext.2
          · rintro rfl
            exact ⟨hlt, rfl⟩

/-! ## Keeping in step -/

theorem TipsFiled.followsTips (h : ix.TipsFiled) : FollowsTips ix.chainTracker ix := by
  intro c
  rw [h.chainTracker_eq]
  rfl

/-- A bundle that is new is recorded as the end of its chain. -/
theorem FollowsTips.mark (h : FollowsTips t ix) (hfiled : ix.TipsFiled)
    (hnew : ix.check b.info = .ok true) (check : Bool) :
    t.mark b.info check = .ok ⟨⟨t.chains.insert b.info.chain b.info,
        t.waiters.filter fun w => !ChainTracker.reaches b.info w && !w.closed⟩, true,
      (t.waiters.filter (ChainTracker.reaches b.info)).map (·.ticket)⟩ := by
  have hnext := (h.check_eq_true_iff hfiled).mp hnew
  exact ChainTracker.mark_eq_of_lt (hnext ▸ b.prior_lt) fun _ => b.continuesFrom_iff.mpr hnext

theorem FollowsTips.apply (h : FollowsTips t ix) (b : Bundle) (waiters : List Waiter) :
    FollowsTips ⟨t.chains.insert b.info.chain b.info, waiters⟩ (ix.apply b) := by
  intro c
  rw [apply_chains, ChainTracker.seenTo?, ChainTracker.info?]
  by_cases hc : c = b.info.chain
  · rw [hc, SortedMap.get?_insert_self, SortedMap.get?_insert_self]
  · rw [SortedMap.get?_insert_of_ne _ hc, SortedMap.get?_insert_of_ne _ hc]
    exact h c

/-- **A tracker that has seen what an index has keeps in step with it.** -/
theorem FollowsTips.passAll (h : FollowsTips t ix) (hfiled : ix.TipsFiled) (bs : List Bundle) :
    (t.passAll bs).2 = (ix.offerAll bs).2 ∧ FollowsTips (t.passAll bs).1 (ix.offerAll bs).1
      ∧ (ix.offerAll bs).1.TipsFiled := by
  induction bs generalizing t ix with
  | nil => exact ⟨rfl, h, hfiled⟩
  | cons b rest ih =>
      rw [ChainTracker.passAll]
      by_cases hnew : ix.check b.info = .ok true
      · rw [offerAll_cons_of_new hnew, h.mark hfiled hnew]
        obtain ⟨hpassed, hlast⟩ := ih (h.apply b _) (hfiled.apply b)
        exact ⟨congrArg (b :: ·) hpassed, hlast⟩
      · rw [offerAll_cons_of_not_new hnew]
        have halike := h.decidesAlike hfiled b.infoValid
        generalize t.mark b.info true = result at halike ⊢
        generalize ix.check b.info = novel at halike hnew
        cases halike with
        | decided m =>
            obtain ⟨u, _ | _, reached⟩ := m
            · exact ih h hfiled
            · exact absurd rfl hnew
        | gap => exact ih h hfiled
        | unknown => exact ih h hfiled

/-- **Trackers and indexes enforce one rule.** Take an index that has been offered any bundles, and
the tracker that is made from it. To every valid metadata both say the same, and where they refuse
for a gap they agree on how far the chain goes. When a bundle is accepted, marking it gives the
tracker of the index that comes out. A has-map that has seen what the index has passes, of any
bundles one after another, exactly those that the index accepts, and has then seen what the index
has. So a peer with such a has-map lets an offered bundle out exactly if the index accepts it. -/
theorem tracker_decides_alike (keepingHistory : Bool) (arrivals : List Bundle) :
    let ix := ((empty keepingHistory).offerAll arrivals).1
    (∀ info, info.validate = .ok () →
        DecidesAlike info (ix.chainTracker.mark info true) (ix.check info))
      ∧ (∀ b ix', ix.add b = .ok (ix', true) → ∀ check,
        ix.chainTracker.mark b.info check = .ok ⟨ix'.chainTracker, true, []⟩)
      ∧ ∀ hasMap : ChainTracker, hasMap.sameRows ix.chainTracker = true →
        (∀ bs, (hasMap.passAll bs).2 = (ix.offerAll bs).2
          ∧ (hasMap.passAll bs).1.sameRows (ix.offerAll bs).1.chainTracker = true)
        ∧ ∀ p : Peer, p.state = .ready → p.hasMap = some hasMap → ∀ b,
          (p.offer (.ok ()) b).result = .ok true ↔ ∃ ix', ix.add b = .ok (ix', true) := by
  intro ix
  have hfiled : ix.TipsFiled := (followsLines_offerAll keepingHistory arrivals).tipsFiled
  refine ⟨fun info hvalid => hfiled.followsTips.decidesAlike hfiled hvalid,
    fun b ix' hadd check => ?_, fun hasMap hrows => ?_⟩
  · obtain ⟨hnew, rfl⟩ := add_eq_ok_true_iff.mp hadd
    rw [hfiled.followsTips.mark hfiled hnew check, (hfiled.apply b).chainTracker_eq,
      hfiled.chainTracker_eq, apply_chains]
    rfl
  · have hfollows : FollowsTips hasMap ix := fun c =>
      (congrFun (ChainTracker.sameRows_iff.mp hrows) c).trans (hfiled.followsTips c)
    refine ⟨fun bs => ?_, fun p hready hmap b => ?_⟩
    · obtain ⟨hpassed, hlast, hfiled'⟩ := hfollows.passAll hfiled bs
      refine ⟨hpassed, ChainTracker.sameRows_iff.mpr (funext fun c => ?_)⟩
      exact (hlast c).trans (hfiled'.followsTips c).symm
    · have hnext := hfollows.check_eq_true_iff hfiled (b := b)
      rw [← Peer.progress_of_hasMap hmap] at hnext
      have hnew : (∃ ix', ix.add b = .ok (ix', true)) ↔ ix.check b.info = .ok true :=
        ⟨fun ⟨ix', hadd⟩ => (add_eq_ok_true_iff.mp hadd).1,
          fun hcheck => ⟨ix.apply b, add_eq_ok_true_iff.mpr ⟨hcheck, rfl⟩⟩⟩
      rw [hnew, hnext]
      rcases Peer.offer_answers (p := p) (by simp [hready]) (by rw [hmap]; rfl) b with
        ⟨hprior, hresult, -⟩ | ⟨hprior, hresult, -⟩
      · exact iff_of_true hresult hprior
      · exact iff_of_false (by simp [hresult]) hprior

end Index

end GossipStore
