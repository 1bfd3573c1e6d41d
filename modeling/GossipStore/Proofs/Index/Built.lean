import GossipStore.Proofs.Index.Chains
import GossipStore.Proofs.Index.Upkeep

set_option autoImplicit false

/-! # Indices that calls have built

Whatever an index has been through since it was empty (`Built`), its chains stand under their own
names and end with bundles (`Built.tipsFiled`), and no chain has been claimed twice
(`Built.claimedOnce`). Only bundles make chains longer and only claims make claims; dropping
history touches neither.
-/

namespace GossipStore.Index

/-- What calls and claims can make of an empty index. -/
inductive Built : Index → Prop where
  | empty (keepingHistory : Bool) : Built (empty keepingHistory)
  | carryOut {ix : Index} (before : Built ix) (call : Call) : Built (ix.carryOut call).1
  | claimChain {ix : Index} (before : Built ix) (chain : ChainKey) (actor : ActorId) :
      Built (ix.claimChain chain actor)

/-- What calls and claims can make of an empty index, and the bundles that have been added. -/
inductive BuiltOf : List Bundle → Index → Prop where
  | empty (keepingHistory : Bool) : BuiltOf [] (empty keepingHistory)
  | carryOut {accepted : List Bundle} {ix : Index} (before : BuiltOf accepted ix) (call : Call) :
      BuiltOf (accepted ++ (ix.carryOut call).2.toList) (ix.carryOut call).1
  | claimChain {accepted : List Bundle} {ix : Index} (before : BuiltOf accepted ix)
      (chain : ChainKey) (actor : ActorId) : BuiltOf accepted (ix.claimChain chain actor)

/-- Whether no chain has been claimed twice. -/
def ClaimedOnce (ix : Index) : Prop := ix.claims.Pairwise fun a b => a.chain ≠ b.chain

variable {ix : Index} {b : Bundle}

/-! ## What changes chains and claims -/

theorem forget_records (ix : Index) (k : RemovalKey) :
    (ix.forget k).chains = ix.chains ∧ (ix.forget k).claims = ix.claims := by
  rw [forget]
  have hentry : (ix.deleteEntry k.removing).chains = ix.chains
      ∧ (ix.deleteEntry k.removing).claims = ix.claims := by
    rw [deleteEntry]
    cases ix.entries.get? k.removing <;> exact ⟨rfl, rfl⟩
  rw [← hentry.1, ← hentry.2, deleteRemoval]
  cases (ix.deleteEntry k.removing).removals.get? k <;> exact ⟨rfl, rfl⟩

theorem dropHistoryUpTo_records (ix : Index) (container : Option Muid) (t : Timestamp) :
    (ix.dropHistoryUpTo container t).1.chains = ix.chains
      ∧ (ix.dropHistoryUpTo container t).1.claims = ix.claims :=
  List.foldlRecOn _ forget (motive := fun ix' => ix'.chains = ix.chains ∧ ix'.claims = ix.claims)
    ⟨rfl, rfl⟩ fun ix' h k _ =>
      ⟨(forget_records ix' k).1.trans h.1, (forget_records ix' k).2.trans h.2⟩

/-- A call adds a bundle that the check has passed, or leaves chains and claims alone. -/
theorem carryOut_records (ix : Index) (call : Call) :
    (∃ b, ix.check b.info = .ok true ∧ (ix.carryOut call).1 = ix.apply b)
      ∨ (ix.carryOut call).1.chains = ix.chains ∧ (ix.carryOut call).1.claims = ix.claims := by
  cases call with
  | add b =>
      simp only [Index.carryOut, add_eq]
      cases hcheck : ix.check b.info with
      | error e => exact .inr ⟨rfl, rfl⟩
      | ok novel =>
          cases novel with
          | false => exact .inr ⟨rfl, rfl⟩
          | true => exact .inl ⟨b, hcheck, rfl⟩
  | dropHistory container before =>
      right
      simp only [Index.carryOut, Index.dropHistory]
      cases ix.resolveAsOf before with
      | error e => exact ⟨rfl, rfl⟩
      | ok t => exact dropHistoryUpTo_records ix container t
  | stopHistory =>
      exact .inr (dropHistoryUpTo_records { ix with keepingHistory := false } none Int64.maxValue)
  | startHistory => exact .inr ⟨rfl, rfl⟩

/-! ## What calls and claims uphold -/

namespace BuiltOf

variable {accepted : List Bundle}

theorem carryOutAll (h : BuiltOf accepted ix) (calls : List Call) :
    BuiltOf (accepted ++ (ix.carryOutAll calls).2) (ix.carryOutAll calls).1 := by
  induction calls generalizing accepted ix with
  | nil =>
      rw [Index.carryOutAll, List.append_nil]
      exact h
  | cons call rest ih =>
      rw [Index.carryOutAll, ← List.append_assoc]
      exact ih (h.carryOut call)

/-- What calls uphold holds of whatever they have built, if the changes of all bundles have
different addresses. -/
theorem upheld {P : List (Muid × Change) → Index → Prop} (hP : Upheld P)
    (hempty : ∀ keepingHistory, P [] (.empty keepingHistory)) (h : BuiltOf accepted ix)
    (hids : ((accepted.flatMap Bundle.changesWithIds).map Prod.fst).Nodup) :
    P (accepted.flatMap Bundle.changesWithIds) ix := by
  induction h with
  | empty keepingHistory => exact hempty keepingHistory
  | carryOut before call ih =>
      rw [List.flatMap_append] at hids ⊢
      exact hP.carryOut (ih (hids.sublist ((List.sublist_append_left _ _).map Prod.fst))) hids
  | claimChain before chain actor ih => exact hP.withRecords (ih hids) _ _ _

end BuiltOf

/-! ## Chains under their names -/

theorem TipsFiled.apply (h : ix.TipsFiled) (b : Bundle) : (ix.apply b).TipsFiled := by
  intro chain tip htip
  rw [apply_chains] at htip
  by_cases hchain : chain = b.info.chain
  · rw [hchain, SortedMap.get?_insert_self] at htip
    obtain rfl : b.info = tip := Option.some.inj htip
    exact ⟨hchain.symm, b, rfl⟩
  · rw [SortedMap.get?_insert_of_ne _ hchain] at htip
    exact h chain tip htip

theorem Built.tipsFiled (h : Built ix) : ix.TipsFiled := by
  induction h with
  | empty keepingHistory =>
      intro chain tip htip
      cases htip
  | @carryOut ix before call ih =>
      rcases carryOut_records ix call with ⟨b, -, hadd⟩ | ⟨hchains, -⟩
      · rw [hadd]
        exact ih.apply b
      · unfold TipsFiled
        rw [hchains]
        exact ih
  | claimChain before chain actor ih => exact ih

/-- A tracker of an index is nothing but its chains. -/
theorem TipsFiled.chainTracker_eq (h : ix.TipsFiled) : ix.chainTracker = ⟨ix.chains, []⟩ := by
  have hwaiters (t : ChainTracker) (ht : t.waiters = []) (info : BundleInfo) :
      (t.markUnchecked info).tracker.waiters = [] := by
    by_cases hle : info.timestamp ≤ t.seenThrough info.chain
    · simp only [ChainTracker.markUnchecked, ChainTracker.mark, if_pos hle, ht]
    · simp only [ChainTracker.markUnchecked, ChainTracker.mark, if_neg hle, Bool.false_and,
        Bool.false_eq_true, if_false, ht, List.filter_nil]
  have hnone : ix.chainTracker.waiters = [] :=
    List.foldlRecOn ix.chains.values _ (motive := fun t : ChainTracker => t.waiters = []) rfl
      fun t ht info _ => hwaiters t ht info
  rw [← h.chains_chainTracker, ← hnone]

/-! ## Claims -/

/-- Claims do not matter to a bundle. -/
theorem apply_withClaims (ix : Index) (claims : List ClaimedChain) (b : Bundle) :
    ({ ix with claims } : Index).apply b = { ix.apply b with claims } := by
  have hrecords : ({ ix with claims } : Index) = ix.withRecords ix.chains ix.bundles claims := rfl
  rw [apply_eq, hrecords, applyChanges_withRecords, apply_eq]
  rfl

theorem offerAll_withClaims (ix : Index) (claims : List ClaimedChain) (bs : List Bundle) :
    ({ ix with claims } : Index).offerAll bs
      = ({ (ix.offerAll bs).1 with claims }, (ix.offerAll bs).2) := by
  induction bs generalizing ix with
  | nil => rfl
  | cons b rest ih =>
      have hsame : ({ ix with claims } : Index).check b.info = ix.check b.info := rfl
      by_cases hnew : ix.check b.info = .ok true
      · rw [offerAll_cons_of_new hnew, offerAll_cons_of_new (hsame.trans hnew), apply_withClaims,
          ih]
      · rw [offerAll_cons_of_not_new hnew, offerAll_cons_of_not_new (hsame ▸ hnew), ih]

theorem ClaimedOnce.eq_of_mem (h : ix.ClaimedOnce) {c d : ClaimedChain} (hc : c ∈ ix.claims)
    (hd : d ∈ ix.claims) (hsame : c.chain = d.chain) : c = d :=
  List.inj_on_of_nodup_map (List.pairwise_map.mpr h) hc hd hsame

theorem ClaimedOnce.claimChain (h : ix.ClaimedOnce) (chain : ChainKey) (actor : ActorId) :
    (ix.claimChain chain actor).ClaimedOnce := by
  refine List.pairwise_append.mpr ⟨h.filter _, List.pairwise_singleton _ _, fun a ha b hb => ?_⟩
  rw [List.mem_singleton.mp hb]
  exact of_decide_eq_true (List.mem_filter.mp ha).2

theorem Built.claimedOnce (h : Built ix) : ix.ClaimedOnce := by
  induction h with
  | empty keepingHistory => exact .nil
  | @carryOut ix before call ih =>
      unfold ClaimedOnce
      rcases carryOut_records ix call with ⟨b, -, hadd⟩ | ⟨-, hclaims⟩
      · rw [hadd, apply_claims]
        exact ih
      · rw [hclaims]
        exact ih
  | claimChain before chain actor ih => exact ih.claimChain chain actor

/-- After a claim a chain is claimed by the one who claimed it, and by nobody else. -/
theorem claims_claimChain_self (ix : Index) (chain : ChainKey) (actor : ActorId) :
    (ix.claimChain chain actor).claims.filter (·.chain = chain) = [⟨chain, actor⟩] := by
  have hothers : (ix.claims.filter (·.chain ≠ chain)).filter (·.chain = chain) = [] :=
    List.filter_eq_nil_iff.mpr fun c hc => by
      simpa using (List.mem_filter.mp hc).2
  rw [claimChain, List.filter_append, hothers, List.nil_append]
  exact List.filter_cons_of_pos (decide_eq_true rfl)

end GossipStore.Index
