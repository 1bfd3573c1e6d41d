import GossipStore.Database.Commit
import GossipStore.Proofs.Bundle.Bundlers
import GossipStore.Proofs.Gossip.Replica

set_option autoImplicit false

/-! # Writing in step

A database writes one chain, under medallions that nobody else has. Whatever the clock shows and
whatever is committed, the bundle it seals goes on from the last one of that chain, which it holds
(`Tip`): sealing refuses a bundle that is not later than its predecessor. So a commit only ever
makes the history longer, by bundles that may be written next (`Written`), and leaves the writer in
step with it (`Database.InStep.addBundler`). The others stay in step as well, because they have not
seen the new bundles yet (`Database.InStep.written`).
-/

namespace GossipStore

/-! ## Longer histories -/

/-- A history that a writer has continued with bundles that may be written next. -/
inductive Written (mine : Medallion → Prop) (history : List Bundle) : List Bundle → Prop where
  | refl : Written mine history history
  | snoc {history' : List Bundle} {b : Bundle} (before : Written mine history history')
      (next : Extends history' b) (own : mine b.info.medallion) :
      Written mine history (history' ++ [b])

namespace Written

variable {mine : Medallion → Prop} {history history' history'' : List Bundle}

theorem trans (h : Written mine history history') (h' : Written mine history' history'') :
    Written mine history history'' := by
  induction h' with
  | refl => exact h
  | snoc _ next own ih => exact .snoc ih next own

theorem isHistory (h : Written mine history history') (hh : History history) :
    History history' := by
  induction h with
  | refl => exact hh
  | snoc _ next _ ih => exact ih.extend next

theorem subset (h : Written mine history history') : history ⊆ history' := by
  induction h with
  | refl => exact List.Subset.refl _
  | snoc _ _ _ ih => exact List.Subset.trans ih (List.subset_append_left _ _)

/-- What has been added is the writer's own. -/
theorem mem (h : Written mine history history') {x : Bundle} (hx : x ∈ history') :
    x ∈ history ∨ mine x.info.medallion := by
  induction h with
  | refl => exact .inl hx
  | snoc _ _ own ih =>
      rcases List.mem_append.mp hx with hx | hx
      · exact ih hx
      · rw [List.mem_singleton.mp hx]
        exact .inr own

theorem holds (h : Written mine history history') {ix : Index} (hholds : Holds history ix) :
    Holds history' ix := by
  induction h with
  | refl => exact hholds
  | snoc _ next _ ih => exact ih.extend next

end Written

/-! ## The end of a chain -/

/-- Whether a bundle is the last one of the only chain of an owner, as somebody has seen it. -/
structure Tip (mine : Medallion → Prop) (history : List Bundle) (seen : Progress)
    (last : BundleInfo) : Prop where
  written : ∃ x ∈ history, x.info = last
  own : mine last.medallion
  seen : last.timestamp ≤ seen last.chain
  latest : ∀ x ∈ history, mine x.info.medallion →
    x.info.chain = last.chain ∧ x.info.timestamp ≤ last.timestamp

section Tip

variable {mine : Medallion → Prop} {history : List Bundle} {seen seen' : Progress}
  {last : BundleInfo} {b : Bundle}

/-- What is sealed as the next bundle may be written next. -/
theorem Tip.extends (h : Tip mine history seen last) {t : Timestamp} {comment : Option String}
    (hb : b.info = { last.extend t with comment }) : Extends history b := by
  have hchain : b.info.chain = last.chain := by rw [hb]; rfl
  have hprior : b.prior = last.timestamp := by rw [Bundle.prior, hb]; rfl
  have hown : mine b.info.medallion := by rw [hb]; exact h.own
  refine ⟨fun x hx hm => ?_, ?_, fun x hx hc => ?_⟩
  · rw [hchain]
    exact (h.latest x hx (hm ▸ hown)).1
  · obtain ⟨x, hx, rfl⟩ := h.written
    exact .inr ⟨x, hx, hchain.symm, hprior.symm⟩
  · have hm : x.info.medallion = b.info.medallion := congrArg ChainKey.medallion hc
    rw [hprior]
    exact (h.latest x hx (hm ▸ hown)).2

/-- What is sealed as a first bundle may be written next if its owner has written nothing. -/
theorem extends_of_fresh (hfresh : ∀ x ∈ history, ¬ mine x.info.medallion)
    (hown : mine b.info.medallion) (hfirst : b.info.priorTime = none) : Extends history b := by
  refine ⟨fun x hx hm => absurd (hm ▸ hown) (hfresh x hx), .inl (b.prior_eq_zero_iff.mpr hfirst),
    fun x hx hc => ?_⟩
  have hm : x.info.medallion = b.info.medallion := congrArg ChainKey.medallion hc
  exact absurd (hm ▸ hown) (hfresh x hx)

/-- What has been written last is the end of the chain once it has been seen. -/
theorem tip_of_extends (hb : Extends history b) (hown : mine b.info.medallion)
    (hchain : ∀ x ∈ history, mine x.info.medallion → x.info.chain = b.info.chain)
    (hseen : b.info.timestamp ≤ seen b.info.chain) : Tip mine (history ++ [b]) seen b.info where
  written := ⟨b, List.mem_append_right _ (List.mem_singleton.mpr rfl), rfl⟩
  own := hown
  seen := hseen
  latest x hx hm := by
    rcases List.mem_append.mp hx with hx | hx
    · have hc := hchain x hx hm
      exact ⟨hc, Std.le_of_lt (Std.lt_of_le_of_lt (hb.last x hx hc) b.prior_lt)⟩
    · rw [List.mem_singleton.mp hx]
      exact ⟨rfl, Std.le_refl _⟩

theorem Tip.mono (h : Tip mine history seen last) (hseen : ∀ c, seen c ≤ seen' c) :
    Tip mine history seen' last :=
  { h with seen := Std.le_trans h.seen (hseen _) }

/-- What others write does not matter. -/
theorem Tip.written_other {other : Medallion → Prop} {history' : List Bundle}
    (h : Tip mine history seen last) (hw : Written other history history')
    (hother : ∀ m, mine m → ¬ other m) : Tip mine history' seen last where
  written := h.written.imp fun _ hx => ⟨hw.subset hx.1, hx.2⟩
  own := h.own
  seen := h.seen
  latest _ hx hm := (hw.mem hx).elim (h.latest _ · hm) fun ho => absurd ho (hother _ hm)

end Tip

namespace Database

variable {α : Type} {mine : Medallion → Prop} {history history' : List Bundle} {outlook : Outlook}
  {db db' : Database α} {s : Surroundings}

/-! ## In step with a writer -/

/-- The others do not notice that something was written. -/
theorem InStep.written (h : db.InStep history outlook) (hw : Written mine history history') :
    db.InStep history' outlook := by
  obtain ⟨ix, hstore, hholds, htracker⟩ := h.store
  exact ⟨⟨ix, hstore, hw.holds hholds, htracker⟩, h.attached, h.former,
    h.sending.mono rfl rfl hw.subset fun _ => Std.le_refl _⟩

/-- A database and the chain it writes: it has none and has written nothing, or knows its end. -/
structure Owns (mine : Medallion → Prop) (history : List Bundle) (db : Database α) : Prop where
  fresh : db.chain = none →
    db.store.index.claims = [] ∧ ∀ x ∈ history, ¬ mine x.info.medallion
  tip : ∀ last, db.chain = some last → Tip mine history db.seen last

/-- A database that has a chain knows its end. -/
theorem Owns.of_tip {last : BundleInfo} (hchain : db.chain = some last)
    (htip : Tip mine history db.seen last) : db.Owns mine history where
  fresh hnone := by
    rw [hchain] at hnone
    cases hnone
  tip last' hlast := by
    obtain rfl := Option.some.inj (hchain.symm.trans hlast)
    exact htip

theorem Owns.mono (h : db.Owns mine history) (hclaims : db.SameClaims db')
    (hseen : ∀ c, db.seen c ≤ db'.seen c) : db'.Owns mine history where
  fresh hnone := by
    rw [hclaims.2]
    exact h.fresh (hclaims.1 ▸ hnone)
  tip last hlast := (h.tip last (hclaims.1 ▸ hlast)).mono hseen

theorem Owns.written {other : Medallion → Prop} (h : db.Owns mine history)
    (hw : Written other history history') (hother : ∀ m, mine m → ¬ other m) :
    db.Owns mine history' where
  fresh hnone := by
    refine ⟨(h.fresh hnone).1, fun x hx hm => ?_⟩
    exact (hw.mem hx).elim (fun hx => (h.fresh hnone).2 x hx hm) (hother _ hm)
  tip last hlast := (h.tip last hlast).written_other hw hother

/-- A claim is of no concern to others. -/
theorem InStep.claim (h : db.InStep history outlook) (chain : ChainKey) :
    (db.claim s chain).InStep history outlook := by
  obtain ⟨ix, hstore, hholds, htracker⟩ := h.store
  refine ⟨⟨ix.claimChain chain (db.actor s), ?_, ⟨hholds.tips, hholds.bundles⟩, htracker⟩,
    h.attached, h.former, h.sending.mono rfl rfl (List.Subset.refl _) fun _ => Std.le_refl _⟩
  simp only [Database.claim, hstore, Store.claimChain]

/-! ## Taking a chain -/

section Committing

variable (hh : History history) (hlink : ∀ id, s.link id = .ok ())

include hh hlink

/-- Storing what may be written next. -/
theorem InStep.store_next (h : db.InStep history outlook) {b : Bundle} (hb : Extends history b)
    (hprior : b.prior ≤ db.seen b.info.chain) :
    ∃ db', db.receiveDecoded s b none = (db', .ok b.info) ∧ db'.InStep (history ++ [b]) outlook
      ∧ db'.seen = db.seen.raise b.info.chain b.info.timestamp ∧ db.SameClaims db' := by
  -- whose the bundle is does not matter here
  have hw : Written (fun _ => True) history (history ++ [b]) := .snoc .refl hb trivial
  have hmem : b ∈ history ++ [b] := List.mem_append_right _ (List.mem_singleton.mpr rfl)
  exact (h.written hw).receiveDecoded (hh.extend hb) hlink hmem hprior none nofun

/-- A new chain is started, or nothing has been written and there is none still. -/
theorem InStep.startChain (h : db.InStep history outlook) (howns : db.Owns mine history)
    (hnone : db.chain = none) (hmine : ∀ k, mine (s.medallion k)) :
    ∃ history' db' result, db.startChain s = (db', result) ∧ Written mine history history'
      ∧ db'.InStep history' outlook ∧ (∀ c, db.seen c ≤ db'.seen c)
      ∧ match result with
        | .ok last => Tip mine history' db'.seen last
        | .error _ => db'.Owns mine history' := by
  have hfresh := (howns.fresh hnone).2
  unfold Database.startChain
  -- the argument holds for any timestamp, so nothing has to be known of the clock
  generalize db.timestamps.next s.clock = stamped
  obtain ⟨timestamps, start⟩ := stamped
  let ready := { db with medallionsUsed := db.medallionsUsed + 1, timestamps }
  have hready : ready.InStep history outlook := ⟨h.store, h.attached, h.former,
    h.sending.mono rfl rfl (List.Subset.refl _) fun _ => Std.le_refl _⟩
  cases hseal : Bundler.new.sealWith
      ((BundleInfo.first (s.medallion db.medallionsUsed) start).withComment (ready.identity s)) with
  | error e =>
      refine ⟨history, ready, .error (.bundle e), ?_, .refl, hready, fun _ => Std.le_refl _, ?_⟩
      · simp only [ready] at hseal ⊢
        simp only [hseal]
      · exact howns.mono ⟨rfl, rfl⟩ fun _ => Std.le_refl _
  | ok sealed =>
      obtain ⟨bundler, b⟩ := sealed
      obtain ⟨-, -, ⟨comment, hinfo⟩, -⟩ := Bundler.parts_of_sealWith hseal
      have hown : mine b.info.medallion := by rw [hinfo]; exact hmine _
      have hfirst : b.info.priorTime = none := by rw [hinfo]; rfl
      have hext := extends_of_fresh hfresh hown hfirst
      have hprior : b.prior ≤ ready.seen b.info.chain := by
        rw [b.prior_eq_zero_iff.mpr hfirst]
        exact (h.isPoint _).nonneg
      obtain ⟨db', hstored, hstep, hseen, hclaims⟩ := hready.store_next hh hlink hext hprior
      refine ⟨history ++ [b], db'.claim s ⟨s.medallion db.medallionsUsed, start⟩, .ok b.info, ?_,
        .snoc .refl hext hown, hstep.claim _, fun c => ?_, ?_⟩
      · simp only [ready] at hseal hstored
        simp only [hseal, hstored]
      · show db.seen c ≤ db'.seen c
        rw [hseen]
        exact Progress.le_raise _ _ _ c
      · refine tip_of_extends hext hown (fun x hx hm => absurd hm (hfresh x hx)) ?_
        show b.info.timestamp ≤ db'.seen b.info.chain
        rw [hseen]
        exact Progress.raise_self_ge _ _ _

/-- Whatever becomes of a commit on a chain whose end is known, its end is known afterwards. -/
theorem InStep.sealNext (h : db.InStep history outlook) {last : BundleInfo}
    (htip : Tip mine history db.seen last) (bundler : Bundler) :
    ∃ history' db', (db.sealNext s last bundler).1 = db' ∧ Written mine history history'
      ∧ db'.InStep history' outlook ∧ db'.Owns mine history' ∧ ∀ c, db.seen c ≤ db'.seen c := by
  unfold Database.sealNext
  generalize db.timestamps.nextAfter s.clock last.timestamp = stamped
  obtain ⟨timestamps, timestamp⟩ := stamped
  let ready := { db with chain := some last, timestamps }
  have hready : ready.InStep history outlook := ⟨h.store, h.attached, h.former,
    h.sending.mono rfl rfl (List.Subset.refl _) fun _ => Std.le_refl _⟩
  cases hseal : bundler.sealWith (last.extend timestamp) with
  | error e =>
      -- the chain is remembered all the same
      exact ⟨history, ready, by simp only [hseal, ready], .refl, hready, .of_tip rfl htip,
        fun _ => Std.le_refl _⟩
  | ok sealed =>
      obtain ⟨bundler', b⟩ := sealed
      obtain ⟨-, -, ⟨comment, hinfo⟩, -⟩ := Bundler.parts_of_sealWith hseal
      have hown : mine b.info.medallion := by rw [hinfo]; exact htip.own
      have hchain : b.info.chain = last.chain := by rw [hinfo]; rfl
      have hext := htip.extends hinfo
      have hprior : b.prior ≤ ready.seen b.info.chain := by
        have hprior : b.prior = last.timestamp := by rw [Bundle.prior, hinfo]; rfl
        rw [hprior, hchain]
        exact htip.seen
      obtain ⟨db', hstored, hstep, hseen, -⟩ := hready.store_next hh hlink hext hprior
      have htip' : Tip mine (history ++ [b]) db'.seen b.info := by
        refine tip_of_extends hext hown (fun x hx hm => ?_) ?_
        · rw [hchain]
          exact (htip.latest x hx hm).1
        · rw [hseen]
          exact Progress.raise_self_ge _ _ _
      refine ⟨history ++ [b], { db' with chain := some b.info }, ?_, .snoc .refl hext hown,
        ⟨hstep.store, hstep.attached, hstep.former,
          hstep.sending.mono rfl rfl (List.Subset.refl _) fun _ => Std.le_refl _⟩,
        .of_tip rfl htip', fun c => ?_⟩
      · simp only [ready] at hstored
        simp only [hseal, hstored]
      · show db.seen c ≤ db'.seen c
        rw [hseen]
        exact Progress.le_raise _ _ _ c

/-- **A commit continues the writer's chain or writes nothing**, whatever is committed and whatever
the clock shows. -/
theorem InStep.addBundler (h : db.InStep history outlook) (howns : db.Owns mine history)
    (hmine : ∀ k, mine (s.medallion k)) (bundler : Bundler) :
    ∃ history' db', (db.addBundler s bundler).1 = db' ∧ Written mine history history'
      ∧ db'.InStep history' outlook ∧ db'.Owns mine history' ∧ ∀ c, db.seen c ≤ db'.seen c := by
  unfold Database.addBundler Database.ownChain
  cases hchain : db.chain with
  | some last =>
      simp only
      exact h.sealNext hh hlink (howns.tip last hchain) bundler
  | none =>
      -- in memory there are no claims but its own, so no chain can be taken over
      have habandoned : db.abandonedChain? s = none := by
        simp [Database.abandonedChain?, (howns.fresh hchain).1]
      obtain ⟨history', db', result, hstart, hw, hstep, hseen, hresult⟩ :=
        h.startChain hh hlink howns hchain hmine
      simp only [Database.acquireChain, habandoned, hstart]
      cases result with
      | error e => exact ⟨history', db', rfl, hw, hstep, hresult, hseen⟩
      | ok last =>
          obtain ⟨history'', db'', hsealed, hw', hstep', howns', hseen'⟩ :=
            hstep.sealNext (hw.isHistory hh) hlink hresult bundler
          exact ⟨history'', db'', hsealed, hw.trans hw', hstep', howns', fun c =>
            Std.le_trans (hseen c) (hseen' c)⟩

end Committing

end Database

end GossipStore
