import GossipStore.Proofs.Database.Requests
import GossipStore.Proofs.Database.Sealing

set_option autoImplicit false

/-! # Commits make progress

A database that nobody else writes for goes on along one chain, whatever the clock shows. Between
requests the end of its chain is the one that the store has, the chain is claimed once, and neither
the timestamps issued nor the chains that are claimed have come further than a level that each
request raises by little (`Steady`). So what is sealed next continues the chain in the store, and a
commit cannot fail as long as the level is far from the greatest timestamp (`commit_progresses`). A
chain that has come to the greatest timestamp can be taken over all the same, and then nothing can
be committed (`commit_progresses_exhausted`).
-/

namespace GossipStore

open TimestampSource (ceiling)

/-! ## The store of a writer -/

namespace Index

/-- An index in which an actor writes a chain that ends as given, if it has one yet, and in which no
chain that is claimed has come further than a level. -/
structure HasWriter (ix : Index) (actor : ActorId) (own : Option BundleInfo) (level : Int) :
    Prop where
  filed : ix.TipsFiled
  claimedOnce : ix.ClaimedOnce
  claimed : ∀ c ∈ ix.claims, ∀ tip, ix.chains.get? c.chain = some tip → tip.timestamp.toInt ≤ level
  own : ∀ last, own = some last → ix.chains.get? last.chain = some last
    ∧ ix.claims.filter (·.chain = last.chain) = [⟨last.chain, actor⟩]

variable {ix : Index} {actor : ActorId} {own own' : Option BundleInfo} {level level' : Int}
  {b : Bundle} {last : BundleInfo}

theorem HasWriter.mono (h : ix.HasWriter actor own level) (hle : level ≤ level') :
    ix.HasWriter actor own level' :=
  ⟨h.filed, h.claimedOnce, fun c hc tip htip => Int.le_trans (h.claimed c hc tip htip) hle, h.own⟩

/-- The writer's chain is one of those that are claimed. -/
theorem HasWriter.level_of_own (h : ix.HasWriter actor (some last) level) :
    last.timestamp.toInt ≤ level := by
  obtain ⟨htip, hclaims⟩ := h.own last rfl
  have hmem : (⟨last.chain, actor⟩ : ClaimedChain) ∈ ix.claims.filter (·.chain = last.chain) := by
    rw [hclaims]
    exact List.mem_singleton.mpr rfl
  exact h.claimed _ (List.mem_filter.mp hmem).1 last htip

/-- What is stored on a chain that is claimed has not come further than the level. -/
theorem HasWriter.apply (h : ix.HasWriter actor own level)
    (hb : ∀ c ∈ ix.claims, c.chain = b.info.chain → b.info.timestamp.toInt ≤ level) :
    (ix.apply b).HasWriter actor none level := by
  refine ⟨h.filed.apply b, ?_, fun c hc tip htip => ?_, fun last hnone => by cases hnone⟩
  · rw [ClaimedOnce, apply_claims]
    exact h.claimedOnce
  · rw [apply_claims] at hc
    rw [apply_chains] at htip
    by_cases hchain : c.chain = b.info.chain
    · rw [hchain, SortedMap.get?_insert_self] at htip
      obtain rfl : b.info = tip := Option.some.inj htip
      exact hb c hc hchain
    · rw [SortedMap.get?_insert_of_ne _ hchain] at htip
      exact h.claimed c hc tip htip

/-- A bundle of another chain leaves the writer where it is. -/
theorem HasWriter.apply_elsewhere (h : ix.HasWriter actor own level)
    (hb : ∀ c ∈ ix.claims, c.chain = b.info.chain → b.info.timestamp.toInt ≤ level)
    (hother : ∀ last, own = some last → last.chain ≠ b.info.chain) :
    (ix.apply b).HasWriter actor own level :=
  { h.apply hb with
    own := fun last hlast => by
      rw [apply_chains, SortedMap.get?_insert_of_ne _ (hother last hlast), apply_claims]
      exact h.own last hlast }

/-- A bundle of the writer's chain is the end of it. -/
theorem HasWriter.apply_next (h : ix.HasWriter actor (some last) level)
    (hchain : b.info.chain = last.chain) (hb : b.info.timestamp.toInt ≤ level) :
    (ix.apply b).HasWriter actor (some b.info) level :=
  { h.apply fun _ _ _ => hb with
    own := fun next hnext => by
      obtain rfl : b.info = next := Option.some.inj hnext
      rw [apply_chains, SortedMap.get?_insert_self, apply_claims, hchain]
      exact ⟨rfl, (h.own last rfl).2⟩ }

/-- An actor takes a chain for its own. -/
theorem HasWriter.claimChain (h : ix.HasWriter actor own level)
    (htip : ix.chains.get? last.chain = some last) (hlevel : last.timestamp.toInt ≤ level) :
    (ix.claimChain last.chain actor).HasWriter actor (some last) level where
  filed := h.filed
  claimedOnce := h.claimedOnce.claimChain last.chain actor
  claimed c hc tip hctip := by
    rcases List.mem_append.mp hc with hc | hc
    · exact h.claimed c (List.mem_filter.mp hc).1 tip hctip
    · rw [List.mem_singleton.mp hc] at hctip
      obtain rfl : last = tip := Option.some.inj (htip.symm.trans hctip)
      exact hlevel
  own other hother := by
    obtain rfl : last = other := Option.some.inj hother
    exact ⟨htip, claims_claimChain_self ix last.chain actor⟩

end Index

namespace Database

variable {α : Type} {db db' : Database α} {s : Surroundings} {ix : Index} {b : Bundle}
  {actor : ActorId} {own own' : Option BundleInfo} {level level' : Int} {last : BundleInfo}
  {bundler : Bundler}

/-! ## Between requests -/

/-- A database in memory of an actor whose chain ends as given, if it has one yet, and whose
timestamps have come no further than a level. -/
structure Steady (db : Database α) (actor : ActorId) (own : Option BundleInfo) (level : Int) :
    Prop where
  store : ∃ ix, db.store = .memory ix ∧ ix.HasWriter actor own level
    ∧ db.tracker = ⟨ix.chains, []⟩
  started : 0 ≤ db.timestamps.last
  reached : db.timestamps.last.toInt ≤ level

theorem Steady.mono (h : db.Steady actor own level) (hle : level ≤ level') :
    db.Steady actor own level' :=
  ⟨h.store.imp fun _ hix => ⟨hix.1, hix.2.1.mono hle, hix.2.2⟩, h.started,
    Int.le_trans h.reached hle⟩

theorem Steady.keeps (h : db.Steady actor own level) (hkeeps : db.Keeps db') :
    db'.Steady actor own level ∧ db'.chain = db.chain := by
  obtain ⟨peers, former, connections, effects, rfl⟩ := hkeeps
  exact ⟨⟨h.store, h.started, h.reached⟩, rfl⟩

/-- The writer may note how far it is and how much it has used up. -/
theorem Steady.note (h : db.Steady actor own level) (chain : Option BundleInfo)
    (medallionsUsed : Nat) {timestamps : TimestampSource} (hstarted : 0 ≤ timestamps.last)
    (hreached : timestamps.last.toInt ≤ level) :
    ({ db with chain, medallionsUsed, timestamps } : Database α).Steady actor own level :=
  ⟨h.store, hstarted, hreached⟩

theorem receiveDecoded_of_new (hstore : db.store = .memory ix)
    (hnew : ix.check b.info = .ok true) (s : Surroundings) (sender : Option PeerId) :
    ({ db with store := .memory (ix.apply b) }.track b.info).Keeps (db.receiveDecoded s b sender).1
      ∧ (db.receiveDecoded s b sender).2 = .ok b.info := by
  rcases receiveDecoded_cases hstore s b sender with ⟨-, h⟩ | ⟨hknown, -⟩ | ⟨e, herror, -⟩
  · exact h
  · rw [hnew] at hknown
    cases hknown
  · rw [hnew] at herror
    cases herror

/-- The store takes in a bundle after which the writer's chain ends as given. -/
theorem Steady.stored (h : db.Steady actor own level) (hstore : db.store = .memory ix)
    (hnew : ix.check b.info = .ok true) (hwriter : (ix.apply b).HasWriter actor own' level)
    (s : Surroundings) (sender : Option PeerId) :
    (db.receiveDecoded s b sender).1.Steady actor own' level := by
  obtain ⟨ix', hstore', -, htracker⟩ := h.store
  obtain rfl : ix = ix' := Store.memory.inj (hstore.symm.trans hstore')
  have hstored : ({ db with store := .memory (ix.apply b) }.track b.info).Steady actor own'
      level :=
    ⟨⟨ix.apply b, rfl, hwriter, tracker_of_new htracker hnew⟩, h.started, h.reached⟩
  exact (hstored.keeps (receiveDecoded_of_new hstore hnew s sender).1).1

/-! ## What comes from outside -/

/-- A bundle that the store takes in is on another chain than the writer's, and if that is claimed
it has not come further than the level. -/
theorem Steady.receiveDecoded (h : db.Steady actor own level)
    (hother : db.store.accepts b = true → ∀ last, own = some last → last.chain ≠ b.info.chain)
    (hlevel : db.store.accepts b = true → ∀ c ∈ db.store.index.claims,
      c.chain = b.info.chain → b.info.timestamp.toInt ≤ level)
    (s : Surroundings) (sender : Option PeerId) :
    (db.receiveDecoded s b sender).1.Steady actor own level
      ∧ (db.receiveDecoded s b sender).1.chain = db.chain := by
  obtain ⟨ix, hstore, hwriter, -⟩ := h.store
  rcases receiveDecoded_cases hstore s b sender with
    ⟨hnew, hkept, -⟩ | ⟨-, heq⟩ | ⟨e, -, hkeeps, -⟩
  · have hnovel : db.store.accepts b = true := (accepts_iff hstore).mpr hnew
    rw [hstore] at hlevel
    have hstays : (ix.apply b).HasWriter actor own level :=
      hwriter.apply_elsewhere (hlevel (hstore ▸ hnovel)) (hother hnovel)
    exact ⟨h.stored hstore hnew hstays s sender, hkept.chain⟩
  · rw [heq]
    exact ⟨h, rfl⟩
  · exact h.keeps hkeeps

/-! ## Committing -/

/-- What goes on from the end of a chain. -/
structure Follows (last info : BundleInfo) : Prop where
  chain : info.chain = last.chain
  prior : info.priorTime = some last.timestamp
  later : last.timestamp < info.timestamp

/-- The database has noted its chain and used up a timestamp, which is later than the end of the
chain and not far ahead. -/
theorem Steady.issued (h : db.Steady actor (some last) level) (hclock : s.clock.toInt ≤ level)
    (hfar : level + 20 ≤ ceiling) :
    let t := db.timestamps.issue s.clock last.timestamp
    last.timestamp < t
      ∧ ({ db with chain := some last, timestamps := ⟨t⟩ } : Database α).Steady actor (some last)
        (level + 20) := by
  intro t
  obtain ⟨ix, hstore, hwriter, -⟩ := h.store
  obtain ⟨hrises, hlater, hnear⟩ :=
    TimestampSource.issue_spec h.reached hclock hwriter.level_of_own hfar
  exact ⟨hlater, (h.mono (by omega)).note (some last) db.medallionsUsed
    (Std.le_of_lt (Std.lt_of_le_of_lt h.started hrises)) hnear⟩

/-- What has been sealed goes on from the end of the chain and is stored. -/
theorem Steady.sealNext_of_sealed (h : db.Steady actor (some last) level)
    (hclock : s.clock.toInt ≤ level) (hfar : level + 20 ≤ ceiling) {bundler' : Bundler}
    (hseal : bundler.sealWith (last.extend (db.timestamps.issue s.clock last.timestamp))
      = .ok (bundler', b)) :
    let result := db.sealNext s last bundler
    Follows last b.info ∧ result.2 = (bundler', .ok b.info) ∧ result.1.chain = some b.info
      ∧ result.1.Steady actor (some b.info) (level + 20) := by
  obtain ⟨hlater, hready⟩ := h.issued hclock hfar
  obtain ⟨-, -, ⟨comment, hinfo⟩, -⟩ := Bundler.parts_of_sealWith hseal
  have hfollows : Follows last b.info := by
    rw [hinfo]
    exact ⟨rfl, rfl, hlater⟩
  have hnear : b.info.timestamp.toInt ≤ level + 20 := by
    rw [hinfo]
    exact hready.reached
  unfold sealNext
  simp only [TimestampSource.nextAfter_eq, hseal]
  generalize { db with chain := some last, timestamps := _ } = ready at hready ⊢
  obtain ⟨ix, hstore, hwriter, -⟩ := hready.store
  have hnew : ix.check b.info = .ok true := by
    rw [Index.check_eq_true_iff, hfollows.chain, (hwriter.own last rfl).1]
    exact ⟨hfollows.later, hfollows.prior⟩
  have hstored := hready.stored hstore hnew (hwriter.apply_next hfollows.chain hnear) s none
  have hresult := (receiveDecoded_of_new hstore hnew s none).2
  generalize ready.receiveDecoded s b none = received at hstored hresult ⊢
  obtain ⟨db₁, result⟩ := received
  subst hresult
  exact ⟨hfollows, rfl, rfl,
    hstored.note (some b.info) db₁.medallionsUsed hstored.started hstored.reached⟩

/-- Whatever becomes of a bundler, the database goes on from the end of its chain or stays there. -/
theorem Steady.sealNext (h : db.Steady actor (some last) level) (hclock : s.clock.toInt ≤ level)
    (hfar : level + 20 ≤ ceiling) (bundler : Bundler) :
    let result := db.sealNext s last bundler
    ∃ next, result.1.chain = some next ∧ result.1.Steady actor (some next) (level + 20)
      ∧ (next = last ∨ Follows last next) ∧ ∀ info, result.2.2 = .ok info → next = info := by
  intro result
  cases hseal : bundler.sealWith
      (last.extend (db.timestamps.issue s.clock last.timestamp)) with
  | error e =>
      have hresult : result = ({ db with
          chain := some last, timestamps := ⟨db.timestamps.issue s.clock last.timestamp⟩ },
          bundler, .error (.bundle e)) := by
        simp only [result, Database.sealNext, TimestampSource.nextAfter_eq, hseal]
      rw [hresult]
      exact ⟨last, rfl, (h.issued hclock hfar).2, .inl rfl, fun info hinfo => by cases hinfo⟩
  | ok sealed =>
      obtain ⟨bundler', b⟩ := sealed
      obtain ⟨hfollows, hresult, hchain, hsteady⟩ := h.sealNext_of_sealed hclock hfar hseal
      refine ⟨b.info, hchain, hsteady, .inr hfollows, fun info hinfo => ?_⟩
      rw [hresult] at hinfo
      exact Except.ok.inj hinfo

/-- **An open bundler is sealed and stored** as the next bundle of the chain. -/
theorem Steady.sealNext_eq_ok (h : db.Steady actor (some last) level)
    (hclock : s.clock.toInt ≤ level) (hfar : level + 20 ≤ ceiling) (hopen : bundler.Open)
    (hsize : bundler.size < 0x8000000000000000)
    (hmedallion : ∀ m, bundler.medallion = some m → m = last.medallion) :
    ∃ db' bundler' info, db.sealNext s last bundler = (db', bundler', .ok info)
      ∧ Follows last info ∧ db'.Steady actor (some info) (level + 20) := by
  obtain ⟨ix, -, hwriter, -⟩ := h.store
  obtain ⟨-, before, hbefore⟩ := hwriter.filed _ _ (hwriter.own last rfl).1
  have hvalid : last.validate = .ok () := hbefore ▸ before.infoValid
  obtain ⟨bundler', b, hseal⟩ := Bundler.sealWith_eq_ok hopen
    (BundleInfo.validate_extend hvalid (h.issued hclock hfar).1) hmedallion hsize
  obtain ⟨hfollows, hresult, -, hsteady⟩ := h.sealNext_of_sealed hclock hfar hseal
  exact ⟨_, bundler', b.info, Prod.ext rfl hresult, hfollows, hsteady⟩

/-! ## Taking a chain -/

/-- A medallion under which no chain is stored or claimed yet. -/
structure Fresh (db : Database α) (medallion : Medallion) : Prop where
  positive : 0 < medallion
  unstored : ∀ chain ∈ db.store.index.chains.keys, chain.medallion ≠ medallion
  unclaimed : ∀ c ∈ db.store.index.claims, c.chain.medallion ≠ medallion

/-- Whether nobody alive has claimed a chain. -/
def Vacant (db : Database α) (s : Surroundings) (chain : ChainKey) : Prop :=
  ∀ c ∈ db.store.index.claims, s.isAlive c.actor = true → c.chain ≠ chain

/-- Somebody's chain is taken for the own one. -/
theorem Steady.claim (h : db.Steady actor own level) (hactor : db.actor s = actor)
    (hstore : db.store = .memory ix) (htip : ix.chains.get? last.chain = some last)
    (hlevel : last.timestamp.toInt ≤ level) :
    (db.claim s last.chain).Steady actor (some last) level := by
  obtain ⟨ix', hstore', hwriter, htracker⟩ := h.store
  obtain rfl : ix = ix' := Store.memory.inj (hstore.symm.trans hstore')
  refine ⟨⟨_, store_claim hstore s last.chain, ?_, htracker⟩, h.started, h.reached⟩
  rw [hactor]
  exact hwriter.claimChain htip hlevel

theorem Keeps.actor_eq (h : db.Keeps db') (s : Surroundings) : db'.actor s = db.actor s := by
  obtain ⟨peers, former, connections, effects, rfl⟩ := h
  rfl

/-- The time at which a chain is started. -/
def startTime (db : Database α) (s : Surroundings) : Timestamp :=
  db.timestamps.issue s.clock Int64.minValue

/-- What the first bundle of a chain says. -/
def firstInfo (db : Database α) (s : Surroundings) : BundleInfo :=
  (BundleInfo.first (s.medallion db.medallionsUsed) (db.startTime s)).withComment (db.identity s)

/-- The database once it has used up a medallion and a timestamp for a chain. -/
def readied (db : Database α) (s : Surroundings) : Database α :=
  { db with medallionsUsed := db.medallionsUsed + 1, timestamps := ⟨db.startTime s⟩ }

/-- The first bundle of a chain can be sealed, at a time that is not far. -/
theorem Steady.sealFirst (h : db.Steady actor none level) (hclock : s.clock.toInt ≤ level)
    (hfar : level + 20 ≤ ceiling)
    (hidentity : (Bytes.ofText (db.identity s)).length < 0x8000000000000000)
    (hmedallion : 0 < s.medallion db.medallionsUsed) :
    (db.readied s).Steady actor none (level + 20)
      ∧ ∃ bundler b, Bundler.new.sealWith (db.firstInfo s) = .ok (bundler, b) := by
  have hlevel : 0 ≤ level := Int.le_trans (Int64.le_iff_toInt_le.mp h.started) h.reached
  have hfloor : Int64.minValue.toInt ≤ level := Int.le_trans (by decide) hlevel
  obtain ⟨hrises, -, hnear⟩ := TimestampSource.issue_spec h.reached hclock hfloor hfar
  have hpos : 0 < db.startTime s := Std.lt_of_le_of_lt h.started hrises
  refine ⟨(h.mono (by omega)).note db.chain (db.medallionsUsed + 1) (Std.le_of_lt hpos) hnear, ?_⟩
  exact Bundler.sealWith_eq_ok .new (BundleInfo.validate_first hmedallion hpos)
    (fun m hm => by cases hm) hidentity

theorem startChain_eq (s : Surroundings) (db : Database α) : db.startChain s =
    match Bundler.new.sealWith (db.firstInfo s) with
    | .error e => (db.readied s, .error (.bundle e))
    | .ok (_, b) =>
      match (db.readied s).receiveDecoded s b none with
      | (db', .error e) => (db', .error e)
      | (db', .ok info) => (db'.claim s (db.firstInfo s).chain, .ok info) :=
  rfl

theorem startChain_of_sealed {bundler : Bundler}
    (hseal : Bundler.new.sealWith (db.firstInfo s) = .ok (bundler, b))
    (hresult : ((db.readied s).receiveDecoded s b none).2 = .ok b.info) : db.startChain s
      = (((db.readied s).receiveDecoded s b none).1.claim s (db.firstInfo s).chain,
        .ok b.info) := by
  rw [startChain_eq, hseal]
  dsimp only
  generalize (db.readied s).receiveDecoded s b none = received at hresult ⊢
  obtain ⟨db₁, result⟩ := received
  subst hresult
  rfl

/-- **A chain is started** under a medallion that is new, and nobody has claimed it. -/
theorem Steady.startChain (h : db.Steady actor none level) (hactor : db.actor s = actor)
    (hclock : s.clock.toInt ≤ level) (hfar : level + 20 ≤ ceiling)
    (hidentity : (Bytes.ofText (db.identity s)).length < 0x8000000000000000)
    (hfresh : db.Fresh (s.medallion db.medallionsUsed)) :
    ∃ first, (db.startChain s).2 = .ok first
      ∧ (db.startChain s).1.Steady actor (some first) (level + 20) ∧ db.Vacant s first.chain := by
  obtain ⟨hready, bundler, b, hseal⟩ := h.sealFirst hclock hfar hidentity hfresh.positive
  obtain ⟨-, -, ⟨comment, hinfo⟩, -⟩ := Bundler.parts_of_sealWith hseal
  have hchain : b.info.chain = (db.firstInfo s).chain := by
    rw [hinfo]
    rfl
  have hnear : b.info.timestamp.toInt ≤ level + 20 := by
    rw [hinfo]
    exact hready.reached
  obtain ⟨ix, hstore, hwriter, -⟩ := hready.store
  -- nothing is stored under the medallion, so the first bundle is new
  have hnew : ix.check b.info = .ok true := by
    rw [Index.check_eq_true_iff]
    cases htip : ix.chains.get? b.info.chain with
    | none =>
        rw [hinfo]
        rfl
    | some tip =>
        have hstore : db.store = .memory ix := hstore
        have hkey : b.info.chain ∈ db.store.index.chains.keys := by
          rw [hstore]
          exact SortedMap.mem_keys_iff.mpr ⟨tip, htip⟩
        exact absurd (congrArg ChainKey.medallion hchain) (hfresh.unstored _ hkey)
  have hunclaimed : (ix.apply b).HasWriter actor none (level + 20) :=
    hwriter.apply fun _ _ _ => hnear
  obtain ⟨hkept, hresult⟩ := receiveDecoded_of_new hstore hnew s none
  have hend : (ix.apply b).chains.get? b.info.chain = some b.info := by
    rw [Index.apply_chains, SortedMap.get?_insert_self]
  have hclaimed := (hready.stored hstore hnew hunclaimed s none).claim
    ((hkept.actor_eq s).trans hactor) hkept.store hend hnear
  rw [startChain_of_sealed hseal hresult, ← hchain]
  refine ⟨b.info, rfl, hclaimed, fun c hc _ heq => hfresh.unclaimed c hc ?_⟩
  rw [heq, hchain]
  rfl

/-- A chain is taken over whose writer is gone, and nobody alive has claimed it. -/
theorem Steady.takeOver (h : db.Steady actor none level) (hactor : db.actor s = actor)
    {chain : ChainKey} (hgone : db.abandonedChain? s = some (chain, last)) :
    (db.claim s chain).Steady actor (some last) level ∧ db.Vacant s last.chain := by
  obtain ⟨ix, hstore, hwriter, htracker⟩ := h.store
  obtain ⟨c, hc, hfound⟩ := List.exists_of_findSome?_eq_some hgone
  by_cases halive : s.isAlive c.actor = true
  · rw [if_pos halive] at hfound
    cases hfound
  · rw [if_neg halive, htracker] at hfound
    obtain ⟨tip, htip, heq⟩ := Option.map_eq_some_iff.mp hfound
    obtain ⟨rfl, rfl⟩ := Prod.mk.inj heq
    rw [hstore] at hc
    have htip : ix.chains.get? c.chain = some tip := htip
    have hchain : tip.chain = c.chain := (hwriter.filed _ _ htip).1
    rw [← hchain] at htip ⊢
    refine ⟨h.claim hactor hstore htip (hwriter.claimed c hc tip (hchain ▸ htip)),
      fun other hother hthere heq => ?_⟩
    rw [hstore] at hother
    obtain rfl : other = c := hwriter.claimedOnce.eq_of_mem hother hc (heq.trans hchain)
    exact halive hthere

/-! ## Requests -/

/-- What a request must be like so that a writer is not disturbed by it: the database is always the
same actor, the clock is not ahead of a bound, the length of the writer's name can be counted, and a
chain that is started gets a new medallion. What comes from outside does not go on along the
database's own chain, and if it goes on along another one that is claimed it is not ahead of the
bound either. -/
structure Undisturbed (actor : ActorId) (bound : Nat) (db : Database α)
    (request : Surroundings × Request α) : Prop where
  actor : db.actor request.1 = actor
  clock : request.1.clock.toInt ≤ bound
  identity : (Bytes.ofText (db.identity request.1)).length < 0x8000000000000000
  medallion : request.2.commits = true → db.chain = none →
    db.Fresh (request.1.medallion db.medallionsUsed)
  elsewhere : ∀ x ∈ request.2.brings db, db.store.accepts x.bundle = true →
    db.claimedChain? ≠ some x.bundle.info.chain
  bounded : ∀ x ∈ request.2.brings db, db.store.accepts x.bundle = true →
    ∀ c ∈ db.store.index.claims, c.chain = x.bundle.info.chain →
      x.bundle.info.timestamp.toInt ≤ bound

/-- Whether none of some requests disturbs a writer. -/
def UndisturbedAll (actor : ActorId) (bound : Nat) : Database α →
    List (Surroundings × Request α) → Prop
  | _, [] => True
  | db, request :: rest =>
    Undisturbed actor bound db request ∧ UndisturbedAll actor bound (db.serve request) rest

/-- Whether a chain is the same as before or longer, if there was one. -/
def Advances (own own' : Option BundleInfo) : Prop :=
  ∀ last, own = some last → ∃ last', own' = some last' ∧ last'.chain = last.chain
    ∧ last.timestamp ≤ last'.timestamp

theorem Advances.refl (own : Option BundleInfo) : Advances own own :=
  fun last hlast => ⟨last, hlast, rfl, Std.le_refl _⟩

theorem Advances.trans {own'' : Option BundleInfo} (h : Advances own own')
    (h' : Advances own' own'') : Advances own own'' := by
  intro last hlast
  obtain ⟨mid, hmid, hchain, hle⟩ := h last hlast
  obtain ⟨last', hlast', hchain', hle'⟩ := h' mid hmid
  exact ⟨last', hlast', hchain'.trans hchain, Std.le_trans hle hle'⟩

section Commit

variable {bound : Nat}

/-- **A database has a chain to go on along**, which is the one it had or one that nobody alive has
claimed. -/
theorem Steady.ownChain (h : db.Steady actor db.chain level)
    (hcommit : Undisturbed actor bound db (s, .call (.commit bundler))) (hbound : bound ≤ level)
    (hfar : level + 20 ≤ ceiling) :
    ∃ last, (db.ownChain s).2 = .ok last
      ∧ (db.ownChain s).1.Steady actor (some last) (level + 20)
      ∧ (∀ own, db.chain = some own → last = own)
      ∧ (db.chain = none → db.Vacant s last.chain) := by
  have hclock : s.clock.toInt ≤ level := Int.le_trans hcommit.clock hbound
  unfold Database.ownChain
  cases hchain : db.chain with
  | some last =>
      rw [hchain] at h
      exact ⟨last, rfl, h.mono (by omega), fun own hown => Option.some.inj hown,
        fun hnone => by cases hnone⟩
  | none =>
      rw [hchain] at h
      dsimp only
      rw [acquireChain]
      split
      · rename_i chain last hgone
        obtain ⟨hclaimed, hvacant⟩ := h.takeOver hcommit.actor hgone
        exact ⟨last, rfl, hclaimed.mono (by omega), (fun own hown => by cases hown),
          fun _ => hvacant⟩
      · obtain ⟨first, hresult, hsteady, hvacant⟩ := h.startChain hcommit.actor hclock hfar
          hcommit.identity (hcommit.medallion rfl hchain)
        exact ⟨first, hresult, hsteady, (fun own hown => by cases hown), fun _ => hvacant⟩

theorem addBundler_of_ownChain (hlast : (db.ownChain s).2 = .ok last) (bundler : Bundler) :
    db.addBundler s bundler = (db.ownChain s).1.sealNext s last bundler := by
  unfold Database.addBundler
  generalize db.ownChain s = owned at hlast ⊢
  obtain ⟨db₁, result⟩ := owned
  subst hlast
  rfl

/-- Whatever becomes of a commit, the database goes on along its chain or stays where it was. -/
theorem Steady.addBundler (h : db.Steady actor db.chain level)
    (hcommit : Undisturbed actor bound db (s, .call (.commit bundler))) (hbound : bound ≤ level)
    (hfar : level + 40 ≤ ceiling) :
    let result := db.addBundler s bundler
    result.1.Steady actor result.1.chain (level + 40) ∧ Advances db.chain result.1.chain
      ∧ ∀ info, result.2.2 = .ok info → result.1.chain = some info := by
  obtain ⟨last, hlast, hsteady, hsame, -⟩ := h.ownChain hcommit hbound (by omega)
  have hclock : s.clock.toInt ≤ level + 20 := Int.le_trans hcommit.clock (by omega)
  obtain ⟨next, hchain, hnext, hgoes, hresult⟩ := hsteady.sealNext hclock (by omega) bundler
  intro result
  rw [show result = _ from addBundler_of_ownChain hlast bundler, hchain]
  refine ⟨hnext.mono (by omega), fun own hown => ⟨next, rfl, ?_⟩, fun info hinfo => ?_⟩
  · obtain rfl : last = own := hsame own hown
    rcases hgoes with rfl | hfollows
    · exact ⟨rfl, Std.le_refl _⟩
    · exact ⟨hfollows.chain, Std.le_of_lt hfollows.later⟩
  · rw [hresult info hinfo]

/-- What a request brings from outside leaves the writer where it is. -/
theorem Steady.receive {request : Surroundings × Request α} {bytes : Bytes}
    {sender : Option PeerId} (h : db.Steady actor db.chain level)
    (hrequest : Undisturbed actor bound db request) (hbound : bound ≤ level)
    (hbrings : ∀ b, Bundle.decode bytes = .ok b → ⟨b, sender⟩ ∈ request.2.brings db)
    (s : Surroundings) :
    (db.receive s bytes sender).1.Steady actor db.chain level
      ∧ (db.receive s bytes sender).1.chain = db.chain := by
  unfold Database.receive
  split
  · exact h.keeps (keeps_dropSender db sender)
  · rename_i b hdecode
    have hb := hbrings b hdecode
    refine h.receiveDecoded (fun haccepts last hlast heq => ?_)
      (fun haccepts c hc hchain => ?_) s sender
    · refine hrequest.elsewhere _ hb haccepts ?_
      rw [claimedChain?, hlast, Option.map_some, heq]
    · exact Int.le_trans (hrequest.bounded _ hb haccepts c hc hchain) hbound

theorem Steady.handleFrame {sender : PeerId} {bytes : Bytes} (h : db.Steady actor db.chain level)
    (hrequest : Undisturbed actor bound db (s, .call (.frame sender bytes)))
    (hbound : bound ≤ level) :
    (db.handleFrame s sender bytes).1.Steady actor db.chain level
      ∧ (db.handleFrame s sender bytes).1.chain = db.chain := by
  unfold Database.handleFrame
  split
  · exact h.keeps (.refl db)
  · rename_i p hp
    split
    · exact h.keeps (keeps_disconnect db sender)
    · exact h.keeps (keeps_receiveGreeting s db p _)
    · rename_i inner hdecode
      refine h.receive hrequest hbound (fun b hinner => ?_) s
      have hpeer : db.peers.contains sender = true := by
        rw [SortedMap.contains, hp]
        rfl
      simp [Request.brings, Call.brought?, hpeer, hdecode, hinner, Except.toOption]
    · exact h.keeps ⟨_, _, _, _, rfl⟩

/-- **A request that does not disturb a writer leaves it steady**, on the chain on which it was. -/
theorem Steady.serve {request : Surroundings × Request α} (h : db.Steady actor db.chain level)
    (hrequest : Undisturbed actor bound db request) (hbound : bound ≤ level)
    (hfar : level + 40 ≤ ceiling) :
    (db.serve request).Steady actor (db.serve request).chain (level + 40)
      ∧ Advances db.chain (db.serve request).chain := by
  have hstays {db' : Database α} (hdb' : db'.Steady actor db.chain level ∧ db'.chain = db.chain) :
      db'.Steady actor db'.chain (level + 40) ∧ Advances db.chain db'.chain := by
    rw [hdb'.2]
    exact ⟨hdb'.1.mono (by omega), .refl _⟩
  obtain ⟨s, request⟩ := request
  cases request with
  | call call =>
      cases call with
      | commit bundler =>
          obtain ⟨hsteady, hadvances, -⟩ := h.addBundler hrequest hbound hfar
          exact ⟨hsteady, hadvances⟩
      | receive bytes sender =>
          refine hstays (h.receive hrequest hbound (fun b hdecode => ?_) s)
          simp [Request.brings, Call.brought?, hdecode, Except.toOption]
      | connect id => exact hstays (h.keeps (keeps_connect s db id))
      | frame sender bytes => exact hstays (h.handleFrame hrequest hbound)
  | disconnect id => exact hstays (h.keeps (keeps_disconnect db id))
  | addListener container remoteOnly label =>
      exact hstays ⟨⟨h.store, h.started, h.reached⟩, rfl⟩
  | removeListener id => exact hstays ⟨⟨h.store, h.started, h.reached⟩, rfl⟩

/-! ## Runs -/

/-- **After a run that does not disturb it** a writer is steady, on the chain on which it was. -/
theorem Steady.serveAll {requests : List (Surroundings × Request α)}
    (h : db.Steady actor db.chain level) (hrun : UndisturbedAll actor bound db requests)
    (hbound : bound ≤ level) (hfar : level + 40 * requests.length ≤ ceiling) :
    let served := requests.foldl Database.serve db
    served.Steady actor served.chain (level + 40 * requests.length)
      ∧ Advances db.chain served.chain := by
  induction requests generalizing db level with
  | nil =>
      rw [List.length_nil, Int.natCast_zero, Int.mul_zero, Int.add_zero]
      exact ⟨h, .refl _⟩
  | cons request rest ih =>
      rw [List.length_cons] at hfar ⊢
      obtain ⟨hfirst, hrest⟩ := hrun
      obtain ⟨hsteady, hadvances⟩ := h.serve hfirst hbound (by omega)
      obtain ⟨hsteady', hadvances'⟩ := ih hsteady hrest (by omega) (by omega)
      exact ⟨hsteady'.mono (by omega), hadvances.trans hadvances'⟩

/-- What a commit that goes on along a chain leaves behind. -/
structure Committed (actor : ActorId) (s : Surroundings) (db : Database α) (info : BundleInfo)
    (db' : Database α) : Prop where
  /-- It continues what was the end of the chain just before. -/
  follows : ∃ tip, (db.ownChain s).1.store.index.chains.get? info.chain = some tip
    ∧ Follows tip info
  positive : 0 < info.timestamp
  /-- A chain that somebody alive has claimed is not taken. -/
  vacant : db.chain = none → db.Vacant s info.chain
  /-- The chain is claimed once, by the actor. -/
  claimed : db'.store.index.claims.filter (·.chain = info.chain) = [⟨info.chain, actor⟩]
  stored : db'.store.index.chains.get? info.chain = some info

theorem Steady.commit (h : db.Steady actor db.chain level)
    (hcommit : Undisturbed actor bound db (s, .call (.commit bundler))) (hbound : bound ≤ level)
    (hfar : level + 40 ≤ ceiling) (hopen : bundler.Open)
    (hsize : bundler.size < 0x8000000000000000)
    (hmedallion : ∀ last m, (db.ownChain s).2 = .ok last → bundler.medallion = some m →
      m = last.medallion) :
    ∃ db' bundler' info, db.addBundler s bundler = (db', bundler', .ok info)
      ∧ Committed actor s db info db'
      ∧ ∀ own, db.chain = some own → info.chain = own.chain ∧ own.timestamp < info.timestamp := by
  obtain ⟨last, hlast, hsteady, hsame, hvacant⟩ := h.ownChain hcommit hbound (by omega)
  have hclock : s.clock.toInt ≤ level + 20 := Int.le_trans hcommit.clock (by omega)
  obtain ⟨db', bundler', info, hseal, hfollows, hsteady'⟩ :=
    hsteady.sealNext_eq_ok hclock (by omega) hopen hsize fun m hm => hmedallion last m hlast hm
  obtain ⟨ix, hstore, hwriter, -⟩ := hsteady.store
  obtain ⟨ix', hstore', hwriter', -⟩ := hsteady'.store
  obtain ⟨htip, -⟩ := hwriter.own last rfl
  obtain ⟨hstored, hclaims⟩ := hwriter'.own info rfl
  obtain ⟨-, before, hbefore⟩ := hwriter.filed _ _ htip
  refine ⟨db', bundler', info, (addBundler_of_ownChain hlast bundler).trans hseal,
    ⟨⟨last, ?_, hfollows⟩, ?_, fun hnone => ?_, ?_, ?_⟩, fun own hown => ?_⟩
  · rw [hfollows.chain, hstore]
    exact htip
  · exact Std.lt_trans (hbefore ▸ before.timestamp_pos) hfollows.later
  · rw [hfollows.chain]
    exact hvacant hnone
  · rw [hstore']
    exact hclaims
  · rw [hstore']
    exact hstored
  · obtain rfl : last = own := hsame own hown
    exact ⟨hfollows.chain, hfollows.later⟩

end Commit

end Database

end GossipStore
