import GossipStore.Database.Frame
import GossipStore.Proofs.Gossip.Writing
import GossipStore.Proofs.Index.Bundles
import GossipStore.Proofs.Index.Chains

set_option autoImplicit false

/-! # What becomes of a commit

A database in memory goes on from the last bundle of its chain that it knows of itself, while the
store goes on from whatever has arrived. As long as nobody else writes on the chain both are the
same: every end of a chain in the store has come from elsewhere or is the bundle that the database
remembers (`Accounted`), and each operation keeps that (`Accounted.performAll`). So a
commit that is reported as a success has been stored, unless a bundle of its chain that is as late
has come from elsewhere: then the store has passed it over as known (`commit_stored_or_overtaken`).
-/

namespace GossipStore.Database

variable {α : Type} {db db' : Database α} {ix : Index} {s : Surroundings}

/-! ## What keeps the store -/

/-- Whether two databases differ in their connections and their effects only. -/
def Keeps (db db' : Database α) : Prop :=
  ∃ peers former connections effects, db' = { db with peers, former, connections, effects }

theorem Keeps.refl (db : Database α) : db.Keeps db := ⟨_, _, _, _, rfl⟩

theorem Keeps.trans {db'' : Database α} (h : db.Keeps db') (h' : db'.Keeps db'') :
    db.Keeps db'' := by
  obtain ⟨peers, former, connections, effects, rfl⟩ := h
  obtain ⟨peers', former', connections', effects', rfl⟩ := h'
  exact ⟨peers', former', connections', effects', rfl⟩

theorem Keeps.store (h : db.Keeps db') : db'.store = db.store := by
  obtain ⟨peers, former, connections, effects, rfl⟩ := h
  rfl

theorem Keeps.chain (h : db.Keeps db') : db'.chain = db.chain := by
  obtain ⟨peers, former, connections, effects, rfl⟩ := h
  rfl

theorem keeps_disconnect (db : Database α) (id : PeerId) : db.Keeps (db.disconnect id) := by
  rw [disconnect]
  split <;> exact ⟨_, _, _, _, rfl⟩

theorem keeps_absorbOrDrop {β : Type} (db : Database α) (o : Peer.Outcome β) :
    db.Keeps (db.absorbOrDrop o) := by
  have habsorb : db.Keeps (db.absorb o) := ⟨_, _, _, _, rfl⟩
  rw [absorbOrDrop]
  split
  · exact habsorb
  · exact habsorb.trans (keeps_disconnect _ _)

theorem keeps_dropSender (db : Database α) (sender : Option PeerId) :
    db.Keeps (db.dropSender sender) := by
  cases sender with
  | none => exact .refl db
  | some id => exact keeps_disconnect db id

theorem keeps_acknowledge (s : Surroundings) (db : Database α) (info : BundleInfo)
    (sender : PeerId) : db.Keeps (db.acknowledge s info sender) := by
  rw [acknowledge]
  split
  · exact .refl db
  · exact keeps_absorbOrDrop _ _

theorem keeps_passOn (s : Surroundings) (db : Database α) (b : Bundle) (sender : Option PeerId) :
    db.Keeps (db.passOn s b sender) := by
  rw [passOn]
  -- on the peers to which the bundle is passed on
  generalize db.peersExcept sender = ids
  induction ids generalizing db with
  | nil => exact .refl db
  | cons id rest ih =>
      have hoffer : db.Keeps (offerTo s b db id) := by
        rw [offerTo]
        split
        · exact .refl db
        · exact keeps_absorbOrDrop _ _
      exact hoffer.trans (ih _)

theorem keeps_connect (s : Surroundings) (db : Database α) (id : PeerId) :
    db.Keeps (db.connect s id).1 := by
  have hclosed := keeps_disconnect db id
  unfold Database.connect
  split
  · exact .refl db
  · dsimp only
    generalize Peer.new db.connections id db.config.handshakeTimeout.toNat s.now = peer
    have hopened : db.Keeps
        { (db.disconnect id).setPeer peer with connections := db.connections + 1 } :=
      hclosed.trans ⟨_, _, _, _, rfl⟩
    split
    · exact hopened
    · exact hopened.trans (keeps_absorbOrDrop _ _)

theorem keeps_receiveGreeting (s : Surroundings) (db : Database α) (p : Peer) (greeting : Bytes) :
    db.Keeps (db.receiveGreeting s p greeting).1 := by
  unfold receiveGreeting
  split
  · exact keeps_disconnect _ _
  · split
    · rename_i q _ _
      have hset : db.Keeps (db.setPeer q) := ⟨_, _, _, _, rfl⟩
      exact hset.trans (keeps_disconnect _ _)
    · exact keeps_absorbOrDrop _ _

/-! ## Storing a bundle -/

theorem add_memory (ix : Index) (b : Bundle) : (Store.memory ix).add b
    = (ix.check b.info).map fun novel => (.memory (if novel then ix.apply b else ix), novel) := by
  rw [Store.add, Index.add_eq]
  cases ix.check b.info <;> rfl

/-- **What taking in a bundle does to a store in memory** is what the index decides. -/
theorem receiveDecoded_cases (hstore : db.store = .memory ix) (s : Surroundings) (b : Bundle)
    (sender : Option PeerId) :
    (ix.check b.info = .ok true
        ∧ ({ db with store := .memory (ix.apply b) }.track b.info).Keeps
          (db.receiveDecoded s b sender).1
        ∧ (db.receiveDecoded s b sender).2 = .ok b.info)
      ∨ (ix.check b.info = .ok false ∧ db.receiveDecoded s b sender = (db, .ok b.info))
      ∨ ∃ e, ix.check b.info = .error e ∧ db.Keeps (db.receiveDecoded s b sender).1
        ∧ (db.receiveDecoded s b sender).2 = .error (.store e) := by
  unfold receiveDecoded
  rw [hstore, add_memory]
  cases ix.check b.info with
  | error e =>
      refine .inr (.inr ⟨e, rfl, ?_, rfl⟩)
      change db.Keeps (if e.isChainViolation then db.dropSender sender else db)
      split
      · exact keeps_dropSender db sender
      · exact .refl db
  | ok novel =>
      cases novel with
      | false => exact .inr (.inl ⟨rfl, rfl⟩)
      | true =>
          let stored := { db with store := .memory (ix.apply b) }.track b.info
          -- all that follows is telling others
          have hnotify (db : Database α) (remote : Bool) : db.Keeps (db.notify b remote) :=
            ⟨_, _, _, _, rfl⟩
          cases sender with
          | none => exact .inl ⟨rfl, (keeps_passOn s stored b none).trans (hnotify _ _), rfl⟩
          | some id =>
              have htold := (keeps_acknowledge s stored b.info id).trans
                (keeps_passOn s _ b (some id))
              exact .inl ⟨rfl, htold.trans (hnotify _ _), rfl⟩

/-! ## Runs -/

/-- A call of an operation that may store bundles or deals with a peer. -/
inductive Call where
  | commit (bundler : Bundler)
  | receive (bytes : Bytes) (sender : Option PeerId)
  | connect (id : PeerId)
  | frame (sender : PeerId) (bytes : Bytes)

/-- The bundle that a call brings from elsewhere. -/
def Call.brought? : Call → Option Bundle
  | .receive bytes _ => (Bundle.decode bytes).toOption
  | .frame _ bytes =>
    match Message.decode bytes with
    | .ok (.bundle bytes) => (Bundle.decode bytes).toOption
    | _ => none
  | .commit _ | .connect _ => none

/-- The database after a call in some surroundings. -/
def perform (db : Database α) (call : Surroundings × Call) : Database α :=
  match call with
  | (s, .commit bundler) => (db.addBundler s bundler).1
  | (s, .receive bytes sender) => (db.receive s bytes sender).1
  | (s, .connect id) => (db.connect s id).1
  | (s, .frame sender bytes) => (db.handleFrame s sender bytes).1

/-- The database after some calls. -/
def performAll (db : Database α) (calls : List (Surroundings × Call)) : Database α :=
  calls.foldl perform db

/-- Whether the end of a chain was there from the start or has been brought by a call. -/
def Foreign (start : Index) (calls : List (Surroundings × Call)) (c : ChainKey)
    (tip : BundleInfo) : Prop :=
  start.chains.get? c = some tip
    ∨ ∃ call ∈ calls, ∃ b, call.2.brought? = some b ∧ b.info = tip ∧ tip.chain = c

/-- Whether every end of a chain in the store is foreign or a given bundle, if there is one. -/
def Ends (start : Index) (calls : List (Surroundings × Call)) (ix : Index)
    (last : Option BundleInfo) : Prop :=
  ∀ c tip, ix.chains.get? c = some tip →
    Foreign start calls c tip ∨ last = some tip ∧ tip.chain = c

/-- A database in memory that knows of every end of a chain that is not foreign. -/
def Accounted (start : Index) (calls : List (Surroundings × Call)) (db : Database α) : Prop :=
  ∃ ix, db.store = .memory ix ∧ Ends start calls ix db.chain

section Runs

variable {start : Index} {calls : List (Surroundings × Call)} {last : Option BundleInfo}
  {b : Bundle}

theorem Foreign.mono {c : ChainKey} {tip : BundleInfo} (h : Foreign start calls c tip)
    (call : Surroundings × Call) : Foreign start (calls ++ [call]) c tip :=
  h.imp_right fun ⟨other, hother, hb⟩ => ⟨other, List.mem_append_left _ hother, hb⟩

theorem Ends.mono (h : Ends start calls ix last) (call : Surroundings × Call) :
    Ends start (calls ++ [call]) ix last :=
  fun c tip htip => (h c tip htip).imp_left fun hforeign => hforeign.mono call

theorem Accounted.mono (h : db.Accounted start calls) (call : Surroundings × Call) :
    db.Accounted start (calls ++ [call]) :=
  h.imp fun _ hix => ⟨hix.1, hix.2.mono call⟩

theorem Accounted.keeps (h : db.Accounted start calls) (hkeeps : db.Keeps db') :
    db'.Accounted start calls := by
  obtain ⟨ix, hstore, hends⟩ := h
  refine ⟨ix, hkeeps.store.trans hstore, ?_⟩
  rw [hkeeps.chain]
  exact hends

/-- A bundle that goes into the store is the end of its chain, and the other ends stay. -/
theorem Ends.apply (h : Ends start calls ix last) {last' : Option BundleInfo}
    (hb : Foreign start calls b.info.chain b.info ∨ last' = some b.info)
    (hlast : ∀ tip, last = some tip → tip.chain ≠ b.info.chain → last' = some tip) :
    Ends start calls (ix.apply b) last' := by
  intro c tip htip
  rw [Index.apply_chains] at htip
  by_cases hc : c = b.info.chain
  · rw [hc, SortedMap.get?_insert_self] at htip
    obtain rfl : b.info = tip := Option.some.inj htip
    rw [hc]
    exact hb.imp_right fun hlast => ⟨hlast, rfl⟩
  · rw [SortedMap.get?_insert_of_ne _ hc] at htip
    refine (h c tip htip).imp_right fun ⟨htip, hchain⟩ => ⟨hlast tip htip ?_, hchain⟩
    exact fun heq => hc (hchain.symm.trans heq)

/-- What a peer or a caller brings is accounted for. -/
theorem Accounted.receiveDecoded (h : db.Accounted start calls)
    (hb : Foreign start calls b.info.chain b.info) (s : Surroundings) (sender : Option PeerId) :
    (db.receiveDecoded s b sender).1.Accounted start calls := by
  obtain ⟨ix, hstore, hends⟩ := h
  rcases receiveDecoded_cases hstore s b sender with
    ⟨-, hkept, -⟩ | ⟨-, heq⟩ | ⟨e, -, hkeeps, -⟩
  · refine ⟨ix.apply b, hkept.store, ?_⟩
    rw [hkept.chain]
    exact hends.apply (.inl hb) fun tip htip _ => htip
  · rw [heq]
    exact ⟨ix, hstore, hends⟩
  · exact Accounted.keeps ⟨ix, hstore, hends⟩ hkeeps

theorem Accounted.receive (h : db.Accounted start calls) {bytes : Bytes} {sender : Option PeerId}
    (hb : ∀ b, Bundle.decode bytes = .ok b → Foreign start calls b.info.chain b.info)
    (s : Surroundings) : (db.receive s bytes sender).1.Accounted start calls := by
  unfold Database.receive
  split
  · exact h.keeps (keeps_dropSender db sender)
  · rename_i b hdecode
    exact h.receiveDecoded (hb b hdecode) s sender

theorem Accounted.handleFrame (h : db.Accounted start calls) {sender : PeerId} {bytes : Bytes}
    (hb : ∀ b, (Call.frame sender bytes).brought? = some b →
      Foreign start calls b.info.chain b.info) (s : Surroundings) :
    (db.handleFrame s sender bytes).1.Accounted start calls := by
  unfold Database.handleFrame
  split
  · exact h
  · rename_i p hp
    split
    · exact h.keeps (keeps_disconnect db sender)
    · exact h.keeps (keeps_receiveGreeting s db p _)
    · rename_i inner hdecode
      refine h.receive (fun b hinner => hb b ?_) s
      simp only [Call.brought?, hdecode, hinner]
      rfl
    · exact h.keeps ⟨_, _, _, _, rfl⟩

/-! ## Committing -/

theorem Ends.of_none (h : Ends start calls ix none) (last : Option BundleInfo) :
    Ends start calls ix last :=
  fun c tip htip => (h c tip htip).imp_right fun hnone => by cases hnone.1

/-- A claim does not move the ends of chains. -/
theorem store_claim (hstore : db.store = .memory ix) (s : Surroundings) (chain : ChainKey) :
    (db.claim s chain).store = .memory (ix.claimChain chain (db.actor s)) := by
  rw [claim, hstore]
  rfl

/-- A chain that is started ends with its first bundle, unless it was there already. -/
theorem Accounted.startChain (hstore : db.store = .memory ix) (hchain : db.chain = none)
    (hends : Ends start calls ix none) (s : Surroundings) :
    ∃ ix', (db.startChain s).1.store = .memory ix' ∧ (db.startChain s).1.chain = none
      ∧ Ends start calls ix' (db.startChain s).2.toOption := by
  unfold Database.startChain
  -- the argument holds for any timestamp, so nothing has to be known of the clock
  generalize db.timestamps.next s.clock = stamped
  obtain ⟨timestamps, time⟩ := stamped
  dsimp only
  generalize hready : { db with medallionsUsed := db.medallionsUsed + 1, timestamps } = ready
  have hstore : ready.store = .memory ix := hready ▸ hstore
  have hchain : ready.chain = none := hready ▸ hchain
  split
  · exact ⟨ix, hstore, hchain, hends⟩
  · rename_i bundler b hseal
    have hcases := receiveDecoded_cases hstore s b none
    generalize ready.receiveDecoded s b none = received at hcases ⊢
    obtain ⟨db₁, result⟩ := received
    rcases hcases with ⟨-, hkept, rfl⟩ | ⟨-, heq⟩ | ⟨e, -, hkeeps, rfl⟩
    · exact ⟨_, store_claim hkept.store s _, hkept.chain.trans hchain,
        hends.apply (.inr rfl) fun tip htip _ => by cases htip⟩
    · obtain ⟨rfl, rfl⟩ := Prod.mk.inj heq
      exact ⟨_, store_claim hstore s _, hchain, hends.of_none _⟩
    · exact ⟨ix, hkeeps.store.trans hstore, hkeeps.chain.trans hchain, hends⟩

/-- Whatever becomes of taking a chain, what it ends with is known. -/
theorem Accounted.ownChain (h : db.Accounted start calls) (s : Surroundings) :
    ∃ ix, (db.ownChain s).1.store = .memory ix ∧ match (db.ownChain s).2 with
      | .ok last => Ends start calls ix (some last)
      | .error _ => Ends start calls ix (db.ownChain s).1.chain := by
  obtain ⟨ix, hstore, hends⟩ := h
  unfold Database.ownChain
  cases hchain : db.chain with
  | some last =>
      rw [hchain] at hends
      exact ⟨ix, hstore, hends⟩
  | none =>
      rw [hchain] at hends
      dsimp only
      rw [acquireChain]
      split
      · -- a chain is taken over as it is, and no end is the database's own yet
        exact ⟨_, store_claim hstore s _, hends.of_none _⟩
      · obtain ⟨ix', hstore', hchain', hends'⟩ := Accounted.startChain hstore hchain hends s
        refine ⟨ix', hstore', ?_⟩
        generalize db.startChain s = started at hchain' hends' ⊢
        obtain ⟨db₁, result⟩ := started
        cases result with
        | ok last => exact hends'
        | error e =>
            change Ends start calls ix' db₁.chain
            rw [show db₁.chain = none from hchain']
            exact hends'

/-- What is sealed as the next bundle of a chain. -/
structure NextOf (last : BundleInfo) (bundler : Bundler) (b : Bundle) : Prop where
  changes : b.changes = bundler.changes
  chain : b.info.chain = last.chain
  later : last.timestamp < b.info.timestamp

theorem nextOf_of_sealWith {bundler bundler' : Bundler} {last : BundleInfo} {t : Timestamp}
    (h : bundler.sealWith (last.extend t) = .ok (bundler', b)) : NextOf last bundler b := by
  obtain ⟨-, -, ⟨comment, hinfo⟩, hchanges⟩ := Bundler.parts_of_sealWith h
  refine ⟨hchanges, by rw [hinfo]; rfl, ?_⟩
  have hprior : b.prior = last.timestamp := by rw [Bundle.prior, hinfo]; rfl
  exact hprior ▸ b.prior_lt

/-- **What becomes of a bundler** that is sealed as the next bundle of a chain: it is stored, passed
over as known, or an error is reported. -/
theorem sealNext_cases (hstore : db.store = .memory ix) (s : Surroundings) (last : BundleInfo)
    (bundler : Bundler) :
    let result := db.sealNext s last bundler
    (∃ e, result.2.2 = .error e ∧ result.1.store = .memory ix ∧ result.1.chain = some last)
      ∨ ∃ b, NextOf last bundler b ∧ result.2.2 = .ok b.info ∧ result.2.1.sealed = some b
        ∧ result.1.chain = some b.info
        ∧ (ix.check b.info = .ok true ∧ result.1.store = .memory (ix.apply b)
          ∨ ix.check b.info = .ok false ∧ result.1.store = .memory ix) := by
  intro result
  unfold result sealNext
  generalize db.timestamps.nextAfter s.clock last.timestamp = stamped
  obtain ⟨timestamps, t⟩ := stamped
  dsimp only
  generalize hready : { db with chain := some last, timestamps } = ready
  have hstore : ready.store = .memory ix := hready ▸ hstore
  have hchain : ready.chain = some last := hready ▸ rfl
  split
  · rename_i e hseal
    exact .inl ⟨_, rfl, hstore, hchain⟩
  · rename_i bundler' b hseal
    have hnext := nextOf_of_sealWith hseal
    have hsealed : bundler'.sealed = some b := by
      rw [(Bundler.parts_of_sealWith hseal).2.1]
    have hcases := receiveDecoded_cases hstore s b none
    generalize ready.receiveDecoded s b none = received at hcases ⊢
    obtain ⟨db₁, outcome⟩ := received
    rcases hcases with ⟨hcheck, hkept, rfl⟩ | ⟨hcheck, heq⟩ | ⟨e, -, hkeeps, rfl⟩
    · exact .inr ⟨b, hnext, rfl, hsealed, rfl, .inl ⟨hcheck, hkept.store⟩⟩
    · obtain ⟨rfl, rfl⟩ := Prod.mk.inj heq
      exact .inr ⟨b, hnext, rfl, hsealed, rfl, .inr ⟨hcheck, hstore⟩⟩
    · exact .inl ⟨.store e, rfl, hkeeps.store.trans hstore, hkeeps.chain.trans hchain⟩

/-- Only a foreign end of a chain is as late as what its writer seals next. -/
theorem Ends.foreign {bundler : Bundler} {last tip : BundleInfo}
    (h : Ends start calls ix (some last)) (hnext : NextOf last bundler b)
    (htip : ix.chains.get? b.info.chain = some tip) (hle : b.info.timestamp ≤ tip.timestamp) :
    Foreign start calls b.info.chain tip := by
  refine (h _ tip htip).resolve_right ?_
  rintro ⟨hlast, -⟩
  obtain rfl : last = tip := Option.some.inj hlast
  exact Std.not_le.mpr hnext.later hle

theorem Accounted.sealNext {last : BundleInfo} (hstore : db.store = .memory ix)
    (hends : Ends start calls ix (some last)) (s : Surroundings) (bundler : Bundler) :
    (db.sealNext s last bundler).1.Accounted start calls := by
  rcases sealNext_cases hstore s last bundler with ⟨e, -, hstored, hchain⟩ |
      ⟨b, hnext, -, -, hchain, ⟨-, hstored⟩ | ⟨hknown, hstored⟩⟩
  · refine ⟨ix, hstored, ?_⟩
    rw [hchain]
    exact hends
  · refine ⟨ix.apply b, hstored, ?_⟩
    rw [hchain]
    refine hends.apply (.inr rfl) fun tip htip hne => ?_
    obtain rfl : last = tip := Option.some.inj htip
    exact absurd hnext.chain.symm hne
  · refine ⟨ix, hstored, fun c tip htip => ?_⟩
    refine (hends c tip htip).imp_right fun ⟨hlast, hc⟩ => ?_
    -- the end of the own chain is foreign if it has overtaken what is sealed
    obtain rfl : last = tip := Option.some.inj hlast
    obtain ⟨tip, htip', hle⟩ := Index.check_eq_false_iff.mp hknown
    rw [hnext.chain, hc, htip] at htip'
    obtain rfl : last = tip := Option.some.inj htip'
    exact absurd hle (Std.not_le.mpr hnext.later)

theorem Accounted.addBundler (h : db.Accounted start calls) (s : Surroundings)
    (bundler : Bundler) : (db.addBundler s bundler).1.Accounted start calls := by
  obtain ⟨ix, hstore, hends⟩ := h.ownChain s
  unfold Database.addBundler
  generalize db.ownChain s = owned at hstore hends ⊢
  obtain ⟨db₁, result⟩ := owned
  cases result with
  | error e => exact ⟨ix, hstore, hends⟩
  | ok last => exact Accounted.sealNext hstore hends s bundler

/-- **Every call keeps a database accounted for**, whatever it brings. -/
theorem Accounted.perform (h : db.Accounted start calls) (call : Surroundings × Call) :
    (db.perform call).Accounted start (calls ++ [call]) := by
  have h := h.mono call
  have hbrought (b : Bundle) (hb : call.2.brought? = some b) :
      Foreign start (calls ++ [call]) b.info.chain b.info :=
    .inr ⟨call, List.mem_append_right _ (List.mem_singleton.mpr rfl), b, hb, rfl, rfl⟩
  obtain ⟨s, call⟩ := call
  cases call with
  | commit bundler => exact h.addBundler s bundler
  | receive bytes sender =>
      refine h.receive (fun b hdecode => hbrought b ?_) s
      rw [Call.brought?, hdecode]
      rfl
  | connect id => exact h.keeps (keeps_connect s db id)
  | frame sender bytes => exact h.handleFrame hbrought s

/-- **After a run** every end of a chain is foreign or known to the database. -/
theorem Accounted.performAll (h : db.Accounted start calls) (more : List (Surroundings × Call)) :
    (db.performAll more).Accounted start (calls ++ more) := by
  -- on the calls still to come, with those that have been made growing
  induction more generalizing db calls with
  | nil =>
      rw [List.append_nil]
      exact h
  | cons call rest ih =>
      rw [List.append_cons]
      exact ih (h.perform call)

theorem accounted_ofStore (ix : Index) (config : Config) (attached : Bool) :
    let db : Database α := ofStore (.memory ix) config attached
    db.Accounted db.store.index [] := by
  intro db
  have hstore : db.store = .memory db.store.index := by
    simp only [db, ofStore]
    split <;> rfl
  exact ⟨db.store.index, hstore, fun c tip htip => .inl (.inl htip)⟩

end Runs

/-- **A commit that succeeds has been stored or has been overtaken.** Open a database in memory,
make any calls, and commit a bundler with success. The bundler has been sealed as a bundle with its
changes, of the time that is reported. If the end of its chain in the store was earlier, the bundle
is in the list of bundles, byte for byte, and its changes have been applied. Otherwise the store
is left as it was, and the end of the chain is foreign: it had been in the store from the start or
some call has brought it. -/
theorem commit_stored_or_overtaken {ix : Index} {config : Config} {attached : Bool}
    {calls : List (Surroundings × Call)} {s : Surroundings} {bundler bundler' : Bundler}
    {info : BundleInfo} {db' : Database α}
    (hok : ((ofStore (.memory ix) config attached).performAll calls).addBundler s bundler
      = (db', bundler', .ok info)) :
    let opened : Database α := ofStore (.memory ix) config attached
    let before := ((opened.performAll calls).ownChain s).1.store.index
    ∃ bundle, bundler'.sealed = some bundle ∧ bundle.info = info
      ∧ bundle.changes = bundler.changes
      ∧ ((∀ tip, before.chains.get? info.chain = some tip → tip.timestamp < info.timestamp)
          ∧ bundle ∈ db'.store.index.bundleList ∧ db'.store = .memory (before.apply bundle)
        ∨ db'.store = .memory before ∧ ∃ tip, before.chains.get? info.chain = some tip
          ∧ info.timestamp ≤ tip.timestamp
          ∧ Foreign opened.store.index calls info.chain tip) := by
  intro opened before
  have haccounted : (opened.performAll calls).Accounted opened.store.index calls :=
    (accounted_ofStore ix config attached).performAll calls
  obtain ⟨ix', hstore, hends⟩ := haccounted.ownChain s
  have hbefore : before = ix' := by simp only [before, hstore]; rfl
  rw [hbefore]
  unfold addBundler at hok
  generalize (opened.performAll calls).ownChain s = owned at hstore hends hok
  obtain ⟨db₁, result⟩ := owned
  cases result with
  | error e => cases (Prod.mk.inj (Prod.mk.inj hok).2).2
  | ok last =>
      have hcases := sealNext_cases hstore s last bundler
      rw [show db₁.sealNext s last bundler = (db', bundler', .ok info) from hok] at hcases
      rcases hcases with ⟨e, herror, -⟩ | ⟨b, hnext, hinfo, hsealed, -, hcheck⟩
      · cases herror
      · obtain rfl : info = b.info := Except.ok.inj hinfo
        refine ⟨b, hsealed, rfl, hnext.changes, ?_⟩
        rcases hcheck with ⟨hnew, hstored⟩ | ⟨hknown, hstored⟩
        · refine .inl ⟨fun tip htip => Index.lt_of_check_eq_true hnew htip, ?_, hstored⟩
          rw [hstored]
          exact Index.mem_bundleList_apply _ b
        · obtain ⟨tip, htip, hle⟩ := Index.check_eq_false_iff.mp hknown
          exact .inr ⟨hstored, tip, htip, hle, hends.foreign hnext htip hle⟩

/-- A database that has heard of another chain in the meantime commits once more on its own. -/
theorem commit_stored_or_overtaken_ownChain :
    let s : Surroundings :=
      ⟨0, 1000, fun _ => .ok (), fun _ => 5, fun _ => true, ⟨none, none, none⟩, 1⟩
    let change : Change := .setKey .root (.text "k") [97]
    let elsewhere := Bundle.ofValid ⟨5000, 6, 5000, none, none⟩ [] rfl (by decide) (by decide)
    let opened : Database Unit :=
      ofStore (.memory (.empty true)) { Config.default with identity := some "r1" } true
    let db := opened.performAll
      [(s, .commit .new), (s, .connect 2), (s, .receive elsewhere.bytes none)]
    let result := db.addBundler s { Bundler.new with changes := [change] }
    result.2.2 = .ok ⟨1002, 5, 1000, some 1001, none⟩
      ∧ ∃ bundle ∈ result.1.store.index.bundleList,
        result.2.1.sealed = some bundle ∧ bundle.changes = [change] := by
  intro s change elsewhere opened db result
  have hinfo : result.2.2 = .ok ⟨1002, 5, 1000, some 1001, none⟩ := by decide +kernel
  have hok : db.addBundler s { Bundler.new with changes := [change] }
      = (result.1, result.2.1, .ok ⟨1002, 5, 1000, some 1001, none⟩) := by
    rw [← hinfo]
  refine ⟨hinfo, ?_⟩
  obtain ⟨bundle, hsealed, -, hchanges, ⟨-, hmem, -⟩ | ⟨-, tip, -, -, hforeign⟩⟩ :=
    commit_stored_or_overtaken hok
  · exact ⟨bundle, hmem, hsealed, hchanges⟩
  · -- nothing has been there or has been brought on the chain
    rcases hforeign with hstart | ⟨call, hcall, b, hb, rfl, hchain⟩
    · cases hstart
    · simp only [List.mem_cons, List.not_mem_nil, or_false] at hcall
      rcases hcall with rfl | rfl | rfl
      · cases hb
      · cases hb
      · obtain rfl : elsewhere = b := by
          simpa [Call.brought?, Bundle.decode_bytes, Except.toOption] using hb
        exact absurd hchain (by decide)

/-- Somebody else continues the chain of a database, which then commits once more. -/
theorem commit_stored_or_overtaken_continuedElsewhere :
    let s : Surroundings :=
      ⟨0, 1000, fun _ => .ok (), fun _ => 5, fun _ => true, ⟨none, none, none⟩, 1⟩
    let change : Change := .setKey .root (.text "k") [97]
    let elsewhere := Bundle.ofValid ⟨5000, 5, 1000, some 1001, none⟩ [] rfl (by decide) (by decide)
    let lost := Bundle.ofValid ⟨1002, 5, 1000, some 1001, none⟩ [change] rfl (by decide) (by decide)
    let opened : Database Unit :=
      ofStore (.memory (.empty true)) { Config.default with identity := some "r1" } false
    let db := opened.performAll [(s, .commit .new), (s, .receive elsewhere.bytes none)]
    let result := db.addBundler s { Bundler.new with changes := [change] }
    result.2.2 = .ok lost.info ∧ result.2.1.sealed = some lost
      ∧ lost ∉ result.1.store.index.bundleList
      ∧ result.1.store.index.entryByKey .root (.scalar (.text "k")) .latest = .ok none := by
  decide +kernel

end GossipStore.Database
