import GossipStore.Proofs.Store.Replay
import GossipStore.Store.Basic

set_option autoImplicit false

/-! # A durable store is a store in memory with a faithful log

A call on a durable store writes to two cells, the log and the index, one after the other. The
calls are stated here with both cells in place (`LoggedStore.perform`): what was written before a
failure would stay written. No call fails between the two writes, so a refused call changes
nothing, and the index does what an index in memory does (`perform_refines`). What ties the cells
together is that replaying the log gives the index; every call keeps that
(`ofLog_perform`).
-/

namespace GossipStore

/-! ## Calls -/

/-- A call that adds to a store. -/
inductive StoreCall where
  | addBytes (bytes : Bytes)
  | add (b : Bundle)
  | claimChain (chain : ChainKey) (actor : ActorId)

/-- The answer to a call: for a bundle what it says about itself and whether it was new. -/
abbrev StoreAnswer := Except StoreError (Option (BundleInfo × Bool))

namespace StoreCall

/-- The bundle that a call adds, if its bytes are one. -/
def bundle? : StoreCall → Option Bundle
  | addBytes bytes => (Bundle.decode bytes).toOption
  | add b => some b
  | claimChain _ _ => none

/-- The claim that a call makes. -/
def claim? : StoreCall → Option ClaimedChain
  | claimChain chain actor => some ⟨chain, actor⟩
  | _ => none

/-- A call adds a bundle, brings bytes that are none, or makes a claim. -/
theorem kinds (call : StoreCall) : (∃ b, call.bundle? = some b ∧ call.claim? = none)
    ∨ (∃ bytes e, call = .addBytes bytes ∧ Bundle.decode bytes = .error e)
    ∨ ∃ chain actor, call = .claimChain chain actor := by
  cases call with
  | addBytes bytes =>
      cases hb : Bundle.decode bytes with
      | error e => exact .inr (.inl ⟨bytes, e, rfl, hb⟩)
      | ok b =>
          refine .inl ⟨b, ?_, rfl⟩
          rw [bundle?, hb]
          rfl
  | add b => exact .inl ⟨b, rfl, rfl⟩
  | claimChain chain actor => exact .inr (.inr ⟨chain, actor, rfl⟩)

theorem decode_of_bundle? {bytes : Bytes} {b : Bundle}
    (h : (addBytes bytes).bundle? = some b) : Bundle.decode bytes = .ok b := by
  rw [bundle?] at h
  cases hb : Bundle.decode bytes with
  | error e =>
      rw [hb] at h
      cases h
  | ok b' =>
      rw [hb] at h
      cases h
      rfl

end StoreCall

/-- The bundle of a call that was answered as new. -/
def accepted? : StoreCall × StoreAnswer → Option Bundle
  | (call, .ok (some (_, true))) => call.bundle?
  | _ => none

/-- A call on a store, which stays as it was if there is an error. -/
def Store.perform (s : Store) :
    StoreCall → Except StoreError (Store × Option (BundleInfo × Bool))
  | .addBytes bytes => (s.addBytes bytes).map fun r => (r.1, some r.2)
  | .add b => (s.add b).map fun r => (r.1, some (b.info, r.2))
  | .claimChain chain actor => .ok (s.claimChain chain actor, none)

/-- Bytes are added like the bundle that they are. -/
theorem Store.perform_eq_add (s : Store) {call : StoreCall} {b : Bundle}
    (h : call.bundle? = some b) : s.perform call = s.perform (.add b) := by
  cases call with
  | addBytes bytes =>
      simp only [perform, addBytes, StoreCall.decode_of_bundle? h, mapError_ok, bind, Except.bind]
      cases s.add b <;> rfl
  | add b' =>
      cases h
      rfl
  | claimChain chain actor => cases h

theorem Store.perform_addBytes_of_error (s : Store) {bytes : Bytes} {e : BundleError}
    (h : Bundle.decode bytes = .error e) : s.perform (.addBytes bytes) = .error (.decode e) := by
  simp only [perform, addBytes, h, mapError_error, bind, Except.bind]
  rfl

namespace LoggedStore

/-- Adds a bundle with the log and the index in place. -/
def addInPlace (s : LoggedStore) (b : Bundle) : LoggedStore × Except StoreError Bool :=
  match s.index.check b.info with
  | .error e => (s, .error e)
  | .ok false => (s, .ok false)
  | .ok true =>
    match s.log.appendBundle b with
    | .error e => (s, .error e)
    | .ok log =>
      match s.index.add b with
      | .error e => (⟨log, s.index⟩, .error e)
      | .ok (index, novel) => (⟨log, index⟩, .ok novel)

/-- A call with the log and the index in place. -/
def perform (s : LoggedStore) : StoreCall → LoggedStore × StoreAnswer
  | .addBytes bytes =>
    match Bundle.decode bytes with
    | .error e => (s, .error (.decode e))
    | .ok b => ((s.addInPlace b).1, (s.addInPlace b).2.map fun novel => some (b.info, novel))
  | .add b => ((s.addInPlace b).1, (s.addInPlace b).2.map fun novel => some (b.info, novel))
  | .claimChain chain actor => (s.claimChain chain actor, .ok none)

theorem perform_eq_add (s : LoggedStore) {call : StoreCall} {b : Bundle}
    (h : call.bundle? = some b) : s.perform call = s.perform (.add b) := by
  cases call with
  | addBytes bytes => simp only [perform, StoreCall.decode_of_bundle? h]
  | add b' =>
      cases h
      rfl
  | claimChain chain actor => cases h

theorem perform_addBytes_of_error (s : LoggedStore) {bytes : Bytes} {e : BundleError}
    (h : Bundle.decode bytes = .error e) :
    s.perform (.addBytes bytes) = (s, .error (.decode e)) := by
  simp only [perform, h]

/-- The store after some calls, and the calls with their answers. -/
def run (s : LoggedStore) : List StoreCall → LoggedStore × List (StoreCall × StoreAnswer)
  | [] => (s, [])
  | call :: rest =>
    let r := (s.perform call).1.run rest
    (r.1, (call, (s.perform call).2) :: r.2)

/-- Whether a call adds a new bundle of a time and owner that stand in the log already. -/
def RepeatsRow (s : LoggedStore) (call : StoreCall) : Prop :=
  ∃ b, call.bundle? = some b ∧ s.index.check b.info = .ok true
    ∧ s.log.hasKey ⟨b.info.timestamp, b.info.medallion⟩ = true

/-! ## What adding does -/

/-- The four ways in which adding a bundle may go. -/
theorem addInPlace_cases (s : LoggedStore) (b : Bundle) :
    (∃ e, s.index.check b.info = .error e ∧ s.addInPlace b = (s, .error e))
    ∨ (s.index.check b.info = .ok false ∧ s.addInPlace b = (s, .ok false))
    ∨ (s.index.check b.info = .ok true
        ∧ s.log.hasKey ⟨b.info.timestamp, b.info.medallion⟩ = true
        ∧ s.addInPlace b = (s, .error .duplicateRow))
    ∨ (s.index.check b.info = .ok true
        ∧ s.log.hasKey ⟨b.info.timestamp, b.info.medallion⟩ = false
        ∧ s.addInPlace b = (⟨s.log.withBundles [b], s.index.apply b⟩, .ok true)) := by
  rw [addInPlace]
  cases hc : s.index.check b.info with
  | error e => exact .inl ⟨e, rfl, rfl⟩
  | ok novel =>
      cases novel with
      | false => exact .inr (.inl ⟨rfl, rfl⟩)
      | true =>
          -- the index would take it; whether it gets it is up to the log
          have hadd : s.index.add b = .ok (s.index.apply b, true) := by
            rw [Index.add_eq, hc]
            rfl
          cases hk : s.log.hasKey ⟨b.info.timestamp, b.info.medallion⟩ with
          | true =>
              refine .inr (.inr (.inl ⟨rfl, rfl, ?_⟩))
              rw [Log.appendBundle_eq, if_pos hk]
          | false =>
              refine .inr (.inr (.inr ⟨rfl, rfl, ?_⟩))
              rw [Log.appendBundle_eq, if_neg (by rw [hk]; exact Bool.false_ne_true), hadd]

/-- Adding in place is adding: no error comes after the log has been written. -/
theorem add_eq_addInPlace (s : LoggedStore) (b : Bundle) :
    s.add b = (s.addInPlace b).2.map fun novel => ((s.addInPlace b).1, novel) := by
  rw [add]
  rcases addInPlace_cases s b with ⟨e, hc, h⟩ | ⟨hc, h⟩ | ⟨hc, hk, h⟩ | ⟨hc, hk, h⟩
  · rw [hc, h]
    rfl
  · rw [hc, h]
    rfl
  · rw [hc, h, Log.appendBundle_eq, if_pos hk]
    rfl
  · rw [hc, h, Log.appendBundle_eq, if_neg (by rw [hk]; exact Bool.false_ne_true), Index.add_eq,
      hc]
    rfl

/-- The ways in which a call may go: it is refused or finds nothing new, it adds a bundle, or it
makes a claim. -/
theorem perform_cases (s : LoggedStore) (call : StoreCall) :
    ((s.perform call).1 = s ∧ accepted? (call, (s.perform call).2) = none ∧ call.claim? = none)
    ∨ (∃ b, call.bundle? = some b ∧ s.index.check b.info = .ok true
        ∧ (s.perform call).1 = ⟨s.log.withBundles [b], s.index.apply b⟩
        ∧ (s.perform call).2 = .ok (some (b.info, true)) ∧ call.claim? = none)
    ∨ (∃ claim, call.claim? = some claim ∧ (s.perform call).2 = .ok none
        ∧ (s.perform call).1 = s.claimChain claim.chain claim.actor) := by
  rcases call.kinds with ⟨b, hb, hclaim⟩ | ⟨bytes, e, rfl, he⟩ | ⟨chain, actor, rfl⟩
  · rw [perform_eq_add s hb, perform]
    rcases addInPlace_cases s b with ⟨e, hc, h⟩ | ⟨hc, h⟩ | ⟨hc, hk, h⟩ | ⟨hc, hk, h⟩
    · rw [h]
      exact .inl ⟨rfl, rfl, hclaim⟩
    · rw [h]
      exact .inl ⟨rfl, rfl, hclaim⟩
    · rw [h]
      exact .inl ⟨rfl, rfl, hclaim⟩
    · rw [h]
      exact .inr (.inl ⟨b, hb, hc, rfl, rfl, hclaim⟩)
  · rw [perform_addBytes_of_error s he]
    exact .inl ⟨rfl, rfl, rfl⟩
  · exact .inr (.inr ⟨⟨chain, actor⟩, rfl, rfl, rfl⟩)

/-! ## One call -/

theorem ofLog_eq_ok_iff {l : Log} {s : LoggedStore} :
    ofLog l = .ok s ↔ s.log = l ∧ l.replay = .ok s.index := by
  rw [ofLog]
  cases l.replay with
  | error e =>
      constructor
      · intro h
        cases h
      · rintro ⟨-, h⟩
        cases h
  | ok ix =>
      constructor
      · intro h
        cases h
        exact ⟨rfl, rfl⟩
      · rintro ⟨rfl, h⟩
        cases h
        rfl

/-- After a call the log still describes the index. -/
theorem ofLog_perform {s : LoggedStore} (h : ofLog s.log = .ok s) (call : StoreCall) :
    ofLog (s.perform call).1.log = .ok (s.perform call).1 := by
  have hreplay := (ofLog_eq_ok_iff.mp h).2
  rcases perform_cases s call with ⟨hs, -, -⟩ | ⟨b, -, hc, hs, -, -⟩ | ⟨claim, -, -, hs⟩
  · rw [hs]
    exact h
  · rw [hs]
    exact ofLog_eq_ok_iff.mpr ⟨rfl, Log.replay_withBundle hreplay hc⟩
  · rw [hs]
    exact ofLog_eq_ok_iff.mpr ⟨rfl, Log.replay_appendClaim hreplay claim.chain claim.actor⟩

/-- What calls write to a log. -/
def extended (l : Log) (transcript : List (StoreCall × StoreAnswer)) : Log :=
  { l.withBundles (transcript.filterMap accepted?) with
    claims := l.claims ++ transcript.filterMap fun e => e.1.claim? }

/-- A call writes its bundle if that was accepted, and its claim. -/
theorem log_perform (s : LoggedStore) (call : StoreCall) :
    (s.perform call).1.log = extended s.log [(call, (s.perform call).2)] := by
  rcases perform_cases s call with ⟨hs, ha, hc⟩ | ⟨b, hb, -, hs, hanswer, hc⟩ | ⟨claim, hc, ha, hs⟩
  · simp only [extended, List.filterMap_cons, ha, hc, List.filterMap_nil, hs, Log.withBundles,
      Log.rowsFrom, List.append_nil, List.length_nil, Nat.add_zero]
  · have haccepted : accepted? (call, (s.perform call).2) = some b := by
      rw [hanswer]
      exact hb
    simp only [extended, List.filterMap_cons, haccepted, hc, List.filterMap_nil, List.append_nil,
      hs]
    rfl
  · have haccepted : accepted? (call, (s.perform call).2) = none := by
      rw [ha]
      rfl
    simp only [extended, List.filterMap_cons, haccepted, hc, List.filterMap_nil, hs,
      Log.withBundles, Log.rowsFrom, List.append_nil, List.length_nil, Nat.add_zero]
    rfl

/-- A call that is refused or finds nothing new changes neither the log nor the index. -/
theorem perform_eq_self {s : LoggedStore} {call : StoreCall}
    (h : ∀ info, (s.perform call).2 ≠ .ok (some (info, true)))
    (hclaim : call.claim? = none) : (s.perform call).1 = s := by
  rcases perform_cases s call with ⟨hs, -, -⟩ | ⟨b, -, -, -, hanswer, -⟩ | ⟨claim, hc, -, -⟩
  · exact hs
  · exact absurd hanswer (h b.info)
  · rw [hclaim] at hc
    cases hc

/-- A call does to the index what it would do to one in memory, unless it repeats a row. -/
theorem perform_refines (s : LoggedStore) {call : StoreCall} (h : ¬ s.RepeatsRow call) :
    (Store.memory s.index).perform call
      = (s.perform call).2.map fun answer => (.memory (s.perform call).1.index, answer) := by
  rcases call.kinds with ⟨b, hb, -⟩ | ⟨bytes, e, rfl, he⟩ | ⟨chain, actor, rfl⟩
  · rw [Store.perform_eq_add _ hb, perform_eq_add s hb, Store.perform, Store.add, Index.add_eq,
      perform]
    rcases addInPlace_cases s b with ⟨e, hc, ha⟩ | ⟨hc, ha⟩ | ⟨hc, hk, ha⟩ | ⟨hc, hk, ha⟩
    · rw [hc, ha]
      rfl
    · rw [hc, ha]
      rfl
    · -- The index would have taken it: only the log says no.
      exact absurd ⟨b, hb, hc, hk⟩ h
    · rw [hc, ha]
      rfl
  · rw [Store.perform_addBytes_of_error _ he, perform_addBytes_of_error _ he]
    rfl
  · rfl

/-- A new bundle of a time and owner that stand in the log is refused. -/
theorem perform_repeatsRow {s : LoggedStore} {call : StoreCall} (h : s.RepeatsRow call) :
    s.perform call = (s, .error .duplicateRow) := by
  obtain ⟨b, hb, hnew, hkey⟩ := h
  rw [perform_eq_add s hb, perform]
  rcases addInPlace_cases s b with ⟨e, hc, -⟩ | ⟨hc, -⟩ | ⟨-, -, ha⟩ | ⟨-, hk, -⟩
  · rw [hnew] at hc
    cases hc
  · rw [hnew] at hc
    cases hc
  · rw [ha]
    rfl
  · rw [hkey] at hk
    cases hk

/-- The call on the store as a whole: either an error and the store as it was, or the log and the
index in place. -/
theorem perform_logged (s : LoggedStore) (call : StoreCall) :
    (Store.logged s).perform call
      = (s.perform call).2.map fun answer => (.logged (s.perform call).1, answer) := by
  rcases call.kinds with ⟨b, hb, -⟩ | ⟨bytes, e, rfl, he⟩ | ⟨chain, actor, rfl⟩
  · rw [Store.perform_eq_add _ hb, perform_eq_add s hb, Store.perform, Store.add, perform,
      add_eq_addInPlace]
    cases (s.addInPlace b).2 <;> rfl
  · rw [Store.perform_addBytes_of_error _ he, perform_addBytes_of_error _ he]
    rfl
  · rfl

/-! ## Runs -/

theorem extended_cons (l : Log) (e : StoreCall × StoreAnswer)
    (rest : List (StoreCall × StoreAnswer)) :
    extended l (e :: rest) = extended (extended l [e]) rest := by
  have hlog {next : Nat} {bs cs : List Bundle} :
      Log.rowsFrom next (bs ++ cs) = Log.rowsFrom next bs ++ Log.rowsFrom (next + bs.length) cs :=
    Log.rowsFrom_append next bs cs
  rw [← List.singleton_append, extended, extended, extended]
  simp only [Log.withBundles, List.filterMap_append, hlog, List.length_append,
    List.append_assoc, Nat.add_assoc]

theorem filterMap_claim?_run (s : LoggedStore) (calls : List StoreCall) :
    (s.run calls).2.filterMap (fun e => e.1.claim?) = calls.filterMap StoreCall.claim? := by
  induction calls generalizing s with
  | nil => rfl
  | cons call rest ih =>
      rw [run, List.filterMap_cons, List.filterMap_cons, ih]

/-- After a run the log still describes the index, and has grown by what was accepted. -/
theorem ofLog_run {s : LoggedStore} (h : ofLog s.log = .ok s) (calls : List StoreCall) :
    ofLog (s.run calls).1.log = .ok (s.run calls).1
      ∧ (s.run calls).1.log = extended s.log (s.run calls).2 := by
  -- on the calls: the store after the first of them is described by its log again
  induction calls generalizing s with
  | nil => exact ⟨h, by simp [run, extended, Log.withBundles, Log.rowsFrom]⟩
  | cons call rest ih =>
      obtain ⟨hopen, hlog⟩ := ih (ofLog_perform h call)
      refine ⟨hopen, ?_⟩
      rw [run, hlog, log_perform]
      exact (extended_cons s.log _ _).symm

/-- **A durable store is a store in memory with a faithful log.** Take any run of calls on a store
opened from a log. Its log is the old one with the bundles accepted since, in that order, and the
claims made since; and opening this log again gives the same store. Any next call answers and
changes the index like a call on a store in memory with that index, except that a new bundle of a
time and owner that stand in the log is refused; and a call that is refused or adds nothing new
changes neither log nor index. -/
theorem run_refines_memory {l : Log} {s₀ : LoggedStore} (h : ofLog l = .ok s₀)
    (calls : List StoreCall) :
    let s := (s₀.run calls).1
    let transcript := (s₀.run calls).2
    let accepted := transcript.filterMap accepted?
    s.log = { l with
      rows := l.rows ++ Log.rowsFrom l.nextSeq accepted
      nextSeq := l.nextSeq + accepted.length
      claims := l.claims ++ calls.filterMap StoreCall.claim? }
    ∧ ofLog s.log = .ok s
    ∧ ∀ call,
      (Store.logged s).perform call
        = (s.perform call).2.map (fun answer => (.logged (s.perform call).1, answer))
      ∧ (¬ s.RepeatsRow call → (Store.memory s.index).perform call
          = (s.perform call).2.map fun answer => (.memory (s.perform call).1.index, answer))
      ∧ (s.RepeatsRow call → (s.perform call).2 = .error .duplicateRow)
      ∧ (call.claim? = none → (∀ info, (s.perform call).2 ≠ .ok (some (info, true))) →
          (s.perform call).1 = s) := by
  intro s transcript accepted
  have hlog₀ := (ofLog_eq_ok_iff.mp h).1
  have hopen₀ : ofLog s₀.log = .ok s₀ := by
    rw [hlog₀]
    exact h
  obtain ⟨hopen, hlog⟩ := ofLog_run hopen₀ calls
  refine ⟨?_, hopen, fun call => ⟨perform_logged s call, perform_refines s, ?_, ?_⟩⟩
  · have hclaims : transcript.filterMap (fun e => e.1.claim?) = calls.filterMap StoreCall.claim? :=
      filterMap_claim?_run s₀ calls
    rw [hlog, hlog₀, extended, hclaims]
    rfl
  · intro hrepeat
    rw [perform_repeatsRow hrepeat]
  · intro hclaim hanswer
    exact perform_eq_self hanswer hclaim

/-- Two bundles of a chain are added, the first of them twice. The owner then begins another chain
at the time of the second bundle, whose row it would repeat. -/
theorem run_refines_memory_atRepeatedRow :
    let first := Bundle.ofValid ⟨5, 7, 5, none, none⟩ [] rfl (List.forall_mem_nil _) (by decide)
    let second := Bundle.ofValid ⟨9, 7, 5, some 5, none⟩ [] rfl (List.forall_mem_nil _) (by decide)
    let other := Bundle.ofValid ⟨9, 7, 9, none, none⟩ [] rfl (List.forall_mem_nil _) (by decide)
    let calls := [.add first, .addBytes second.bytes, .add first, .claimChain ⟨7, 5⟩ 3]
    let s := ((⟨.empty, .empty true⟩ : LoggedStore).run calls).1
    s.log.rows = [Log.rowOf 1 first, Log.rowOf 2 second]
      ∧ s.log.claims = [⟨⟨7, 5⟩, 3⟩]
      ∧ ofLog s.log = .ok s
      ∧ (s.perform (.add other)).2 = .error .duplicateRow := by
  intro first second other calls s
  have hempty : ofLog .empty = .ok ⟨.empty, .empty true⟩ := rfl
  obtain ⟨hlog, hopen, hcalls⟩ := run_refines_memory hempty calls
  refine ⟨?_, ?_, hopen, (hcalls (.add other)).2.2.1 ⟨other, rfl, ?_, ?_⟩⟩
  · rw [hlog]
    decide +kernel
  · rw [hlog]
    rfl
  · rfl
  · decide +kernel

end LoggedStore

end GossipStore
