import GossipStore.Proofs.Gossip.Codec
import GossipStore.Proofs.Gossip.OneRule

set_option autoImplicit false

/-! # What a greeting leaves out does not matter

A greeting tells of every chain how far it has been seen, and nothing of the prior time and the
comment of its last bundle, which the tracker keeps as well. No answer of a tracker depends on
these: trackers with the same rows answer every call alike and have the same rows after it
(`ChainTracker.sameRows_perform`). So a tracker made from a greeting stands in for the one that has
sent it, whatever comes later (`ChainTracker.greeting_standsIn`).
-/

namespace GossipStore

namespace ChainTracker

variable {t u : ChainTracker}

/-! ## Calls -/

/-- What can be asked of a tracker, and the one thing that can be told to it. -/
inductive Call where
  | has (medallion : Medallion) (timestamp : Timestamp)
  | seenTo (chain : ChainKey)
  | chains (medallion : Option Medallion)
  | greeting
  | mark (info : BundleInfo) (check : Bool)

/-- The answer to a call. -/
inductive Answer where
  | has (covered : Bool)
  | seenTo (time : Option Timestamp)
  | chains (keys : List ChainKey)
  | greeting (bytes : Except BundleError Bytes)
  | mark (advanced : Except BundleError Bool)
deriving DecidableEq

/-- The tracker after a call, and the answer. A bundle that is refused changes nothing. -/
def perform (t : ChainTracker) : Call → ChainTracker × Answer
  | .has medallion timestamp => (t, .has (t.has medallion timestamp))
  | .seenTo chain => (t, .seenTo (t.seenTo? chain))
  | .chains medallion => (t, .chains (t.chainKeys medallion))
  | .greeting => (t, .greeting t.greeting)
  | .mark info check =>
    match t.mark info check with
    | .ok m => (m.tracker, .mark (.ok m.advanced))
    | .error e => (t, .mark (.error e))

/-- The answers to some calls one after another. -/
def answers (t : ChainTracker) : List Call → List Answer
  | [] => []
  | c :: rest => (t.perform c).2 :: (t.perform c).1.answers rest

/-! ## Answers by rows -/

theorem has_eq_any_rows (t : ChainTracker) (medallion : Medallion) (timestamp : Timestamp) :
    t.has medallion timestamp = t.rows.any fun r =>
      r.medallion = medallion && r.chainStart ≤ timestamp && timestamp ≤ r.seenThrough := by
  rw [has, rows, List.any_map]
  rfl

theorem chainKeys_eq_filter_rows (t : ChainTracker) (medallion : Option Medallion) :
    t.chainKeys medallion = (t.rows.map fun r => (⟨r.medallion, r.chainStart⟩ : ChainKey)).filter
      fun c => medallion.all (· = c.medallion) := by
  rw [chainKeys, rows, List.map_map]
  rfl

theorem seenThrough_eq_of_sameRows (h : t.sameRows u = true) (c : ChainKey) :
    t.seenThrough c = u.seenThrough c := by
  rw [seenThrough, sameRows_iff.mp h, seenThrough]

/-- How far chains have been seen after one of them got longer. -/
theorem seenTo?_insert (t : ChainTracker) (info : BundleInfo) (waiters : List Waiter)
    (c : ChainKey) :
    (⟨t.chains.insert info.chain info, waiters⟩ : ChainTracker).seenTo? c
      = if c = info.chain then some info.timestamp else t.seenTo? c := by
  rw [seenTo?, info?]
  by_cases hc : c = info.chain
  · rw [if_pos hc, hc, SortedMap.get?_insert_self]
    rfl
  · rw [if_neg hc, SortedMap.get?_insert_of_ne _ hc]
    rfl

theorem sameRows_insert (h : t.sameRows u = true) (info : BundleInfo) (ws ws' : List Waiter) :
    sameRows ⟨t.chains.insert info.chain info, ws⟩ ⟨u.chains.insert info.chain info, ws'⟩
      = true := by
  refine sameRows_iff.mpr (funext fun c => ?_)
  rw [seenTo?_insert, seenTo?_insert, sameRows_iff.mp h]

/-- Trackers with the same rows take the same bundles for new, and refuse the same bundles with the
same complaint. -/
theorem sameRows_perform_mark (h : t.sameRows u = true) (info : BundleInfo) (check : Bool) :
    (t.perform (.mark info check)).1.sameRows (u.perform (.mark info check)).1 = true
      ∧ (t.perform (.mark info check)).2 = (u.perform (.mark info check)).2 := by
  have hseen := seenThrough_eq_of_sameRows h info.chain
  simp only [perform, mark, hseen]
  by_cases hold : info.timestamp ≤ u.seenThrough info.chain
  · simp only [if_pos hold]
    exact ⟨h, trivial⟩
  · simp only [if_neg hold]
    by_cases hgap : (check && !continuesFrom info (u.seenThrough info.chain)) = true
    · simp only [if_pos hgap]
      exact ⟨h, trivial⟩
    · simp only [if_neg hgap]
      exact ⟨sameRows_insert h info _ _, trivial⟩

/-- **Trackers with the same rows answer every call alike**, and go on having the same rows. -/
theorem sameRows_perform (h : t.sameRows u = true) (c : Call) :
    (t.perform c).1.sameRows (u.perform c).1 = true ∧ (t.perform c).2 = (u.perform c).2 := by
  have hrows : t.rows = u.rows := of_decide_eq_true h
  cases c with
  | has medallion timestamp =>
      refine ⟨h, ?_⟩
      rw [perform, perform, has_eq_any_rows, hrows, ← has_eq_any_rows]
  | seenTo chain =>
      refine ⟨h, ?_⟩
      rw [perform, perform, sameRows_iff.mp h]
  | chains medallion =>
      refine ⟨h, ?_⟩
      rw [perform, perform, chainKeys_eq_filter_rows, hrows, ← chainKeys_eq_filter_rows]
  | greeting =>
      refine ⟨h, ?_⟩
      rw [perform, perform, greeting, hrows, greeting]
  | mark info check => exact sameRows_perform_mark h info check

theorem answers_eq_of_sameRows (h : t.sameRows u = true) (calls : List Call) :
    t.answers calls = u.answers calls := by
  induction calls generalizing t u with
  | nil => rfl
  | cons c rest ih =>
      obtain ⟨hafter, hanswer⟩ := sameRows_perform h c
      rw [answers, answers, hanswer, ih hafter]

/-! ## Greetings -/

/-- A tracker whose chains can be counted in a head sends a greeting, and what is made from that
has the same rows. -/
theorem ofGreeting_sameRows (h : t.chains.size < 0x10000000000000000) :
    ∃ bytes u, t.greeting = .ok bytes ∧ ofGreeting bytes = .ok u ∧ t.sameRows u = true := by
  have hlength : t.rows.length < 0x10000000000000000 := by
    rwa [rows, List.length_map]
  refine ⟨(Greeting.item t.rows).form, ofRows t.rows, ?_, ?_, ?_⟩
  · rw [greeting, Greeting.encode_eq, if_pos hlength]
  · rw [ofGreeting, Greeting.decode_form hlength]
    rfl
  · exact sameRows_iff.mpr (seenTo?_ofRows_rows t).symm

/-- **A greeting carries everything that matters about a tracker.** Rows that are written are read
back, whichever words they hold. What is made from the greeting of a tracker has the same rows, and
answers all calls that come later, refusals included, as the tracker does. (The rows of a list and
the chains of a tracker are counted by a word of 64 bits.) -/
theorem greeting_standsIn :
    (∀ rows : List GreetingRow, rows.length < 0x10000000000000000 →
      ∃ bytes, Greeting.encode rows = .ok bytes ∧ Greeting.decode bytes = .ok rows)
    ∧ ∀ t : ChainTracker, t.chains.size < 0x10000000000000000 →
      ∃ bytes u, t.greeting = .ok bytes ∧ ofGreeting bytes = .ok u ∧ t.sameRows u = true
        ∧ ∀ calls, u.answers calls = t.answers calls := by
  refine ⟨fun rows hlength => ?_, fun t hsize => ?_⟩
  · refine ⟨(Greeting.item rows).form, ?_, Greeting.decode_form hlength⟩
    rw [Greeting.encode_eq, if_pos hlength]
  · obtain ⟨bytes, u, hgreeting, hu, hrows⟩ := ofGreeting_sameRows hsize
    exact ⟨bytes, u, hgreeting, hu, hrows, fun calls => (answers_eq_of_sameRows hrows calls).symm⟩

/-- A tracker that has seen a chain with a comment and a prior time, and is asked to mark what comes
too early and what comes next. -/
theorem greeting_standsIn_afterTwoBundles :
    let first : BundleInfo := (BundleInfo.first 5 100).withComment "writer"
    let t := (((empty.markUnchecked first).tracker).markUnchecked (first.extend 150)).tracker
    let calls : List Call := [.mark ⟨300, 5, 100, some 200, none⟩ true,
      .mark ⟨200, 5, 100, some 150, none⟩ true, .seenTo ⟨5, 100⟩]
    t.chains.size < 0x10000000000000000
      ∧ t.answers calls = [.mark (.error (.invalidExtension 5 100 300 150)), .mark (.ok true),
        .seenTo (some 200)]
      ∧ ∃ bytes u, t.greeting = .ok bytes ∧ ofGreeting bytes = .ok u ∧ t.sameRows u = true
        ∧ u.answers calls = t.answers calls := by
  intro first t calls
  have hsize : t.chains.size < 0x10000000000000000 := by decide
  obtain ⟨bytes, u, hgreeting, hu, hrows, hanswers⟩ := greeting_standsIn.2 t hsize
  exact ⟨hsize, by decide, bytes, u, hgreeting, hu, hrows, hanswers calls⟩

end ChainTracker

end GossipStore
