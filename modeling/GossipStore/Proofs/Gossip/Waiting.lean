import GossipStore.Proofs.Gossip.Offers
import GossipStore.Simulation.Wait

set_option autoImplicit false

/-! # Waits that end when their bundles arrive

A tracker has a bundle of an owner at a time if one of the owner's chains has been seen from then
or earlier to then or later. When a bundle is marked, only the waits that this one bundle reaches
are told. That is enough: a mark makes a tracker have just what the bundle reaches besides what it
had before (`ChainTracker.has_insert_iff`), and nothing is forgotten (`ChainTracker.SeenBy`).

A room has waits come and go around a tracker: they begin, are told, run out of time, are given up,
and their results are taken. In every state of a room a wait that is still held and has not run out
of time has been told exactly if the tracker has its bundle (`told_iff_has`). What carries this over
each step is that every wait that goes on is in the table of the tracker, and that the tracker has
the bundle of no wait in the table (`Tended`).
-/

namespace GossipStore

/-! ## What a tracker has -/

namespace ChainTracker

variable {t u : ChainTracker} {info : BundleInfo} {medallion : Medallion} {time : Timestamp}

theorem has_iff : t.has medallion time = true ↔ ∃ c seen, t.seenTo? c = some seen
    ∧ c.medallion = medallion ∧ c.chainStart ≤ time ∧ time ≤ seen := by
  rw [has, List.any_eq_true]
  constructor
  · rintro ⟨⟨c, tip⟩, hmem, hcovers⟩
    simp only [Bool.and_eq_true, decide_eq_true_eq] at hcovers
    obtain ⟨⟨howner, hstart⟩, hend⟩ := hcovers
    refine ⟨c, tip.timestamp, ?_, howner, hstart, hend⟩
    rw [seenTo?, info?, SortedMap.mem_toList_iff.mp hmem]
    rfl
  · rintro ⟨c, seen, hseen, howner, hstart, hend⟩
    rw [seenTo?, info?, Option.map_eq_some_iff] at hseen
    obtain ⟨tip, htip, rfl⟩ := hseen
    refine ⟨(c, tip), SortedMap.mem_toList_iff.mpr htip, ?_⟩
    simp only [Bool.and_eq_true, decide_eq_true_eq]
    exact ⟨⟨howner, hstart⟩, hend⟩

theorem has_of_chains (h : u.chains = t.chains) : u.has = t.has := by
  funext medallion time
  rw [has, has, h]

/-- Whether one tracker has seen every chain at least as far as another. -/
def SeenBy (t u : ChainTracker) : Prop :=
  ∀ c seen, t.seenTo? c = some seen → ∃ seen', u.seenTo? c = some seen' ∧ seen ≤ seen'

theorem SeenBy.of_chains (h : u.chains = t.chains) : t.SeenBy u := by
  intro c seen hseen
  refine ⟨seen, ?_, Std.le_refl seen⟩
  rwa [seenTo?, info?, h]

theorem SeenBy.trans {v : ChainTracker} (h : t.SeenBy u) (h' : u.SeenBy v) : t.SeenBy v := by
  intro c seen hseen
  obtain ⟨seen', hseen', hle⟩ := h c seen hseen
  obtain ⟨seen'', hseen'', hle'⟩ := h' c seen' hseen'
  exact ⟨seen'', hseen'', Std.le_trans hle hle'⟩

/-- What has been seen once, the tracker has ever after. -/
theorem SeenBy.has (h : t.SeenBy u) (hhas : t.has medallion time = true) :
    u.has medallion time = true := by
  obtain ⟨c, seen, hseen, howner, hstart, hend⟩ := has_iff.mp hhas
  obtain ⟨seen', hseen', hle⟩ := h c seen hseen
  exact has_iff.mpr ⟨c, seen', hseen', howner, hstart, Std.le_trans hend hle⟩

section Marking

variable {waiters : List Waiter}

theorem seenTo?_insert_self :
    seenTo? ⟨t.chains.insert info.chain info, waiters⟩ info.chain = some info.timestamp := by
  rw [seenTo?, info?, SortedMap.get?_insert_self]
  rfl

theorem seenTo?_insert_of_ne {c : ChainKey} (hc : c ≠ info.chain) :
    seenTo? ⟨t.chains.insert info.chain info, waiters⟩ c = t.seenTo? c := by
  rw [seenTo?, info?, SortedMap.get?_insert_of_ne _ hc]
  rfl

theorem lt_of_seenTo? (hlt : t.seenThrough info.chain < info.timestamp) {seen : Timestamp}
    (hseen : t.seenTo? info.chain = some seen) : seen < info.timestamp := by
  rwa [seenThrough, hseen] at hlt

theorem seenBy_insert (hlt : t.seenThrough info.chain < info.timestamp) (waiters : List Waiter) :
    t.SeenBy ⟨t.chains.insert info.chain info, waiters⟩ := by
  intro c seen hseen
  by_cases hc : c = info.chain
  · subst hc
    exact ⟨info.timestamp, seenTo?_insert_self, Std.le_of_lt (lt_of_seenTo? hlt hseen)⟩
  · exact ⟨seen, (seenTo?_insert_of_ne hc).trans hseen, Std.le_refl seen⟩

/-- **A bundle that is recorded adds what it reaches**, though its chain may have been left open
behind it. -/
theorem has_insert_iff (hlt : t.seenThrough info.chain < info.timestamp) (waiters : List Waiter)
    (w : Waiter) :
    has ⟨t.chains.insert info.chain info, waiters⟩ w.medallion w.timestamp = true
      ↔ t.has w.medallion w.timestamp = true ∨ reaches info w = true := by
  have hreaches : reaches info w = true ↔ w.medallion = info.medallion
      ∧ info.chainStart ≤ w.timestamp ∧ w.timestamp ≤ info.timestamp := by
    simp [reaches, and_assoc]
  constructor
  · intro hhas
    obtain ⟨c, seen, hseen, howner, hstart, hend⟩ := has_iff.mp hhas
    by_cases hc : c = info.chain
    · rw [hc, seenTo?_insert_self] at hseen
      cases hseen
      rw [hc] at howner hstart
      exact .inr (hreaches.mpr ⟨howner.symm, hstart, hend⟩)
    · rw [seenTo?_insert_of_ne hc] at hseen
      exact .inl (has_iff.mpr ⟨c, seen, hseen, howner, hstart, hend⟩)
  · rintro (hhas | hreached)
    · exact (seenBy_insert hlt waiters).has hhas
    · obtain ⟨howner, hstart, hend⟩ := hreaches.mp hreached
      exact has_iff.mpr ⟨info.chain, info.timestamp, seenTo?_insert_self, howner.symm, hstart, hend⟩

/-- A mark finds nothing new, or is refused, or records the bundle. -/
theorem mark_eq_or (t : ChainTracker) (info : BundleInfo) (check : Bool) :
    t.mark info check = .ok ⟨t, false, []⟩ ∨ (∃ e, t.mark info check = .error e)
      ∨ t.seenThrough info.chain < info.timestamp
        ∧ t.mark info check = .ok ⟨⟨t.chains.insert info.chain info,
            t.waiters.filter fun w => !reaches info w && !w.closed⟩, true,
          (t.waiters.filter (reaches info)).map (·.ticket)⟩ := by
  by_cases hle : info.timestamp ≤ t.seenThrough info.chain
  · exact .inl (mark_of_le hle)
  · have hlt := Std.not_le.mp hle
    by_cases hgap : check = true → continuesFrom info (t.seenThrough info.chain) = true
    · exact .inr (.inr ⟨hlt, mark_eq_of_lt hlt hgap⟩)
    · obtain ⟨hcheck, hgap⟩ := Classical.not_imp.mp hgap
      exact .inr (.inl ⟨.invalidExtension info.medallion info.chainStart info.timestamp
        (t.seenThrough info.chain), by simp [mark, hle, hcheck, hgap]⟩)

end Marking

/-! ### Closing waits -/

theorem chains_foldl_closeWait (t : ChainTracker) (tickets : List Nat) :
    (tickets.foldl closeWait t).chains = t.chains :=
  List.foldlRecOn tickets closeWait (motive := fun u : ChainTracker => u.chains = t.chains) rfl
    fun _ h _ _ => h

theorem waiters_foldl_closeWait (t : ChainTracker) (tickets : List Nat) :
    (tickets.foldl closeWait t).waiters
      = t.waiters.map fun w => { w with closed := w.closed || tickets.contains w.ticket } := by
  induction tickets generalizing t with
  | nil => simp
  | cons ticket rest ih =>
      rw [List.foldl_cons, ih, closeWait, List.map_map]
      refine List.map_congr_left fun w _ => ?_
      by_cases hw : w.ticket = ticket
      · simp [hw]
      · simp [hw]

end ChainTracker

/-! ## The waits of a room -/

namespace WaitState

/-- Whether somebody holds on to a wait that has not run out of time. -/
def IsHeld : WaitState → Prop
  | pending _ _ _ => True
  | finished (.ok ()) => True
  | finished (.error _) => False
  | gone => False

/-- Whether a wait has been told that its bundle has arrived. -/
def IsTold : WaitState → Prop
  | pending _ _ _ => False
  | finished (.ok ()) => True
  | finished (.error _) => False
  | gone => False

end WaitState

namespace Waits

theorem getElem?_change (ws : Waits) (p : Nat → Bool) (f : WaitState → WaitState) (n : Nat) :
    (ws.change p f)[n]? = ws[n]?.map fun w => if p n then f w else w := by
  simp only [change, List.getElem?_map, List.getElem?_zipIdx, Option.map_map, Nat.zero_add]
  rfl

theorem length_change (ws : Waits) (p : Nat → Bool) (f : WaitState → WaitState) :
    (ws.change p f).length = ws.length := by
  simp [change]

theorem getElem?_fulfil_eq_some {ws : Waits} {tickets : List Nat} {n : Nat} {w' : WaitState} :
    (ws.fulfil tickets)[n]? = some w'
      ↔ ∃ w, ws[n]? = some w ∧ (if n ∈ tickets then w.finish fun _ _ => .ok () else w) = w' := by
  rw [fulfil, getElem?_change, Option.map_eq_some_iff]
  simp only [List.contains_iff_mem]

theorem getElem?_concat_eq_some {α : Type} {xs : List α} {x y : α} {n : Nat} :
    (xs ++ [x])[n]? = some y ↔ xs[n]? = some y ∨ n = xs.length ∧ x = y := by
  rcases Nat.lt_trichotomy n xs.length with hlt | rfl | hgt
  · simp [List.getElem?_append_left hlt, Nat.ne_of_lt hlt]
  · simp
  · rw [List.getElem?_eq_none (by simp; omega), List.getElem?_eq_none (Nat.le_of_lt hgt)]
    simp [Nat.ne_of_gt hgt]

theorem mem_due_iff {ws : Waits} {now n : Nat} :
    n ∈ ws.due now ↔ ∃ w, ws[n]? = some w ∧ w.isDue now = true := by
  simp only [due, List.mem_map, List.mem_filter, Prod.exists, exists_eq_right,
    List.mem_zipIdx_iff_getElem?]

/-- A wait that ends is not gone. -/
theorem gone_of_finish {ws : Waits} {p : Nat → Bool}
    {result : Medallion → Timestamp → Except BundleError Unit} {n : Nat}
    (h : (ws.change p (.finish result))[n]? = some .gone) : ws[n]? = some .gone := by
  rw [getElem?_change, Option.map_eq_some_iff] at h
  obtain ⟨w, hw, hgone⟩ := h
  rw [hw]
  split at hgone
  · cases w <;> cases hgone
    rfl
  · rw [hgone]

theorem gone_cancel {ws : Waits} {ticket n : Nat} (h : (ws.cancel ticket)[n]? = some .gone) :
    ws[n]? = some .gone ∨ n = ticket := by
  rw [cancel, getElem?_change, Option.map_eq_some_iff] at h
  obtain ⟨w, hw, hgone⟩ := h
  split at hgone
  · rename_i hn
    exact .inr (of_decide_eq_true hn)
  · exact .inl (hgone ▸ hw)

theorem take_eq_or (ws : Waits) (ticket : Nat) :
    (ws.take ticket).1 = ws ∨ (ws.take ticket).1 = ws.cancel ticket := by
  rw [take]
  split
  · exact .inl rfl
  · exact .inr rfl
  · exact .inl rfl

/-- The last wait is told at once. -/
theorem fulfil_concat (ws : Waits) (w : WaitState) :
    (ws ++ [w] : Waits).fulfil [ws.length] = ws ++ [w.finish fun _ _ => .ok ()] := by
  refine List.ext_getElem? fun n => ?_
  rw [fulfil, getElem?_change]
  rcases Nat.lt_trichotomy n ws.length with hlt | rfl | hgt
  · rw [List.getElem?_append_left hlt, List.getElem?_append_left hlt]
    have hother : n ≠ ws.length := Nat.ne_of_lt hlt
    simp [hother]
  · simp
  · rw [List.getElem?_eq_none (by simp; omega), List.getElem?_eq_none (by simp; omega)]
    rfl

end Waits

namespace WaitingRoom

/-- Something that happens in a room. -/
inductive Step where
  /-- A bundle is marked. -/
  | mark (info : BundleInfo) (check : Bool)
  /-- A wait begins, which lasts a number of milliseconds at most. -/
  | start (medallion : Medallion) (timestamp : Timestamp) (timeout : Option Nat)
  /-- A wait is given up. -/
  | cancel (ticket : Nat)
  /-- Somebody asks how a wait stands, and takes the result if there is one. -/
  | take (ticket : Nat)
  /-- Time passes. -/
  | advance (ms : Nat)

/-- A room after a step. -/
def perform (r : WaitingRoom) : Step → WaitingRoom
  | .mark info check => (r.mark info check).1
  | .start medallion timestamp timeout => (r.start medallion timestamp timeout).1
  | .cancel ticket => r.cancel ticket
  | .take ticket => (r.take ticket).1
  | .advance ms => r.advance ms

/-- A room after some steps. -/
def performAll (r : WaitingRoom) (steps : List Step) : WaitingRoom := steps.foldl perform r

/-- What a wait was begun for, and how long it was to last. -/
structure Registration where
  medallion : Medallion
  timestamp : Timestamp
  deadline : Option Nat

/-- The wait that begins with a step. -/
def registers? (r : WaitingRoom) : Step → Option Registration
  | .start medallion timestamp timeout => some ⟨medallion, timestamp, timeout.map (r.now + ·)⟩
  | .mark _ _ | .cancel _ | .take _ | .advance _ => none

/-- The waits that begin with some steps, by their tickets. -/
def registered (r : WaitingRoom) : List Step → List Registration
  | [] => []
  | step :: rest => (r.registers? step).toList ++ (r.perform step).registered rest

/-- How a wait may stand that was begun for something. -/
inductive Stands (t : ChainTracker) (now : Nat) (reg : Registration) : WaitState → Prop where
  | pending (awaited : t.has reg.medallion reg.timestamp = false) :
      Stands t now reg (.pending reg.medallion reg.timestamp reg.deadline)
  | told (arrived : t.has reg.medallion reg.timestamp = true) :
      Stands t now reg (.finished (.ok ()))
  | timedOut (deadline : Nat) (given : reg.deadline = some deadline) (passed : deadline ≤ now) :
      Stands t now reg (.finished (.error (.timeout reg.medallion reg.timestamp)))
  | gone : Stands t now reg .gone

/-- How a wait may stand depends on what the tracker has and on the time. -/
theorem Stands.mono {t u : ChainTracker} {now now' : Nat} {reg : Registration} {w : WaitState}
    (hhas : u.has = t.has) (hnow : now ≤ now') (h : Stands t now reg w) : Stands u now' reg w := by
  cases h with
  | pending awaited => exact .pending (by rw [hhas, awaited])
  | told arrived => exact .told (by rw [hhas, arrived])
  | timedOut deadline given passed => exact .timedOut deadline given (Nat.le_trans passed hnow)
  | gone => exact .gone

/-- Whether a room takes care of the waits that were begun in it: every wait that goes on is in the
table of the tracker, and the tracker has the bundle of no wait in the table. -/
structure Tended (regs : List Registration) (r : WaitingRoom) : Prop where
  length : r.waits.length = regs.length
  stands : ∀ (n : Nat) (reg : Registration) (w : WaitState),
    regs[n]? = some reg → r.waits[n]? = some w → Stands r.tracker r.now reg w
  listed : ∀ (n : Nat) (medallion : Medallion) (timestamp : Timestamp) (deadline : Option Nat),
    r.waits[n]? = some (.pending medallion timestamp deadline) →
      (⟨n, medallion, timestamp, false⟩ : Waiter) ∈ r.tracker.waiters
  table : ∀ w ∈ r.tracker.waiters, r.tracker.has w.medallion w.timestamp = false
    ∧ ∃ deadline, regs[w.ticket]? = some ⟨w.medallion, w.timestamp, deadline⟩

variable {regs : List Registration} {r : WaitingRoom}

theorem mark_of_error {info : BundleInfo} {check : Bool} {e : BundleError}
    (h : (r.mark info check).2 = .error e) : (r.mark info check).1 = r := by
  rw [mark] at h ⊢
  split
  · rfl
  · rename_i m hmark
    rw [hmark] at h
    cases h

theorem take_waits (r : WaitingRoom) (ticket : Nat) :
    (r.take ticket).1.waits = (r.waits.take ticket).1 := rfl

section Starting

variable {medallion : Medallion} {timestamp : Timestamp} {timeout : Option Nat}

theorem start_of_has (hhas : r.tracker.has medallion timestamp = true) :
    (r.start medallion timestamp timeout).1
      = settle { r with waits := r.waits ++ [.finished (.ok ())] } := by
  have htold := Waits.fulfil_concat r.waits (.pending medallion timestamp (timeout.map (r.now + ·)))
  simp only [start, ChainTracker.wait?, hhas, if_true, Waits.start, htold]
  rfl

theorem start_of_not_has (hhas : r.tracker.has medallion timestamp = false) :
    (r.start medallion timestamp timeout).1 = settle { r with
      tracker := { r.tracker with
        waiters := r.tracker.waiters ++ [⟨r.waits.length, medallion, timestamp, false⟩] }
      waits := r.waits ++ [.pending medallion timestamp (timeout.map (r.now + ·))] } := by
  simp only [start, ChainTracker.wait?, hhas, Waits.start]
  rfl

end Starting

/-- A mark changes nothing in a room, or it records the bundle and tells the waits it reaches. -/
theorem mark_eq_or (r : WaitingRoom) (info : BundleInfo) (check : Bool) :
    (r.mark info check).1 = r ∨ r.tracker.seenThrough info.chain < info.timestamp
      ∧ (r.mark info check).1 = { r with
        tracker := ⟨r.tracker.chains.insert info.chain info,
          r.tracker.waiters.filter fun w => !ChainTracker.reaches info w && !w.closed⟩
        waits := r.waits.fulfil
          ((r.tracker.waiters.filter (ChainTracker.reaches info)).map (·.ticket)) } := by
  rw [WaitingRoom.mark]
  rcases r.tracker.mark_eq_or info check with hsame | ⟨e, herror⟩ | ⟨hlt, hnew⟩
  · have hnobody : r.waits.fulfil [] = r.waits := by
      refine List.ext_getElem? fun n => ?_
      rw [Waits.fulfil, Waits.getElem?_change]
      simp
    rw [hsame]
    exact .inl (by simp only [hnobody])
  · rw [herror]
    exact .inl rfl
  · rw [hnew]
    exact .inr ⟨hlt, rfl⟩

/-! ### One step -/

/-- Waits end otherwise than by being told, and the tracker may hear of it. -/
theorem Tended.change (h : Tended regs r) {p : Nat → Bool} {f : WaitState → WaitState}
    (tickets : List Nat) (hclosed : ∀ n ∈ tickets, p n = true)
    (hf : ∀ n w, r.waits[n]? = some w → p n = true → ∀ reg, Stands r.tracker r.now reg w →
      Stands r.tracker r.now reg (f w) ∧ ∀ m t d, f w ≠ .pending m t d) :
    Tended regs { r with
      tracker := tickets.foldl ChainTracker.closeWait r.tracker, waits := r.waits.change p f } := by
  have hwaiters := ChainTracker.waiters_foldl_closeWait r.tracker tickets
  have hhas : (tickets.foldl ChainTracker.closeWait r.tracker).has = r.tracker.has :=
    ChainTracker.has_of_chains (ChainTracker.chains_foldl_closeWait r.tracker tickets)
  refine ⟨(Waits.length_change _ _ _).trans h.length, fun n reg w' hreg hw' => ?_,
    fun n medallion timestamp deadline hw' => ?_, fun w' hw' => ?_⟩
  · rw [Waits.getElem?_change, Option.map_eq_some_iff] at hw'
    obtain ⟨w, hw, rfl⟩ := hw'
    have hold := h.stands n reg w hreg hw
    split
    · rename_i hp
      exact (hf n w hw hp reg hold).1.mono hhas (Nat.le_refl _)
    · exact hold.mono hhas (Nat.le_refl _)
  · rw [Waits.getElem?_change, Option.map_eq_some_iff] at hw'
    obtain ⟨w, hw, hpending⟩ := hw'
    have hn : n < regs.length := by
      rw [← h.length]
      exact (List.getElem?_eq_some_iff.mp hw).1
    have hold := h.stands n regs[n] w (List.getElem?_eq_getElem hn) hw
    by_cases hp : p n = true
    · -- a wait that ends does not go on
      rw [if_pos hp] at hpending
      exact absurd hpending ((hf n w hw hp _ hold).2 _ _ _)
    · rw [if_neg hp] at hpending
      have hopen : n ∉ tickets := fun hmem => hp (hclosed n hmem)
      rw [hwaiters]
      refine List.mem_map.mpr ⟨_, h.listed n medallion timestamp deadline (hpending ▸ hw), ?_⟩
      simp [hopen]
  · rw [hwaiters] at hw'
    obtain ⟨w, hw, rfl⟩ := List.mem_map.mp hw'
    obtain ⟨hawaited, hreg⟩ := h.table w hw
    exact ⟨by rw [hhas]; exact hawaited, hreg⟩

theorem Tended.cancel (h : Tended regs r) (ticket : Nat) : Tended regs (r.cancel ticket) :=
  h.change [ticket] (by simp) fun _ _ _ _ _ _ => ⟨.gone, fun _ _ _ => by simp⟩

/-- Waits that have run out of time end. -/
theorem Tended.settle (h : Tended regs r) : Tended regs r.settle := by
  refine h.change (r.waits.due r.now) (fun n hn => by simpa using hn)
    fun n w hw hdue reg hstands => ?_
  have hmem : n ∈ r.waits.due r.now := by simpa using hdue
  obtain ⟨w', hw', hover⟩ := Waits.mem_due_iff.mp hmem
  obtain rfl : w = w' := Option.some.inj (hw.symm.trans hw')
  cases hstands with
  | pending awaited =>
      cases hdeadline : reg.deadline with
      | none =>
          rw [hdeadline] at hover
          cases hover
      | some deadline =>
          rw [hdeadline] at hover
          exact ⟨.timedOut deadline hdeadline (of_decide_eq_true hover), fun _ _ _ => by
            simp [WaitState.finish]⟩
  | told => cases hover
  | timedOut => cases hover
  | gone => cases hover

theorem Tended.advance (h : Tended regs r) (ms : Nat) : Tended regs (r.advance ms) := by
  have hlater : Tended regs { r with now := r.now + ms } :=
    ⟨h.length, fun n reg w hreg hw => (h.stands n reg w hreg hw).mono rfl (Nat.le_add_right _ _),
      h.listed, h.table⟩
  exact hlater.settle

theorem Tended.take (h : Tended regs r) (ticket : Nat) : Tended regs (r.take ticket).1 := by
  have hgone : Tended regs { r with waits := r.waits.cancel ticket } :=
    h.change [] (fun _ hn => absurd hn List.not_mem_nil)
      fun _ _ _ _ _ _ => ⟨.gone, fun _ _ _ => by simp⟩
  show Tended regs { r with waits := (r.waits.take ticket).1 }
  rcases r.waits.take_eq_or ticket with hsame | htaken
  · rw [hsame]
    exact h
  · rw [htaken]
    exact hgone

/-- A mark reaches the ticket of a wait that goes on exactly if the bundle covers what is waited
for. -/
theorem Tended.mem_reached_iff (h : Tended regs r) (info : BundleInfo) {n : Nat}
    {medallion : Medallion} {timestamp : Timestamp} {deadline : Option Nat}
    (hw : r.waits[n]? = some (.pending medallion timestamp deadline)) :
    n ∈ (r.tracker.waiters.filter (ChainTracker.reaches info)).map (·.ticket)
      ↔ ChainTracker.reaches info ⟨n, medallion, timestamp, false⟩ = true := by
  constructor
  · intro hn
    obtain ⟨v, hv, rfl⟩ := List.mem_map.mp hn
    obtain ⟨hv, hreaches⟩ := List.mem_filter.mp hv
    -- a ticket stands for one registration, so the waiter and the wait want the same bundle
    obtain ⟨-, deadline', hreg⟩ := h.table v hv
    cases h.stands _ _ _ hreg hw
    exact hreaches
  · intro hreaches
    have hlisted := h.listed n medallion timestamp deadline hw
    exact List.mem_map.mpr ⟨_, List.mem_filter.mpr ⟨hlisted, hreaches⟩, rfl⟩

/-- **A mark tells those waits whose bundles have arrived by it.** -/
theorem Tended.mark (h : Tended regs r) (info : BundleInfo) (check : Bool) :
    Tended regs (r.mark info check).1 := by
  rcases r.mark_eq_or info check with hsame | ⟨hlt, hnew⟩
  · rw [hsame]
    exact h
  rw [hnew]
  have hhas := ChainTracker.has_insert_iff hlt
    (r.tracker.waiters.filter fun w => !ChainTracker.reaches info w && !w.closed)
  have hseen := ChainTracker.seenBy_insert hlt
    (r.tracker.waiters.filter fun w => !ChainTracker.reaches info w && !w.closed)
  refine ⟨(Waits.length_change _ _ _).trans h.length, fun n reg w' hreg hw' => ?_,
    fun n medallion timestamp deadline hw' => ?_, fun w hw => ?_⟩
  · obtain ⟨w, hw, rfl⟩ := Waits.getElem?_fulfil_eq_some.mp hw'
    cases h.stands n reg w hreg hw with
    | pending awaited =>
        have hreached := h.mem_reached_iff info hw
        split
        · rename_i hn
          have hreaches := hreached.mp hn
          exact .told ((hhas ⟨n, reg.medallion, reg.timestamp, false⟩).mpr (.inr hreaches))
        · rename_i hn
          refine .pending (Bool.eq_false_iff.mpr fun hnow => ?_)
          rcases (hhas ⟨n, reg.medallion, reg.timestamp, false⟩).mp hnow with hbefore | hreaches
          · exact absurd hbefore (by simp [awaited])
          · exact hn (hreached.mpr hreaches)
    | told arrived =>
        have hstill := hseen.has arrived
        split <;> exact .told hstill
    | timedOut deadline given passed => split <;> exact .timedOut deadline given passed
    | gone => split <;> exact .gone
  · obtain ⟨w, hw, hpending⟩ := Waits.getElem?_fulfil_eq_some.mp hw'
    -- a wait that goes on was not told
    split at hpending
    · cases w <;> cases hpending
    · rename_i hn
      subst hpending
      rw [h.mem_reached_iff info hw, Bool.not_eq_true] at hn
      exact List.mem_filter.mpr ⟨h.listed n medallion timestamp deadline hw, by simp [hn]⟩
  · obtain ⟨hw, hkept⟩ := List.mem_filter.mp hw
    obtain ⟨hawaited, hregistered⟩ := h.table w hw
    refine ⟨Bool.eq_false_iff.mpr fun hnow => ?_, hregistered⟩
    rcases (hhas w).mp hnow with hbefore | hreaches
    · exact absurd hbefore (by simp [hawaited])
    · simp [hreaches] at hkept

/-- A wait is added, which goes into the table if it goes on. -/
theorem Tended.concat (h : Tended regs r) (reg : Registration) {w : WaitState}
    (added : List Waiter) (hw : Stands r.tracker r.now reg w)
    (hlisted : w = .pending reg.medallion reg.timestamp reg.deadline →
      ⟨r.waits.length, reg.medallion, reg.timestamp, false⟩ ∈ added)
    (hadded : ∀ v ∈ added, v = ⟨r.waits.length, reg.medallion, reg.timestamp, false⟩
      ∧ r.tracker.has reg.medallion reg.timestamp = false) :
    Tended (regs ++ [reg]) { r with
      tracker := { r.tracker with waiters := r.tracker.waiters ++ added }
      waits := r.waits ++ [w] } := by
  have hstands {reg : Registration} {w : WaitState} (hw : Stands r.tracker r.now reg w) :
      Stands ⟨r.tracker.chains, r.tracker.waiters ++ added⟩ r.now reg w :=
    hw.mono (t := r.tracker) rfl (Nat.le_refl _)
  refine ⟨by simp [h.length], fun n reg' w' hreg' hw' => ?_,
    fun n medallion timestamp deadline hw' => ?_, fun v hv => ?_⟩
  · rcases Waits.getElem?_concat_eq_some.mp hw' with hw' | ⟨rfl, rfl⟩
    · rcases Waits.getElem?_concat_eq_some.mp hreg' with hreg' | ⟨rfl, -⟩
      · exact hstands (h.stands n reg' w' hreg' hw')
      · rw [← h.length, List.getElem?_eq_none (Nat.le_refl _)] at hw'
        cases hw'
    · rw [h.length, List.getElem?_concat_length] at hreg'
      cases hreg'
      exact hstands hw
  · rcases Waits.getElem?_concat_eq_some.mp hw' with hw' | ⟨rfl, rfl⟩
    · exact List.mem_append_left _ (h.listed n medallion timestamp deadline hw')
    · cases hw
      exact List.mem_append_right _ (hlisted rfl)
  · rcases List.mem_append.mp hv with hv | hv
    · obtain ⟨hawaited, deadline, hreg⟩ := h.table v hv
      exact ⟨hawaited, deadline, Waits.getElem?_concat_eq_some.mpr (.inl hreg)⟩
    · obtain ⟨rfl, hawaited⟩ := hadded v hv
      exact ⟨hawaited, reg.deadline, Waits.getElem?_concat_eq_some.mpr (.inr ⟨h.length, rfl⟩)⟩

/-- **A wait that begins is told at once or goes into the table.** -/
theorem Tended.start (h : Tended regs r) (medallion : Medallion) (timestamp : Timestamp)
    (timeout : Option Nat) :
    Tended (regs ++ [⟨medallion, timestamp, timeout.map (r.now + ·)⟩])
      (r.start medallion timestamp timeout).1 := by
  cases hhas : r.tracker.has medallion timestamp with
  | true =>
      have htold := h.concat ⟨medallion, timestamp, timeout.map (r.now + ·)⟩ [] (.told hhas) nofun
        fun _ hv => absurd hv List.not_mem_nil
      rw [List.append_nil] at htold
      rw [start_of_has hhas]
      exact htold.settle
  | false =>
      have hlisted := h.concat ⟨medallion, timestamp, timeout.map (r.now + ·)⟩
        [⟨r.waits.length, medallion, timestamp, false⟩] (.pending hhas)
        (fun _ => List.mem_singleton.mpr rfl) fun v hv => ⟨List.mem_singleton.mp hv, hhas⟩
      rw [start_of_not_has hhas]
      exact hlisted.settle

theorem Tended.perform (h : Tended regs r) (step : Step) :
    Tended (regs ++ (r.registers? step).toList) (r.perform step) := by
  cases step with
  | start medallion timestamp timeout => exact h.start medallion timestamp timeout
  | mark info check => exact (List.append_nil regs).symm ▸ h.mark info check
  | cancel ticket => exact (List.append_nil regs).symm ▸ h.cancel ticket
  | take ticket => exact (List.append_nil regs).symm ▸ h.take ticket
  | advance ms => exact (List.append_nil regs).symm ▸ h.advance ms

/-! ### A whole run -/

theorem Tended.performAll (h : Tended regs r) (steps : List Step) :
    Tended (regs ++ r.registered steps) (r.performAll steps) := by
  induction steps generalizing regs r with
  | nil => exact (List.append_nil regs).symm ▸ h
  | cons step rest ih =>
      have hrest := ih (h.perform step)
      rwa [List.append_assoc] at hrest

theorem tended_ofTracker (chains : SortedMap ChainKey BundleInfo) :
    Tended [] (ofTracker ⟨chains, []⟩) :=
  ⟨rfl, fun _ _ _ hreg => by simp at hreg, fun _ _ _ _ hw => by simp [ofTracker] at hw,
    fun _ hw => absurd hw List.not_mem_nil⟩

theorem seenBy_settle {t : ChainTracker} (h : r.tracker.chains = t.chains) :
    t.SeenBy r.settle.tracker :=
  .of_chains ((ChainTracker.chains_foldl_closeWait _ _).trans h)

theorem seenBy_perform (r : WaitingRoom) (step : Step) :
    r.tracker.SeenBy (r.perform step).tracker := by
  cases step with
  | mark info check =>
      rcases r.mark_eq_or info check with hsame | ⟨hlt, hnew⟩
      · rw [perform, hsame]
        exact .of_chains rfl
      · rw [perform, hnew]
        exact ChainTracker.seenBy_insert hlt _
  | start medallion timestamp timeout =>
      cases hhas : r.tracker.has medallion timestamp with
      | true =>
          rw [perform, start_of_has hhas]
          exact seenBy_settle rfl
      | false =>
          rw [perform, start_of_not_has hhas]
          exact seenBy_settle rfl
  | cancel ticket => exact .of_chains rfl
  | take ticket => exact .of_chains rfl
  | advance ms => exact seenBy_settle rfl

theorem seenBy_performAll (r : WaitingRoom) (steps : List Step) :
    r.tracker.SeenBy (r.performAll steps).tracker := by
  induction steps generalizing r with
  | nil => exact .of_chains rfl
  | cons step rest ih => exact (r.seenBy_perform step).trans (ih (r.perform step))

/-- A wait is gone only after it was given up or its result was taken. -/
theorem gone_perform {n : Nat} {step : Step} (h : (r.perform step).waits[n]? = some .gone) :
    r.waits[n]? = some .gone ∨ step = .cancel n ∨ step = .take n := by
  cases step with
  | mark info check =>
      rcases r.mark_eq_or info check with hsame | ⟨-, hnew⟩
      · rw [perform, hsame] at h
        exact .inl h
      · rw [perform, hnew] at h
        exact .inl (Waits.gone_of_finish h)
  | start medallion timestamp timeout =>
      refine .inl ?_
      cases hhas : r.tracker.has medallion timestamp with
      | true =>
          rw [perform, start_of_has hhas] at h
          exact (Waits.getElem?_concat_eq_some.mp (Waits.gone_of_finish h)).resolve_right (by simp)
      | false =>
          rw [perform, start_of_not_has hhas] at h
          exact (Waits.getElem?_concat_eq_some.mp (Waits.gone_of_finish h)).resolve_right (by simp)
  | cancel ticket =>
      rcases Waits.gone_cancel h with hgone | rfl
      · exact .inl hgone
      · exact .inr (.inl rfl)
  | take ticket =>
      rcases Waits.take_eq_or r.waits ticket with hsame | htaken
      · rw [perform, take_waits, hsame] at h
        exact .inl h
      · rw [perform, take_waits, htaken] at h
        rcases Waits.gone_cancel h with hgone | rfl
        · exact .inl hgone
        · exact .inr (.inr rfl)
  | advance ms => exact .inl (show r.waits[n]? = _ from Waits.gone_of_finish h)

theorem gone_performAll {n : Nat} {steps : List Step}
    (h : (r.performAll steps).waits[n]? = some .gone) :
    r.waits[n]? = some .gone ∨ .cancel n ∈ steps ∨ .take n ∈ steps := by
  induction steps generalizing r with
  | nil => exact .inl h
  | cons step rest ih =>
      rcases ih h with hgone | hcancel | htake
      · rcases gone_perform hgone with hgone | rfl | rfl
        · exact .inl hgone
        · exact .inr (.inl (List.mem_cons_self ..))
        · exact .inr (.inr (List.mem_cons_self ..))
      · exact .inr (.inl (List.mem_cons_of_mem _ hcancel))
      · exact .inr (.inr (List.mem_cons_of_mem _ htake))

/-- **No wake-up is lost and none is spurious.** -/
theorem told_iff_has (chains : SortedMap ChainKey BundleInfo) (steps : List Step) :
    let begun := (ofTracker ⟨chains, []⟩).registered steps
    let r := (ofTracker ⟨chains, []⟩).performAll steps
    (∀ later, r.tracker.SeenBy (r.performAll later).tracker ∧ ∀ medallion time,
        r.tracker.has medallion time = true →
          (r.performAll later).tracker.has medallion time = true)
      ∧ (∀ info check e, (r.mark info check).2 = .error e → (r.mark info check).1 = r)
      ∧ r.waits.length = begun.length
      ∧ (∀ n reg w, begun[n]? = some reg → r.waits[n]? = some w →
          (w.IsHeld → (w.IsTold ↔ r.tracker.has reg.medallion reg.timestamp = true))
          ∧ (w.IsHeld ∨ (∃ deadline, reg.deadline = some deadline ∧ deadline ≤ r.now)
            ∨ .cancel n ∈ steps ∨ .take n ∈ steps))
      ∧ ∀ w ∈ r.tracker.waiters, r.tracker.has w.medallion w.timestamp = false
        ∧ r.waits[w.ticket]? ≠ some (.finished (.ok ()))
        ∧ ∃ deadline, begun[w.ticket]? = some ⟨w.medallion, w.timestamp, deadline⟩ := by
  intro begun r
  have htended : Tended begun r := (tended_ofTracker chains).performAll steps
  refine ⟨fun later => ?_, fun info check e herror => ?_, htended.length,
    fun n reg w hreg hw => ?_, fun v hv => ?_⟩
  · have hseen := r.seenBy_performAll later
    exact ⟨hseen, fun _ _ hhas => hseen.has hhas⟩
  · exact mark_of_error herror
  · cases htended.stands n reg w hreg hw with
    | pending awaited => exact ⟨fun _ => by simp [WaitState.IsTold, awaited], .inl trivial⟩
    | told arrived => exact ⟨fun _ => by simp [WaitState.IsTold, arrived], .inl trivial⟩
    | timedOut deadline given passed => exact ⟨False.elim, .inr (.inl ⟨deadline, given, passed⟩)⟩
    | gone =>
        refine ⟨False.elim, .inr (.inr ?_)⟩
        rcases gone_performAll hw with hgone | hended
        · simp [ofTracker] at hgone
        · exact hended
  · obtain ⟨hawaited, deadline, hreg⟩ := htended.table v hv
    refine ⟨hawaited, fun htold => ?_, deadline, hreg⟩
    cases htended.stands _ _ _ hreg htold with
    | told arrived => simp [hawaited] at arrived

/-- A wait for a time that a chain is marked past at once is told, though the bundles between are
missing. -/
example : ((ofTracker .empty).performAll
    [.start 1 5 none, .start 1 9 none, .mark ⟨7, 1, 3, none, none⟩ false]).waits
      = [.finished (.ok ()), .pending 1 9 none] := rfl

end WaitingRoom

end GossipStore
