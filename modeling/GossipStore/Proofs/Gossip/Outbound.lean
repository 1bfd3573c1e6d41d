import Mathlib.Logic.Function.Basic
import GossipStore.Proofs.Gossip.Offers

set_option autoImplicit false

/-! # What goes out to a peer

Bundles go out to a peer as they are offered, when their predecessors have gone out, and when the
peer catches up. On each of these ways a bundle is first marked in the has-map, which refuses it
unless it goes on from exactly where its chain stands, and then stands at the bundle. So whatever an
operation sends leads from where the has-map stood before to where it stands after (`Leads`).

What the other side says of itself moves the has-map forward only. Hence over the whole life of a
connection nothing goes out that the other side is known to have, nothing goes out twice, and
nothing goes out ahead of its predecessor (`outbound_in_order`).
-/

namespace GossipStore

/-! ## Bundles in the order of their chains -/

/-- Whether bundles lead from one progress to another: each goes on from where its chain stands at
its turn, and is where its chain stands next. -/
def Leads : Progress → List Bundle → Progress → Prop
  | r, [], r' => r = r'
  | r, b :: rest, r' =>
    b.prior = r b.info.chain ∧ Leads (Function.update r b.info.chain b.info.timestamp) rest r'

namespace Leads

variable {r r' r'' : Progress} {b : Bundle} {bs : List Bundle}

theorem append {later : List Bundle} (h : Leads r bs r') (h' : Leads r' later r'') :
    Leads r (bs ++ later) r'' := by
  induction bs generalizing r with
  | nil =>
      obtain rfl : r = r' := h
      exact h'
  | cons b rest ih => exact ⟨h.1, ih h.2⟩

theorem le_update (hprior : b.prior = r b.info.chain) (c : ChainKey) :
    r c ≤ Function.update r b.info.chain b.info.timestamp c := by
  by_cases hc : c = b.info.chain
  · rw [hc, Function.update_self, ← hprior]
    exact Std.le_of_lt b.prior_lt
  · rw [Function.update_of_ne hc]
    exact Std.le_refl _

theorem le (h : Leads r bs r') (c : ChainKey) : r c ≤ r' c := by
  induction bs generalizing r with
  | nil =>
      obtain rfl : r = r' := h
      exact Std.le_refl _
  | cons b rest ih => exact Std.le_trans (le_update h.1 c) (ih h.2)

/-- Everything sent is ahead of where its chain stood, and not ahead of where it stands at last. -/
theorem lt_of_mem (h : Leads r bs r') (hb : b ∈ bs) :
    r b.info.chain < b.info.timestamp ∧ b.info.timestamp ≤ r' b.info.chain := by
  induction bs generalizing r with
  | nil => cases hb
  | cons first rest ih =>
      rcases List.mem_cons.mp hb with rfl | hb
      · refine ⟨h.1 ▸ b.prior_lt, ?_⟩
        have hreached := le h.2 b.info.chain
        rwa [Function.update_self] at hreached
      · obtain ⟨hlt, hle⟩ := ih h.2 hb
        exact ⟨Std.lt_of_le_of_lt (le_update h.1 _) hlt, hle⟩

theorem pairwise (h : Leads r bs r') : bs.Pairwise fun a b =>
    a.info.chain = b.info.chain → a.info.timestamp < b.info.timestamp := by
  induction bs generalizing r with
  | nil => exact .nil
  | cons first rest ih =>
      refine List.pairwise_cons.mpr ⟨fun b hb hchain => ?_, ih h.2⟩
      have hlt := (lt_of_mem h.2 hb).1
      rwa [← hchain, Function.update_self] at hlt

end Leads

/-- A checked mark of a bundle passes only at its predecessor, and leaves its chain at it. -/
theorem ChainTracker.mark_bundle {t u : ChainTracker} {b : Bundle} {reached : List Nat}
    (h : t.mark b.info true = .ok ⟨u, true, reached⟩) : b.prior = t.seenThrough b.info.chain
      ∧ u.seenThrough = Function.update t.seenThrough b.info.chain b.info.timestamp := by
  rw [mark] at h
  simp only at h
  split at h
  · cases h
  · split at h
    · cases h
    · rename_i hcontinues
      cases h
      simp only [Bool.true_and, Bool.not_eq_true', Bool.not_eq_false] at hcontinues
      refine ⟨b.continuesFrom_iff.mp hcontinues, funext fun c => ?_⟩
      by_cases hc : c = b.info.chain
      · rw [hc, Function.update_self]
        simp [seenThrough, seenTo?, info?]
      · rw [Function.update_of_ne hc]
        simp [seenThrough, seenTo?, info?, SortedMap.get?_insert_of_ne _ hc]

namespace Peer

/-! ## Operations that send -/

/-- How far the other side is known to have come, which is nowhere before its greeting. -/
def progress (p : Peer) (c : ChainKey) : Timestamp := (p.hasMap.map (·.seenThrough c)).getD 0

/-- Whether a peer of which something is known is ready. -/
def Met (p : Peer) : Prop := p.hasMap.isSome = true → p.state = .ready

theorem met_of_frame {p q : Peer} (hmet : p.Met) (hknown : q.hasMap.isSome = p.hasMap.isSome)
    (hstate : q.state = p.state) : q.Met :=
  fun h => hstate.trans (hmet (hknown.symm.trans h))

theorem progress_of_hasMap {p : Peer} {t : ChainTracker} (h : p.hasMap = some t) :
    p.progress = t.seenThrough := by
  funext c
  rw [progress, h]
  rfl

/-- What an operation sends leads the has-map on, and the connection is as before otherwise. -/
structure Outcome.LeadsOn {α : Type} (o : Outcome α) (p : Peer) : Prop where
  sends : ∃ bs, o.sent = bs.map carrying ∧ Leads p.progress bs o.peer.progress
  known : o.peer.hasMap.isSome = p.hasMap.isSome
  state : o.peer.state = p.state

section Sending

variable {p : Peer} {α β : Type}

theorem Outcome.LeadsOn.met {o : Outcome α} (h : o.LeadsOn p) (hmet : p.Met) : o.peer.Met :=
  met_of_frame hmet h.known h.state

theorem Outcome.LeadsOn.le {o : Outcome α} (h : o.LeadsOn p) (c : ChainKey) :
    p.progress c ≤ o.peer.progress c := by
  obtain ⟨bs, -, hleads⟩ := h.sends
  exact hleads.le c

/-- Nothing is sent and nothing is learned. -/
theorem leadsOn_nil {q : Peer} {result : Except GossipError α} (hknown : q.hasMap = p.hasMap)
    (hstate : q.state = p.state) : (⟨q, [], result⟩ : Outcome α).LeadsOn p where
  sends := ⟨[], rfl, funext fun c => by rw [progress, progress, hknown]⟩
  known := congrArg Option.isSome hknown
  state := hstate

theorem Outcome.LeadsOn.append {γ : Type} {o : Outcome α} {o' : Outcome β} (h : o.LeadsOn p)
    (h' : o'.LeadsOn o.peer) (result : Except GossipError γ) :
    (⟨o'.peer, o.sent ++ o'.sent, result⟩ : Outcome γ).LeadsOn p where
  sends := by
    obtain ⟨bs, hsent, hleads⟩ := h.sends
    obtain ⟨later, hsent', hleads'⟩ := h'.sends
    exact ⟨bs ++ later, by rw [hsent, hsent', List.map_append], hleads.append hleads'⟩
  known := h'.known.trans h.known
  state := h'.state.trans h.state

theorem Outcome.LeadsOn.of_same {o : Outcome α} (h : o.LeadsOn p) {q : Peer}
    (hknown : q.hasMap = o.peer.hasMap) (hstate : q.state = o.peer.state)
    (result : Except GossipError β) : (⟨q, o.sent, result⟩ : Outcome β).LeadsOn p := by
  have hnothing : (⟨q, [], result⟩ : Outcome β).LeadsOn o.peer := leadsOn_nil hknown hstate
  have happend := h.append hnothing result
  rwa [List.append_nil] at happend

/-- What is sent on an open connection goes out. -/
theorem sendBundle_eq (hopen : p.state ≠ .closed) (b : Bundle) :
    p.sendBundle (.ok ()) b = ⟨p.noteSent b.info, [carrying b], .ok ()⟩ := by
  simp only [sendBundle, transmit, if_neg hopen, Except.map, carrying]

/-- The has-map passes a bundle, which then goes out. -/
theorem sendBundle_leadsOn {t u : ChainTracker} {b : Bundle} {reached : List Nat} (hmet : p.Met)
    (ht : p.hasMap = some t) (hmark : t.mark b.info true = .ok ⟨u, true, reached⟩) :
    (({ p with hasMap := some u } : Peer).sendBundle (.ok ()) b).LeadsOn p := by
  obtain ⟨hprior, hseen⟩ := ChainTracker.mark_bundle hmark
  have hopen : ({ p with hasMap := some u } : Peer).state ≠ .closed := by
    have hready : p.state = .ready := hmet (by rw [ht]; rfl)
    simp [hready]
  rw [sendBundle_eq hopen]
  refine ⟨⟨[b], rfl, ?_, ?_⟩, by rw [ht]; rfl, rfl⟩
  · rw [progress_of_hasMap ht, hprior]
  · rw [progress_of_hasMap ht, progress_of_hasMap (t := u) rfl, ← hseen]
    rfl

theorem foldl_hold_frame (bs : List Bundle) (p : Peer) :
    (bs.foldl hold p).hasMap = p.hasMap ∧ (bs.foldl hold p).state = p.state := by
  induction bs generalizing p with
  | nil => exact ⟨rfl, rfl⟩
  | cons b rest ih => exact ih (p.hold b)

theorem prune_frame (p : Peer) (chain : ChainKey) :
    (p.prune chain).hasMap = p.hasMap ∧ (p.prune chain).state = p.state := by
  rw [prune]
  split <;> exact ⟨rfl, rfl⟩

theorem flush_leadsOn (hmet : p.Met) (bs : List Bundle) : (p.flush (.ok ()) bs).LeadsOn p := by
  induction bs generalizing p with
  | nil => exact leadsOn_nil rfl rfl
  | cons b rest ih =>
      have hheld := foldl_hold_frame (b :: rest) p
      rw [flush]
      cases ht : p.hasMap with
      | none => exact leadsOn_nil hheld.1 hheld.2
      | some t =>
          simp only
          split
          · exact leadsOn_nil hheld.1 hheld.2
          · rename_i u reached hmark
            have hfirst := sendBundle_leadsOn hmet ht hmark
            split
            · have hrest := foldl_hold_frame rest
                (({ p with hasMap := some u } : Peer).sendBundle (.ok ()) b).peer
              exact hfirst.of_same hrest.1 hrest.2 _
            · exact hfirst.append (ih (hfirst.met hmet)) _
          · exact ih hmet

theorem flushChain_leadsOn (hmet : p.Met) (chain : ChainKey) :
    (p.flushChain (.ok ()) chain).LeadsOn p := by
  obtain ⟨hknown, hstate⟩ := prune_frame p chain
  -- pruning and releasing leave the has-map as it is
  have hreleased : (⟨(p.prune chain).releaseChain chain, [], .ok ()⟩ : Outcome Unit).LeadsOn p :=
    leadsOn_nil hknown hstate
  exact hreleased.append (flush_leadsOn (hreleased.met hmet) ((p.prune chain).heldOn chain)) _

theorem offer_leadsOn (hmet : p.Met) (b : Bundle) : (p.offer (.ok ()) b).LeadsOn p := by
  rw [offer]
  cases ht : p.hasMap with
  | none => exact leadsOn_nil rfl rfl
  | some t =>
      simp only
      split
      · exact leadsOn_nil rfl rfl
      · exact leadsOn_nil rfl rfl
      · rename_i u reached hmark
        have hfirst := sendBundle_leadsOn hmet ht hmark
        split
        · exact hfirst.of_same rfl rfl _
        · exact hfirst.append (flushChain_leadsOn (hfirst.met hmet) b.info.chain) _

theorem catchUp_leadsOn (hmet : p.Met) (bs : List Bundle) :
    (p.catchUp (.ok ()) bs).LeadsOn p := by
  induction bs generalizing p with
  | nil => exact leadsOn_nil rfl rfl
  | cons b rest ih =>
      have hfirst := offer_leadsOn hmet b
      rw [catchUp]
      simp only
      split
      · exact hfirst.of_same rfl rfl _
      · exact hfirst.append (ih (hfirst.met hmet)) _

end Sending

/-! ## The life of a connection -/

/-- Something that happens to a connection. -/
inductive Act where
  | greet (now : Nat) (tracker : ChainTracker)
  | offer (b : Bundle)
  | catchUp (bs : List Bundle)
  /-- A bundle has arrived from the other side. -/
  | received (info : BundleInfo)
  | acked (info : BundleInfo)
  | close

/-- What the other side says of itself by an act. -/
def Act.tells : Act → Option BundleInfo
  | received info | acked info => some info
  | greet _ _ | offer _ | catchUp _ | close => none

/-- A peer after an act, and what went out, given that sending succeeds. -/
def perform (p : Peer) : Act → Peer × List Message
  | .greet now tracker => ((p.greet now tracker).1, [])
  | .offer b => ((p.offer (.ok ()) b).peer, (p.offer (.ok ()) b).sent)
  | .catchUp bs => ((p.catchUp (.ok ()) bs).peer, (p.catchUp (.ok ()) bs).sent)
  | .received info => (p.onReceived info, [])
  | .acked info => (p.onAck info, [])
  | .close => (p.close, [])

/-- A peer after some acts, and what went out. -/
def live (p : Peer) : List Act → Peer × List Message
  | [] => (p, [])
  | act :: rest =>
    (((p.perform act).1.live rest).1, (p.perform act).2 ++ ((p.perform act).1.live rest).2)

/-- Whether a connection has been closed and nothing is known of the other side any more. -/
structure Silent (p : Peer) : Prop where
  state : p.state = .closed
  unknown : p.hasMap = none

section Acts

variable {p : Peer}

theorem onReceived_frame (p : Peer) (info : BundleInfo) :
    (p.onReceived info).hasMap = p.hasMap.map (fun t => (t.markUnchecked info).tracker)
      ∧ (p.onReceived info).state = p.state :=
  prune_frame _ info.chain

theorem onAck_frame (p : Peer) (info : BundleInfo) :
    (p.onAck info).hasMap = (p.onReceived info).hasMap ∧ (p.onAck info).state = p.state := by
  rw [onAck]
  split <;> exact ⟨rfl, (onReceived_frame p info).2⟩

/-- A greeting is accepted from a peer of which nothing is known, or else ignored. -/
theorem greet_cases (p : Peer) (now : Nat) (tracker : ChainTracker) :
    (p.state = .connecting ∧ (p.greet now tracker).2 = .ok ()
        ∧ (p.greet now tracker).1.hasMap = some tracker ∧ (p.greet now tracker).1.state = .ready)
      ∨ ((p.greet now tracker).1.hasMap = p.hasMap
        ∧ (p.state ≠ .connecting → (p.greet now tracker).1.state = p.state)) := by
  cases hstate : p.state with
  | connecting =>
      by_cases hlate : p.deadline ≤ now
      · simp [greet, expire, hstate, hlate]
      · simp [greet, expire, hstate, hlate]
  | ready => simp [greet, expire, hstate]
  | failed => simp [greet, expire, hstate]
  | closed => simp [greet, expire, hstate]

theorem Silent.met (h : p.Silent) : p.Met := fun hknown => by
  rw [h.unknown] at hknown
  cases hknown

theorem silent_close (hmet : p.Met) : p.close.Silent := by
  rw [close]
  split
  · rename_i hclosed
    refine ⟨hclosed, Option.not_isSome_iff_eq_none.mp fun hknown => ?_⟩
    rw [hmet hknown] at hclosed
    cases hclosed
  · exact ⟨rfl, rfl⟩

/-- What the other side tells of itself moves the has-map forward. -/
theorem progress_told {q : Peer} {info : BundleInfo}
    (hq : q.hasMap = p.hasMap.map fun t => (t.markUnchecked info).tracker)
    (hknown : p.hasMap.isSome = true) :
    q.progress = Progress.raise p.progress info.chain info.timestamp := by
  obtain ⟨t, ht⟩ := Option.isSome_iff_exists.mp hknown
  rw [ht] at hq
  rw [progress_of_hasMap ht, progress_of_hasMap hq, ChainTracker.seenThrough_markUnchecked]

theorem hasMap_onAck (p : Peer) (info : BundleInfo) :
    (p.onAck info).hasMap = p.hasMap.map fun t => (t.markUnchecked info).tracker :=
  (onAck_frame p info).1.trans (onReceived_frame p info).1

/-! ### One act -/

/-- What an act can do to a connection, and what goes out by it. -/
inductive Effect (p : Peer) (act : Act) (q : Peer) (sent : List Message) : Prop where
  /-- What goes out leads the has-map on, and nothing else is learned. -/
  | leads {bs : List Bundle} (carried : sent = bs.map carrying)
      (leads : Leads p.progress bs q.progress) (known : q.hasMap.isSome = p.hasMap.isSome)
      (state : p.state ≠ .connecting → q.state = p.state) (tells : act.tells = none)
  /-- The other side has told how far it has come on a chain. -/
  | told {info : BundleInfo} (tells : act.tells = some info) (nothing : sent = [])
      (hasMap : q.hasMap = p.hasMap.map fun t => (t.markUnchecked info).tracker)
      (state : q.state = p.state)
  /-- A greeting has been accepted. -/
  | greeted {now : Nat} {tracker : ChainTracker} (connecting : p.state = .connecting)
      (greeting : act = .greet now tracker) (nothing : sent = [])
      (accepted : (p.greet now tracker).2 = .ok ())
      (result : q = (p.greet now tracker).1) (learned : q.hasMap = some tracker)
      (ready : q.state = .ready)
  | closed (nothing : sent = []) (silent : q.Silent)

theorem Outcome.LeadsOn.effect {α : Type} {o : Outcome α} (h : o.LeadsOn p) {act : Act}
    (htells : act.tells = none) : Effect p act o.peer o.sent := by
  obtain ⟨bs, hsent, hleads⟩ := h.sends
  exact .leads hsent hleads h.known (fun _ => h.state) htells

theorem effect_perform (hmet : p.Met) (act : Act) :
    Effect p act (p.perform act).1 (p.perform act).2 := by
  cases act with
  | greet now tracker =>
      rcases greet_cases p now tracker with ⟨hconnecting, hok, hmap, hready⟩ | ⟨hsame, hstate⟩
      · exact .greeted hconnecting rfl rfl hok rfl hmap hready
      · have hnothing : Leads p.progress [] (p.greet now tracker).1.progress :=
          funext fun c => by rw [progress, progress, hsame]
        exact .leads rfl hnothing (congrArg Option.isSome hsame) hstate rfl
  | offer b => exact (offer_leadsOn hmet b).effect rfl
  | catchUp bs => exact (catchUp_leadsOn hmet bs).effect rfl
  | received info =>
      obtain ⟨hmap, hstate⟩ := onReceived_frame p info
      exact .told rfl rfl hmap hstate
  | acked info => exact .told rfl rfl (hasMap_onAck p info) (onAck_frame p info).2
  | close => exact .closed rfl (silent_close hmet)

namespace Effect

variable {q : Peer} {act : Act} {sent : List Message}

theorem met (h : Effect p act q sent) (hmet : p.Met) : q.Met := by
  cases h with
  | leads _ _ known state =>
      intro hknown
      have hready := hmet (known.symm.trans hknown)
      exact (state (by rw [hready]; decide)).trans hready
  | told _ _ hasMap state => exact met_of_frame hmet (by rw [hasMap, Option.isSome_map]) state
  | greeted _ _ _ _ _ _ ready => exact fun _ => ready
  | closed _ silent => exact silent.met

/-- What an act sends leads the has-map on, and so nothing goes out unless there is one. -/
theorem sends (h : Effect p act q sent) : ∃ bs, sent = bs.map carrying
    ∧ ∀ b ∈ bs, p.hasMap.isSome = true ∧ q.hasMap.isSome = true
      ∧ Leads p.progress bs q.progress := by
  cases h with
  | @leads bs carried leads known =>
      refine ⟨bs, carried, fun b hb => ?_⟩
      have hpos := Std.lt_of_lt_of_le b.timestamp_pos (leads.lt_of_mem hb).2
      have hknown : q.hasMap.isSome = true := by
        refine Option.isSome_iff_ne_none.mpr fun hnone => ?_
        rw [progress, hnone] at hpos
        exact Std.lt_irrefl hpos
      exact ⟨known.symm.trans hknown, hknown, leads⟩
  | told _ nothing => exact ⟨[], nothing, List.forall_mem_nil _⟩
  | greeted _ _ nothing => exact ⟨[], nothing, List.forall_mem_nil _⟩
  | closed nothing => exact ⟨[], nothing, List.forall_mem_nil _⟩

/-- To a silent connection nothing is sent, and it stays silent. -/
theorem silent (h : Effect p act q sent) (hp : p.Silent) : q.Silent ∧ sent = [] := by
  have hsent : sent = [] := by
    obtain ⟨bs, hsent, hleads⟩ := h.sends
    cases bs with
    | nil => exact hsent
    | cons b rest =>
        have hknown := (hleads b List.mem_cons_self).1
        rw [hp.unknown] at hknown
        cases hknown
  refine ⟨?_, hsent⟩
  cases h with
  | leads _ _ known state =>
      refine ⟨(state (by rw [hp.state]; decide)).trans hp.state, ?_⟩
      rw [← Option.not_isSome_iff_eq_none, known, hp.unknown]
      exact Bool.false_ne_true
  | told _ _ hasMap state =>
      exact ⟨state.trans hp.state, hasMap.trans (by rw [hp.unknown]; rfl)⟩
  | greeted connecting => cases connecting.symm.trans hp.state
  | closed _ silent => exact silent

/-- What is known of the other side moves forward with every act until the connection is closed. -/
theorem advances (h : Effect p act q sent) (hmet : p.Met) (hknown : p.hasMap.isSome = true) :
    q.Silent ∨ q.hasMap.isSome = true ∧ (∀ c, p.progress c ≤ q.progress c)
      ∧ ∀ info, act.tells = some info → info.timestamp ≤ q.progress info.chain := by
  cases h with
  | leads _ leads known _ tells =>
      refine .inr ⟨known.trans hknown, leads.le, fun info htells => ?_⟩
      cases tells.symm.trans htells
  | @told info tells _ hasMap =>
      refine .inr ⟨by rw [hasMap, Option.isSome_map, hknown], ?_⟩
      rw [progress_told hasMap hknown]
      refine ⟨Progress.le_raise _ _ _, fun other htells => ?_⟩
      cases tells.symm.trans htells
      exact Progress.raise_self_ge _ _ _
  | greeted connecting => cases connecting.symm.trans (hmet hknown)
  | closed _ silent => exact .inl silent

/-- What becomes known of the other side, becomes known by its greeting. -/
theorem greets_of_known (h : Effect p act q sent) (hunknown : p.hasMap = none)
    (hknown : q.hasMap.isSome = true) : ∃ now tracker, act = .greet now tracker
      ∧ (p.greet now tracker).2 = .ok () ∧ (p.greet now tracker).1.hasMap = some tracker := by
  cases h with
  | leads _ _ known =>
      rw [known, hunknown] at hknown
      cases hknown
  | told _ _ hasMap =>
      rw [hasMap, hunknown] at hknown
      cases hknown
  | @greeted now tracker _ greeting _ accepted result learned =>
      exact ⟨now, tracker, greeting, accepted, result ▸ learned⟩
  | closed _ silent =>
      rw [silent.unknown] at hknown
      cases hknown

end Effect

/-! ### Whole lives -/

theorem met_live (hmet : p.Met) (acts : List Act) : (p.live acts).1.Met := by
  induction acts generalizing p with
  | nil => exact hmet
  | cons act rest ih => exact ih ((effect_perform hmet act).met hmet)

theorem Silent.live (h : p.Silent) (acts : List Act) :
    (p.live acts).1.Silent ∧ (p.live acts).2 = [] := by
  induction acts generalizing p with
  | nil => exact ⟨h, rfl⟩
  | cons act rest ih =>
      obtain ⟨hnext, hsent⟩ := (effect_perform h.met act).silent h
      obtain ⟨hlast, hrest⟩ := ih hnext
      exact ⟨hlast, by rw [Peer.live, hsent, hrest, List.nil_append]⟩

/-- As long as the connection is open, nothing is forgotten of what the other side has told. -/
theorem progress_live (hmet : p.Met) (hknown : p.hasMap.isSome = true) {acts : List Act}
    (hopen : (p.live acts).1.hasMap.isSome = true) :
    (∀ c, p.progress c ≤ (p.live acts).1.progress c)
      ∧ ∀ act ∈ acts, ∀ info, act.tells = some info →
        info.timestamp ≤ (p.live acts).1.progress info.chain := by
  induction acts generalizing p with
  | nil => exact ⟨fun _ => Std.le_refl _, List.forall_mem_nil _⟩
  | cons act rest ih =>
      have heffect := effect_perform hmet act
      rcases heffect.advances hmet hknown with hsilent | ⟨hstill, hle, hreached⟩
      · have hunknown := (hsilent.live rest).1.unknown
        rw [live, hunknown] at hopen
        cases hopen
      · obtain ⟨hrest, hrestReached⟩ := ih (heffect.met hmet) hstill hopen
        refine ⟨fun c => Std.le_trans (hle c) (hrest c), List.forall_mem_cons.mpr
          ⟨fun info htells => Std.le_trans (hreached info htells) (hrest info.chain),
            hrestReached⟩⟩

/-- What is known of the other side goes back to a greeting. -/
theorem exists_greeting (hmet : p.Met) (hunknown : p.hasMap = none) {acts : List Act}
    (hopen : (p.live acts).1.hasMap.isSome = true) : ∃ early now tracker late,
      acts = early ++ .greet now tracker :: late
        ∧ ((p.live early).1.greet now tracker).2 = .ok ()
        ∧ ((p.live early).1.greet now tracker).1.hasMap = some tracker
        ∧ (p.live acts).1 = (((p.live early).1.greet now tracker).1.live late).1 := by
  induction acts generalizing p with
  | nil =>
      rw [live, hunknown] at hopen
      cases hopen
  | cons act rest ih =>
      have heffect := effect_perform hmet act
      by_cases hnext : (p.perform act).1.hasMap.isSome = true
      · obtain ⟨now, tracker, rfl, hok, hmap⟩ := heffect.greets_of_known hunknown hnext
        exact ⟨[], now, tracker, rest, rfl, hok, hmap, rfl⟩
      · obtain ⟨early, now, tracker, late, rfl, hok, hmap, hlast⟩ :=
          ih (heffect.met hmet) (Option.not_isSome_iff_eq_none.mp hnext) hopen
        exact ⟨act :: early, now, tracker, late, rfl, hok, hmap, hlast⟩

/-- **On each chain what is sent gets newer**, starting ahead of what is known at first. -/
theorem increasing_live (hmet : p.Met) (acts : List Act) : ∃ bs : List Bundle,
    (p.live acts).2 = bs.map carrying
    ∧ (bs.Pairwise fun a b => a.info.chain = b.info.chain → a.info.timestamp < b.info.timestamp)
    ∧ (p.hasMap.isSome = true → ∀ b ∈ bs, p.progress b.info.chain < b.info.timestamp) := by
  induction acts generalizing p with
  | nil => exact ⟨[], rfl, .nil, fun _ => List.forall_mem_nil _⟩
  | cons act rest ih =>
      have heffect := effect_perform hmet act
      obtain ⟨first, hfirst, hleads⟩ := heffect.sends
      obtain ⟨others, hothers, hpairwise, hahead⟩ := ih (heffect.met hmet)
      refine ⟨first ++ others, by rw [live, hfirst, hothers, List.map_append], ?_, ?_⟩
      · refine List.pairwise_append.mpr ⟨?_, hpairwise, fun a ha b hb hchain => ?_⟩
        · cases first with
          | nil => exact .nil
          | cons a _ => exact (hleads a List.mem_cons_self).2.2.pairwise
        · obtain ⟨-, hstill, hled⟩ := hleads a ha
          have hlt := hahead hstill b hb
          rw [← hchain] at hlt
          exact Std.lt_of_le_of_lt (hled.lt_of_mem ha).2 hlt
      · intro hknown b hb
        rcases List.mem_append.mp hb with hb | hb
        · exact ((hleads b hb).2.2.lt_of_mem hb).1
        · rcases heffect.advances hmet hknown with hsilent | ⟨hstill, hle, -⟩
          · rw [(hsilent.live rest).2] at hothers
            rw [List.map_eq_nil_iff.mp hothers.symm] at hb
            cases hb
          · exact Std.lt_of_le_of_lt (hle b.info.chain) (hahead hstill b hb)

end Acts

/-- **Nothing goes out to a peer that it is known to have, or twice, or ahead of its predecessor.**
Whatever happens on a connection, the messages that go out carry bundles that get newer on each
chain. What goes out at any moment leads from where the has-map stood to where it stands next, and
is newer than what the other side's greeting says of the chain and than what the other side has told
of it since. -/
theorem outbound_in_order (serial : Nat) (id : PeerId) (timeout now : Nat) (acts : List Act) :
    let start := new serial id timeout now
    (∃ bs : List Bundle, (start.live acts).2 = bs.map carrying ∧ bs.Pairwise fun a b =>
        a.info.chain = b.info.chain → a.info.timestamp < b.info.timestamp)
      ∧ ∀ before act after, acts = before ++ act :: after →
        ∃ bs, ((start.live before).1.perform act).2 = bs.map carrying
          ∧ ∀ b ∈ bs,
            Leads (start.live before).1.progress bs ((start.live before).1.perform act).1.progress
            ∧ ∃ early time tracker late, before = early ++ .greet time tracker :: late
              ∧ ((start.live early).1.greet time tracker).2 = .ok ()
              ∧ (∀ row, tracker.seenTo? b.info.chain = some row → row < b.info.timestamp)
              ∧ ∀ told ∈ late, ∀ info, told.tells = some info → info.chain = b.info.chain →
                info.timestamp < b.info.timestamp := by
  intro start
  have hmet : start.Met := fun h => by cases h
  refine ⟨?_, fun before act after _ => ?_⟩
  · obtain ⟨bs, hsent, hpairwise, -⟩ := increasing_live hmet acts
    exact ⟨bs, hsent, hpairwise⟩
  · obtain ⟨bs, hsent, hleads⟩ := (effect_perform (met_live hmet before) act).sends
    refine ⟨bs, hsent, fun b hb => ?_⟩
    obtain ⟨hknown, -, hled⟩ := hleads b hb
    obtain ⟨early, time, tracker, late, rfl, hok, hmap, hlast⟩ := exists_greeting hmet rfl hknown
    have hahead := (hled.lt_of_mem hb).1
    rw [hlast] at hahead hknown
    -- nothing that the other side has told since its greeting has been forgotten
    have hgreeted : ((start.live early).1.greet time tracker).1.Met :=
      (effect_perform (met_live hmet early) (.greet time tracker)).met (met_live hmet early)
    obtain ⟨hle, hreached⟩ := progress_live hgreeted (by rw [hmap]; rfl) hknown
    refine ⟨hled, early, time, tracker, late, rfl, hok, fun row hrow => ?_,
      fun told htold info htells hchain => ?_⟩
    · refine Std.lt_of_le_of_lt ?_ hahead
      have hrow' : tracker.seenThrough b.info.chain = row := by
        rw [ChainTracker.seenThrough, hrow]
        rfl
      rw [← hrow', ← progress_of_hasMap hmap]
      exact hle b.info.chain
    · refine Std.lt_of_le_of_lt (hreached told htold info htells) ?_
      rw [hchain]
      exact hahead

/-- A bundle that is offered too early goes out right after its predecessor, and not again. -/
example :
    let first := Bundle.ofValid ⟨10, 1, 10, none, none⟩ [] rfl (List.forall_mem_nil _) (by decide)
    let second := Bundle.ofValid ⟨20, 1, 10, some 10, none⟩ [] rfl (List.forall_mem_nil _)
      (by decide)
    ((new 0 7 1000 0).live [.greet 5 .empty, .offer second, .offer first, .offer second,
        .acked first.info, .catchUp [first, second]]).2
      = [carrying first, carrying second] := by decide +kernel

end Peer

end GossipStore
