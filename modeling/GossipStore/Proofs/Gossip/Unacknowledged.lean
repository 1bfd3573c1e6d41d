import GossipStore.Proofs.Gossip.Reordering

set_option autoImplicit false

/-! # What is not acknowledged yet

Of what has gone out on a chain a peer keeps one time, which an acknowledgement deletes that is not
before it. This is enough, for what goes out on a chain gets newer. An acknowledgement that comes
early counts as well: it has moved the has-map forward, so nothing that it covers goes out any more.
Hence a time is kept for a chain exactly if the latest bundle sent on it is later than every
acknowledgement for it (`Tallied`).
-/

namespace GossipStore.Peer

variable {p : Peer} {b : Bundle} {bs sent : List Bundle} {told : List BundleInfo}
  {chain : ChainKey} {info : BundleInfo}

/-! ## The table -/

/-- The table of latest times after a bundle has been noted in it. -/
def noted (unacked : SortedMap ChainKey Timestamp) (b : Bundle) : SortedMap ChainKey Timestamp :=
  unacked.insert b.info.chain <| match unacked.get? b.info.chain with
    | none => b.info.timestamp
    | some sent => max sent b.info.timestamp

theorem unacked_noteSent (p : Peer) (b : Bundle) :
    (p.noteSent b.info).unacked = noted p.unacked b := rfl

/-- A bundle that is later than what was noted takes its place. -/
theorem noted_eq_insert {unacked : SortedMap ChainKey Timestamp}
    (h : ∀ t, unacked.get? b.info.chain = some t → t ≤ b.info.timestamp) :
    noted unacked b = unacked.insert b.info.chain b.info.timestamp := by
  rw [noted]
  cases ht : unacked.get? b.info.chain with
  | none => rfl
  | some t =>
      have hmax : max t b.info.timestamp
          = if t ≤ b.info.timestamp then b.info.timestamp else t := rfl
      simp only [hmax, if_pos (h t ht)]

/-- What leads a has-map on that is not behind the table leaves the last times in it. -/
theorem get?_foldl_noted {r r' : Progress} (hleads : Leads r bs r')
    {unacked : SortedMap ChainKey Timestamp}
    (h : ∀ c t, unacked.get? c = some t → t ≤ r c) (chain : ChainKey) :
    (bs.foldl noted unacked).get? chain
      = ((Index.ofChain bs chain).getLast?.map fun b => b.info.timestamp).or
        (unacked.get? chain) := by
  induction bs generalizing r unacked with
  | nil => rfl
  | cons b rest ih =>
      have hlt : r b.info.chain < b.info.timestamp := hleads.1 ▸ b.prior_lt
      have hnoted : noted unacked b = unacked.insert b.info.chain b.info.timestamp :=
        noted_eq_insert fun t ht => Std.le_of_lt (Std.lt_of_le_of_lt (h _ t ht) hlt)
      have hbound : ∀ c t, (noted unacked b).get? c = some t →
          t ≤ Function.update r b.info.chain b.info.timestamp c := by
        intro c t ht
        rw [hnoted] at ht
        by_cases hc : c = b.info.chain
        · rw [hc, SortedMap.get?_insert_self] at ht
          rw [hc, Function.update_self]
          exact Std.le_of_eq (Option.some.inj ht).symm
        · rw [SortedMap.get?_insert_of_ne _ hc] at ht
          rw [Function.update_of_ne hc]
          exact h c t ht
      rw [List.foldl_cons, ih hleads.2 hbound, hnoted, Index.ofChain, Index.ofChain,
        List.filter_cons]
      by_cases hc : b.info.chain = chain
      · subst hc
        simp only [decide_true, if_true, SortedMap.get?_insert_self, List.getLast?_cons]
        cases (rest.filter (·.info.chain = b.info.chain)).getLast? <;> rfl
      · simp only [hc, decide_false, Bool.false_eq_true, if_false,
          SortedMap.get?_insert_of_ne _ (Ne.symm hc)]

/-- An acknowledgement deletes the time of its chain unless that is later. -/
theorem get?_unacked_onAck (p : Peer) (info : BundleInfo) (chain : ChainKey) :
    (p.onAck info).unacked.get? chain
      = (p.unacked.get? chain).filter fun t => info.chain = chain → info.timestamp < t := by
  have hreceived : (p.onReceived info).unacked = p.unacked := by
    rw [onReceived, prune]
    split <;> rfl
  have hack : (p.onAck info).unacked
      = if (p.unacked.get? info.chain).any (· ≤ info.timestamp) then p.unacked.erase info.chain
        else p.unacked := by
    rw [onAck]
    simp only [hreceived]
    split
    · rfl
    · exact hreceived
  rw [hack]
  by_cases hc : info.chain = chain
  · subst hc
    cases ht : p.unacked.get? info.chain with
    | none => simp [ht]
    | some t =>
        by_cases hle : t ≤ info.timestamp
        · simp [Option.filter_some, hle, Std.not_lt.mpr hle]
        · simp [Option.filter_some, hle, Std.not_le.mp hle, ht]
  · have hkeep : (p.unacked.erase info.chain).get? chain = p.unacked.get? chain :=
      SortedMap.get?_erase_of_ne _ (Ne.symm hc)
    have hpass : (p.unacked.get? chain).filter (fun t => info.chain = chain → info.timestamp < t)
        = p.unacked.get? chain := by
      cases p.unacked.get? chain <;> simp [hc]
    rw [hpass]
    split
    · exact hkeep
    · rfl

theorem hasUnacked_eq_true_iff :
    p.hasUnacked = true ↔ ∃ chain t, p.unacked.get? chain = some t := by
  rw [hasUnacked, SortedMap.isEmpty, Bool.not_eq_true', List.isEmpty_eq_false_iff_exists_mem]
  constructor
  · rintro ⟨e, he⟩
    exact ⟨e.1, e.2, SortedMap.mem_toList_iff.mp he⟩
  · rintro ⟨chain, t, ht⟩
    exact ⟨(chain, t), SortedMap.mem_toList_iff.mpr ht⟩

/-! ## Sending is noted -/

/-- Whether an operation notes just what it sends. -/
def Outcome.Notes {α : Type} (o : Outcome α) (p : Peer) : Prop :=
  ∃ bs : List Bundle, o.sent = bs.map carrying ∧ o.peer.unacked = bs.foldl noted p.unacked

section Notes

variable {α β γ : Type}

theorem notes_nil {q : Peer} (h : q.unacked = p.unacked) (result : Except GossipError α) :
    (⟨q, [], result⟩ : Outcome α).Notes p := ⟨[], rfl, h⟩

theorem Outcome.Notes.append {o : Outcome α} {o' : Outcome β} (h : o.Notes p)
    (h' : o'.Notes o.peer) (result : Except GossipError γ) :
    (⟨o'.peer, o.sent ++ o'.sent, result⟩ : Outcome γ).Notes p := by
  obtain ⟨bs, hsent, hnoted⟩ := h
  obtain ⟨later, hsent', hnoted'⟩ := h'
  exact ⟨bs ++ later, by rw [hsent, hsent', List.map_append],
    by rw [hnoted', hnoted, List.foldl_append]⟩

theorem unacked_foldl_hold (bs : List Bundle) (p : Peer) :
    (bs.foldl hold p).unacked = p.unacked :=
  List.foldlRecOn bs hold (motive := fun q : Peer => q.unacked = p.unacked) rfl fun _ h _ _ => h

theorem unacked_prune (p : Peer) (chain : ChainKey) : (p.prune chain).unacked = p.unacked := by
  rw [prune]
  split <;> rfl

/-- A bundle that goes out is noted. -/
theorem sendBundle_notes (hready : p.state = .ready) (u : ChainTracker) (b : Bundle) :
    ({ p with hasMap := some u } : Peer).sendBundle (.ok ()) b
        = ⟨({ p with hasMap := some u } : Peer).noteSent b.info, [carrying b], .ok ()⟩
      ∧ (({ p with hasMap := some u } : Peer).noteSent b.info).Met
      ∧ (⟨({ p with hasMap := some u } : Peer).noteSent b.info, [carrying b], .ok ()⟩
        : Outcome Unit).Notes p := by
  have hopen : ({ p with hasMap := some u } : Peer).state ≠ .closed := by simp [hready]
  exact ⟨sendBundle_eq hopen b, fun _ => hready, [b], rfl, unacked_noteSent _ b⟩

theorem flush_notes (hmet : p.Met) (bs : List Bundle) : (p.flush (.ok ()) bs).Notes p := by
  induction bs generalizing p with
  | nil => exact notes_nil rfl _
  | cons b rest ih =>
      rw [flush]
      cases ht : p.hasMap with
      | none => exact notes_nil (unacked_foldl_hold (b :: rest) p) _
      | some t =>
          have hready : p.state = .ready := hmet (by rw [ht]; rfl)
          simp only
          split
          · exact notes_nil (unacked_foldl_hold (b :: rest) p) _
          · rename_i u reached hmark
            obtain ⟨hsend, hmet', hfirst⟩ := sendBundle_notes hready u b
            rw [hsend]
            exact hfirst.append (ih hmet') _
          · exact ih hmet

theorem flushChain_notes (hmet : p.Met) (chain : ChainKey) :
    (p.flushChain (.ok ()) chain).Notes p := by
  obtain ⟨hknown, hstate⟩ := prune_frame p chain
  have hmet' : ((p.prune chain).releaseChain chain).Met :=
    met_of_frame hmet (congrArg Option.isSome hknown) hstate
  have hreleased : (⟨(p.prune chain).releaseChain chain, [], .ok ()⟩ : Outcome Unit).Notes p :=
    notes_nil (unacked_prune p chain) (.ok ())
  exact hreleased.append (flush_notes hmet' ((p.prune chain).heldOn chain)) _

theorem offer_notes (hmet : p.Met) (b : Bundle) : (p.offer (.ok ()) b).Notes p := by
  rw [offer]
  cases ht : p.hasMap with
  | none => exact notes_nil rfl _
  | some t =>
      have hready : p.state = .ready := hmet (by rw [ht]; rfl)
      simp only
      split
      · exact notes_nil rfl _
      · exact notes_nil rfl _
      · rename_i u reached hmark
        obtain ⟨hsend, hmet', hfirst⟩ := sendBundle_notes hready u b
        rw [hsend]
        exact hfirst.append (flushChain_notes hmet' b.info.chain) _

theorem catchUp_notes (hmet : p.Met) (bs : List Bundle) : (p.catchUp (.ok ()) bs).Notes p := by
  induction bs generalizing p with
  | nil => exact notes_nil rfl _
  | cons b rest ih =>
      have hfirst := offer_notes hmet b
      rw [catchUp]
      simp only
      split
      · obtain ⟨sent, hsent⟩ := hfirst
        exact ⟨sent, hsent⟩
      · exact hfirst.append (ih ((offer_leadsOn hmet b).met hmet)) _

end Notes

/-! ## What is kept -/

/-- What an act acknowledges. -/
def Act.acks : Act → List BundleInfo
  | acked info => [info]
  | greet _ _ | offer _ | catchUp _ | received _ | close => []

theorem Act.mem_acks_iff {act : Act} : info ∈ act.acks ↔ act = .acked info := by
  cases act with
  | acked other =>
      rw [Act.acks, List.mem_singleton, Act.acked.injEq]
      exact eq_comm
  | greet now tracker => simp [Act.acks]
  | offer b => simp [Act.acks]
  | catchUp bs => simp [Act.acks]
  | received other => simp [Act.acks]
  | close => simp [Act.acks]

theorem mem_flatMap_acks {acts : List Act} :
    info ∈ acts.flatMap Act.acks ↔ .acked info ∈ acts := by
  simp only [List.mem_flatMap, Act.mem_acks_iff, exists_eq_right]

/-- An act notes just what it sends, unless it is an acknowledgement. -/
theorem perform_notes (hmet : p.Met) (act : Act) :
    (∃ bs : List Bundle, act.acks = [] ∧ (p.perform act).2 = bs.map carrying
        ∧ (p.perform act).1.unacked = bs.foldl noted p.unacked)
      ∨ ∃ info, act = .acked info := by
  cases act with
  | greet now tracker =>
      refine .inl ⟨[], rfl, rfl, ?_⟩
      have hexpire : (p.expire now).unacked = p.unacked := by
        rw [expire]
        split <;> rfl
      rw [perform, greet]
      simp only
      split <;> exact hexpire
  | offer b =>
      obtain ⟨bs, hsent, hnoted⟩ := offer_notes hmet b
      exact .inl ⟨bs, rfl, hsent, hnoted⟩
  | catchUp bs =>
      obtain ⟨bs, hsent, hnoted⟩ := catchUp_notes hmet bs
      exact .inl ⟨bs, rfl, hsent, hnoted⟩
  | received info => exact .inl ⟨[], rfl, rfl, unacked_prune _ _⟩
  | acked info => exact .inr ⟨info, rfl⟩
  | close =>
      refine .inl ⟨[], rfl, rfl, ?_⟩
      rw [perform, close]
      split <;> rfl

/-- The time of the latest bundle sent on a chain, unless an acknowledgement has come up to it. -/
def due (sent : List Bundle) (told : List BundleInfo) (chain : ChainKey) : Option Timestamp :=
  ((Index.ofChain sent chain).getLast?.map fun b => b.info.timestamp).filter fun t =>
    ∀ info ∈ told, info.chain = chain → info.timestamp < t

theorem due_eq_some_iff {t : Timestamp} : due sent told chain = some t
    ↔ ∃ b, (Index.ofChain sent chain).getLast? = some b ∧ b.info.timestamp = t
      ∧ ∀ info ∈ told, info.chain = chain → info.timestamp < t := by
  rw [due, Option.filter_eq_some_iff, Option.map_eq_some_iff, decide_eq_true_iff]
  constructor
  · rintro ⟨⟨b, hb, htime⟩, htold⟩
    exact ⟨b, hb, htime, htold⟩
  · rintro ⟨b, hb, htime, htold⟩
    exact ⟨⟨b, hb, htime⟩, htold⟩

theorem due_acked (sent : List Bundle) (told : List BundleInfo) (info : BundleInfo)
    (chain : ChainKey) : due sent (told ++ [info]) chain
      = (due sent told chain).filter fun t => info.chain = chain → info.timestamp < t := by
  rw [due, due, Option.filter_filter]
  refine congrArg (Option.filter · _) (funext fun t => ?_)
  rw [Bool.eq_iff_iff, Bool.and_eq_true, decide_eq_true_iff, decide_eq_true_iff,
    decide_eq_true_iff, List.forall_mem_append, List.forall_mem_singleton]

/-- What is sent later than all acknowledgements replaces what was due. -/
theorem due_sent (hahead : ∀ b ∈ bs, ∀ info ∈ told, info.chain = b.info.chain →
      info.timestamp < b.info.timestamp) (chain : ChainKey) : due (sent ++ bs) told chain
    = ((Index.ofChain bs chain).getLast?.map fun b => b.info.timestamp).or
      (due sent told chain) := by
  have hsplit : Index.ofChain (sent ++ bs) chain
      = Index.ofChain sent chain ++ Index.ofChain bs chain := List.filter_append ..
  rw [due, hsplit, List.getLast?_append]
  cases hlast : (Index.ofChain bs chain).getLast? with
  | none => rfl
  | some b =>
      obtain ⟨hb, hchain⟩ := Index.mem_ofChain_iff.mp (List.mem_of_getLast? hlast)
      have hpasses : ∀ info ∈ told, info.chain = chain → info.timestamp < b.info.timestamp :=
        fun info hinfo hc => hahead b hb info hinfo (hc.trans hchain.symm)
      simp only [Option.some_or, Option.map_some, Option.filter_some,
        decide_eq_true hpasses, if_true]

/-- What is known of a peer that has greeted, some bundles sent to it and some acknowledgements
received from it: of each chain the table has what is due, and as long as the connection is open
the has-map is not behind what was sent or acknowledged. -/
structure Tallied (sent : List Bundle) (told : List BundleInfo) (p : Peer) : Prop where
  met : p.Met
  greeted : p.hasMap.isSome = true ∨ p.Silent
  table : ∀ chain, p.unacked.get? chain = due sent told chain
  sentTo : p.hasMap.isSome = true → ∀ b ∈ sent, b.info.timestamp ≤ p.progress b.info.chain
  ackedTo : p.hasMap.isSome = true → ∀ info ∈ told, info.timestamp ≤ p.progress info.chain

namespace Tallied

/-- Nothing has been sent right after the greeting. -/
theorem greet {serial timeout now time : Nat} {id : PeerId} {tracker : ChainTracker}
    (hgreet : (new serial id timeout now).greet time tracker = (p, .ok ())) :
    p.Tallied [] [] := by
  obtain rfl := eq_of_greet hgreet
  exact ⟨fun _ => rfl, .inl rfl, fun _ => rfl, fun _ => List.forall_mem_nil _,
    fun _ => List.forall_mem_nil _⟩

/-- An act leaves the has-map at or ahead of all that was sent or acknowledged before, and of what
the act sends and acknowledges. -/
theorem advance (h : p.Tallied sent told) {act : Act} {q : Peer}
    (heffect : Effect p act q (bs.map carrying)) (hopen : q.hasMap.isSome = true) :
    (∀ b ∈ sent ++ bs, b.info.timestamp ≤ q.progress b.info.chain)
      ∧ ∀ info ∈ told ++ act.acks, info.timestamp ≤ q.progress info.chain := by
  have hknown : p.hasMap.isSome = true := by
    rcases h.greeted with hknown | hsilent
    · exact hknown
    · rw [(heffect.silent hsilent).1.unknown] at hopen
      cases hopen
  rcases heffect.advances h.met hknown with hsilent | ⟨-, hle, htells⟩
  · rw [hsilent.unknown] at hopen
    cases hopen
  · refine ⟨fun b hb => ?_, fun info hinfo => ?_⟩
    · rcases List.mem_append.mp hb with hb | hb
      · exact Std.le_trans (h.sentTo hknown b hb) (hle b.info.chain)
      · obtain ⟨bs', hout, hleads⟩ := heffect.sends
        obtain rfl : bs = bs' := map_carrying_injective hout
        exact ((hleads b hb).2.2.lt_of_mem hb).2
    · rcases List.mem_append.mp hinfo with hinfo | hinfo
      · exact Std.le_trans (h.ackedTo hknown info hinfo) (hle info.chain)
      · exact htells info (congrArg Act.tells (Act.mem_acks_iff.mp hinfo))

/-- An act that leaves the table right. -/
theorem step (h : p.Tallied sent told) {act : Act} {q : Peer}
    (heffect : Effect p act q (bs.map carrying))
    (htable : ∀ chain, q.unacked.get? chain = due (sent ++ bs) (told ++ act.acks) chain) :
    q.Tallied (sent ++ bs) (told ++ act.acks) where
  met := heffect.met h.met
  greeted := by
    rcases h.greeted with hknown | hsilent
    · exact (heffect.advances h.met hknown).symm.imp_left And.left
    · exact .inr (heffect.silent hsilent).1
  table := htable
  sentTo hopen := (h.advance heffect hopen).1
  ackedTo hopen := (h.advance heffect hopen).2

/-- What is sent is due, and replaces what was due on its chain. -/
theorem table_sent (h : p.Tallied sent told) {act : Act} {q : Peer}
    (heffect : Effect p act q (bs.map carrying)) (hnoted : q.unacked = bs.foldl noted p.unacked)
    (chain : ChainKey) : q.unacked.get? chain = due (sent ++ bs) told chain := by
  cases bs with
  | nil =>
      rw [hnoted, List.append_nil]
      exact h.table chain
  | cons first rest =>
      obtain ⟨bs', hout, hleads⟩ := heffect.sends
      obtain rfl : first :: rest = bs' := map_carrying_injective hout
      obtain ⟨hknown, -, hleads⟩ := hleads first List.mem_cons_self
      have hahead : ∀ b ∈ first :: rest, ∀ info ∈ told, info.chain = b.info.chain →
          info.timestamp < b.info.timestamp := by
        intro b hb info hinfo hchain
        have hle := h.ackedTo hknown info hinfo
        rw [hchain] at hle
        exact Std.lt_of_le_of_lt hle (hleads.lt_of_mem hb).1
      have hbound : ∀ c t, p.unacked.get? c = some t → t ≤ p.progress c := by
        intro c t ht
        obtain ⟨b, hb, rfl, -⟩ := due_eq_some_iff.mp ((h.table c).symm.trans ht)
        obtain ⟨hmem, rfl⟩ := Index.mem_ofChain_iff.mp (List.mem_of_getLast? hb)
        exact h.sentTo hknown b hmem
      rw [hnoted, get?_foldl_noted hleads hbound, due_sent hahead, h.table chain]

/-- **The table is right after every act.** -/
theorem perform (h : p.Tallied sent told) (act : Act) : ∃ bs : List Bundle,
    (p.perform act).2 = bs.map carrying
      ∧ (p.perform act).1.Tallied (sent ++ bs) (told ++ act.acks) := by
  have heffect := effect_perform h.met act
  rcases perform_notes h.met act with ⟨bs, hacks, hsent, hnoted⟩ | ⟨info, rfl⟩
  · rw [hsent] at heffect
    refine ⟨bs, hsent, h.step heffect fun chain => ?_⟩
    rw [hacks, List.append_nil]
    exact h.table_sent heffect hnoted chain
  · -- an acknowledgement sends nothing
    refine ⟨[], rfl, h.step heffect fun chain => ?_⟩
    rw [List.append_nil, Act.acks, due_acked, ← h.table chain]
    exact get?_unacked_onAck p info chain

/-- **The table is right after every run of acts.** -/
theorem live (h : p.Tallied sent told) (acts : List Act) : ∃ bs : List Bundle,
    (p.live acts).2 = bs.map carrying
      ∧ (p.live acts).1.Tallied (sent ++ bs) (told ++ acts.flatMap Act.acks) := by
  induction acts generalizing p sent told with
  | nil =>
      refine ⟨[], rfl, ?_⟩
      rw [List.append_nil, List.flatMap_nil, List.append_nil]
      exact h
  | cons act rest ih =>
      obtain ⟨first, hfirst, hnext⟩ := h.perform act
      obtain ⟨others, hothers, hlast⟩ := ih hnext
      refine ⟨first ++ others, by rw [Peer.live, hfirst, hothers, List.map_append], ?_⟩
      rw [List.flatMap_cons, ← List.append_assoc, ← List.append_assoc]
      exact hlast

end Tallied

/-- **Whether data is unacknowledged is known exactly.** Whatever happens to a connection after its
greeting, given that sending succeeds: bundles are offered one by one or to catch up, and the other
side tells of bundles or acknowledges them, also of chains that were never sent, early, late or
again. The bundles that have gone out get newer on each chain, and something counts as not
acknowledged exactly if there is a chain whose latest bundle is later than every acknowledgement for
the chain. -/
theorem hasUnacked_iff_laterThanAcks (serial : Nat) (id : PeerId) (timeout now time : Nat)
    (tracker : ChainTracker) (p : Peer)
    (hgreet : (new serial id timeout now).greet time tracker = (p, .ok ())) (acts : List Act) :
    ∃ bs : List Bundle, (p.live acts).2 = bs.map carrying
      ∧ (bs.Pairwise fun a b =>
        a.info.chain = b.info.chain → a.info.timestamp < b.info.timestamp)
      ∧ ((p.live acts).1.hasUnacked = true ↔ ∃ chain latest,
        (Index.ofChain bs chain).getLast? = some latest
          ∧ ∀ info, .acked info ∈ acts → info.chain = chain →
            info.timestamp < latest.info.timestamp) := by
  have hstart := Tallied.greet hgreet
  obtain ⟨bs, hsent, hlast⟩ := hstart.live acts
  obtain ⟨bs', hsent', hnewer, -⟩ := increasing_live hstart.met acts
  obtain rfl : bs = bs' := map_carrying_injective (hsent.symm.trans hsent')
  refine ⟨bs, hsent, hnewer, ?_⟩
  rw [hasUnacked_eq_true_iff]
  constructor
  · rintro ⟨chain, t, ht⟩
    rw [hlast.table chain] at ht
    obtain ⟨latest, hlatest, rfl, hacks⟩ := due_eq_some_iff.mp ht
    exact ⟨chain, latest, hlatest, fun info hinfo => hacks info (mem_flatMap_acks.mpr hinfo)⟩
  · rintro ⟨chain, latest, hlatest, hacks⟩
    refine ⟨chain, latest.info.timestamp, ?_⟩
    rw [hlast.table chain]
    exact due_eq_some_iff.mpr ⟨latest, hlatest, rfl, fun info hinfo =>
      hacks info (mem_flatMap_acks.mp hinfo)⟩

/-- The third bundle of a chain waits for the second one, whose acknowledgement does not cover it.
The bundle of another chain is acknowledged before it is offered, and does not go out. -/
theorem hasUnacked_iff_laterThanAcks_afterRelease :
    let second := Bundle.ofValid ⟨20, 1, 10, some 10, none⟩ [] rfl (List.forall_mem_nil _)
      (by decide)
    let third := Bundle.ofValid ⟨30, 1, 10, some 20, none⟩ [] rfl (List.forall_mem_nil _)
      (by decide)
    let other := Bundle.ofValid ⟨15, 2, 15, none, none⟩ [] rfl (List.forall_mem_nil _) (by decide)
    let p := ((new 0 7 1000 0).greet 5 (.ofRows [⟨1, 10, 10⟩])).1
    let acts : List Act :=
      [.offer third, .acked other.info, .offer second, .acked second.info, .offer other]
    (p.live acts).2 = [second, third].map carrying
      ∧ (p.live acts).1.hasUnacked = true
      ∧ (p.live (acts ++ [.acked third.info])).1.hasUnacked = false := by
  intro second third other p acts
  have hgreet : (new 0 7 1000 0).greet 5 (.ofRows [⟨1, 10, 10⟩]) = (p, .ok ()) := rfl
  obtain ⟨bs, hbs, -, hunacked⟩ :=
    hasUnacked_iff_laterThanAcks 0 7 1000 0 5 (.ofRows [⟨1, 10, 10⟩]) p hgreet acts
  have hsent : (p.live acts).2 = [second, third].map carrying := by decide +kernel
  obtain rfl : [second, third] = bs := map_carrying_injective (hsent.symm.trans hbs)
  have hacks : ∀ info ∈ acts.flatMap Act.acks, info.chain = ⟨1, 10⟩ →
      info.timestamp < third.info.timestamp := by decide +kernel
  exact ⟨hsent, hunacked.mpr ⟨⟨1, 10⟩, third, by decide +kernel, fun info hinfo =>
    hacks info (mem_flatMap_acks.mpr hinfo)⟩, by decide +kernel⟩

end GossipStore.Peer
