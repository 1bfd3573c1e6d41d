import Mathlib.Data.List.Chain
import GossipStore.Proofs.Gossip.Timeline
import GossipStore.Proofs.Index.Bundles

set_option autoImplicit false

/-! # Chains of an index

A bundle is accepted only if it goes on from the end of its chain, or begins it (`Continues`). So
the bundles of a chain that have been accepted form a line without gaps or forks (`IsLine`), of
which the index records the last (`follows_offerAll`), and a bundle that has been accepted once is
known ever after (`chains_linear`).

An index is changed in place: a bundle is checked, the keys of its entries are derived, and only
then are its changes applied (`addInPlace`). Deriving a key may fail, but not for a bundle, whose
changes have been checked when it was made. So adding a bundle fails only in the check, and then
nothing has changed (`AddsAtomically`).
-/

namespace GossipStore

namespace Index

variable {ix : Index} {b : Bundle}

/-! ## The check -/

/-- Whether a bundle goes on from the end of a chain, or begins one that nothing is known of. -/
def Continues : Option BundleInfo → BundleInfo → Prop
  | none, info => info.priorTime = none
  | some tip, info => tip.timestamp < info.timestamp ∧ info.priorTime = some tip.timestamp

theorem check_eq_true_iff {info : BundleInfo} :
    ix.check info = .ok true ↔ Continues (ix.chains.get? info.chain) info := by
  rw [check]
  cases ix.chains.get? info.chain with
  | none => cases hprior : info.priorTime <;> simp [Continues, hprior]
  | some tip =>
      by_cases hle : info.timestamp ≤ tip.timestamp
      · simp [Continues, hle, Std.not_lt.mpr hle]
      · by_cases hprior : info.priorTime = some tip.timestamp
        · simp [Continues, hle, hprior, Std.not_le.mp hle]
        · simp [Continues, hle, hprior]

theorem check_eq_false_iff {info : BundleInfo} : ix.check info = .ok false
    ↔ ∃ tip, ix.chains.get? info.chain = some tip ∧ info.timestamp ≤ tip.timestamp := by
  rw [check]
  cases ix.chains.get? info.chain with
  | none => cases info.priorTime <;> simp
  | some tip =>
      by_cases hle : info.timestamp ≤ tip.timestamp
      · simp [hle]
      · by_cases hprior : info.priorTime = some tip.timestamp <;> simp [hle, hprior]

/-- A bundle is refused if it leaves a gap or forks its chain, or if it goes on from a bundle of a
chain that is not known. -/
theorem check_eq_error_iff {info : BundleInfo} {e : StoreError} : ix.check info = .error e
    ↔ (∃ tip, ix.chains.get? info.chain = some tip ∧ tip.timestamp < info.timestamp
        ∧ info.priorTime ≠ some tip.timestamp
        ∧ e = .chainMismatch info.medallion info.chainStart info.timestamp info.priorTime
          tip.timestamp)
      ∨ (ix.chains.get? info.chain = none ∧ info.priorTime.isSome = true
        ∧ e = .missingChainStart info.medallion info.chainStart info.timestamp) := by
  rw [check]
  cases ix.chains.get? info.chain with
  | none => cases info.priorTime <;> simp [@eq_comm StoreError e]
  | some tip =>
      by_cases hle : info.timestamp ≤ tip.timestamp
      · simp [hle, Std.not_lt.mpr hle]
      · by_cases hprior : info.priorTime = some tip.timestamp
        · simp [hle, hprior]
        · simp [hle, hprior, Std.not_le.mp hle, @eq_comm StoreError e]

/-! ## Lines of bundles -/

/-- Bundles of which the first begins a chain and each later one goes on from the one before. -/
structure IsLine (bs : List Bundle) : Prop where
  begins : ∀ b ∈ bs.head?, b.info.priorTime = none ∧ b.info.timestamp = b.info.chainStart
  goesOn : bs.IsChain fun a b =>
    b.info.priorTime = some a.info.timestamp ∧ a.info.timestamp < b.info.timestamp

theorem IsLine.nil : IsLine [] := ⟨fun _ h => (by cases h), .nil⟩

/-- A line is continued by a bundle that goes on from its end. -/
theorem IsLine.append {bs : List Bundle} (h : IsLine bs)
    (hb : Continues (bs.getLast?.map (·.info)) b.info) : IsLine (bs ++ [b]) := by
  cases hlast : bs.getLast? with
  | none =>
      obtain rfl := List.getLast?_eq_none_iff.mp hlast
      have hfirst : b.info.priorTime = none := hb
      obtain ⟨-, -, -, -, hstart, -⟩ := BundleInfo.validate_eq_ok_iff.mp b.infoValid
      exact ⟨fun c hc => by cases hc; exact ⟨hfirst, hstart hfirst⟩, .singleton b⟩
  | some last =>
      rw [hlast] at hb
      refine ⟨fun c hc => h.begins c ?_, h.goesOn.append (.singleton b) ?_⟩
      · cases bs with
        | nil => cases hlast
        | cons first rest => exact hc
      · intro x hx y hy
        cases hlast.symm.trans hx
        cases hy
        exact ⟨hb.2, hb.1⟩

/-- The accepted bundles of a chain. -/
def ofChain (accepted : List Bundle) (chain : ChainKey) : List Bundle :=
  accepted.filter (·.info.chain = chain)

/-- The accepted bundles of each chain form a line, and the index has the end of it. -/
def FollowsLines (accepted : List Bundle) (ix : Index) : Prop :=
  ∀ chain, IsLine (ofChain accepted chain)
    ∧ ix.chains.get? chain = (ofChain accepted chain).getLast?.map (·.info)

theorem FollowsLines.apply {accepted : List Bundle} (h : FollowsLines accepted ix)
    (hb : ix.check b.info = .ok true) : FollowsLines (accepted ++ [b]) (ix.apply b) := by
  intro chain
  obtain ⟨hline, htip⟩ := h chain
  rw [ofChain, List.filter_append, apply_chains]
  by_cases hchain : b.info.chain = chain
  · subst hchain
    rw [check_eq_true_iff, htip] at hb
    have hsingle : [b].filter (·.info.chain = b.info.chain) = [b] := by simp
    rw [hsingle, SortedMap.get?_insert_self, List.getLast?_concat]
    exact ⟨hline.append hb, rfl⟩
  · have hother : [b].filter (·.info.chain = chain) = [] := by simp [hchain]
    rw [hother, List.append_nil, SortedMap.get?_insert_of_ne _ (Ne.symm hchain)]
    exact ⟨hline, htip⟩

theorem FollowsLines.offerAll {accepted : List Bundle} (h : FollowsLines accepted ix)
    (bs : List Bundle) : FollowsLines (accepted ++ (ix.offerAll bs).2) (ix.offerAll bs).1 := by
  induction bs generalizing accepted ix with
  | nil => rwa [Index.offerAll, List.append_nil]
  | cons b rest ih =>
      by_cases hb : ix.check b.info = .ok true
      · rw [offerAll_cons_of_new hb, List.append_cons]
        exact ih (h.apply hb)
      · rw [offerAll_cons_of_not_new hb]
        exact ih h

theorem followsLines_offerAll (keepingHistory : Bool) (arrivals : List Bundle) :
    FollowsLines ((empty keepingHistory).offerAll arrivals).2
      ((empty keepingHistory).offerAll arrivals).1 := by
  have hempty : FollowsLines [] (empty keepingHistory) := fun _ => ⟨.nil, rfl⟩
  exact hempty.offerAll arrivals

/-! ## Trackers -/

theorem chains_markUnchecked {t : ChainTracker} {info : BundleInfo}
    (hnew : t.chains.get? info.chain = none) (hpos : 0 < info.timestamp) :
    (t.markUnchecked info).tracker.chains = t.chains.insert info.chain info := by
  have hseen : ¬ info.timestamp ≤ t.seenThrough info.chain := by
    rw [ChainTracker.seenThrough, ChainTracker.seenTo?, ChainTracker.info?, hnew]
    exact Std.not_le.mpr hpos
  simp [ChainTracker.markUnchecked, ChainTracker.mark, hseen]

/-- Marking bundles of different chains records each of them. -/
theorem get?_chains_foldl_markUnchecked {infos : List BundleInfo} {t : ChainTracker}
    (hpos : ∀ info ∈ infos, 0 < info.timestamp)
    (hdistinct : infos.Pairwise fun i j => i.chain ≠ j.chain)
    (hnew : ∀ info ∈ infos, t.chains.get? info.chain = none) {chain : ChainKey}
    {info : BundleInfo} :
    (infos.foldl (fun t info => (t.markUnchecked info).tracker) t).chains.get? chain = some info
      ↔ (info ∈ infos ∧ info.chain = chain) ∨ t.chains.get? chain = some info := by
  induction infos generalizing t with
  | nil => simp
  | cons first rest ih =>
      obtain ⟨hfirst, hrest⟩ := List.pairwise_cons.mp hdistinct
      have hfree := hnew first List.mem_cons_self
      have hmark := chains_markUnchecked hfree (hpos first List.mem_cons_self)
      have hnew' : ∀ i ∈ rest, (t.markUnchecked first).tracker.chains.get? i.chain = none :=
        fun i hi => by
          rw [hmark, SortedMap.get?_insert_of_ne _ (hfirst i hi).symm]
          exact hnew i (List.mem_cons_of_mem _ hi)
      rw [List.foldl_cons, ih (fun i hi => hpos i (List.mem_cons_of_mem _ hi)) hrest hnew', hmark,
        List.mem_cons]
      by_cases hchain : first.chain = chain
      · rw [← hchain, SortedMap.get?_insert_self, hfree]
        grind
      · rw [SortedMap.get?_insert_of_ne _ (Ne.symm hchain)]
        grind

/-- The end of a chain is the metadata of one of its bundles. -/
theorem FollowsLines.exists_of_get? {accepted : List Bundle} (h : FollowsLines accepted ix)
    {chain : ChainKey} {info : BundleInfo} (hinfo : ix.chains.get? chain = some info) :
    ∃ b ∈ accepted, b.info = info ∧ b.info.chain = chain := by
  rw [(h chain).2] at hinfo
  obtain ⟨b, hlast, rfl⟩ := Option.map_eq_some_iff.mp hinfo
  obtain ⟨hmem, hchain⟩ := List.mem_filter.mp (List.mem_of_getLast? hlast)
  exact ⟨b, hmem, rfl, of_decide_eq_true hchain⟩

/-- Whether every chain stands under its own name and ends with a bundle. -/
def TipsFiled (ix : Index) : Prop :=
  ∀ chain tip, ix.chains.get? chain = some tip → tip.chain = chain ∧ ∃ b : Bundle, b.info = tip

theorem FollowsLines.tipsFiled {accepted : List Bundle} (h : FollowsLines accepted ix) :
    ix.TipsFiled := by
  intro chain tip htip
  obtain ⟨b, -, rfl, hchain⟩ := h.exists_of_get? htip
  exact ⟨hchain, b, rfl⟩

/-- A tracker made from an index has seen exactly what the index has. -/
theorem TipsFiled.chains_chainTracker (h : ix.TipsFiled) :
    ix.chainTracker.chains = ix.chains := by
  have hpos : ∀ info ∈ ix.chains.values, 0 < info.timestamp := fun info hmem => by
    obtain ⟨chain, hinfo⟩ := SortedMap.mem_values_iff.mp hmem
    obtain ⟨-, b, rfl⟩ := h chain info hinfo
    exact b.timestamp_pos
  have hdistinct : ix.chains.values.Pairwise fun i j => i.chain ≠ j.chain := by
    rw [SortedMap.values, List.pairwise_map]
    refine ix.chains.sorted.imp_of_mem fun {x y} hx hy hlt heq => ?_
    rw [(h _ _ (SortedMap.mem_toList_iff.mp hx)).1, (h _ _ (SortedMap.mem_toList_iff.mp hy)).1]
      at heq
    rw [heq] at hlt
    exact compare_self_ne_lt _ hlt
  refine SortedMap.ext_get? fun chain => Option.ext fun info => ?_
  rw [chainTracker, get?_chains_foldl_markUnchecked hpos hdistinct fun _ _ => rfl,
    SortedMap.mem_values_iff]
  constructor
  · rintro (⟨⟨chain', hinfo⟩, rfl⟩ | hempty)
    · rwa [(h chain' info hinfo).1]
    · cases hempty
  · exact fun hinfo => .inl ⟨⟨chain, hinfo⟩, (h chain info hinfo).1⟩

theorem FollowsLines.chains_chainTracker {accepted : List Bundle} (h : FollowsLines accepted ix) :
    ix.chainTracker.chains = ix.chains :=
  h.tipsFiled.chains_chainTracker

/-! ## Replays -/

/-- The accepted bundles of a chain get newer. -/
theorem pairwise_ofChain (ix : Index) (bs : List Bundle) (chain : ChainKey) :
    (ofChain (ix.offerAll bs).2 chain).Pairwise fun a b => a.info.timestamp < b.info.timestamp := by
  refine List.Pairwise.imp_of_mem (fun {a b} ha hb hlt => hlt ?_)
    ((pairwise_accepted ix bs).filter _)
  rw [of_decide_eq_true (List.mem_filter.mp ha).2, of_decide_eq_true (List.mem_filter.mp hb).2]

/-- What has been accepted is not ahead of the end of its chain, so it is known. -/
theorem check_eq_false_of_mem_offerAll {keepingHistory : Bool} {arrivals : List Bundle}
    (hb : b ∈ ((empty keepingHistory).offerAll arrivals).2) :
    ((empty keepingHistory).offerAll arrivals).1.check b.info = .ok false := by
  have hmem : b ∈ ofChain ((empty keepingHistory).offerAll arrivals).2 b.info.chain :=
    List.mem_filter.mpr ⟨hb, decide_eq_true rfl⟩
  rw [check_eq_false_iff, (followsLines_offerAll keepingHistory arrivals b.info.chain).2]
  cases hlast : (ofChain ((empty keepingHistory).offerAll arrivals).2 b.info.chain).getLast? with
  | none =>
      rw [List.getLast?_eq_none_iff.mp hlast] at hmem
      cases hmem
  | some last =>
      refine ⟨last.info, rfl, ?_⟩
      have hgreatest := (getLast?_eq_some_iff_of_pairwise
        (pairwise_ofChain (empty keepingHistory) arrivals b.info.chain)
        (fun a => Std.lt_irrefl) fun _ _ => Std.not_gt_of_lt).mp hlast
      rcases hgreatest.2 b hmem with rfl | hlt
      · exact Std.le_refl _
      · exact Std.le_of_lt hlt

theorem offerAll_append (ix : Index) (bs later : List Bundle) : ix.offerAll (bs ++ later)
    = (((ix.offerAll bs).1.offerAll later).1,
      (ix.offerAll bs).2 ++ ((ix.offerAll bs).1.offerAll later).2) := by
  induction bs generalizing ix with
  | nil => rfl
  | cons b rest ih =>
      by_cases hb : ix.check b.info = .ok true
      · rw [List.cons_append, offerAll_cons_of_new hb, offerAll_cons_of_new hb, ih]
        rfl
      · rw [List.cons_append, offerAll_cons_of_not_new hb, offerAll_cons_of_not_new hb, ih]

theorem check_congr {ix ix' : Index} (h : ix'.chains = ix.chains) : ix'.check = ix.check := by
  funext info
  rw [check, check, h]

/-- What is accepted depends on nothing but the chains. -/
theorem offerAll_congr {ix ix' : Index} (h : ix'.chains = ix.chains) (bs : List Bundle) :
    (ix'.offerAll bs).2 = (ix.offerAll bs).2 := by
  induction bs generalizing ix ix' with
  | nil => rfl
  | cons b rest ih =>
      by_cases hb : ix.check b.info = .ok true
      · have hb' : ix'.check b.info = .ok true := check_congr h ▸ hb
        rw [offerAll_cons_of_new hb, offerAll_cons_of_new hb']
        exact congrArg (b :: ·) (ih (by rw [apply_chains, apply_chains, h]))
      · have hb' : ix'.check b.info ≠ .ok true := check_congr h ▸ hb
        rw [offerAll_cons_of_not_new hb, offerAll_cons_of_not_new hb', ih h]

theorem sublist_offerAll (ix : Index) (bs : List Bundle) : (ix.offerAll bs).2.Sublist bs := by
  induction bs generalizing ix with
  | nil => exact .refl _
  | cons b rest ih =>
      by_cases hb : ix.check b.info = .ok true
      · rw [offerAll_cons_of_new hb]
        exact (ih _).cons_cons b
      · rw [offerAll_cons_of_not_new hb]
        exact (ih _).cons b

/-- If all of some bundles are accepted, so are the first of them. -/
theorem offerAll_eq_of_prefix {ix : Index} {bs before : List Bundle}
    (haccepted : (ix.offerAll bs).2 = bs) (hbefore : before <+: bs) :
    (ix.offerAll before).2 = before := by
  obtain ⟨later, rfl⟩ := hbefore
  rw [offerAll_append] at haccepted
  have hlater := (sublist_offerAll (ix.offerAll before).1 later).length_le
  have hlength := congrArg List.length haccepted
  rw [List.length_append, List.length_append] at hlength
  exact (sublist_offerAll ix before).eq_of_length_le (by omega)

/-- A bundle that has been accepted once is known ever after. -/
theorem add_of_mem_offerAll {keepingHistory : Bool} {arrivals : List Bundle}
    (hb : b ∈ ((empty keepingHistory).offerAll arrivals).2) (later : List Bundle) :
    (((empty keepingHistory).offerAll arrivals).1.offerAll later).1.add b
      = .ok ((((empty keepingHistory).offerAll arrivals).1.offerAll later).1, false) := by
  have happend := offerAll_append (empty keepingHistory) arrivals later
  rw [add_eq_ok_false_iff]
  refine ⟨?_, rfl⟩
  rw [← congrArg Prod.fst happend]
  refine check_eq_false_of_mem_offerAll ?_
  rw [happend]
  exact List.mem_append_left _ hb

/-! ## Adding in place -/

/-- The key that a change needs before it is applied: that of an entry, which may lack one. -/
def keyFor (b : Bundle) : Change → Except Malformation (Option StorageKey)
  | .entry c => (c.storageKey? b.info.timestamp b.info.medallion).map some
  | _ => .ok none

/-- Puts an entry at a key of its container, unless a newer clearance has purged that. -/
def enter (ix : Index) (id : Muid) (c : EntryChange) (key : StorageKey) : Index :=
  let e := { entryOf id c with key }
  if ix.isPurged e.container id then ix
  else
    let previous := if e.behavior.isReplacing then ix.previousAtKey? e.container key id else none
    let ix := match previous with
      | some previous => ix.supersede e.container previous id
      | none => ix
    ix.insertEntry e

/-- Applies a change for which the key has been derived. -/
def applyKeyed (ix : Index) (x : (Muid × Change) × Option StorageKey) : Index :=
  match x with
  | ((id, .entry c), some key) => ix.enter id c key
  | ((_, .entry _), none) => ix
  | ((id, c), _) => ix.applyChange id c

/-- Adds a bundle to an index that is changed in place, and tells whether it was new. The keys of
all entries are derived before the first change is applied, so that a failure comes too early to
leave anything behind. -/
def addInPlace (ix : Index) (b : Bundle) : Index × Except StoreError Bool :=
  match ix.check b.info with
  | .error e => (ix, .error e)
  | .ok false => (ix, .ok false)
  | .ok true =>
    match b.changes.mapM (keyFor b) with
    | .error m => (ix, .error (.decode (.malformedBundle m)))
    | .ok keys =>
      let ix := (b.changesWithIds.zip keys).foldl applyKeyed ix
      ({ ix with
          chains := ix.chains.insert b.info.chain b.info
          bundles := ix.bundles.insert ⟨b.info.timestamp, b.info.medallion⟩ b }, .ok true)

/-- The key under which a change is applied, if it is an entry. -/
def keyOf? (b : Bundle) : Change → Option StorageKey
  | .entry c => some (c.storageKey b.info.timestamp b.info.medallion)
  | _ => none

theorem keyFor_of_validate {c : Change} (hvalid : c.validate = .ok ()) :
    keyFor b c = .ok (keyOf? b c) := by
  cases c with
  | container behavior => rfl
  | movement m => rfl
  | clearance c => rfl
  | entry c =>
      have hentry : c.validate = .ok () := hvalid
      rw [keyFor, EntryChange.storageKey?, hentry]
      rfl

/-- **Deriving the keys of checked changes does not fail.** -/
theorem mapM_keyFor {changes : List Change} (hvalid : ∀ c ∈ changes, c.validate = .ok ()) :
    changes.mapM (keyFor b) = .ok (changes.map (keyOf? b)) := by
  induction changes with
  | nil => rfl
  | cons c rest ih =>
      obtain ⟨hc, hrest⟩ := List.forall_mem_cons.mp hvalid
      rw [List.mapM_cons, keyFor_of_validate hc, ih hrest]
      rfl

/-- The derived keys are those under which the changes store their entries. -/
theorem applyKeyed_keyOf? (ix : Index) {x : Muid × Change} (hx : x ∈ b.changesWithIds) :
    ix.applyKeyed (x, keyOf? b x.2) = ix.applyChange x.1 x.2 := by
  obtain ⟨y, -, rfl⟩ := List.mem_map.mp hx
  cases y.1 <;> rfl

theorem map_snd_changesWithIds (b : Bundle) : b.changesWithIds.map Prod.snd = b.changes := by
  rw [Bundle.changesWithIds, List.map_map]
  exact List.zipIdx_map_fst 0 b.changes

theorem foldl_applyKeyed (ix : Index) (b : Bundle) :
    (b.changesWithIds.zip (b.changes.map (keyOf? b))).foldl applyKeyed ix
      = ix.applyChanges b.changesWithIds := by
  have hzip : b.changesWithIds.zip (b.changes.map (keyOf? b))
      = b.changesWithIds.map fun x => (x, keyOf? b x.2) := by
    rw [List.map_prod_left_eq_zip, ← map_snd_changesWithIds b, List.map_map]
    rfl
  rw [hzip, List.foldl_map]
  exact List.foldl_ext _ _ ix fun ix x hx => applyKeyed_keyOf? ix hx

/-- In place, a bundle is added as if nothing could fail after the check. -/
theorem addInPlace_eq (ix : Index) (b : Bundle) : ix.addInPlace b =
    match ix.add b with
    | .ok (ix', novel) => (ix', .ok novel)
    | .error e => (ix, .error e) := by
  rw [addInPlace, add_eq]
  rcases ix.check b.info with e | _ | _
  · rfl
  · rfl
  · simp only [mapM_keyFor b.changesValid, foldl_applyKeyed]
    rfl

/-- A bundle is added as a whole or not at all. It is refused only for its place in its chain. -/
structure AddsAtomically (ix : Index) (b : Bundle) : Prop where
  /-- Nothing fails in place that the check has passed. -/
  inPlace : ix.addInPlace b =
    match ix.add b with
    | .ok (ix', novel) => (ix', .ok novel)
    | .error e => (ix, .error e)
  refused : ∀ e, (ix.addInPlace b).2 = .error e →
    (∃ tip, ix.chains.get? b.info.chain = some tip ∧ tip.timestamp < b.info.timestamp
      ∧ b.info.priorTime ≠ some tip.timestamp
      ∧ e = .chainMismatch b.info.medallion b.info.chainStart b.info.timestamp b.info.priorTime
        tip.timestamp)
    ∨ (ix.chains.get? b.info.chain = none ∧ b.info.priorTime.isSome = true
      ∧ e = .missingChainStart b.info.medallion b.info.chainStart b.info.timestamp)
  unchanged : (ix.addInPlace b).2 ≠ .ok true → (ix.addInPlace b).1 = ix

theorem addsAtomically (ix : Index) (b : Bundle) : AddsAtomically ix b where
  inPlace := addInPlace_eq ix b
  refused e he := by
    rw [addInPlace_eq] at he
    cases hadd : ix.add b with
    | error e' =>
        rw [hadd] at he
        cases he
        exact check_eq_error_iff.mp (add_eq_error_iff.mp hadd)
    | ok x =>
        rw [hadd] at he
        cases he
  unchanged hnot := by
    rw [addInPlace_eq] at hnot ⊢
    cases hadd : ix.add b with
    | error e => rfl
    | ok x =>
        obtain ⟨ix', _ | _⟩ := x
        · exact (add_eq_ok_false_iff.mp hadd).2.symm
        · rw [hadd] at hnot
          exact absurd rfl hnot

/-- **Chains are lines.** Whatever bundles an index is offered and in whatever order, those of a
chain that it accepts begin the chain and go on from each other. It knows the end of each chain, and
so does a tracker made from it; it knows every bundle that it has accepted; and it adds a bundle as
a whole or not at all. -/
theorem chains_linear (keepingHistory : Bool) (arrivals : List Bundle) :
    let accepted := ((empty keepingHistory).offerAll arrivals).2
    let ix := ((empty keepingHistory).offerAll arrivals).1
    (∀ chain, IsLine (ofChain accepted chain)
        ∧ ix.chains.get? chain = (ofChain accepted chain).getLast?.map (·.info))
      ∧ ix.chainTracker.chains = ix.chains
      ∧ (∀ b ∈ accepted, ∀ later,
        (ix.offerAll later).1.add b = .ok ((ix.offerAll later).1, false))
      ∧ ∀ ix b, AddsAtomically ix b := by
  intro accepted ix
  have hlines : FollowsLines accepted ix := followsLines_offerAll keepingHistory arrivals
  exact ⟨hlines, hlines.chains_chainTracker, fun b hb later => add_of_mem_offerAll hb later,
    addsAtomically⟩

/-- What comes too early, a fork and a replay are not accepted, and the chain goes on. -/
example :
    let first := Bundle.ofValid ⟨10, 1, 10, none, none⟩ [] rfl (List.forall_mem_nil _) (by decide)
    let second := Bundle.ofValid ⟨20, 1, 10, some 10, none⟩ [] rfl (List.forall_mem_nil _)
      (by decide)
    let fork := Bundle.ofValid ⟨30, 1, 10, some 10, none⟩ [] rfl (List.forall_mem_nil _)
      (by decide)
    ((empty true).offerAll [second, first, second, fork, first]).2 = [first, second] := by
  decide +kernel

end Index

end GossipStore
