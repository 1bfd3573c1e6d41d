import GossipStore.Proofs.Index.Reasons

set_option autoImplicit false

/-! # Layers at a key

A key of a container can be read in two ways. The question about the key looks at the newest
placement there, and the question about the container at the newest that stands. They agree unless a
placement that stands is buried under a newer one that does not (`keyed_agrees_iff`). An entry
that replaces another one removes the newest of the older placements at its key, so everything
below it has been removed as long as the entries there came in order (`Layered.superseded`). What
buries an entry is therefore one that is moved away after an older one has come too late
(`keyed_agrees_lateWrite`).
-/

namespace GossipStore

/-! ## Pairs within a list -/

section Pairs

variable {α : Type} {a b x : α} {l : List α}

/-- Of two members of a list one comes after the other. -/
theorem pair_sublist_of_mem (ha : a ∈ l) (hb : b ∈ l) (hne : a ≠ b) :
    [a, b].Sublist l ∨ [b, a].Sublist l := by
  obtain ⟨before, after, rfl⟩ := List.append_of_mem ha
  rcases List.mem_append.mp hb with hb | hb
  · exact .inr ((List.singleton_sublist.mpr hb).append (List.singleton_sublist.mpr (by simp)))
  · have hb : b ∈ after := (List.mem_cons.mp hb).resolve_left (Ne.symm hne)
    exact .inl (((List.singleton_sublist.mpr hb).cons_cons a).trans (List.sublist_append_right _ _))

theorem pair_sublist_concat (h : [a, b].Sublist (l ++ [x])) :
    [a, b].Sublist l ∨ a ∈ l ∧ b = x := by
  obtain ⟨front, back, heq, hfront, hback⟩ := List.sublist_append_iff.mp h
  rcases List.sublist_singleton.mp hback with rfl | rfl
  · rw [List.append_nil] at heq
    exact .inl (heq ▸ hfront)
  · have hsplit : [a] ++ [b] = front ++ [x] := heq
    obtain ⟨rfl, hbx⟩ := List.append_inj' hsplit rfl
    exact .inr ⟨List.singleton_sublist.mp hfront, List.head_eq_of_cons_eq hbx⟩

end Pairs

namespace Index

variable {ix ix' : Index} {id p : Muid} {changes : List (Muid × Change)} {e f g : Entry}
  {t : Timestamp}

/-! ## The reference -/

/-- Whether the entries at the key of an entry, as far as they are not newer, are written from the
oldest to the newest. -/
def InOrderUpTo (changes : List (Muid × Change)) (g : Entry) : Prop :=
  (written changes).Pairwise fun e f => AtKey g.container g.key e → AtKey g.container g.key f →
    ¬ g.placement < e.placement → ¬ g.placement < f.placement → e.placement < f.placement

instance (g : Entry) : Decidable (InOrderUpTo changes g) :=
  inferInstanceAs (Decidable (List.Pairwise _ _))

/-- Whether an entry at a key that is moved always comes after all older ones there, which come in
order. -/
def MovedInOrder (changes : List (Muid × Change)) (container : Muid) (key : StorageKey) : Prop :=
  ∀ g ∈ written changes, AtKey container key g → Moved changes g → InOrderUpTo changes g

/-- It is enough to look at all entries of which there is a movement, whenever that came. -/
theorem movedInOrder_of_forall {container : Muid} {key : StorageKey}
    (h : ∀ g ∈ written changes, AtKey container key g →
      (∃ x ∈ changes, moving? x = some g.entryId) → InOrderUpTo changes g) :
    MovedInOrder changes container key := by
  rintro g hg hgk ⟨id, m, hmoves⟩
  exact h g hg hgk ⟨_, hmoves.mem, congrArg some hmoves.1⟩

/-- Whether a removal of an entry, recorded under its own container, is not newer than an
address. -/
def GoneBy (ix : Index) (e : Entry) (p : Muid) : Prop :=
  ∃ k r, ix.removals.get? k = some r ∧ k.removing = e.placement ∧ r.container = e.container
    ∧ ¬ p < k.removalId

namespace GoneBy

theorem isRemoved (h : ix.GoneBy e p) (hle : p.timestamp ≤ t) :
    ix.isRemoved e.placement t = true := by
  obtain ⟨k, r, hr, hk, -, hnot⟩ := h
  refine isRemoved_iff.mpr ⟨k, r, hr, hk, Std.le_trans ?_ hle⟩
  rcases Muid.lt_trichotomy k.removalId p with hlt | heq | hgt
  · exact Muid.timestamp_le_of_lt hlt
  · exact Std.le_of_eq (congrArg Muid.timestamp heq)
  · exact absurd hgt hnot

theorem mono (h : ix.GoneBy e p)
    (hsub : ∀ k r, ix.removals.get? k = some r → ix'.removals.get? k = some r) :
    ix'.GoneBy e p := by
  obtain ⟨k, r, hr, hrest⟩ := h
  exact ⟨k, r, hsub k r hr, hrest⟩

theorem later (h : ix.GoneBy e p) {q : Muid} (hlt : p < q) : ix.GoneBy e q := by
  obtain ⟨k, r, hr, hk, hcontainer, hnot⟩ := h
  exact ⟨k, r, hr, hk, hcontainer, fun hq => hnot (Muid.lt_trans hlt hq)⟩

/-- A purge that leaves an entry leaves the removals of it under its own container. -/
theorem applyClearance (h : ix.GoneBy e p) (hm : Mirrored ix) {c : ClearanceChange}
    (hkept : ¬ Covers id c e.container e.placement) : (ix.applyClearance id c).GoneBy e p := by
  obtain ⟨k, r, hr, hk, hcontainer, hnot⟩ := h
  refine ⟨k, r, ?_, hk, hcontainer, hnot⟩
  rw [get?_removals_applyClearance id c hm, hr, Option.filter_some, hcontainer, hk,
    if_pos (decide_eq_true hkept)]

end GoneBy

section Order

/-- In order up to an entry is in order up to those below it. -/
theorem InOrderUpTo.lower (h : InOrderUpTo changes g) (hf : AtKey g.container g.key f)
    (hle : ¬ g.placement < f.placement) : InOrderUpTo changes f := by
  have hbelow {q : Muid} (hq : ¬ f.placement < q) : ¬ g.placement < q := fun hlt =>
    hq (Muid.lt_of_not_lt_of_lt hle hlt)
  refine List.Pairwise.imp (fun {x y} hxy => ?_) h
  intro hx hy hxle hyle
  rw [hf.1, hf.2] at hx hy
  exact hxy hx hy (hbelow hxle) (hbelow hyle)

theorem InOrderUpTo.sublist (h : InOrderUpTo changes g) (he : e ∈ written changes)
    (hf : f ∈ written changes) (hek : AtKey g.container g.key e) (hfk : AtKey g.container g.key f)
    (hlt : e.placement < f.placement) (hle : ¬ g.placement < f.placement) :
    [e, f].Sublist (written changes) := by
  have hne : e ≠ f := by
    rintro rfl
    exact Muid.lt_irrefl _ hlt
  refine (pair_sublist_of_mem he hf hne).resolve_right fun hsub => ?_
  have hpair := List.Pairwise.sublist hsub h
  have hfe := (List.pairwise_cons.mp hpair).1 e (by simp) hfk hek hle fun hge =>
    hle (Muid.lt_trans hge hlt)
  exact Muid.lt_asymm hlt hfe

theorem InOrderUpTo.mono {more : List (Muid × Change)} (h : InOrderUpTo more g)
    (hsub : changes.Sublist more) : InOrderUpTo changes g :=
  List.Pairwise.sublist (hsub.filterMap _) h

theorem inOrderUpTo_congr {more : List (Muid × Change)}
    (hwritten : written more = written changes) :
    InOrderUpTo more g ↔ InOrderUpTo changes g := by
  rw [InOrderUpTo, InOrderUpTo, hwritten]

end Order

/-! ## The invariant -/

/-- What a history-keeping index has of the entries written at its keys. -/
structure Layered (changes : List (Muid × Change)) (ix : Index) : Prop where
  traced : Traced changes ix
  keeping : ix.keepingHistory = true
  /-- Every entry that was written is stored unless it has been purged or moved. -/
  accounted : ∀ g ∈ written changes, ix.entries.get? g.placement = some g
    ∨ ix.isPurged g.container g.placement = true ∨ Moved changes g
  /-- A stored entry that came before a newer one at its key has been removed by then, if that
  one came in order. -/
  superseded : ∀ e g, ix.entries.get? e.placement = some e → e.key.isPositional = false →
    [e, g].Sublist (written changes) → AtKey g.container g.key e → e.placement < g.placement →
    InOrderUpTo changes g → ix.GoneBy e g.placement

namespace Layered

theorem empty : Layered [] (.empty true) where
  traced := .empty true
  keeping := rfl
  accounted g h := by cases h
  superseded e g h := by cases h

/-! ### Steps -/

/-- A change that writes and drops nothing and adds removals only. -/
theorem skip (h : Layered changes ix) {more : List (Muid × Change)} (hsub : changes.Sublist more)
    (htraced : Traced more ix') (hwritten : written more = written changes)
    (hkeeping : ix'.keepingHistory = ix.keepingHistory)
    (hclearances : ix'.clearances = ix.clearances)
    (hstored : ∀ e, ix'.entries.get? e.placement = some e → e.key.isPositional = false →
      ix.entries.get? e.placement = some e)
    (hkept : ∀ e ∈ written changes, ix.entries.get? e.placement = some e →
      ix'.entries.get? e.placement = some e ∨ Moved more e)
    (hremovals : ∀ k r, ix.removals.get? k = some r → ix'.removals.get? k = some r) :
    Layered more ix' where
  traced := htraced
  keeping := hkeeping.trans h.keeping
  accounted g hg := by
    rw [hwritten] at hg
    rw [isPurged_congr hclearances]
    rcases h.accounted g hg with hstored | hpurged | hmoved
    · exact (hkept g hg hstored).imp id .inr
    · exact .inr (.inl hpurged)
    · exact .inr (.inr (hmoved.mono hsub))
  superseded e g he hkey hpair hek hlt horder := by
    rw [hwritten] at hpair
    exact (h.superseded e g (hstored e he hkey) hkey hpair hek hlt
      ((inOrderUpTo_congr hwritten).mp horder)).mono hremovals

/-- An entry that comes finds everything removed below the one that it supersedes. -/
theorem goneBy_makeRoom (h : Layered changes ix) (hnew : id ∉ changes.map Prod.fst)
    {c : EntryChange} (he : ix.entries.get? e.placement = some e)
    (hek : AtKey (entryOf id c).container (entryOf id c).key e)
    (hkey : e.key.isPositional = false) (hlt : e.placement < id)
    (horder : InOrderUpTo changes (entryOf id c)) : (ix.makeRoom id c).GoneBy e id := by
  have hm := h.traced.tidy.mirrored
  obtain ⟨previous, hprevious⟩ := exists_superseded? hm he hek hkey hlt
  obtain ⟨-, hplt, ⟨n, hn, hnk⟩, hmax⟩ := (superseded?_eq_some_iff hm).mp hprevious
  obtain rfl : n.placement = previous := hm.placed previous n hn
  rcases Muid.lt_trichotomy e.placement n.placement with hen | heq | hgt
  · -- what is below the superseded entry was removed when that came
    have hle := Muid.lt_asymm hplt
    have hnkey : n.key.isPositional = false := by
      rw [hnk.2, ← hek.2, hkey]
    have hpair := horder.sublist (h.traced.mem_written he hkey) (h.traced.mem_written hn hnkey)
      hek hnk hen hle
    have hgone := h.superseded e n he hkey hpair
      ⟨hek.1.trans hnk.1.symm, hek.2.trans hnk.2.symm⟩ hen (horder.lower hnk hle)
    exact (hgone.later hplt).mono (h.traced.removals_makeRoom hnew c)
  · rw [makeRoom_of_some hprevious, h.keeping, if_pos rfl]
    refine ⟨⟨n.placement, id⟩, ix.supersession id c n.placement, ?_, heq.symm, hek.1.symm,
      Muid.lt_irrefl id⟩
    rw [get?_removals_insertRemoval]
    exact if_pos rfl
  · exact absurd hgt (hmax e he hek hlt)

/-- What is older than a purged entry of its container has been purged as well. -/
theorem appendPurged (h : Layered changes ix) {c : EntryChange}
    (hpurged : ix.isPurged (entryOf id c).container id = true) :
    Layered (changes ++ [(id, .entry c)]) ix where
  traced := h.traced.mono (List.sublist_append_left changes [(id, .entry c)])
  keeping := h.keeping
  accounted g hg := by
    rw [written_append] at hg
    rcases List.mem_append.mp hg with hg | hg
    · refine (h.accounted g hg).imp (fun hstored => hstored) (Or.imp (fun hp => hp) ?_)
      exact fun hmoved => hmoved.mono (List.sublist_append_left _ _)
    · rw [List.mem_singleton.mp hg]
      exact .inr (.inl hpurged)
  superseded e g he hkey hpair hek hlt horder := by
    rw [written_append] at hpair
    rcases pair_sublist_concat hpair with hpair | ⟨-, rfl⟩
    · exact h.superseded e g he hkey hpair hek hlt
        (horder.mono (List.sublist_append_left _ _))
    · have hkept := h.traced.kept e he
      rw [hek.1, isPurged_of_lt hpurged hlt] at hkept
      cases hkept

theorem applyEntry (h : Layered changes ix) (hnew : id ∉ changes.map Prod.fst) (c : EntryChange) :
    Layered (changes ++ [(id, .entry c)]) (ix.applyEntry id c) := by
  by_cases hpurged : ix.isPurged (entryOf id c).container id = true
  · rw [applyEntry_eq, if_pos hpurged]
    exact h.appendPurged hpurged
  have hsub := List.sublist_append_left changes [(id, .entry c)]
  have hne {g : Entry} (hg : g ∈ written changes) : g.placement ≠ id := by
    obtain ⟨q, d, hmem, rfl⟩ := mem_written_iff.mp hg
    exact fun hq => hnew (hq ▸ List.mem_map_of_mem hmem)
  have happly := applyEntry_eq ix id c
  rw [if_neg hpurged] at happly
  obtain ⟨hkeeping, hentries⟩ := makeRoom_keeping h.keeping id c
  have hstored (p : Muid) : (ix.applyEntry id c).entries.get? p
      = if p = id then some (entryOf id c) else ix.entries.get? p := by
    rw [happly, get?_entries_insertEntry, hentries]
    rfl
  have hgone {e : Entry} {p : Muid} (hgone : (ix.makeRoom id c).GoneBy e p) :
      (ix.applyEntry id c).GoneBy e p := by
    rw [happly]
    exact hgone
  refine {
    traced := h.traced.applyEntry hnew c
    keeping := by rw [happly]; exact hkeeping
    accounted := fun g hg => ?_
    superseded := fun e g he hkey hpair hek hlt horder => ?_ }
  · rw [isPurged_congr (clearances_applyEntry ix id c), hstored]
    rw [written_append] at hg
    rcases List.mem_append.mp hg with hg | hg
    · rw [if_neg (hne hg)]
      refine (h.accounted g hg).imp (fun hstored => hstored) (Or.imp (fun hp => hp) ?_)
      exact fun hmoved => hmoved.mono hsub
    · rw [List.mem_singleton.mp hg]
      exact .inl (if_pos rfl)
  · rw [written_append] at hpair
    have horder := horder.mono hsub
    rw [hstored] at he
    rcases pair_sublist_concat hpair with hpair | ⟨hmem, rfl⟩
    · rw [if_neg (hne (hpair.subset (by simp)))] at he
      exact hgone ((h.superseded e g he hkey hpair hek hlt horder).mono
        (h.traced.removals_makeRoom hnew c))
    · rw [if_neg (hne hmem)] at he
      exact hgone (h.goneBy_makeRoom hnew he hek hkey hlt horder)

theorem applyMovement (h : Layered changes ix) (hnew : id ∉ changes.map Prod.fst)
    (m : MovementChange) : Layered (changes ++ [(id, .movement m)]) (ix.applyMovement id m) := by
  have hsub := List.sublist_append_left changes [(id, .movement m)]
  have htraced := h.traced.applyMovement hnew m
  have hwritten : written (changes ++ [(id, .movement m)]) = written changes := by
    rw [written_append]
    exact List.append_nil _
  rcases applyMovement_eq_or ix id m with hsame | ⟨x, hcurrent, -, -, hmoves⟩
  · rw [hsame] at htraced ⊢
    exact h.skip hsub htraced hwritten rfl rfl (fun _ he _ => he) (fun _ _ he => .inl he)
      fun _ _ hr => hr
  rw [hmoves] at htraced ⊢
  obtain ⟨hkeeping, hclearances⟩ := moveFrom_frame id m x ix
  obtain ⟨hx, hentry, -, -⟩ := (current?_eq_some_iff h.traced.tidy.mirrored).mp hcurrent
  refine h.skip hsub htraced hwritten hkeeping hclearances (fun e he hkey => ?_)
    (fun e hmem he => ?_) fun k r hr => ?_
  · rw [get?_entries_moveFrom] at he
    split at he
    · cases he
    · split at he
      · -- a moved entry is at a position
        cases he
        cases hkey
      · exact he
  · rw [get?_entries_moveFrom]
    split
    · rename_i hdrops
      rw [hdrops.2, hx] at he
      obtain rfl := Option.some.inj he
      exact .inr ⟨id, m, moves_append hmem hentry.symm⟩
    · refine .inl ((if_neg fun hid => ?_).trans he)
      rw [hid.2, (h.traced.free hnew).1] at he
      cases he
  · exact h.traced.removals_moveFrom hnew m x k r hr

theorem applyClearance (h : Layered changes ix) (hnew : id ∉ changes.map Prod.fst)
    (c : ClearanceChange) :
    Layered (changes ++ [(id, .clearance c)]) (ix.applyClearance id c) := by
  have hm := h.traced.tidy.mirrored
  have hsub := List.sublist_append_left changes [(id, .clearance c)]
  have hwritten : written (changes ++ [(id, .clearance c)]) = written changes := by
    rw [written_append]
    exact List.append_nil _
  refine {
    traced := h.traced.applyClearance id c
    keeping := (keepingHistory_applyClearance id c ix).trans h.keeping
    accounted := fun g hg => ?_
    superseded := fun e g he hkey hpair hek hlt horder => ?_ }
  · rw [hwritten] at hg
    rcases h.accounted g hg with hstored | hpurged | hmoved
    · by_cases hcovers : Covers id c g.container g.placement
      · exact .inr (.inl (isPurged_of_covers hcovers))
      · rw [get?_entries_applyClearance id c hm, hstored, Option.filter_some]
        exact .inl (if_pos (decide_eq_true hcovers))
    · exact .inr (.inl (h.traced.isPurged_applyClearance hnew hpurged))
    · exact .inr (.inr (hmoved.mono hsub))
  · rw [get?_entries_applyClearance id c hm, Option.filter_eq_some_iff, decide_eq_true_eq] at he
    rw [hwritten] at hpair
    exact (h.superseded e g he.1 hkey hpair hek hlt ((inOrderUpTo_congr hwritten).mp
      horder)).applyClearance hm he.2

/-- **Every change keeps the invariant** if its address is new. -/
theorem applyChange (h : Layered changes ix) (hnew : id ∉ changes.map Prod.fst) (c : Change) :
    Layered (changes ++ [(id, c)]) (ix.applyChange id c) := by
  cases c with
  | container behavior =>
      have hwritten : written (changes ++ [(id, .container behavior)]) = written changes := by
        rw [written_append]
        exact List.append_nil _
      exact h.skip (List.sublist_append_left _ _) (h.traced.applyChange hnew _) hwritten rfl rfl
        (fun _ he _ => he) (fun _ _ he => .inl he) fun _ _ hr => hr
  | entry c => exact h.applyEntry hnew c
  | movement m => exact h.applyMovement hnew m
  | clearance c => exact h.applyClearance hnew c

theorem withRecords (h : Layered changes ix) (chains : SortedMap ChainKey BundleInfo)
    (bundles : SortedMap BundleKey Bundle) (claims : List ClaimedChain) :
    Layered changes (ix.withRecords chains bundles claims) :=
  ⟨h.traced.withRecords chains bundles claims, h.keeping, h.accounted, h.superseded⟩

end Layered

/-- **After every run of changes** what was written in order has been superseded in order. -/
theorem layered_applyChanges (hids : (changes.map Prod.fst).Nodup) :
    Layered changes ((empty true).applyChanges changes) :=
  applyChanges_induction .empty
    (fun _ _ _ c hids h => h.applyChange (not_mem_of_nodup hids) c) hids

theorem layered_offerAll {arrivals : List Bundle}
    (hids : ((applied true arrivals).map Prod.fst).Nodup) :
    Layered (applied true arrivals) ((empty true).offerAll arrivals).1 := by
  obtain ⟨chains, bundles, claims, heq⟩ := exists_offerAll_eq true arrivals
  rw [heq]
  exact (layered_applyChanges hids).withRecords chains bundles claims

/-! ## What a removed layer leaves -/

/-- If the newest placement at a key has been removed, it has been moved away, or the entry that
replaced it has. -/
theorem Layered.exists_moved (h : Layered changes ix) {n : Entry}
    (hn : ix.entries.get? n.placement = some n) (hkey : n.key.isPositional = false)
    (hmax : ∀ f, ix.entries.get? f.placement = some f → AtKey n.container n.key f →
      f.placedAt ≤ t → ¬ n.placement < f.placement)
    (hremoved : ix.isRemoved n.placement t = true) :
    ∃ g, Moved changes g ∧ AtKey g.container g.key n ∧ ¬ g.placement < n.placement := by
  obtain ⟨k, r, hr, hk, hle⟩ := isRemoved_iff.mp hremoved
  cases h.traced.reasons k r n hr (hk ▸ hn) with
  | moved e m hplace hmoves hwithin =>
      obtain rfl := hplace.eq_of_key hkey
      exact ⟨n, ⟨_, m, hmoves⟩, ⟨rfl, rfl⟩, Muid.lt_irrefl _⟩
  | replaced f hf hplaced hfk hnf hwithin =>
      refine ⟨f, ?_, ⟨hfk.1.symm, hfk.2.symm⟩, Muid.lt_asymm hnf⟩
      rcases h.accounted f hf with hstored | hpurged | hmoved
      · refine absurd hnf (hmax f hstored hfk ?_)
        rw [Entry.placedAt, hplaced]
        exact hle
      · -- a purge of the newer entry would have taken this one as well
        have hkept := h.traced.kept n hn
        rw [← hfk.1, isPurged_of_lt hpurged hnf] at hkept
        cases hkept
      · exact hmoved

/-- If the newest placement at a key has been removed, so have all older ones, as far as entries
that are moved came in order. -/
theorem Layered.topStands (h : Layered changes ix) {container : Muid} {key : StorageKey}
    (horder : MovedInOrder changes container key) (hkey : key.isPositional = false) :
    ix.TopStands t (AtKey container key) := by
  have hm := h.traced.tidy.mirrored
  refine topStands_of_removed hm (fun e f _ _ he hf => he.1.trans hf.1.symm) ?_
  intro e n he hn hek hnk hlt hnle hmax hremoved
  have hnkey : n.key.isPositional = false := hnk.2 ▸ hkey
  have hekey : e.key.isPositional = false := hek.2 ▸ hkey
  obtain ⟨g, hmoved, hng, hle⟩ := h.exists_moved hn hnkey
    (fun f hf hfk => hmax f hf ⟨hfk.1.trans hnk.1, hfk.2.trans hnk.2⟩) hremoved
  have hin : InOrderUpTo changes g := horder g hmoved.mem_written
    ⟨hng.1.symm.trans hnk.1, hng.2.symm.trans hnk.2⟩ hmoved
  have hen : AtKey n.container n.key e := ⟨hek.1.trans hnk.1.symm, hek.2.trans hnk.2.symm⟩
  have hpair := hin.sublist (h.traced.mem_written he hekey) (h.traced.mem_written hn hnkey)
    ⟨hen.1.trans hng.1, hen.2.trans hng.2⟩ hng hlt hle
  exact (h.superseded e n he hekey hpair hen hlt (hin.lower hng hle)).isRemoved hnle

/-! ## Both ways to read a key -/

/-- Whether an entry leads its kind and is no deletion, although a newer one has been placed. -/
structure Buried (ix : Index) (t : Timestamp) (P : Entry → Prop) (e : Entry) : Prop where
  leads : ix.Leads t P e
  present : e.deletion = false
  below : ∃ f, ix.entries.get? f.placement = some f ∧ P f ∧ f.placedAt ≤ t
    ∧ e.placement < f.placement

/-- What leads is found by the question about the key unless it is buried. -/
theorem Leads.tops_iff {P : Entry → Prop} (h : ix.Leads t P e) (hpresent : e.deletion = false) :
    ix.Tops t P e ↔ ¬ ix.Buried t P e := by
  constructor
  · rintro htops ⟨-, -, f, hf, hPf, hft, hlt⟩
    exact htops.newest f hf hPf hft hlt
  · exact fun hnot => ⟨h.stands, h.ofKind, fun f hf hPf hft hlt =>
      hnot ⟨h, hpresent, f, hf, hPf, hft, hlt⟩⟩

theorem keyedEntries_eq_iff (hm : Mirrored ix) {container : Muid} {key : StorageKey} {asOf : AsOf}
    (hkey : key.isPositional = false) (hasOf : ix.resolveAsOf asOf = .ok t) :
    (ix.keyedEntries container asOf).map (·.get? key) = ix.entryByKey container key asOf
      ↔ ¬ ∃ e, ix.Buried t (AtKey container key) e := by
  obtain ⟨found, hfound, hiff⟩ := exists_entryByKey_eq hm hasOf container key
  obtain ⟨entries, hentries, hiff'⟩ := exists_keyedEntries_eq hm hasOf container
  rw [hfound, hentries, Except.map, Except.ok.injEq, Option.ext_iff]
  simp only [hiff, hiff', hkey, true_and]
  constructor
  · rintro hsame ⟨e, hburied⟩
    exact (hburied.leads.tops_iff hburied.present).mp
      ((hsame e).mp ⟨hburied.leads, hburied.present⟩).1 hburied
  · intro hnot e
    constructor
    · exact fun ⟨hleads, hpresent⟩ =>
        ⟨(hleads.tops_iff hpresent).mpr fun hburied => hnot ⟨e, hburied⟩, hpresent⟩
    · exact fun ⟨htops, hpresent⟩ => ⟨htops.leads hm, hpresent⟩

/-- **When the two ways to read a key agree.** Offer any bundles to a history-keeping index, such
that those accepted have distinct times or owners and no more changes than there are offsets. What
a keyed container shows at a key is what is found at the key exactly if no entry is buried there.
At every moment this is so if the entries at the key that are moved came in order: after all older
ones there, which came from the oldest to the newest. -/
theorem keyed_agrees_iff (arrivals : List Bundle)
    (hkeys : ((empty true).offerAll arrivals).2.Pairwise fun a b => a.key ≠ b.key)
    (hsize : ∀ b ∈ ((empty true).offerAll arrivals).2, b.changes.length ≤ 0x100000000)
    (container : Muid) (key : StorageKey) (hkey : key.isPositional = false) (asOf : AsOf) :
    let ix := ((empty true).offerAll arrivals).1
    (∀ t, ix.resolveAsOf asOf = .ok t →
        ((ix.keyedEntries container asOf).map (·.get? key) = ix.entryByKey container key asOf
          ↔ ¬ ∃ e, ix.Buried t (AtKey container key) e))
      ∧ (MovedInOrder (applied true arrivals) container key →
        (ix.keyedEntries container asOf).map (·.get? key)
          = ix.entryByKey container key asOf) := by
  intro ix
  have hids : ((applied true arrivals).map Prod.fst).Nodup :=
    nodup_flatMap_changesWithIds (hkeys.imp Bundle.key_ne_iff.mp) hsize
  have h : Layered (applied true arrivals) ix := layered_offerAll hids
  have hm : Mirrored ix := h.traced.tidy.mirrored
  refine ⟨fun t hasOf => keyedEntries_eq_iff hm hkey hasOf, fun horder => ?_⟩
  cases hasOf : ix.resolveAsOf asOf with
  | error e =>
      rw [keyedEntries, entryByKey, hasOf]
      rfl
  | ok t =>
      refine (keyedEntries_eq_iff hm hkey hasOf).mpr ?_
      rintro ⟨e, hburied⟩
      exact (hburied.leads.tops_iff hburied.present).mp
        (((h.topStands horder hkey).tops_iff hm).mpr hburied.leads) hburied

/-- In a directory a key is written late, and another one in order and then taken away. -/
theorem keyed_agrees_otherKeyLate :
    let write (key : String) (value : UInt8) : Change := .setKey .root (.text key) [value]
    let late := Bundle.ofValid ⟨20, 2, 20, none, none⟩ [write "k" 2] rfl (by decide) (by decide)
    let early := Bundle.ofValid ⟨10, 1, 10, none, none⟩ [write "k" 1, write "j" 3] rfl (by decide)
      (by decide)
    let again := Bundle.ofValid ⟨30, 3, 30, none, none⟩ [write "j" 4] rfl (by decide) (by decide)
    let removal := Bundle.ofValid ⟨40, 4, 40, none, none⟩ [.movement ⟨none, ⟨30, 3, 1⟩, 0, false⟩]
      rfl (by decide) (by decide)
    let arrivals := [late, early, again, removal]
    let ix := ((empty true).offerAll arrivals).1
    ((empty true).offerAll arrivals).2 = arrivals
      ∧ ¬ OldestFirst (applied true arrivals)
      ∧ (∀ asOf, (ix.keyedEntries .root asOf).map (·.get? (.scalar (.text "k")))
        = ix.entryByKey .root (.scalar (.text "k")) asOf)
      ∧ ∀ asOf, (ix.keyedEntries .root asOf).map (·.get? (.scalar (.text "j")))
        = ix.entryByKey .root (.scalar (.text "j")) asOf := by
  intro write late early again removal arrivals ix
  have haccepted : ((empty true).offerAll arrivals).2 = arrivals := by decide +kernel
  have hlate : ¬ OldestFirst (applied true arrivals) := by
    unfold OldestFirst
    decide +kernel
  have hagrees (key : StorageKey) (hkey : key.isPositional = false) (asOf : AsOf) :=
    keyed_agrees_iff arrivals (by rw [haccepted]; decide +kernel)
      (by rw [haccepted]; decide +kernel) .root key hkey asOf
  exact ⟨haccepted, hlate,
    fun asOf => (hagrees _ rfl asOf).2 (movedInOrder_of_forall (by decide +kernel)),
    fun asOf => (hagrees _ rfl asOf).2 (movedInOrder_of_forall (by decide +kernel))⟩

/-- An entry that arrives after its successor is shown by the container once that has been taken
away, while nothing is found at its key. -/
theorem keyed_agrees_lateWrite :
    let write (value : UInt8) : Change := .setKey .root (.text "k") [value]
    let late := Bundle.ofValid ⟨20, 2, 20, none, none⟩ [write 2] rfl (by decide) (by decide)
    let early := Bundle.ofValid ⟨10, 1, 10, none, none⟩ [write 1] rfl (by decide) (by decide)
    let removal := Bundle.ofValid ⟨30, 3, 30, none, none⟩ [.movement ⟨none, ⟨20, 2, 1⟩, 0, false⟩]
      rfl (by decide) (by decide)
    let arrivals := [late, early, removal]
    let ix := ((empty true).offerAll arrivals).1
    ((empty true).offerAll arrivals).2 = arrivals
      ∧ ix.entryByKey .root (.scalar (.text "k")) .latest = .ok none
      ∧ (ix.keyedEntries .root .latest).map (·.get? (.scalar (.text "k"))) ≠ .ok none := by
  decide +kernel

end Index

end GossipStore
