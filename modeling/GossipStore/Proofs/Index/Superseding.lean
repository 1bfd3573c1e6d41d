import Mathlib.Data.List.Induction
import Mathlib.Tactic.Tauto
import GossipStore.Proofs.Index.Bundles
import GossipStore.Proofs.Index.Placements

set_option autoImplicit false

/-! # Replaced entries and the order of arrival

A question about an entry itself, or about a vertex, finds an entry unless it has been removed. A
replacing entry removes only the newest older one that is at its key when it arrives
(`Supersedes`): what arrives later than its successor is never removed. So which entries are
removed depends on the order of arrival (`isRemoved_iff_superseded`), and two replicas with the same
bundles answer these questions alike exactly if the same entries have been removed in both
(`answers_agree_iff_superseded`). Where the writes at every key arrive from the oldest to the
newest, the entries removed are all that a later write overrides (`superseded_iff_overwritten`).
-/

namespace GossipStore.Index

/-! ## The reference -/

/-- Whether a replacing entry that arrives after some others finds one of them in its place: the
newest of the older ones at its key. -/
structure Supersedes (before : List Entry) (f e : Entry) : Prop where
  replacing : f.behavior.isReplacing = true
  mem : e ∈ before
  container : e.container = f.container
  key : e.key = f.key
  older : e.placement < f.placement
  newest : ∀ g ∈ before, g.container = f.container → g.key = f.key → g.placement < f.placement →
    g = e ∨ g.placement < e.placement

/-- Whether an entry has been removed up to a time, by an entry that found it in its place. -/
def Superseded (changes : List (Muid × Change)) (t : Timestamp) (e : Entry) : Prop :=
  ∃ before f, before ++ [f] <+: written changes ∧ Supersedes before f e ∧ f.placedAt ≤ t

/-- Whether a later replacing entry has been written at the key of an entry up to a time. -/
def Overwritten (changes : List (Muid × Change)) (t : Timestamp) (e : Entry) : Prop :=
  ∃ f ∈ written changes, f.behavior.isReplacing = true ∧ f.container = e.container
    ∧ f.key = e.key ∧ e.placement < f.placement ∧ f.placedAt ≤ t

/-- Whether the entries at every key are written from the oldest to the newest. -/
def OldestFirst (changes : List (Muid × Change)) : Prop :=
  (written changes).Pairwise fun e f =>
    e.container = f.container → e.key = f.key → e.placement < f.placement

section Reference

variable {changes : List (Muid × Change)} {t : Timestamp} {e : Entry}

theorem Superseded.overwritten (h : Superseded changes t e) : Overwritten changes t e := by
  obtain ⟨before, f, hprefix, hs, hle⟩ := h
  exact ⟨f, hprefix.subset (by simp), hs.replacing, hs.container.symm, hs.key.symm, hs.older, hle⟩

/-- What is overwritten up to a time had been written by then. -/
theorem Overwritten.placedAt_le (h : Overwritten changes t e) : e.placedAt ≤ t := by
  obtain ⟨f, -, -, -, -, hlt, hle⟩ := h
  exact Std.le_trans (Muid.timestamp_le_of_lt hlt) hle

theorem isPositional_key_of_mem_written (h : e ∈ written changes) :
    e.key.isPositional = !e.behavior.isReplacing := by
  obtain ⟨id, c, -, rfl⟩ := mem_written_iff.mp h
  exact isPositional_key_entryOf c

/-- **Writes that arrive from the oldest to the newest** remove all that they override. -/
theorem superseded_iff_overwritten (hfirst : OldestFirst changes) (he : e ∈ written changes) :
    Superseded changes t e ↔ Overwritten changes t e := by
  refine ⟨Superseded.overwritten, ?_⟩
  rintro ⟨f, hf, hreplacing, hcontainer, hkey, hlt, hle⟩
  obtain ⟨before, rest, hsplit⟩ := List.append_of_mem he
  rw [OldestFirst, hsplit] at hfirst
  obtain ⟨-, hrest, hbefore⟩ := List.pairwise_append.mp hfirst
  obtain ⟨hafter, hrest⟩ := List.pairwise_cons.mp hrest
  -- the later write comes after the entry in the list
  have hfrest : f ∈ rest := by
    rw [hsplit] at hf
    rcases List.mem_append.mp hf with hf | hf
    · exact absurd (hbefore f hf e (by simp) hcontainer hkey) (Muid.lt_asymm hlt)
    · rcases List.mem_cons.mp hf with rfl | hf
      · exact absurd hlt (Muid.lt_irrefl _)
      · exact hf
  -- so some write at the key is the first one to do so, and that one supersedes the entry
  obtain ⟨g, hfind⟩ : ∃ g, rest.find? (fun x =>
      decide (x.container = e.container ∧ x.key = e.key)) = some g := by
    rw [← Option.isSome_iff_exists, List.find?_isSome]
    exact ⟨f, hfrest, decide_eq_true ⟨hcontainer, hkey⟩⟩
  obtain ⟨hg, mid, after, rfl, hmid⟩ := List.find?_eq_some_iff_append.mp hfind
  obtain ⟨hgc, hgk⟩ := of_decide_eq_true hg
  have hnone {x : Entry} (hx : x ∈ mid) (hc : x.container = e.container) (hk : x.key = e.key) :
      False := by
    have hout := hmid x hx
    simp only [hc, hk, and_self, decide_true, Bool.not_true, Bool.false_eq_true] at hout
  have hgwritten : g ∈ written changes := by rw [hsplit]; simp
  refine ⟨before ++ e :: mid, g, ⟨after, by rw [hsplit]; simp⟩, ⟨?_, by simp, hgc.symm, hgk.symm,
    hafter g (by simp) hgc.symm hgk.symm, ?_⟩, ?_⟩
  · have hpositional := isPositional_key_of_mem_written hf
    rw [hreplacing, hkey, ← hgk, isPositional_key_of_mem_written hgwritten] at hpositional
    simpa using hpositional
  · intro x hx hc hk hlt
    rcases List.mem_append.mp hx with hx | hx
    · exact .inr (hbefore x hx e (by simp) (hc.trans hgc) (hk.trans hgk))
    · rcases List.mem_cons.mp hx with rfl | hx
      · exact .inl rfl
      · exact (hnone hx (hc.trans hgc) (hk.trans hgk)).elim
  · rcases List.mem_append.mp hfrest with hfmid | hfrest
    · exact (hnone hfmid hcontainer hkey).elim
    · rcases List.mem_cons.mp hfrest with rfl | hfafter
      · exact hle
      · have hgf := (List.pairwise_cons.mp (List.pairwise_append.mp hrest).2.1).1 f hfafter
          (hgc.trans hcontainer.symm) (hgk.trans hkey.symm)
        exact Std.le_trans (Muid.timestamp_le_of_lt hgf) hle

end Reference

/-! ## Removals -/

/-- Whether a bundle's change defines a container or writes an entry. -/
def IsWrite (c : Change) : Prop := (∀ m, c ≠ .movement m) ∧ ∀ x, c ≠ .clearance x

section Removals

variable {changes : List (Muid × Change)} {ix : Index} {id : Muid}

theorem not_purged (hwrites : ∀ x ∈ changes, IsWrite x.2) (e : Entry) : ¬ Purged changes e := by
  rintro ⟨q, ⟨x, hmem, -⟩, -⟩
  exact (hwrites _ hmem).2 x rfl

theorem not_cleared (hwrites : ∀ x ∈ changes, IsWrite x.2) (t : Timestamp) (e : Entry) :
    ¬ Cleared changes t e := by
  rintro ⟨q, ⟨x, hmem, -⟩, -⟩
  exact (hwrites _ hmem).2 x rfl

/-- An entry adds a removal exactly if it replaces something and finds it. -/
theorem exists_removal_applyEntry (hhistory : ix.keepingHistory = true) {c : EntryChange}
    (hkept : ix.isPurged (entryOf id c).container id = false) (k : RemovalKey) :
    (∃ r, (ix.applyEntry id c).removals.get? k = some r) ↔ (∃ r, ix.removals.get? k = some r)
      ∨ c.behavior.isReplacing = true ∧ k.removalId = id
        ∧ ix.previousAtKey? (entryOf id c).container (entryOf id c).key id = some k.removing := by
  have hbehavior : (entryOf id c).behavior = c.behavior := rfl
  unfold applyEntry
  simp only [hkept, Bool.false_eq_true, if_false, hbehavior]
  by_cases hreplacing : c.behavior.isReplacing = true
  · simp only [hreplacing, if_true, true_and]
    cases hprevious : ix.previousAtKey? (entryOf id c).container (entryOf id c).key id with
    | none => simp [insertEntry]
    | some previous =>
        simp only [supersede, hhistory, if_true, insertEntry, insertRemoval, removalKey,
          Option.some.injEq]
        by_cases hk : k = ⟨previous, id⟩
        · simp [hk]
        · rw [SortedMap.get?_insert_of_ne _ hk]
          refine ⟨.inl, fun h => h.resolve_right ?_⟩
          rintro ⟨rfl, rfl⟩
          exact hk rfl
  · simp [hreplacing, insertEntry]

/-- What stands before a new entry at its key is what it supersedes. -/
theorem Reflects.previousAtKey?_iff (h : Reflects changes ix)
    (hids : (changes.map Prod.fst).Nodup) (hwrites : ∀ x ∈ changes, IsWrite x.2) {c : EntryChange}
    {p : Muid} : (c.behavior.isReplacing = true
        ∧ ix.previousAtKey? (entryOf id c).container (entryOf id c).key id = some p)
      ↔ ∃ e, Supersedes (written changes) (entryOf id c) e ∧ e.placement = p := by
  simp only [previousAtKey?_eq_some_iff, h.mem_placementsAtKey_iff]
  constructor
  · rintro ⟨hreplacing, ⟨e, he, rfl, hcontainer, hkey, -⟩, hlt, hmax⟩
    refine ⟨e, ⟨hreplacing, he, hcontainer, hkey, hlt, fun g hg hc hk hlt => ?_⟩, rfl⟩
    exact (hmax g.placement ⟨g, hg, rfl, hc, hk, not_purged hwrites g⟩ hlt).imp
      (eq_of_placement_eq hids hg he) fun h => h
  · rintro ⟨e, hs, rfl⟩
    refine ⟨hs.replacing, ⟨e, hs.mem, rfl, hs.container, hs.key, not_purged hwrites e⟩, hs.older,
      ?_⟩
    rintro q ⟨g, hg, rfl, hc, hk, -⟩ hlt
    exact (hs.newest g hg hc hk hlt).imp (congrArg Entry.placement) fun h => h

/-- **The removals tell which entry superseded which**, after any writes in any order. -/
theorem exists_removal_iff (hids : (changes.map Prod.fst).Nodup)
    (hwrites : ∀ x ∈ changes, IsWrite x.2) (k : RemovalKey) :
    (∃ r, ((empty true).applyChanges changes).removals.get? k = some r)
      ↔ ∃ before f e, before ++ [f] <+: written changes ∧ Supersedes before f e
        ∧ k = ⟨e.placement, f.placement⟩ := by
  -- on the changes in the order of their arrival, the last one taken off
  induction changes using List.reverseRecOn with
  | nil =>
      refine iff_of_false ?_ ?_
      · rintro ⟨r, hr⟩
        cases hr
      · rintro ⟨before, f, e, hprefix, -⟩
        simpa [written] using hprefix.length_le
  | append_singleton changes x ih =>
      obtain ⟨id, c⟩ := x
      have hids' : (changes.map Prod.fst).Nodup := by
        rw [List.map_append] at hids
        exact (List.nodup_append.mp hids).1
      have hwrites' : ∀ x ∈ changes, IsWrite x.2 := fun x hx => hwrites x (by simp [hx])
      have ih := ih hids' hwrites'
      have hreflects : Reflects changes ((empty true).applyChanges changes) :=
        Reflects.empty.applyChanges hids' fun x hx => (hwrites' x hx).1
      rw [applyChanges_concat, written_append]
      cases c with
      | container behavior =>
          rw [show written [(id, Change.container behavior)] = [] from rfl, List.append_nil, ← ih]
          rfl
      | movement m => exact absurd rfl ((hwrites (id, .movement m) (by simp)).1 m)
      | clearance x => exact absurd rfl ((hwrites (id, .clearance x) (by simp)).2 x)
      | entry c =>
          have hkept : ((empty true).applyChanges changes).isPurged (entryOf id c).container id
              = false := by
            rw [← Bool.not_eq_true, hreflects.isPurged_iff]
            exact not_purged hwrites' (entryOf id c)
          have happly : ((empty true).applyChanges changes).applyChange id (.entry c)
              = ((empty true).applyChanges changes).applyEntry id c := rfl
          rw [happly, exists_removal_applyEntry hreflects.keeping hkept, ih,
            show written [(id, Change.entry c)] = [entryOf id c] from rfl]
          -- the new entry is the one that ends the longer list, or the list was there before
          simp only [List.prefix_concat_iff]
          constructor
          · rintro (⟨before, f, e, hprefix, hs, hk⟩ | ⟨hreplacing, hid, hprevious⟩)
            · exact ⟨before, f, e, .inr hprefix, hs, hk⟩
            · obtain ⟨e, hs, hplaced⟩ :=
                (hreflects.previousAtKey?_iff hids' hwrites').mp ⟨hreplacing, hprevious⟩
              refine ⟨written changes, entryOf id c, e, .inl rfl, hs, ?_⟩
              rw [hplaced, show (entryOf id c).placement = id from rfl, ← hid]
          · rintro ⟨before, f, e, heq | hprefix, hs, hk⟩
            · obtain ⟨rfl, hlast⟩ := List.append_inj' heq rfl
              obtain rfl : f = entryOf id c := List.singleton_inj.mp hlast
              obtain ⟨hreplacing, hprevious⟩ :=
                (hreflects.previousAtKey?_iff hids' hwrites').mpr ⟨e, hs, rfl⟩
              subst hk
              exact .inr ⟨hreplacing, rfl, hprevious⟩
            · exact .inl ⟨before, f, e, hprefix, hs, hk⟩

end Removals

/-! ## Answers -/

/-- An index that has applied some writes in the order of a list. -/
structure Recounts (changes : List (Muid × Change)) (ix : Index) : Prop extends
    Reflects changes ix where
  distinct : (changes.map Prod.fst).Nodup
  writes : ∀ x ∈ changes, IsWrite x.2
  removed : ∀ k, (∃ r, ix.removals.get? k = some r) ↔
    ∃ before f e, before ++ [f] <+: written changes ∧ Supersedes before f e
      ∧ k = ⟨e.placement, f.placement⟩

theorem recounts_offerAll {arrivals : List Bundle}
    (haccepted : ((empty true).offerAll arrivals).2 = arrivals)
    (hkeys : arrivals.Pairwise fun a b => a.key ≠ b.key)
    (hsize : ∀ b ∈ arrivals, b.changes.length ≤ 0x100000000)
    (hwrites : ∀ b ∈ arrivals, ∀ c ∈ b.changes, IsWrite c) :
    Recounts (arrivals.flatMap Bundle.changesWithIds) ((empty true).offerAll arrivals).1 := by
  have hkeys : arrivals.Pairwise fun a b =>
      ¬ (a.info.timestamp = b.info.timestamp ∧ a.info.medallion = b.info.medallion) :=
    hkeys.imp Bundle.key_ne_iff.mp
  have hids := nodup_flatMap_changesWithIds hkeys hsize
  have hchanges : ∀ x ∈ arrivals.flatMap Bundle.changesWithIds, IsWrite x.2 := by
    intro x hx
    obtain ⟨b, hb, hx⟩ := List.mem_flatMap.mp hx
    obtain ⟨e, he, rfl⟩ := List.mem_map.mp hx
    exact hwrites b hb e.1 (List.fst_mem_of_mem_zipIdx he)
  have hreflects := reflects_offerAll (by rwa [haccepted]) (by rwa [haccepted])
    (by rw [haccepted]; exact fun b hb c hc => (hwrites b hb c hc).1)
  rw [haccepted] at hreflects
  refine ⟨hreflects, hids, hchanges, fun k => ?_⟩
  obtain ⟨chains, bundles, heq⟩ := foldl_apply_eq (empty true) arrivals
  rw [offerAll_eq, haccepted, heq]
  exact exists_removal_iff hids hchanges k

namespace Recounts

variable {changes : List (Muid × Change)} {ix : Index} {t : Timestamp} {e : Entry}

/-- **What has been removed** is what has been superseded. -/
theorem isRemoved_iff_superseded (h : Recounts changes ix) (he : e ∈ written changes) :
    ix.isRemoved e.placement t = true ↔ Superseded changes t e := by
  rw [isRemoved_iff]
  constructor
  · rintro ⟨k, r, hr, hremoving, hle⟩
    obtain ⟨before, f, e', hprefix, hs, rfl⟩ := (h.removed k).mp ⟨r, hr⟩
    have he' : e' ∈ written changes := hprefix.subset (List.mem_append_left _ hs.mem)
    obtain rfl : e' = e := eq_of_placement_eq h.distinct he' he hremoving
    exact ⟨before, f, hprefix, hs, hle⟩
  · rintro ⟨before, f, hprefix, hs, hle⟩
    obtain ⟨r, hr⟩ := (h.removed ⟨e.placement, f.placement⟩).mpr ⟨before, f, e, hprefix, hs, rfl⟩
    exact ⟨_, r, hr, rfl, hle⟩

theorem isLive_iff (h : Recounts changes ix) (he : e ∈ written changes) :
    ix.isLive e t = true ↔ e.placedAt ≤ t ∧ ¬ Superseded changes t e := by
  have hkept := not_purged h.writes e
  rw [h.toReflects.isLive_iff hkept, ← h.isRemoved_iff_superseded he, Bool.not_eq_true]
  exact ⟨fun hlive => ⟨hlive.1, hlive.2.2⟩, fun hlive =>
    ⟨hlive.1, ⟨not_cleared h.writes t e, hkept⟩, hlive.2⟩⟩

theorem get?_placement_iff (h : Recounts changes ix) :
    ix.entries.get? e.placement = some e ↔ e ∈ written changes := by
  rw [h.toReflects.get?_placement_iff]
  exact and_iff_left (not_purged h.writes e)

/-- An entry is found by its identity if it has been written and not been superseded. -/
theorem newestUpTo?_iff (h : Recounts changes ix) {entryId : Muid} :
    (ix.newestUpTo? (ix.placementsOf entryId) t).filter (ix.isLive · t) = some e
      ↔ e ∈ written changes ∧ e.entryId = entryId ∧ e.placedAt ≤ t
        ∧ ¬ Superseded changes t e := by
  rw [Option.filter_eq_some_iff, newestUpTo?_eq_some_iff h.mirrored
    (pairwise_placementsOf ix entryId), h.get?_placement_iff]
  constructor
  · rintro ⟨⟨he, hplaced, hle, -⟩, hlive⟩
    obtain ⟨e', he', rfl⟩ := (mem_placementsOf_iff h.mirrored).mp hplaced
    rw [h.get?_placement_iff.mpr he] at he'
    cases he'
    exact ⟨he, rfl, (h.isLive_iff he).mp hlive⟩
  · rintro ⟨he, rfl, hlive⟩
    refine ⟨⟨he, (mem_placementsOf_iff h.mirrored).mpr ⟨e, h.get?_placement_iff.mpr he, rfl⟩,
      hlive.1, fun p hp _ => ?_⟩, (h.isLive_iff he).mpr hlive⟩
    -- an entry that has never been moved has one placement, which has its address
    obtain ⟨f, hf, hid⟩ := (mem_placementsOf_iff h.mirrored).mp hp
    obtain ⟨hw, rfl, -⟩ := (h.entries p f).mp hf
    rw [placement_of_mem_written hw, placement_of_mem_written he]
    exact .inl hid

theorem mem_touchingEntries_iff (h : Recounts changes ix) {vertex : Muid} {side : PairSide} :
    e ∈ ix.touchingEntries vertex side t ↔ e ∈ written changes ∧ memberAt side e = some vertex
      ∧ e.deletion = false ∧ e.placedAt ≤ t ∧ ¬ Superseded changes t e := by
  rw [Index.mem_touchingEntries_iff h.mirrored, h.get?_placement_iff, isVisible, Bool.and_eq_true,
    Bool.not_eq_true']
  constructor
  · rintro ⟨he, hmember, hdeletion, hlive⟩
    exact ⟨he, hmember, hdeletion, (h.isLive_iff he).mp hlive⟩
  · rintro ⟨he, hmember, hdeletion, hlive⟩
    exact ⟨he, hmember, hdeletion, (h.isLive_iff he).mpr hlive⟩

end Recounts

/-! ## Two orders of arrival -/

/-- Whether two indexes answer all questions about entries and about vertices alike. -/
def AnswerAlike (ix ix' : Index) (asOf : AsOf) : Prop :=
  (∀ entryId, ix.entryById entryId asOf = ix'.entryById entryId asOf)
    ∧ ∀ vertex side, ix.entriesTouching vertex side asOf = ix'.entriesTouching vertex side asOf

section TwoOrders

variable {changes changes' : List (Muid × Change)} {ix ix' : Index} {asOf : AsOf} {t : Timestamp}

/-- Two indexes with the same writes answer alike exactly if they have removed the same. -/
theorem Recounts.answerAlike_iff (h : Recounts changes ix) (h' : Recounts changes' ix')
    (hsame : ∀ e, e ∈ written changes ↔ e ∈ written changes') (hmoment : Moment asOf t) :
    AnswerAlike ix ix' asOf
      ↔ ∀ e ∈ written changes, Superseded changes t e ↔ Superseded changes' t e := by
  constructor
  · rintro ⟨hentries, -⟩ e he
    have hfound := hentries e.entryId
    rw [entryById_of_moment ix hmoment, entryById_of_moment ix' hmoment] at hfound
    have hfound := Except.ok.inj hfound
    -- an entry that one of them has removed is not found there, so not in the other either
    constructor
    · intro hs
      refine Classical.byContradiction fun hs' => ?_
      have he' := h'.newestUpTo?_iff.mpr ⟨(hsame e).mp he, rfl, hs.overwritten.placedAt_le, hs'⟩
      exact (h.newestUpTo?_iff.mp (hfound.trans he')).2.2.2 hs
    · intro hs'
      refine Classical.byContradiction fun hs => ?_
      have he := h.newestUpTo?_iff.mpr ⟨he, rfl, hs'.overwritten.placedAt_le, hs⟩
      exact (h'.newestUpTo?_iff.mp (hfound.symm.trans he)).2.2.2 hs'
  · intro hremoved
    have hwritten (e : Entry) : e ∈ written changes ∧ ¬ Superseded changes t e
        ↔ e ∈ written changes' ∧ ¬ Superseded changes' t e := by
      constructor
      · exact fun he => ⟨(hsame e).mp he.1, fun hs => he.2 ((hremoved e he.1).mpr hs)⟩
      · rintro ⟨he, hs⟩
        exact ⟨(hsame e).mpr he, fun hs' => hs ((hremoved e ((hsame e).mpr he)).mp hs')⟩
    refine ⟨fun entryId => ?_, fun vertex side => ?_⟩
    · rw [entryById_of_moment ix hmoment, entryById_of_moment ix' hmoment]
      congr 1
      ext e
      have he := hwritten e
      rw [h.newestUpTo?_iff, h'.newestUpTo?_iff]
      tauto
    · rw [entriesTouching_of_moment ix hmoment, entriesTouching_of_moment ix' hmoment]
      congr 1
      refine eq_of_mem_iff_of_pairwise (pairwise_touchingEntries h.mirrored vertex side t)
        (pairwise_touchingEntries h'.mirrored vertex side t) (fun e => Muid.lt_irrefl e.placement)
        (fun _ _ => Muid.lt_asymm) fun e => ?_
      have he := hwritten e
      rw [h.mem_touchingEntries_iff, h'.mem_touchingEntries_iff]
      tauto

end TwoOrders

/-- **When replicas with the same bundles answer alike about entries and vertices.** Let
two history-keeping indexes take in the same bundles in two orders, all of distinct times or owners,
with no more changes than there are offsets, that only define containers and write entries. At a
time they answer alike exactly if the same entries have been superseded in both orders. This is so
if the writes at every key arrive from the oldest to the newest in both, and in any order an entry
that nothing has overwritten by then is found in both. -/
theorem answers_agree_iff_superseded {arrivals arrivals' : List Bundle}
    (hperm : arrivals.Perm arrivals')
    (haccepted : ((empty true).offerAll arrivals).2 = arrivals)
    (haccepted' : ((empty true).offerAll arrivals').2 = arrivals')
    (hkeys : arrivals.Pairwise fun a b => a.key ≠ b.key)
    (hsize : ∀ b ∈ arrivals, b.changes.length ≤ 0x100000000)
    (hwrites : ∀ b ∈ arrivals, ∀ c ∈ b.changes, IsWrite c)
    {asOf : AsOf} {t : Timestamp} (hmoment : Moment asOf t) :
    let ix := ((empty true).offerAll arrivals).1
    let ix' := ((empty true).offerAll arrivals').1
    let changes := arrivals.flatMap Bundle.changesWithIds
    let changes' := arrivals'.flatMap Bundle.changesWithIds
    (AnswerAlike ix ix' asOf
        ↔ ∀ e ∈ written changes, Superseded changes t e ↔ Superseded changes' t e)
      ∧ (OldestFirst changes → OldestFirst changes' → AnswerAlike ix ix' asOf)
      ∧ ∀ e ∈ written changes, e.placedAt ≤ t → ¬ Overwritten changes t e →
        ix.entryById e.entryId asOf = .ok (some e)
          ∧ ix'.entryById e.entryId asOf = .ok (some e) := by
  intro ix ix' changes changes'
  have hkeys' : arrivals'.Pairwise fun a b => a.key ≠ b.key :=
    (hperm.pairwise_iff Ne.symm).mp hkeys
  have h : Recounts changes ix := recounts_offerAll haccepted hkeys hsize hwrites
  have h' : Recounts changes' ix' := recounts_offerAll haccepted' hkeys'
    (fun b hb => hsize b (hperm.mem_iff.mpr hb)) fun b hb => hwrites b (hperm.mem_iff.mpr hb)
  have hsame (e : Entry) : e ∈ written changes ↔ e ∈ written changes' :=
    ((hperm.flatMap_right _).filterMap _).mem_iff
  have hoverwritten (e : Entry) : Overwritten changes t e ↔ Overwritten changes' t e := by
    simp only [Overwritten, hsame]
  refine ⟨h.answerAlike_iff h' hsame hmoment, fun hfirst hfirst' => ?_, fun e he hle hnot => ?_⟩
  · refine (h.answerAlike_iff h' hsame hmoment).mpr fun e he => ?_
    rw [superseded_iff_overwritten hfirst he, hoverwritten,
      superseded_iff_overwritten hfirst' ((hsame e).mp he)]
  · rw [entryById_of_moment ix hmoment, entryById_of_moment ix' hmoment]
    refine ⟨congrArg Except.ok (h.newestUpTo?_iff.mpr ⟨he, rfl, hle, fun hs => ?_⟩),
      congrArg Except.ok (h'.newestUpTo?_iff.mpr ⟨(hsame e).mp he, rfl, hle, fun hs => ?_⟩)⟩
    · exact hnot hs.overwritten
    · exact hnot ((hoverwritten e).mpr hs.overwritten)

/-- Two writes to a box stay in order while a write to another box overtakes them. -/
theorem answers_agree_otherBoxFirst :
    let box : Muid := ⟨3, 3, 1⟩
    let other : Muid := ⟨3, 3, 2⟩
    let write (container : Muid) (value : UInt8) : Change :=
      .entry { behavior := .box, container := some container, value := some [value] }
    let first := Bundle.ofValid ⟨10, 1, 10, none, none⟩ [write box 1] rfl (by decide) (by decide)
    let second := Bundle.ofValid ⟨20, 2, 20, none, none⟩ [write box 2] rfl (by decide) (by decide)
    let third := Bundle.ofValid ⟨30, 3, 30, none, none⟩ [write other 3] rfl (by decide) (by decide)
    ((empty true).offerAll [first, second, third]).2 = [first, second, third]
      ∧ ((empty true).offerAll [third, first, second]).2 = [third, first, second]
      ∧ AnswerAlike ((empty true).offerAll [first, second, third]).1
        ((empty true).offerAll [third, first, second]).1 .latest := by
  intro box other write first second third
  have haccepted : ((empty true).offerAll [first, second, third]).2 = [first, second, third] := by
    decide +kernel
  have haccepted' : ((empty true).offerAll [third, first, second]).2 = [third, first, second] := by
    decide +kernel
  have hperm : [first, second, third].Perm [third, first, second] := by decide +kernel
  have hwrites : ∀ b ∈ [first, second, third], ∀ c ∈ b.changes, IsWrite c := by
    simp [IsWrite, first, second, third, write, Bundle.ofValid]
  have hanswers := answers_agree_iff_superseded hperm haccepted haccepted' (by decide +kernel)
    (by decide +kernel) hwrites (.inr ⟨rfl, rfl⟩ : Moment .latest Int64.maxValue)
  refine ⟨haccepted, haccepted', hanswers.2.1 ?_ ?_⟩
  · unfold OldestFirst
    decide +kernel
  · unfold OldestFirst
    decide +kernel

/-- A write that arrives after its successor stays, and is found by its identity. -/
theorem answers_agree_iff_superseded_lateArrival :
    let write (value : UInt8) : Change :=
      .entry { behavior := .box, container := some ⟨3, 3, 1⟩, value := some [value] }
    let early := Bundle.ofValid ⟨10, 1, 10, none, none⟩ [write 1] rfl (by decide) (by decide)
    let late := Bundle.ofValid ⟨20, 2, 20, none, none⟩ [write 2] rfl (by decide) (by decide)
    let inOrder := (empty true).offerAll [early, late]
    let outOfOrder := (empty true).offerAll [late, early]
    inOrder.2 = [early, late] ∧ outOfOrder.2 = [late, early]
      ∧ inOrder.1.entryById ⟨10, 1, 1⟩ .latest
        ≠ outOfOrder.1.entryById ⟨10, 1, 1⟩ .latest := by
  decide +kernel

end GossipStore.Index
