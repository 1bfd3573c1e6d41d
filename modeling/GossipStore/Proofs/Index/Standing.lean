import GossipStore.Proofs.Index.Clearing
import GossipStore.Proofs.Index.ConcurrentMoves

set_option autoImplicit false

/-! # Answers from what stands

Every answer is made of entries that stand at the time of the question (`StandsAt`), but there are
two ways to find them. Lists and keyed containers are made of all that stand, and of those at a key
the newest is shown (`Leads`). The questions about one key and about one entry look at the newest
placement first and show it if it stands (`Tops`), so what stands below a placement that does not is
not found. The two ways agree where no placement that stands is below one that does not
(`TopStands`), and there an index may lose all that does not stand without a change to any answer
(`Thinned.readAlike`).
-/

namespace GossipStore.Index

variable {ix ix' : Index} {t : Timestamp} {asOf : AsOf} {P : Entry → Prop} {e f : Entry}
  {container : Muid} {key : StorageKey}

/-! ## What stands -/

theorem Mirrored.standsAt_iff (h : Mirrored ix) :
    ix.StandsAt t e ↔ ix.entries.get? e.placement = some e ∧ ix.isLive e t = true := by
  constructor
  · rintro ⟨⟨p, he⟩, hlive⟩
    obtain rfl : e.placement = p := h.placed p e he
    exact ⟨he, hlive⟩
  · rintro ⟨he, hlive⟩
    exact ⟨⟨_, he⟩, hlive⟩

theorem isLive_iff : ix.isLive e t = true ↔ e.placedAt ≤ t ∧ ix.isCleared e t = false
    ∧ ix.isRemoved e.placement t = false := by
  simp only [isLive, Bool.and_eq_true, decide_eq_true_eq, Bool.not_eq_true', and_assoc]

theorem StandsAt.placedAt_le (h : ix.StandsAt t e) : e.placedAt ≤ t := (isLive_iff.mp h.2).1

theorem isCleared_congr (h : ix'.clearances = ix.clearances) : ix'.isCleared = ix.isCleared := by
  funext e t
  rw [isCleared, isCleared, clearanceBefore?, clearanceBefore?, h]

/-- What clears an entry clears the older ones of its container. -/
theorem isCleared_of_lt (hcleared : ix.isCleared f t = true)
    (hcontainer : e.container = f.container) (hlt : e.placement < f.placement) :
    ix.isCleared e t = true := by
  obtain ⟨k, x, hx, hk, hle, hlt'⟩ := isCleared_iff_exists.mp hcleared
  exact isCleared_iff_exists.mpr
    ⟨k, x, hx, hk.trans hcontainer.symm, hle, Muid.lt_trans hlt hlt'⟩

/-- Whether an entry is at a key of a container. -/
def AtKey (container : Muid) (key : StorageKey) (e : Entry) : Prop :=
  e.container = container ∧ e.key = key

instance (e : Entry) : Decidable (AtKey container key e) := inferInstanceAs (Decidable (_ ∧ _))

/-- Whether an entry stands and is the newest among those of its kind that are placed. -/
structure Tops (ix : Index) (t : Timestamp) (P : Entry → Prop) (e : Entry) : Prop where
  stands : ix.StandsAt t e
  ofKind : P e
  newest : ∀ f, ix.entries.get? f.placement = some f → P f → f.placedAt ≤ t →
    ¬ e.placement < f.placement

/-- Whether an entry stands and is the newest among those of its kind that stand. -/
structure Leads (ix : Index) (t : Timestamp) (P : Entry → Prop) (e : Entry) : Prop where
  stands : ix.StandsAt t e
  ofKind : P e
  newest : ∀ f, ix.StandsAt t f → P f → ¬ e.placement < f.placement

theorem Tops.leads (h : ix.Tops t P e) (hm : Mirrored ix) : ix.Leads t P e where
  stands := h.stands
  ofKind := h.ofKind
  newest f hf hP := h.newest f (hm.standsAt_iff.mp hf).1 hP hf.placedAt_le

theorem Leads.unique (h : ix.Leads t P e) (h' : ix.Leads t P f) (hm : Mirrored ix) : e = f := by
  have he := (hm.standsAt_iff.mp h.stands).1
  have hf := (hm.standsAt_iff.mp h'.stands).1
  rcases Muid.lt_trichotomy e.placement f.placement with hlt | heq | hgt
  · exact absurd hlt (h.newest f h'.stands h'.ofKind)
  · rw [heq] at he
    exact Option.some.inj (he.symm.trans hf)
  · exact absurd hgt (h'.newest e h.stands h.ofKind)

/-! ## The two ways to find an entry -/

section Answers

theorem filter_isVisible (o : Option Entry) :
    o.filter (ix.isVisible · t) = (o.filter (ix.isLive · t)).filter (!·.deletion) := by
  cases o with
  | none => rfl
  | some e =>
      rw [Option.filter_some, Option.filter_some, isVisible]
      cases hdeletion : e.deletion <;> cases ix.isLive e t <;>
        simp [Option.filter_some, hdeletion]

theorem filter_newestUpTo?_eq_some_iff (hm : Mirrored ix) {placements : List Muid}
    (hsorted : placements.Pairwise (· < ·))
    (hmem : ∀ p, p ∈ placements ↔ ∃ e, ix.entries.get? p = some e ∧ P e) :
    (ix.newestUpTo? placements t).filter (ix.isLive · t) = some e ↔ ix.Tops t P e := by
  rw [Option.filter_eq_some_iff, newestUpTo?_eq_some_iff hm hsorted]
  constructor
  · rintro ⟨⟨he, hplaced, -, hmax⟩, hlive⟩
    obtain ⟨e', he', hP⟩ := (hmem _).mp hplaced
    obtain rfl : e = e' := Option.some.inj (he.symm.trans he')
    refine ⟨⟨⟨_, he⟩, hlive⟩, hP, fun f hf hPf hft hlt => ?_⟩
    rcases hmax f.placement ((hmem _).mpr ⟨f, hf, hPf⟩) hft with heq | hgt
    · exact Muid.lt_irrefl _ (heq ▸ hlt)
    · exact Muid.lt_asymm hlt hgt
  · intro h
    obtain ⟨he, hlive⟩ := hm.standsAt_iff.mp h.stands
    have hplaced := (hmem _).mpr ⟨e, he, h.ofKind⟩
    refine ⟨⟨he, hplaced, h.stands.placedAt_le, fun p hp hpt => ?_⟩, hlive⟩
    obtain ⟨f, hf, hPf⟩ := (hmem p).mp hp
    obtain rfl : f.placement = p := hm.placed p f hf
    rcases Muid.lt_trichotomy f.placement e.placement with hlt | heq | hgt
    · exact .inr hlt
    · exact .inl heq
    · exact absurd hgt (h.newest f hf hPf hpt)

variable (hm : Mirrored ix) (hasOf : ix.resolveAsOf asOf = .ok t)
include hm hasOf

/-- At a key the newest placement is found, if it stands and is no deletion. -/
theorem exists_entryByKey_eq (container : Muid) (key : StorageKey) :
    ∃ found, ix.entryByKey container key asOf = .ok found
      ∧ ∀ e, found = some e ↔ ix.Tops t (AtKey container key) e ∧ e.deletion = false := by
  refine ⟨(ix.newestUpTo? (ix.placementsAtKey container key) t).filter (ix.isVisible · t),
    by rw [entryByKey, hasOf]; rfl, fun e => ?_⟩
  rw [filter_isVisible, Option.filter_eq_some_iff, Bool.not_eq_true',
    filter_newestUpTo?_eq_some_iff hm (pairwise_placementsAtKey ix container key)
      fun p => mem_placementsAtKey_iff hm]
  rfl

/-- Of an entry the newest placement is found, if it stands. -/
theorem exists_entryById_eq (entryId : Muid) :
    ∃ found, ix.entryById entryId asOf = .ok found
      ∧ ∀ e, found = some e ↔ ix.Tops t (·.entryId = entryId) e :=
  ⟨(ix.newestUpTo? (ix.placementsOf entryId) t).filter (ix.isLive · t),
    by rw [entryById, hasOf]; rfl, fun _ =>
    filter_newestUpTo?_eq_some_iff hm (pairwise_placementsOf ix entryId)
      fun _ => mem_placementsOf_iff hm⟩

/-- A keyed container shows at a key the newest placement that stands, unless it is a deletion. -/
theorem exists_keyedEntries_eq (container : Muid) :
    ∃ entries, ix.keyedEntries container asOf = .ok entries
      ∧ ∀ key e, entries.get? key = some e ↔ key.isPositional = false
        ∧ ix.Leads t (AtKey container key) e ∧ e.deletion = false := by
  refine ⟨(ix.rowsOf container fun k => !k.isPositional).foldl (ix.keyedStep t) .empty,
    by rw [keyedEntries, hasOf]; rfl, fun key e => ?_⟩
  rw [get?_foldl_keyedStep, SortedMap.get?_empty]
  by_cases hkey : key.isPositional = true
  · rw [liveAtKey, filter_rowsOf_positional hkey]
    simp [entriesOf, hkey]
  have hkey : key.isPositional = false := eq_false_of_ne_true hkey
  have hmem {f : Entry} : f ∈ ix.liveAtKey t key (ix.rowsOf container fun k => !k.isPositional)
      ↔ ix.StandsAt t f ∧ AtKey container key f := by
    rw [liveAtKey, filter_rowsOf hkey, List.mem_filter, mem_entriesOf_rowsOf hm, hm.standsAt_iff,
      decide_eq_true_eq, AtKey]
    exact ⟨fun h => ⟨⟨h.1.1, h.2⟩, h.1.2⟩, fun h => ⟨⟨h.1.1, h.2⟩, h.1.2⟩⟩
  -- the last live entry is the one that leads
  have hlast {f : Entry} :
      (ix.liveAtKey t key (ix.rowsOf container fun k => !k.isPositional)).getLast? = some f
        ↔ ix.Leads t (AtKey container key) f := by
    rw [getLast?_eq_some_iff_of_pairwise (pairwise_liveAtKey hm hkey)
      (fun e => Muid.lt_irrefl e.placement) fun _ _ => Muid.lt_asymm]
    constructor
    · rintro ⟨hf, hmax⟩
      refine ⟨(hmem.mp hf).1, (hmem.mp hf).2, fun g hg hgk hlt => ?_⟩
      rcases hmax g (hmem.mpr ⟨hg, hgk⟩) with rfl | hgt
      · exact Muid.lt_irrefl _ hlt
      · exact Muid.lt_asymm hlt hgt
    · intro h
      refine ⟨hmem.mpr ⟨h.stands, h.ofKind⟩, fun g hg => ?_⟩
      obtain ⟨hgs, hgk⟩ := hmem.mp hg
      rcases Muid.lt_trichotomy g.placement f.placement with hlt | heq | hgt
      · exact .inr hlt
      · refine .inl ?_
        have hf := (hm.standsAt_iff.mp h.stands).1
        rw [← heq, (hm.standsAt_iff.mp hgs).1] at hf
        exact Option.some.inj hf
      · exact absurd hgt (h.newest g hgs hgk)
  simp only [hkey, true_and, ← hlast]
  cases (ix.liveAtKey t key (ix.rowsOf container fun k => !k.isPositional)).getLast? with
  | none => simp
  | some f =>
      simp only [Option.map_some, Option.getD_some, leaves, Option.some.injEq]
      cases hdeletion : f.deletion with
      | true =>
          simp only [if_true, reduceCtorEq, false_iff, not_and]
          rintro rfl
          simp [hdeletion]
      | false =>
          simp only [Bool.false_eq_true, if_false, Option.some.injEq, iff_self_and]
          rintro rfl
          exact hdeletion

end Answers

/-! ## Two indexes -/

section Pairs

variable (hm : Mirrored ix) (hm' : Mirrored ix') (hmoment : Moment asOf t)
include hm hm' hmoment

theorem entryByKey_eq_iff : ix.entryByKey container key asOf = ix'.entryByKey container key asOf
    ↔ ∀ e, e.deletion = false →
      (ix.Tops t (AtKey container key) e ↔ ix'.Tops t (AtKey container key) e) := by
  obtain ⟨found, hfound, hiff⟩ :=
    exists_entryByKey_eq hm (ix.resolveAsOf_of_moment hmoment) container key
  obtain ⟨found', hfound', hiff'⟩ :=
    exists_entryByKey_eq hm' (ix'.resolveAsOf_of_moment hmoment) container key
  rw [hfound, hfound', Except.ok.injEq, Option.ext_iff]
  refine forall_congr' fun e => ?_
  rw [hiff, hiff']
  exact ⟨fun h hdeletion => ⟨fun he => (h.mp ⟨he, hdeletion⟩).1,
    fun he => (h.mpr ⟨he, hdeletion⟩).1⟩, and_congr_left⟩

theorem entryById_eq_iff {entryId : Muid} : ix.entryById entryId asOf = ix'.entryById entryId asOf
    ↔ ∀ e, ix.Tops t (·.entryId = entryId) e ↔ ix'.Tops t (·.entryId = entryId) e := by
  obtain ⟨found, hfound, hiff⟩ :=
    exists_entryById_eq hm (ix.resolveAsOf_of_moment hmoment) entryId
  obtain ⟨found', hfound', hiff'⟩ :=
    exists_entryById_eq hm' (ix'.resolveAsOf_of_moment hmoment) entryId
  rw [hfound, hfound', Except.ok.injEq, Option.ext_iff]
  exact forall_congr' fun e => by rw [hiff, hiff']

variable (hstanding : ∀ e, e.container = container → (ix.StandsAt t e ↔ ix'.StandsAt t e))

include hstanding in
theorem keyedEntries_congr : ix.keyedEntries container asOf = ix'.keyedEntries container asOf := by
  obtain ⟨entries, hentries, hiff⟩ :=
    exists_keyedEntries_eq hm (ix.resolveAsOf_of_moment hmoment) container
  obtain ⟨entries', hentries', hiff'⟩ :=
    exists_keyedEntries_eq hm' (ix'.resolveAsOf_of_moment hmoment) container
  have hleads (key : StorageKey) (e : Entry) :
      ix.Leads t (AtKey container key) e ↔ ix'.Leads t (AtKey container key) e :=
    ⟨fun h => ⟨(hstanding e h.ofKind.1).mp h.stands, h.ofKind,
        fun f hf hP => h.newest f ((hstanding f hP.1).mpr hf) hP⟩,
      fun h => ⟨(hstanding e h.ofKind.1).mpr h.stands, h.ofKind,
        fun f hf hP => h.newest f ((hstanding f hP.1).mp hf) hP⟩⟩
  rw [hentries, hentries']
  refine congrArg Except.ok (SortedMap.ext_get? fun key => Option.ext fun e => ?_)
  rw [hiff, hiff', hleads]

include hstanding in
theorem orderedEntries_congr (limit : Option Int64) :
    ix.orderedEntries container limit asOf = ix'.orderedEntries container limit asOf := by
  have heq : ix.positionalEntries container t = ix'.positionalEntries container t := by
    refine eq_of_mem_iff_of_pairwise (pairwise_positionalEntries hm container t)
      (pairwise_positionalEntries hm' container t) not_standsBefore_self
      (fun _ _ => standsBefore_asymm) fun e => ?_
    rw [mem_positionalEntries_iff_get? hm, mem_positionalEntries_iff_get? hm', isVisible,
      isVisible, Bool.and_eq_true, Bool.and_eq_true]
    refine and_congr_right fun hcontainer => and_congr_right fun _ => ?_
    have he := hstanding e hcontainer
    rw [hm.standsAt_iff, hm'.standsAt_iff] at he
    tauto
  rw [orderedEntries, orderedEntries, ix.resolveAsOf_of_moment hmoment,
    ix'.resolveAsOf_of_moment hmoment]
  exact congrArg (fun l => Except.ok (limited limit l)) heq

omit hmoment in
theorem filter_touchingEntries_congr (test : Entry → Bool)
    (hstanding : ∀ e, test e = true → (ix.StandsAt t e ↔ ix'.StandsAt t e)) (vertex : Muid)
    (side : PairSide) :
    (ix.touchingEntries vertex side t).filter test
      = (ix'.touchingEntries vertex side t).filter test := by
  refine eq_of_mem_iff_of_pairwise ((pairwise_touchingEntries hm vertex side t).filter test)
    ((pairwise_touchingEntries hm' vertex side t).filter test)
    (fun e => Muid.lt_irrefl e.placement) (fun _ _ => Muid.lt_asymm) fun e => ?_
  rw [List.mem_filter, List.mem_filter, mem_touchingEntries_iff hm, mem_touchingEntries_iff hm',
    isVisible, isVisible, Bool.and_eq_true, Bool.and_eq_true]
  refine and_congr_left fun htest => ?_
  have he := hstanding e htest
  rw [hm.standsAt_iff, hm'.standsAt_iff] at he
  tauto

end Pairs

/-- Two indexes answer all questions about a moment alike, but for those about positions. -/
structure ReadAlike (asOf : AsOf) (ix ix' : Index) : Prop where
  byKey : ∀ container (key : StorageKey), key.isPositional = false →
    ix.entryByKey container key asOf = ix'.entryByKey container key asOf
  byId : ∀ entryId, ix.entryById entryId asOf = ix'.entryById entryId asOf
  keyed : ∀ container, ix.keyedEntries container asOf = ix'.keyedEntries container asOf
  ordered : ∀ container limit, ix.orderedEntries container limit asOf
    = ix'.orderedEntries container limit asOf
  touching : ∀ vertex side, ix.entriesTouching vertex side asOf
    = ix'.entriesTouching vertex side asOf

/-! ## Dropping what does not stand -/

/-- Whether an index is what is left of another one of which nothing is dropped that stands. -/
structure Thinned (t : Timestamp) (ix ix' : Index) : Prop where
  stored : ∀ p e, ix'.entries.get? p = some e → ix.entries.get? p = some e
  standing : ∀ e, ix'.StandsAt t e ↔ ix.StandsAt t e

/-- Whether nothing of a kind stands below a newer placement that does not. -/
def TopStands (ix : Index) (t : Timestamp) (P : Entry → Prop) : Prop :=
  ∀ e, ix.StandsAt t e → P e → ∃ n, ix.Tops t P n

/-- Among the placements of a kind up to a time one is the newest. -/
theorem exists_newest (hm : Mirrored ix) (he : ix.entries.get? e.placement = some e) (hP : P e)
    (hle : e.placedAt ≤ t) :
    ∃ n, ix.entries.get? n.placement = some n ∧ P n ∧ n.placedAt ≤ t
      ∧ (n = e ∨ e.placement < n.placement)
      ∧ ∀ f, ix.entries.get? f.placement = some f → P f → f.placedAt ≤ t →
        ¬ n.placement < f.placement := by
  classical
  let placed := ix.entries.values.filter fun f => P f ∧ f.placedAt ≤ t
  have hplaced {f : Entry} : f ∈ placed
      ↔ ix.entries.get? f.placement = some f ∧ P f ∧ f.placedAt ≤ t := by
    rw [List.mem_filter, decide_eq_true_eq, SortedMap.mem_values_iff]
    refine and_congr_left fun _ => ⟨?_, fun hf => ⟨_, hf⟩⟩
    rintro ⟨p, hf⟩
    rw [hm.placed p f hf, hf]
  obtain ⟨n, hn, hmax⟩ := exists_greatest Entry.placement (hplaced.mpr ⟨he, hP, hle⟩)
  obtain ⟨hstored, hPn, hnle⟩ := hplaced.mp hn
  refine ⟨n, hstored, hPn, hnle, ?_, fun f hf hPf hft hlt => ?_⟩
  · rcases hmax e (hplaced.mpr ⟨he, hP, hle⟩) with heq | hlt
    · rw [heq, hstored] at he
      exact .inl (Option.some.inj he)
    · exact .inr hlt
  · rcases hmax f (hplaced.mpr ⟨hf, hPf, hft⟩) with heq | hgt
    · exact Muid.lt_irrefl _ (heq ▸ hlt)
    · exact Muid.lt_asymm hlt hgt

/-- Within a container it is enough that older placements have been removed where the newest one
has. -/
theorem topStands_of_removed (hm : Mirrored ix)
    (hcontainer : ∀ e f, ix.entries.get? e.placement = some e →
      ix.entries.get? f.placement = some f → P e → P f → e.container = f.container)
    (hremoved : ∀ e n, ix.entries.get? e.placement = some e →
      ix.entries.get? n.placement = some n → P e → P n → e.placement < n.placement →
      n.placedAt ≤ t →
      (∀ f, ix.entries.get? f.placement = some f → P f → f.placedAt ≤ t →
        ¬ n.placement < f.placement) →
      ix.isRemoved n.placement t = true → ix.isRemoved e.placement t = true) :
    ix.TopStands t P := by
  intro e hstands hP
  obtain ⟨he, hlive⟩ := hm.standsAt_iff.mp hstands
  obtain ⟨hle, hcleared, hkept⟩ := isLive_iff.mp hlive
  obtain ⟨n, hn, hPn, hnle, rfl | hlt, hmax⟩ := exists_newest hm he hP hle
  · exact ⟨n, hstands, hP, hmax⟩
  refine ⟨n, hm.standsAt_iff.mpr ⟨hn, isLive_iff.mpr ⟨hnle, ?_, ?_⟩⟩, hPn, hmax⟩
  · rw [← Bool.not_eq_true]
    intro hn'
    rw [isCleared_of_lt hn' (hcontainer e n he hn hP hPn) hlt] at hcleared
    cases hcleared
  · rw [← Bool.not_eq_true]
    intro hn'
    rw [hremoved e n he hn hP hPn hlt hnle hmax hn'] at hkept
    cases hkept

/-- Where the newest placement stands, both ways to find an entry agree. -/
theorem TopStands.tops_iff (h : ix.TopStands t P) (hm : Mirrored ix) :
    ix.Tops t P e ↔ ix.Leads t P e := by
  refine ⟨fun he => he.leads hm, fun he => ?_⟩
  obtain ⟨n, hn⟩ := h e he.stands he.ofKind
  obtain rfl := (hn.leads hm).unique he hm
  exact hn

namespace Thinned

variable (h : Thinned t ix ix') (hm : Mirrored ix) (hm' : Mirrored ix')
include h

theorem leads_iff : ix'.Leads t P e ↔ ix.Leads t P e := by
  constructor
  · exact fun he => ⟨(h.standing e).mp he.stands, he.ofKind,
      fun f hf => he.newest f ((h.standing f).mpr hf)⟩
  · exact fun he => ⟨(h.standing e).mpr he.stands, he.ofKind,
      fun f hf => he.newest f ((h.standing f).mp hf)⟩

/-- What is the newest stays the newest. -/
theorem tops (he : ix.Tops t P e) : ix'.Tops t P e where
  stands := (h.standing e).mpr he.stands
  ofKind := he.ofKind
  newest f hf := he.newest f (h.stored _ f hf)

include hm hm'

theorem topStands (htop : ix.TopStands t P) : ix'.Tops t P e ↔ ix.Tops t P e :=
  ⟨fun he => (htop.tops_iff hm).mpr (h.leads_iff.mp (he.leads hm')), h.tops⟩

/-- The answers made of all that stands do not change. -/
theorem lists (hmoment : Moment asOf t) :
    (∀ container, ix.keyedEntries container asOf = ix'.keyedEntries container asOf)
      ∧ (∀ container limit, ix.orderedEntries container limit asOf
        = ix'.orderedEntries container limit asOf)
      ∧ ∀ vertex side, ix.entriesTouching vertex side asOf
        = ix'.entriesTouching vertex side asOf := by
  have hstanding (e : Entry) : ix.StandsAt t e ↔ ix'.StandsAt t e := (h.standing e).symm
  refine ⟨fun container => keyedEntries_congr hm hm' hmoment fun e _ => hstanding e,
    fun container limit => orderedEntries_congr hm hm' hmoment (fun e _ => hstanding e) limit,
    fun vertex side => ?_⟩
  have htouching := filter_touchingEntries_congr hm hm' (fun _ => true) (fun e _ => hstanding e)
    vertex side
  rw [List.filter_true, List.filter_true] at htouching
  rw [entriesTouching_of_moment ix hmoment, entriesTouching_of_moment ix' hmoment, htouching]

/-- **Dropping what does not stand changes no answer** where the newest placements at the keys and
of the entries stand if any do. -/
theorem readAlike (hmoment : Moment asOf t)
    (hkeys : ∀ container (key : StorageKey), key.isPositional = false →
      ix.TopStands t (AtKey container key))
    (hentries : ∀ entryId, ix.TopStands t (·.entryId = entryId)) : ReadAlike asOf ix ix' := by
  obtain ⟨hkeyed, hordered, htouching⟩ := h.lists hm hm' hmoment
  exact {
    byKey := fun container key hkey => (entryByKey_eq_iff hm hm' hmoment).mpr fun e _ =>
      (h.topStands hm hm' (hkeys container key hkey)).symm
    byId := fun entryId => (entryById_eq_iff hm hm' hmoment).mpr fun e =>
      (h.topStands hm hm' (hentries entryId)).symm
    keyed := hkeyed
    ordered := hordered
    touching := htouching }

end Thinned

end GossipStore.Index
