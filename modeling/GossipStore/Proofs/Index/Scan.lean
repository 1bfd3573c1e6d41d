import GossipStore.Index.Query
import GossipStore.Proofs.Index.Rows
import GossipStore.Proofs.Order

set_option autoImplicit false

/-! # Rows in order

The rows about one key stand from the oldest placement to the newest, so a question about the
newest asks for the last of them (`newestUpTo?_eq_some_iff`), and reading the rows of a
keyed container one after the other leaves the last live entry of every key
(`get?_foldl_keyedStep`). The positional rows stand by position and then by age.
-/

namespace GossipStore.Index

/-! ## The order of rows -/

/-- Of two positions the smaller comes first. -/
theorem compare_position_iff {p q : Timestamp} :
    compare (StorageKey.position p) (StorageKey.position q) = .lt ↔ p < q := by
  rw [Parted.compare_eq_lt_iff StorageKey]
  simp [Parted.parts, compare_pair_eq_lt_iff, StorageKey.rank, StorageKey.scalarPart,
    StorageKey.positionPart, StorageKey.firstPart, StorageKey.secondPart, Std.compare_eq_lt]

theorem compare_self_ne_lt {α : Type} [Ord α] [Std.TransOrd α] (a : α) : compare a a ≠ .lt := by
  simp

variable {ix : Index}

theorem pairwise_placementsAtKey (ix : Index) (container : Muid) (key : StorageKey) :
    (ix.placementsAtKey container key).Pairwise (· < ·) := by
  refine List.pairwise_map.mpr (List.Pairwise.imp_of_mem ?_
    ((SortedMap.pairwise_keys ix.byKey).filter _))
  intro r s hr hs hlt
  have hr := (List.mem_filter.mp hr).2
  have hs := (List.mem_filter.mp hs).2
  simp only [Bool.and_eq_true, decide_eq_true_eq] at hr hs
  -- rows of one container and key can only differ in their placements
  have hrest := Parted.compare_rest_eq_lt KeyRow hlt (hr.1.trans hs.1.symm)
  exact compare_snd_eq_lt hrest (hr.2.trans hs.2.symm)

/-- The newest of some ascending placements up to a time. -/
theorem newestUpTo?_eq_some_iff (hm : Mirrored ix) {placements : List Muid}
    (hl : placements.Pairwise (· < ·)) {t : Timestamp} {e : Entry} :
    ix.newestUpTo? placements t = some e ↔ ix.entries.get? e.placement = some e
      ∧ e.placement ∈ placements ∧ e.placedAt ≤ t
      ∧ ∀ p ∈ placements, p.timestamp ≤ t → p = e.placement ∨ p < e.placement := by
  have hlast {p : Muid} := getLast?_eq_some_iff_of_pairwise (a := p)
    (hl.filter fun p : Muid => decide (p.timestamp ≤ t)) Muid.lt_irrefl
    fun _ _ => Muid.lt_asymm
  simp only [List.mem_filter, decide_eq_true_eq, and_imp] at hlast
  rw [newestUpTo?, Option.bind_eq_some_iff]
  constructor
  · rintro ⟨p, hp, he⟩
    have hplaced : e.placement = p := hm.placed p e he
    subst hplaced
    obtain ⟨⟨hmem, hle⟩, hmax⟩ := hlast.mp hp
    exact ⟨he, hmem, hle, hmax⟩
  · rintro ⟨he, hmem, hle, hmax⟩
    exact ⟨e.placement, hlast.mpr ⟨⟨hmem, hle⟩, hmax⟩, he⟩

/-! ## Clearances -/

/-- An entry is cleared at a time if any clearance of its container up to that time is above it. -/
theorem isCleared_iff_exists {e : Entry} {t : Timestamp} : ix.isCleared e t = true
    ↔ ∃ k x, ix.clearances.get? k = some x ∧ k.container = e.container
      ∧ k.clearanceId.timestamp ≤ t ∧ e.placement < k.clearanceId := by
  -- the clearances of one container ascend, so the index looks at the latest of them
  have hsorted : (ix.clearances.keys.filter fun k => k.container = e.container
      && k.clearanceId.timestamp ≤ t).Pairwise fun a b => a.clearanceId < b.clearanceId := by
    refine List.Pairwise.imp_of_mem ?_ ((SortedMap.pairwise_keys ix.clearances).filter _)
    intro a b ha hb hlt
    have ha := (List.mem_filter.mp ha).2
    have hb := (List.mem_filter.mp hb).2
    simp only [Bool.and_eq_true, decide_eq_true_eq] at ha hb
    exact Parted.compare_rest_eq_lt ClearanceKey hlt (ha.1.trans hb.1.symm)
  have hlast {k : ClearanceKey} := getLast?_eq_some_iff_of_pairwise (a := k) hsorted
    (fun k => Muid.lt_irrefl k.clearanceId) fun _ _ => Muid.lt_asymm
  rw [isCleared, clearanceBefore?, Option.any_map, Option.any_eq_true]
  constructor
  · rintro ⟨k, hk, hlt⟩
    obtain ⟨hmem, hk⟩ := List.mem_filter.mp (hlast.mp hk).1
    simp only [Bool.and_eq_true, decide_eq_true_eq] at hk
    obtain ⟨x, hx⟩ := SortedMap.mem_keys_iff.mp hmem
    exact ⟨k, x, hx, hk.1, hk.2, of_decide_eq_true hlt⟩
  · rintro ⟨k, x, hx, hcontainer, hle, hlt⟩
    have hmem : k ∈ ix.clearances.keys.filter fun k =>
        k.container = e.container && k.clearanceId.timestamp ≤ t :=
      List.mem_filter.mpr ⟨SortedMap.mem_keys_iff.mpr ⟨x, hx⟩, by simp [hcontainer, hle]⟩
    cases hl : (ix.clearances.keys.filter fun k => k.container = e.container
        && k.clearanceId.timestamp ≤ t).getLast? with
    | none =>
        rw [List.getLast?_eq_none_iff.mp hl] at hmem
        cases hmem
    | some n =>
        refine ⟨n, rfl, decide_eq_true ?_⟩
        rcases (hlast.mp hl).2 k hmem with rfl | hkn
        · exact hlt
        · exact Muid.lt_trans hlt hkn

/-! ## Entries of rows -/

/-- The entries that rows lead to, in the order of the rows. -/
def entriesOf (ix : Index) (rows : List KeyRow) : List Entry :=
  rows.filterMap fun r => ix.entries.get? r.placement

/-- The rows of a container whose keys pass a test. -/
def rowsOf (ix : Index) (container : Muid) (p : StorageKey → Bool) : List KeyRow :=
  ix.byKey.members.filter fun r => r.container = container && p r.key

theorem mem_entriesOf_rowsOf (hm : Mirrored ix) {container : Muid} {p : StorageKey → Bool}
    {e : Entry} : e ∈ ix.entriesOf (ix.rowsOf container p) ↔
      ix.entries.get? e.placement = some e ∧ e.container = container ∧ p e.key = true := by
  simp only [entriesOf, rowsOf, List.mem_filterMap, List.mem_filter, Bool.and_eq_true,
    decide_eq_true_eq]
  constructor
  · rintro ⟨⟨c, key, q⟩, ⟨hrow, hc, hp⟩, he⟩
    obtain ⟨f, hf, hfc, hfk⟩ := hm.mem_byKey_iff.mp hrow
    have hsame : f = e := Option.some.inj (hf.symm.trans he)
    have hplaced : e.placement = q := hm.placed q e he
    subst hsame hplaced hfc hfk
    exact ⟨he, hc, hp⟩
  · rintro ⟨he, hc, hp⟩
    exact ⟨⟨container, e.key, e.placement⟩, ⟨hm.mem_byKey_iff.mpr ⟨e, he, hc, rfl⟩, rfl, hp⟩, he⟩

/-- The entries of a container stand by key, and by age within a key. -/
theorem pairwise_entriesOf_rowsOf (hm : Mirrored ix) (container : Muid) (p : StorageKey → Bool) :
    (ix.entriesOf (ix.rowsOf container p)).Pairwise fun e f =>
      compare e.key f.key = .lt ∨ e.key = f.key ∧ e.placement < f.placement := by
  refine List.pairwise_filterMap.mpr (List.Pairwise.imp_of_mem ?_
    ((SortedMap.pairwise_keys ix.byKey).filter _))
  intro r s hr hs hlt e he f hf
  obtain ⟨hrow, hr⟩ := List.mem_filter.mp hr
  obtain ⟨hrow', hs⟩ := List.mem_filter.mp hs
  simp only [Bool.and_eq_true, decide_eq_true_eq] at hr hs
  obtain ⟨e', he', -, hek⟩ := hm.mem_byKey_iff.mp hrow
  obtain ⟨f', hf', -, hfk⟩ := hm.mem_byKey_iff.mp hrow'
  cases Option.some.inj (he'.symm.trans he)
  cases Option.some.inj (hf'.symm.trans hf)
  rw [hek, hfk, hm.placed _ e he, hm.placed _ f hf]
  exact compare_pair_eq_lt_iff.mp
    (Parted.compare_rest_eq_lt KeyRow hlt (hr.1.trans hs.1.symm))

/-! ## Keyed containers -/

/-- The live entries that rows of a key lead to. -/
def liveAtKey (ix : Index) (t : Timestamp) (key : StorageKey) (rows : List KeyRow) : List Entry :=
  (ix.entriesOf (rows.filter (·.key = key))).filter (ix.isLive · t)

/-- What an entry that decides about a key leaves there. -/
def leaves (e : Entry) : Option Entry := if e.deletion then none else some e

/-- The live entry that a row leads to. -/
def liveAt? (ix : Index) (t : Timestamp) (r : KeyRow) : Option Entry :=
  (ix.entries.get? r.placement).filter (ix.isLive · t)

theorem keyedStep_of_none {t : Timestamp} {r : KeyRow} (h : ix.liveAt? t r = none)
    (acc : SortedMap StorageKey Entry) : ix.keyedStep t acc r = acc := by
  unfold keyedStep
  cases he : ix.entries.get? r.placement with
  | none => rfl
  | some e =>
      rw [liveAt?, he, Option.filter_some] at h
      split at h
      · cases h
      · rename_i hlive
        simp [eq_false_of_ne_true hlive]

theorem keyedStep_of_some {t : Timestamp} {r : KeyRow} {e : Entry} (h : ix.liveAt? t r = some e)
    (acc : SortedMap StorageKey Entry) :
    ix.keyedStep t acc r = if e.deletion then acc.erase r.key else acc.insert r.key e := by
  obtain ⟨he, hlive⟩ := Option.filter_eq_some_iff.mp h
  simp [keyedStep, he, hlive]

theorem liveAtKey_singleton (ix : Index) (t : Timestamp) (key : StorageKey) (r : KeyRow) :
    ix.liveAtKey t key [r] = if r.key = key then (ix.liveAt? t r).toList else [] := by
  by_cases hk : r.key = key
  · cases he : ix.entries.get? r.placement with
    | none => simp [liveAtKey, entriesOf, liveAt?, hk, he]
    | some e =>
        by_cases hlive : ix.isLive e t = true <;>
          simp [liveAtKey, entriesOf, liveAt?, hk, he, Option.filter_some, hlive]
  · simp [liveAtKey, entriesOf, hk]

theorem get?_keyedStep (ix : Index) (t : Timestamp) (acc : SortedMap StorageKey Entry)
    (r : KeyRow) (key : StorageKey) : (ix.keyedStep t acc r).get? key
      = ((ix.liveAtKey t key [r]).getLast?.map leaves).getD (acc.get? key) := by
  rw [liveAtKey_singleton]
  cases hr : ix.liveAt? t r with
  | none =>
      rw [keyedStep_of_none hr]
      split <;> rfl
  | some e =>
      rw [keyedStep_of_some hr]
      -- the row decides about its own key and about no other
      by_cases hk : r.key = key
      · subst hk
        cases hdeletion : e.deletion <;> simp [leaves, hdeletion]
      · have hne : key ≠ r.key := Ne.symm hk
        rw [if_neg hk]
        cases e.deletion with
        | false => exact SortedMap.get?_insert_of_ne acc hne e
        | true => exact SortedMap.get?_erase_of_ne acc hne

/-- Reading rows leaves at every key what the last live entry there says. -/
theorem get?_foldl_keyedStep (ix : Index) (t : Timestamp) (key : StorageKey) (rows : List KeyRow)
    (acc : SortedMap StorageKey Entry) : (rows.foldl (ix.keyedStep t) acc).get? key
      = ((ix.liveAtKey t key rows).getLast?.map leaves).getD (acc.get? key) := by
  induction rows generalizing acc with
  | nil => rfl
  | cons r rest ih =>
      have hcons : ix.liveAtKey t key (r :: rest)
          = ix.liveAtKey t key [r] ++ ix.liveAtKey t key rest := by
        rw [← List.singleton_append]
        simp only [liveAtKey, entriesOf, List.filter_append, List.filterMap_append]
      rw [List.foldl_cons, ih, get?_keyedStep, hcons, List.getLast?_append]
      -- a live entry among the later rows has the last word
      cases (ix.liveAtKey t key rest).getLast? <;> rfl

/-- The rows at one key among those of a keyed container. -/
theorem filter_rowsOf {container : Muid} {key : StorageKey} (hkey : key.isPositional = false) :
    (ix.rowsOf container fun k => !k.isPositional).filter (·.key = key)
      = ix.rowsOf container (· = key) := by
  rw [rowsOf, rowsOf, List.filter_filter]
  refine List.filter_congr fun r _ => ?_
  by_cases hk : r.key = key
  · simp [hk, hkey]
  · simp [hk]

theorem filter_rowsOf_positional {container : Muid} {key : StorageKey}
    (hkey : key.isPositional = true) :
    (ix.rowsOf container fun k => !k.isPositional).filter (·.key = key) = [] := by
  rw [List.filter_eq_nil_iff]
  intro r hr hk
  have hpositional := (List.mem_filter.mp hr).2
  rw [of_decide_eq_true hk] at hpositional
  simp [hkey] at hpositional

theorem pairwise_liveAtKey (hm : Mirrored ix) {container : Muid} {key : StorageKey}
    {t : Timestamp} (hkey : key.isPositional = false) :
    (ix.liveAtKey t key (ix.rowsOf container fun k => !k.isPositional)).Pairwise fun e f =>
      e.placement < f.placement := by
  rw [liveAtKey, filter_rowsOf hkey]
  refine (List.Pairwise.imp_of_mem ?_ (pairwise_entriesOf_rowsOf hm container (· = key))).filter _
  intro e f he hf h
  have hek := of_decide_eq_true ((mem_entriesOf_rowsOf hm).mp he).2.2
  have hfk := of_decide_eq_true ((mem_entriesOf_rowsOf hm).mp hf).2.2
  rcases h with h | ⟨-, h⟩
  · rw [hek, hfk] at h
    exact absurd h (compare_self_ne_lt key)
  · exact h

/-! ## Ordered containers -/

/-- The entries of an ordered container stand by position, and by age within a position. -/
theorem pairwise_positionalEntries (hm : Mirrored ix) (container : Muid) (t : Timestamp) :
    (ix.positionalEntries container t).Pairwise fun e f =>
      e.key.positionPart < f.key.positionPart
        ∨ e.key.positionPart = f.key.positionPart ∧ e.placement < f.placement := by
  -- the order of keys is that of positions once all keys are positions
  have hposition {k : StorageKey} (hk : k.isPositional = true) : k = .position k.positionPart := by
    cases k <;> first | rfl | cases hk
  refine (List.Pairwise.imp_of_mem ?_
    (pairwise_entriesOf_rowsOf hm container StorageKey.isPositional)).filter _
  intro e f he hf h
  have hek := hposition ((mem_entriesOf_rowsOf hm).mp he).2.2
  have hfk := hposition ((mem_entriesOf_rowsOf hm).mp hf).2.2
  rcases h with h | ⟨hkey, h⟩
  · rw [hek, hfk] at h
    exact .inl (compare_position_iff.mp h)
  · exact .inr ⟨congrArg StorageKey.positionPart hkey, h⟩

/-! ## References -/

theorem mem_backRefs_iff_get? (hm : Mirrored ix) {target : Muid} {e : Entry} :
    e ∈ ix.backRefs target
      ↔ ix.entries.get? e.placement = some e ∧ e.pointee = some target := by
  simp only [backRefs, List.mem_filterMap, List.mem_filter, decide_eq_true_eq]
  constructor
  · rintro ⟨⟨subject, p⟩, ⟨hrow, rfl⟩, he⟩
    obtain ⟨f, hf, hpointee⟩ := hm.mem_byPointee_iff.mp hrow
    cases Option.some.inj (hf.symm.trans he)
    have hplaced : e.placement = p := hm.placed p e he
    subst hplaced
    exact ⟨he, hpointee⟩
  · rintro ⟨he, hpointee⟩
    exact ⟨⟨target, e.placement⟩, ⟨hm.mem_byPointee_iff.mpr ⟨e, he, hpointee⟩, rfl⟩, he⟩

/-- The entries that point to an address stand by age. -/
theorem pairwise_backRefs (hm : Mirrored ix) (target : Muid) :
    (ix.backRefs target).Pairwise fun e f => e.placement < f.placement := by
  refine List.pairwise_filterMap.mpr (List.Pairwise.imp_of_mem ?_
    ((SortedMap.pairwise_keys ix.byPointee).filter _))
  intro r s hr hs hlt e he f hf
  have hr := of_decide_eq_true (List.mem_filter.mp hr).2
  have hs := of_decide_eq_true (List.mem_filter.mp hs).2
  rw [hm.placed _ e he, hm.placed _ f hf]
  exact Parted.compare_rest_eq_lt PlacementRow hlt (hr.trans hs.symm)

end GossipStore.Index
