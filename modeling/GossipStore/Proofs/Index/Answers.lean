import Mathlib.Data.List.Nodup
import GossipStore.Proofs.Index.LastWriter
import GossipStore.Proofs.Index.Scan

set_option autoImplicit false

/-! # The last writer wins

An index that reflects some changes answers from the changes alone. The entry at a key is the
newest one written there, unless a clearance or a purge is above it or it is a deletion; older
entries never come back. So what a history-keeping index answers depends on the changes it has
applied and not on their order.
-/

namespace GossipStore.Index

/-! ## The reference for questions -/

/-- Whether an entry is the newest written at a key of a container up to a time. -/
def IsNewest (changes : List (Muid × Change)) (container : Muid) (key : StorageKey)
    (t : Timestamp) (e : Entry) : Prop :=
  e ∈ written changes ∧ e.container = container ∧ e.key = key ∧ e.placedAt ≤ t
    ∧ ∀ f ∈ written changes, f.container = container → f.key = key → f.placedAt ≤ t →
      f = e ∨ f.entryId < e.entryId

/-- Whether no clearance up to a time and no purge is above an entry. -/
def Stands (changes : List (Muid × Change)) (t : Timestamp) (e : Entry) : Prop :=
  ¬ Cleared changes t e ∧ ¬ Purged changes e

section Reflects

variable {changes : List (Muid × Change)} {ix : Index} {t : Timestamp}

theorem placement_of_mem_written {e : Entry} (h : e ∈ written changes) :
    e.placement = e.entryId := by
  obtain ⟨id, c, -, rfl⟩ := mem_written_iff.mp h
  rfl

theorem eq_of_placement_eq (hids : (changes.map Prod.fst).Nodup) {e f : Entry}
    (he : e ∈ written changes) (hf : f ∈ written changes) (h : e.placement = f.placement) :
    e = f := by
  obtain ⟨id, c, hmem, rfl⟩ := mem_written_iff.mp he
  obtain ⟨id', c', hmem', rfl⟩ := mem_written_iff.mp hf
  have hid : id = id' := h
  subst hid
  have hsame := List.inj_on_of_nodup_map hids hmem hmem' rfl
  cases hsame
  rfl

namespace Reflects

theorem get?_placement_iff (h : Reflects changes ix) {e : Entry} :
    ix.entries.get? e.placement = some e ↔ e ∈ written changes ∧ ¬ Purged changes e := by
  rw [h.entries]
  exact ⟨fun h => ⟨h.1, h.2.2⟩, fun h => ⟨h.1, rfl, h.2⟩⟩

/-! ### Visibility -/

/-- The clearances stored decide like the clearances made about an entry that no purge covers. -/
theorem isCleared_iff (h : Reflects changes ix) {e : Entry} (he : ¬ Purged changes e) :
    ix.isCleared e t = true ↔ Cleared changes t e := by
  rw [isCleared_iff_exists]
  constructor
  · rintro ⟨k, x, hx, hcontainer, hle, hlt⟩
    exact ⟨k.clearanceId, hcontainer ▸ (h.cleared k x hx).1, hle, hlt⟩
  · rintro ⟨id, hclear, hle, hlt⟩
    -- The clearance is stored: one that a purge has dropped would not spare the entry.
    rcases h.covered _ _ hclear with ⟨x, hx, -⟩ | ⟨q, x, hx, hpurging, hidq⟩
    · exact ⟨_, x, hx, rfl, hle, hlt⟩
    · exact absurd ⟨q, (h.cleared _ x hx).2 hpurging, Muid.lt_trans hlt hidq⟩ he

/-- What has been removed by a time is at no position, and a later entry at its key had been
written by then. -/
theorem overridden_of_isRemoved (h : Reflects changes ix) (hids : (changes.map Prod.fst).Nodup)
    {e : Entry} (he : e ∈ written changes) (hremoved : ix.isRemoved e.placement t = true) :
    e.key.isPositional = false ∧ ∃ f ∈ written changes, f.container = e.container
      ∧ f.key = e.key ∧ f.placedAt ≤ t ∧ e.placement < f.placement := by
  obtain ⟨k, hk, htest⟩ := List.any_eq_true.mp hremoved
  simp only [Bool.and_eq_true, decide_eq_true_eq] at htest
  obtain ⟨r, hr⟩ := SortedMap.mem_keys_iff.mp hk
  obtain ⟨e', he', f, hf, hplaced, hfid, hcontainer, hkey, hlt, hpositional⟩ := h.removals k r hr
  have hsame : e' = e := eq_of_placement_eq hids he' he (hplaced.trans htest.1)
  subst hsame
  refine ⟨hpositional, f, hf, hcontainer, hkey, ?_, hlt⟩
  rw [Entry.placedAt, hfid]
  exact htest.2

/-- Whether an entry is live is decided by the clearances, unless it has been removed. -/
theorem isLive_iff (h : Reflects changes ix) {e : Entry} (he : ¬ Purged changes e) :
    ix.isLive e t = true ↔ e.placedAt ≤ t ∧ Stands changes t e
      ∧ ix.isRemoved e.placement t = false := by
  have hcleared : ix.isCleared e t = false ↔ ¬ Cleared changes t e := by
    rw [← h.isCleared_iff he]
    exact (Bool.not_eq_true _).symm.to_iff
  simp only [isLive, Bool.and_eq_true, decide_eq_true_eq, Bool.not_eq_true', hcleared, Stands]
  constructor
  · rintro ⟨⟨hle, hc⟩, hr⟩
    exact ⟨hle, ⟨hc, he⟩, hr⟩
  · rintro ⟨hle, ⟨hc, -⟩, hr⟩
    exact ⟨⟨hle, hc⟩, hr⟩

/-- The newest entry at a key has not been removed. -/
theorem isRemoved_of_isNewest (h : Reflects changes ix) (hids : (changes.map Prod.fst).Nodup)
    {container : Muid} {key : StorageKey} {e : Entry} (he : IsNewest changes container key t e) :
    ix.isRemoved e.placement t = false := by
  obtain ⟨hmem, hc, hk, -, hnewest⟩ := he
  rw [← Bool.not_eq_true]
  intro hremoved
  obtain ⟨-, f, hf, hfc, hfk, hft, hlt⟩ := h.overridden_of_isRemoved hids hmem hremoved
  rcases hnewest f hf (hfc.trans hc) (hfk.trans hk) hft with rfl | hlt'
  · exact Muid.lt_irrefl _ hlt
  · rw [placement_of_mem_written hmem, placement_of_mem_written hf] at hlt
    exact Muid.lt_asymm hlt hlt'

/-- An entry that is later at the same key is not hidden where an earlier one is not. -/
theorem stands_of_lt {e f : Entry} (he : Stands changes t e) (hc : f.container = e.container)
    (hlt : e.placement < f.placement) : Stands changes t f := by
  refine ⟨?_, ?_⟩
  · rintro ⟨id, hclear, hle, hid⟩
    rw [hc] at hclear
    exact he.1 ⟨id, hclear, hle, Muid.lt_trans hlt hid⟩
  · rintro ⟨id, hpurge, hid⟩
    rw [hc] at hpurge
    exact he.2 ⟨id, hpurge, Muid.lt_trans hlt hid⟩

/-- An entry written at a key is the newest there or below it. -/
theorem exists_isNewest (hids : (changes.map Prod.fst).Nodup) {e : Entry}
    (he : e ∈ written changes) (ht : e.placedAt ≤ t) :
    ∃ n, IsNewest changes e.container e.key t n ∧ (n = e ∨ e.placement < n.placement) := by
  -- finitely many entries compete, and one of them has the greatest address
  let atKey := (written changes).filter fun f =>
    f.container = e.container ∧ f.key = e.key ∧ f.placedAt ≤ t
  have hatKey {f : Entry} : f ∈ atKey ↔ f ∈ written changes ∧ f.container = e.container
      ∧ f.key = e.key ∧ f.placedAt ≤ t := by
    simp only [atKey, List.mem_filter, decide_eq_true_eq]
  have hself : e ∈ atKey := hatKey.mpr ⟨he, rfl, rfl, ht⟩
  obtain ⟨n, hn, hmax⟩ := exists_greatest Entry.placement hself
  obtain ⟨hmem, hc, hk, hle⟩ := hatKey.mp hn
  refine ⟨n, ⟨hmem, hc, hk, hle, fun f hf hfc hfk hft => ?_⟩, ?_⟩
  · rw [← placement_of_mem_written hmem, ← placement_of_mem_written hf]
    exact (hmax f (hatKey.mpr ⟨hf, hfc, hfk, hft⟩)).imp (eq_of_placement_eq hids hf hmem) id
  · exact (hmax e hself).imp (fun h => eq_of_placement_eq hids hmem he h.symm) id

/-! ### The entry at a key -/

/-- The newest entry at a key is found if it is not hidden and is no deletion. -/
theorem newestUpTo?_iff (h : Reflects changes ix) (hids : (changes.map Prod.fst).Nodup)
    {container : Muid} {key : StorageKey} {e : Entry} :
    (ix.newestUpTo? (ix.placementsAtKey container key) t).filter (ix.isVisible · t) = some e
      ↔ IsNewest changes container key t e ∧ Stands changes t e ∧ e.deletion = false := by
  rw [Option.filter_eq_some_iff, newestUpTo?_eq_some_iff h.mirrored
    (pairwise_placementsAtKey ix container key), h.get?_placement_iff, isVisible, Bool.and_eq_true,
    Bool.not_eq_true']
  constructor
  · rintro ⟨⟨⟨hmem, hkept⟩, hplaced, hle, hmax⟩, hdeletion, hlive⟩
    obtain ⟨-, hstands, -⟩ := (h.isLive_iff hkept).mp hlive
    obtain ⟨e', he', hp, hc, hk, -⟩ := h.mem_placementsAtKey_iff.mp hplaced
    have hsame : e' = e := eq_of_placement_eq hids he' hmem hp
    subst hsame
    refine ⟨⟨hmem, hc, hk, hle, fun f hf hfc hfk hft => ?_⟩, hstands, hdeletion⟩
    rw [← placement_of_mem_written hmem, ← placement_of_mem_written hf]
    rcases Muid.lt_trichotomy f.placement e'.placement with hlt | heq | hgt
    · exact .inr hlt
    · exact .inl (eq_of_placement_eq hids hf hmem heq)
    · -- A later entry would not be purged either, so it would be stored and newer.
      have hfstands := stands_of_lt hstands (hfc.trans hc.symm) hgt
      have hfplaced : f.placement ∈ ix.placementsAtKey container key :=
        h.mem_placementsAtKey_iff.mpr ⟨f, hf, rfl, hfc, hfk, hfstands.2⟩
      exact (hmax _ hfplaced hft).imp (eq_of_placement_eq hids hf hmem) id
  · rintro ⟨hnewest, hstands, hdeletion⟩
    have hkept := hstands.2
    have hlive := (h.isLive_iff hkept).mpr
      ⟨hnewest.2.2.2.1, hstands, h.isRemoved_of_isNewest hids hnewest⟩
    obtain ⟨hmem, hc, hk, hle, hmax⟩ := hnewest
    refine ⟨⟨⟨hmem, hkept⟩, h.mem_placementsAtKey_iff.mpr ⟨e, hmem, rfl, hc, hk, hkept⟩, hle,
      fun p hp hpt => ?_⟩, hdeletion, hlive⟩
    obtain ⟨f, hf, rfl, hfc, hfk, -⟩ := h.mem_placementsAtKey_iff.mp hp
    rw [placement_of_mem_written hmem, placement_of_mem_written hf]
    exact (hmax f hf hfc hfk hpt).imp (congrArg Entry.entryId) id

/-! ### Keyed containers -/

theorem mem_liveAtKey_iff (h : Reflects changes ix) {container : Muid} {key : StorageKey}
    (hkey : key.isPositional = false) {e : Entry} :
    e ∈ ix.liveAtKey t key (ix.rowsOf container fun k => !k.isPositional)
      ↔ e ∈ written changes ∧ e.container = container ∧ e.key = key ∧ e.placedAt ≤ t
        ∧ Stands changes t e ∧ ix.isRemoved e.placement t = false := by
  rw [liveAtKey, filter_rowsOf hkey, List.mem_filter, mem_entriesOf_rowsOf h.mirrored,
    h.get?_placement_iff, decide_eq_true_eq]
  constructor
  · rintro ⟨⟨⟨hmem, hkept⟩, hc, hk⟩, hlive⟩
    exact ⟨hmem, hc, hk, (h.isLive_iff hkept).mp hlive⟩
  · rintro ⟨hmem, hc, hk, hlive⟩
    have hkept := hlive.2.1.2
    exact ⟨⟨⟨hmem, hkept⟩, hc, hk⟩, (h.isLive_iff hkept).mpr hlive⟩

/-- The last live entry at a key is the newest one there. -/
theorem getLast?_liveAtKey_iff (h : Reflects changes ix) (hids : (changes.map Prod.fst).Nodup)
    {container : Muid} {key : StorageKey} (hkey : key.isPositional = false) {e : Entry} :
    (ix.liveAtKey t key (ix.rowsOf container fun k => !k.isPositional)).getLast? = some e
      ↔ IsNewest changes container key t e ∧ Stands changes t e := by
  rw [getLast?_eq_some_iff_of_pairwise (pairwise_liveAtKey h.mirrored hkey)
    (fun e => Muid.lt_irrefl e.placement) fun _ _ => Muid.lt_asymm]
  simp only [h.mem_liveAtKey_iff hkey]
  constructor
  · rintro ⟨⟨hmem, hc, hk, hle, hstands, -⟩, hmax⟩
    obtain ⟨n, hn, hne⟩ := exists_isNewest hids hmem hle
    rw [hc, hk] at hn
    rcases hne with rfl | hlt
    · exact ⟨hn, hstands⟩
    · -- The newest entry would be live and come after the last live one.
      have hnstands := stands_of_lt hstands (hn.2.1.trans hc.symm) hlt
      have hnlive := h.isRemoved_of_isNewest hids hn
      rcases hmax n ⟨hn.1, hn.2.1, hn.2.2.1, hn.2.2.2.1, hnstands, hnlive⟩ with rfl | hlt'
      · exact absurd hlt (Muid.lt_irrefl _)
      · exact absurd hlt' (Muid.lt_asymm hlt)
  · rintro ⟨hnewest, hstands⟩
    have hremoved := h.isRemoved_of_isNewest hids hnewest
    obtain ⟨hmem, hc, hk, hle, hmax⟩ := hnewest
    refine ⟨⟨hmem, hc, hk, hle, hstands, hremoved⟩, ?_⟩
    rintro f ⟨hf, hfc, hfk, hft, -, -⟩
    rw [placement_of_mem_written hmem, placement_of_mem_written hf]
    exact hmax f hf hfc hfk hft

/-- Reading the rows of a keyed container leaves at a key what is found there. -/
theorem get?_foldl_rowsOf (h : Reflects changes ix) (hids : (changes.map Prod.fst).Nodup)
    (container : Muid) (key : StorageKey) :
    ((ix.rowsOf container fun k => !k.isPositional).foldl (ix.keyedStep t) .empty).get? key
      = if key.isPositional then none
        else (ix.newestUpTo? (ix.placementsAtKey container key) t).filter (ix.isVisible · t) := by
  rw [get?_foldl_keyedStep, SortedMap.get?_empty]
  by_cases hkey : key.isPositional = true
  · rw [if_pos hkey, liveAtKey, filter_rowsOf_positional hkey]
    rfl
  · have hkey : key.isPositional = false := eq_false_of_ne_true hkey
    rw [hkey, if_neg Bool.false_ne_true]
    ext e
    rw [h.newestUpTo?_iff hids, ← and_assoc, ← h.getLast?_liveAtKey_iff hids hkey]
    cases (ix.liveAtKey t key (ix.rowsOf container fun k => !k.isPositional)).getLast? with
    | none => simp
    | some f =>
        -- a deletion that has the last word leaves nothing, and is not found either
        cases hdeletion : f.deletion with
        | true =>
            simp only [Option.map_some, Option.getD_some, leaves, hdeletion, if_true]
            constructor
            · intro he
              cases he
            · rintro ⟨he, hkept⟩
              cases he
              rw [hdeletion] at hkept
              cases hkept
        | false =>
            simp only [Option.map_some, Option.getD_some, leaves, hdeletion, Bool.false_eq_true,
              if_false]
            constructor
            · intro he
              cases he
              exact ⟨rfl, hdeletion⟩
            · exact fun he => he.1

/-! ### Ordered containers -/

theorem mem_positionalEntries_iff (h : Reflects changes ix) (hids : (changes.map Prod.fst).Nodup)
    {container : Muid} {e : Entry} : e ∈ ix.positionalEntries container t
      ↔ e ∈ written changes ∧ e.container = container ∧ e.key.isPositional = true
        ∧ e.placedAt ≤ t ∧ Stands changes t e ∧ e.deletion = false := by
  have heq : ix.positionalEntries container t
      = (ix.entriesOf (ix.rowsOf container StorageKey.isPositional)).filter
        (ix.isVisible · t) := rfl
  rw [heq, List.mem_filter, mem_entriesOf_rowsOf h.mirrored, h.get?_placement_iff, isVisible,
    Bool.and_eq_true, Bool.not_eq_true']
  constructor
  · rintro ⟨⟨⟨hmem, hkept⟩, hc, hk⟩, hdeletion, hlive⟩
    obtain ⟨hle, hstands, -⟩ := (h.isLive_iff hkept).mp hlive
    exact ⟨hmem, hc, hk, hle, hstands, hdeletion⟩
  · rintro ⟨hmem, hc, hk, hle, hstands, hdeletion⟩
    -- only what stands at a key that is no position is ever replaced
    have hremoved : ix.isRemoved e.placement t = false := by
      rw [← Bool.not_eq_true]
      intro hremoved
      rw [(h.overridden_of_isRemoved hids hmem hremoved).1] at hk
      cases hk
    exact ⟨⟨⟨hmem, hstands.2⟩, hc, hk⟩, hdeletion,
      (h.isLive_iff hstands.2).mpr ⟨hle, hstands, hremoved⟩⟩

/-! ### References -/

theorem mem_backRefs_iff (h : Reflects changes ix) {target : Muid} {e : Entry} :
    e ∈ ix.backRefs target
      ↔ e ∈ written changes ∧ e.pointee = some target ∧ ¬ Purged changes e := by
  rw [mem_backRefs_iff_get? h.mirrored, h.get?_placement_iff]
  exact ⟨fun h => ⟨h.1.1, h.2, h.1.2⟩, fun h => ⟨⟨h.1, h.2.2⟩, h.2.1⟩⟩

end Reflects

end Reflects

end GossipStore.Index
