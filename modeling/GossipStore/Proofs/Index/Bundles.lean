import Mathlib.Data.List.Perm.Subperm
import GossipStore.Proofs.Index.Arrival

set_option autoImplicit false

/-! # Which bundles an index lists

Whether a bundle is accepted is decided on its chain, and along a chain times rise
(`pairwise_accepted`). But an accepted bundle is stored under its time and its owner, and an owner
may have several chains. So the table of bundles has the last accepted bundle of every time and
owner (`keepsLast_offerAll`), and an earlier one of another chain is no longer listed. As long
as all times or owners are distinct, the list is what was accepted.
-/

namespace GossipStore

/-- The key under which a bundle is stored. -/
def Bundle.key (b : Bundle) : BundleKey := ⟨b.info.timestamp, b.info.medallion⟩

theorem Bundle.key_ne_iff {a b : Bundle} : a.key ≠ b.key
    ↔ ¬ (a.info.timestamp = b.info.timestamp ∧ a.info.medallion = b.info.medallion) := by
  rw [key, key, Ne, BundleKey.mk.injEq]

namespace Index

variable {ix : Index} {b : Bundle}

/-! ## Acceptance along a chain -/

theorem offerAll_cons_of_new (h : ix.check b.info = .ok true) (rest : List Bundle) :
    ix.offerAll (b :: rest)
      = (((ix.apply b).offerAll rest).1, b :: ((ix.apply b).offerAll rest).2) := by
  rw [offerAll, add_eq, h]
  rfl

theorem offerAll_cons_of_not_new (h : ix.check b.info ≠ .ok true) (rest : List Bundle) :
    ix.offerAll (b :: rest) = ix.offerAll rest := by
  rw [offerAll, add_eq]
  cases hc : ix.check b.info with
  | error e => rfl
  | ok novel =>
      cases novel with
      | false => rfl
      | true => exact absurd hc h

/-- What is accepted comes after the end of its chain. -/
theorem lt_of_check_eq_true {info tip : BundleInfo} (h : ix.check info = .ok true)
    (htip : ix.chains.get? info.chain = some tip) : tip.timestamp < info.timestamp := by
  rw [check, htip] at h
  by_cases hle : info.timestamp ≤ tip.timestamp
  · simp [hle] at h
  · exact Std.not_le.mp hle

/-- Everything accepted comes after what its chain ended with before. -/
theorem lt_of_mem_accepted {bs : List Bundle} {tip : BundleInfo} (hb : b ∈ (ix.offerAll bs).2)
    (htip : ix.chains.get? b.info.chain = some tip) : tip.timestamp < b.info.timestamp := by
  induction bs generalizing ix tip with
  | nil => cases hb
  | cons c rest ih =>
      by_cases hc : ix.check c.info = .ok true
      · rw [offerAll_cons_of_new hc] at hb
        rcases List.mem_cons.mp hb with rfl | hb
        · exact lt_of_check_eq_true hc htip
        · by_cases hchain : b.info.chain = c.info.chain
          · -- the chain has been continued in the meantime
            have hlt : c.info.timestamp < b.info.timestamp :=
              ih hb (by rw [apply_chains, hchain, SortedMap.get?_insert_self])
            exact Std.lt_trans (lt_of_check_eq_true hc (hchain ▸ htip)) hlt
          · exact ih hb (by rw [apply_chains, SortedMap.get?_insert_of_ne _ hchain, htip])
      · rw [offerAll_cons_of_not_new hc] at hb
        exact ih hb htip

/-- **Along a chain times rise** from one accepted bundle to the next. -/
theorem pairwise_accepted (ix : Index) (bs : List Bundle) :
    (ix.offerAll bs).2.Pairwise fun a b =>
      a.info.chain = b.info.chain → a.info.timestamp < b.info.timestamp := by
  induction bs generalizing ix with
  | nil => exact .nil
  | cons c rest ih =>
      by_cases hc : ix.check c.info = .ok true
      · rw [offerAll_cons_of_new hc]
        refine List.pairwise_cons.mpr ⟨fun b hb hchain => ?_, ih (ix.apply c)⟩
        exact lt_of_mem_accepted hb (by rw [apply_chains, ← hchain, SortedMap.get?_insert_self])
      · rw [offerAll_cons_of_not_new hc]
        exact ih ix

/-! ## The table of bundles -/

theorem get?_bundles_foldl_apply (ix : Index) (bs : List Bundle) (k : BundleKey) :
    (bs.foldl apply ix).bundles.get? k
      = (bs.filter (·.key = k)).getLast?.or (ix.bundles.get? k) := by
  induction bs generalizing ix with
  | nil => rfl
  | cons b rest ih =>
      rw [List.foldl_cons, ih, apply_bundles, List.filter_cons]
      by_cases hk : b.key = k
      · have hkey : (⟨b.info.timestamp, b.info.medallion⟩ : BundleKey) = k := hk
        simp only [hk, decide_true, if_true, List.getLast?_cons, hkey, SortedMap.get?_insert_self]
        cases (rest.filter (·.key = k)).getLast? <;> rfl
      · have hkey : k ≠ (⟨b.info.timestamp, b.info.medallion⟩ : BundleKey) := Ne.symm hk
        simp only [hk, decide_false, Bool.false_eq_true, if_false,
          SortedMap.get?_insert_of_ne _ hkey]

theorem mem_bundleList_iff_exists : b ∈ ix.bundleList ↔ ∃ k, ix.bundles.get? k = some b := by
  simp only [bundleList, SortedMap.values, List.mem_map, Prod.exists, exists_eq_right,
    SortedMap.mem_toList_iff]

theorem mem_bundleList_apply (ix : Index) (b : Bundle) : b ∈ (ix.apply b).bundleList :=
  mem_bundleList_iff_exists.mpr ⟨b.key, by
    rw [apply_bundles]
    exact SortedMap.get?_insert_self ix.bundles b.key b⟩

/-- Under every time and owner stands the last of some bundles that have them. -/
def KeepsLast (accepted : List Bundle) (ix : Index) : Prop :=
  ∀ k, ix.bundles.get? k = (accepted.filter (·.key = k)).getLast?

theorem keepsLast_offerAll (keepingHistory : Bool) (arrivals : List Bundle) :
    KeepsLast ((empty keepingHistory).offerAll arrivals).2
      ((empty keepingHistory).offerAll arrivals).1 := by
  intro k
  rw [offerAll_eq, get?_bundles_foldl_apply]
  exact Option.or_none

/-- A new bundle takes the place of an earlier one of its time and owner. -/
theorem KeepsLast.apply {accepted : List Bundle} (h : KeepsLast accepted ix) (b : Bundle) :
    KeepsLast (accepted ++ [b]) (ix.apply b) := by
  intro k
  have hlast := get?_bundles_foldl_apply ix [b] k
  rw [List.foldl_cons, List.foldl_nil, h k] at hlast
  rw [hlast, List.filter_append, List.getLast?_append]

namespace KeepsLast

variable {accepted : List Bundle}

theorem key_of_get? (h : KeepsLast accepted ix) {k : BundleKey} (hk : ix.bundles.get? k = some b) :
    b.key = k := by
  rw [h] at hk
  exact of_decide_eq_true (List.mem_filter.mp (List.mem_of_getLast? hk)).2

theorem mem_bundleList_iff (h : KeepsLast accepted ix) :
    b ∈ ix.bundleList ↔ (accepted.filter (·.key = b.key)).getLast? = some b := by
  rw [mem_bundleList_iff_exists]
  constructor
  · rintro ⟨k, hk⟩
    rw [h.key_of_get? hk, ← h, hk]
  · intro hlast
    exact ⟨b.key, by rw [h, hlast]⟩

/-- The bundles are listed by time and then by owner. -/
theorem pairwise_bundleList (h : KeepsLast accepted ix) :
    ix.bundleList.Pairwise fun a b => compare a.key b.key = .lt := by
  rw [bundleList, SortedMap.values, List.pairwise_map]
  refine ix.bundles.sorted.imp_of_mem fun he hf hlt => ?_
  rw [h.key_of_get? (SortedMap.mem_toList_iff.mp he),
    h.key_of_get? (SortedMap.mem_toList_iff.mp hf)]
  exact hlt

theorem nodup_map_key_bundleList (h : KeepsLast accepted ix) :
    (ix.bundleList.map Bundle.key).Nodup := by
  refine List.pairwise_map.mpr (h.pairwise_bundleList.imp fun hlt heq => ?_)
  rw [heq] at hlt
  exact compare_self_ne_lt _ hlt

/-- Nothing is listed that was not accepted. -/
theorem subperm_bundleList (h : KeepsLast accepted ix) : ix.bundleList.Subperm accepted :=
  h.nodup_map_key_bundleList.of_map.subperm fun _ hb =>
    (List.mem_filter.mp (List.mem_of_getLast? (h.mem_bundleList_iff.mp hb))).1

/-- What was accepted is listed completely exactly if all times or owners are distinct. -/
theorem perm_bundleList_iff (h : KeepsLast accepted ix) :
    ix.bundleList.Perm accepted ↔ accepted.Pairwise fun a b => a.key ≠ b.key := by
  constructor
  · intro hperm
    exact List.pairwise_map.mp ((hperm.map Bundle.key).nodup_iff.mp h.nodup_map_key_bundleList)
  · intro hkeys
    have hnodup : (accepted.map Bundle.key).Nodup := List.pairwise_map.mpr hkeys
    refine (List.perm_ext_iff_of_nodup h.nodup_map_key_bundleList.of_map hnodup.of_map).mpr
      fun b => ⟨fun hb => h.subperm_bundleList.subset hb, fun hb => ?_⟩
    -- the last bundle of the time and owner is the only one of them
    have hself : b ∈ accepted.filter (·.key = b.key) := List.mem_filter.mpr ⟨hb, by simp⟩
    obtain ⟨c, hc⟩ : ∃ c, (accepted.filter (·.key = b.key)).getLast? = some c := by
      cases hlast : (accepted.filter (·.key = b.key)).getLast? with
      | none =>
          rw [List.getLast?_eq_none_iff.mp hlast] at hself
          cases hself
      | some c => exact ⟨c, rfl⟩
    obtain ⟨hmem, hkey⟩ := List.mem_filter.mp (List.mem_of_getLast? hc)
    have hsame : c = b := List.inj_on_of_nodup_map hnodup hmem hb (of_decide_eq_true hkey)
    exact h.mem_bundleList_iff.mpr (hsame ▸ hc)

/-- The number of bundles listed is the number accepted exactly if none is missing. -/
theorem bundleCount_eq_length_iff (h : KeepsLast accepted ix) :
    ix.bundleCount = accepted.length ↔ accepted.Pairwise fun a b => a.key ≠ b.key := by
  have hcount : ix.bundleCount = ix.bundleList.length := (List.length_map ..).symm
  rw [hcount, ← h.perm_bundleList_iff]
  exact ⟨fun heq => h.subperm_bundleList.perm_of_length_le (Nat.le_of_eq heq.symm),
    List.Perm.length_eq⟩

end KeepsLast

/-- **What an index lists of the bundles it has accepted.** Offer any valid bundles to a fresh
index. It lists, by time and then by owner, the bundle accepted last for every time and owner. So
the list is what was accepted, each bundle once, exactly if no two accepted bundles have one time
and owner, and exactly then the bundles are as many as were accepted. Two that do are always of
different chains of their owner. -/
theorem bundleList_offerAll (keepingHistory : Bool) (arrivals : List Bundle) :
    let ix := ((empty keepingHistory).offerAll arrivals).1
    let accepted := ((empty keepingHistory).offerAll arrivals).2
    (ix.bundleList.Pairwise fun a b => a.info.timestamp < b.info.timestamp
        ∨ a.info.timestamp = b.info.timestamp ∧ a.info.medallion < b.info.medallion)
      ∧ (∀ b, b ∈ ix.bundleList ↔ (accepted.filter (·.key = b.key)).getLast? = some b)
      ∧ (ix.bundleList.Perm accepted ↔ accepted.Pairwise fun a b => a.key ≠ b.key)
      ∧ (ix.bundleCount = accepted.length ↔ accepted.Pairwise fun a b => a.key ≠ b.key)
      ∧ accepted.Pairwise fun a b => a.key = b.key → a.info.chainStart ≠ b.info.chainStart := by
  intro ix accepted
  have h : KeepsLast accepted ix := keepsLast_offerAll keepingHistory arrivals
  refine ⟨h.pairwise_bundleList.imp BundleKey.lt_iff.mp, fun b => h.mem_bundleList_iff,
    h.perm_bundleList_iff, h.bundleCount_eq_length_iff,
    (pairwise_accepted _ arrivals).imp fun {a b} hlt hkey hstart => ?_⟩
  obtain ⟨htime, hmedallion⟩ := BundleKey.mk.inj hkey
  have hchain : a.info.chain = b.info.chain := by
    rw [BundleInfo.chain, BundleInfo.chain, hmedallion, hstart]
  exact Std.ne_of_lt (hlt hchain) htime

/-- An owner begins a second chain at the time of a bundle of the first one, which is accepted as
well and takes that bundle's place. -/
theorem bundleList_offerAll_losesBundle :
    let first := Bundle.ofValid ⟨100, 5, 100, none, none⟩ [] rfl (by decide) (by decide)
    let second := Bundle.ofValid ⟨200, 5, 100, some 100, none⟩ [] rfl (by decide) (by decide)
    let other := Bundle.ofValid ⟨200, 5, 200, none, none⟩ [] rfl (by decide) (by decide)
    let result := (empty true).offerAll [first, second, other]
    result.2 = [first, second, other] ∧ result.1.bundleList = [first, other]
      ∧ second ∉ result.1.bundleList ∧ result.1.bundleCount ≠ result.2.length := by
  decide +kernel

end Index

end GossipStore
