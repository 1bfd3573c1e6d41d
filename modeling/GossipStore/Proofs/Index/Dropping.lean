import GossipStore.Proofs.Index.Upkeep

set_option autoImplicit false

/-! # What dropping history drops

Dropping history looks up the removals up to a time, of one container or of all, and deletes them
and what they have removed. So a placement is dropped if any of these removals is of it (`Drops`),
and its other removals may stay.
-/

namespace GossipStore.Index

variable {ix : Index} {filter : Option Muid} {cut : Timestamp}

/-! ## One removal after the other -/

theorem get?_entries_foldl_forget (l : List RemovalKey) (ix : Index) (p : Muid) :
    (l.foldl forget ix).entries.get? p
      = if p ∈ l.map RemovalKey.removing then none else ix.entries.get? p := by
  induction l generalizing ix with
  | nil => simp
  | cons k rest ih =>
      rw [List.foldl_cons, ih, forget, (deleteRemoval_frame _ k).2.1, get?_entries_deleteEntry]
      by_cases hp : p = k.removing
      · simp [hp]
      · simp [hp]

theorem get?_removals_foldl_forget (l : List RemovalKey) (ix : Index) (j : RemovalKey) :
    (l.foldl forget ix).removals.get? j = if j ∈ l then none else ix.removals.get? j := by
  induction l generalizing ix with
  | nil => simp
  | cons k rest ih =>
      rw [List.foldl_cons, ih, forget, get?_removals_deleteRemoval, (deleteEntry_frame ix _).2.1]
      by_cases hj : j = k
      · simp [hj]
      · simp [hj]

theorem clearances_foldl_forget (l : List RemovalKey) (ix : Index) :
    (l.foldl forget ix).clearances = ix.clearances := by
  induction l generalizing ix with
  | nil => rfl
  | cons k rest ih =>
      rw [List.foldl_cons, ih, forget, (deleteRemoval_frame _ k).2.2,
        (deleteEntry_frame ix _).2.2.2]

theorem keepingHistory_foldl_forget (l : List RemovalKey) (ix : Index) :
    (l.foldl forget ix).keepingHistory = ix.keepingHistory := by
  induction l generalizing ix with
  | nil => rfl
  | cons k rest ih =>
      rw [List.foldl_cons, ih, forget, (deleteRemoval_frame _ k).1, (deleteEntry_frame ix _).1]

/-! ## All at once -/

/-- Whether a removal is dropped with the history up to a time. -/
def DropsRemoval (ix : Index) (filter : Option Muid) (cut : Timestamp) (k : RemovalKey) : Prop :=
  ∃ r, ix.removals.get? k = some r ∧ k.removalId.timestamp ≤ cut
    ∧ ∀ container ∈ filter, r.container = container

/-- Whether a placement is dropped with the history up to a time. -/
def Drops (ix : Index) (filter : Option Muid) (cut : Timestamp) (p : Muid) : Prop :=
  ∃ k, ix.DropsRemoval filter cut k ∧ k.removing = p

theorem Mirrored.dropHistoryUpTo (hm : Mirrored ix) (filter : Option Muid) (cut : Timestamp) :
    Mirrored (ix.dropHistoryUpTo filter cut).1 :=
  List.foldlRecOn _ _ hm fun _ h k _ => (h.deleteEntry k.removing).deleteRemoval k

theorem mem_removalsUpTo_iff (hm : Mirrored ix) {k : RemovalKey} :
    k ∈ ix.removalsUpTo filter cut ↔ ix.DropsRemoval filter cut k := by
  cases filter with
  | none =>
      simp only [removalsUpTo, DropsRemoval, List.mem_filter, SortedMap.mem_keys_iff,
        decide_eq_true_eq, Option.mem_def, reduceCtorEq, false_imp_iff, implies_true, and_true,
        exists_and_right]
  | some container =>
      simp only [removalsUpTo, DropsRemoval, List.mem_map, List.mem_filter, Bool.and_eq_true,
        decide_eq_true_eq, Option.mem_def, Option.some.injEq, forall_eq']
      constructor
      · rintro ⟨row, ⟨hrow, hcontainer, hle⟩, rfl⟩
        obtain ⟨r, hr, hrr⟩ := (hm.byContainer row).mp hrow
        cases hrr
        exact ⟨r, hr, hle, hcontainer⟩
      · rintro ⟨r, hr, hle, hcontainer⟩
        obtain rfl : removalKey r = k := hm.removed k r hr
        exact ⟨containerRemoval r, ⟨(hm.byContainer _).mpr ⟨r, hr, rfl⟩, hcontainer, hle⟩, rfl⟩

theorem get?_entries_dropHistoryUpTo_eq_some_iff (hm : Mirrored ix) {p : Muid} {e : Entry} :
    (ix.dropHistoryUpTo filter cut).1.entries.get? p = some e
      ↔ ix.entries.get? p = some e ∧ ¬ ix.Drops filter cut p := by
  rw [dropHistoryUpTo, get?_entries_foldl_forget, Option.ite_none_left_eq_some, and_comm]
  simp only [List.mem_map, mem_removalsUpTo_iff hm, Drops]

theorem get?_removals_dropHistoryUpTo_eq_some_iff (hm : Mirrored ix) {k : RemovalKey}
    {r : Removal} : (ix.dropHistoryUpTo filter cut).1.removals.get? k = some r
      ↔ ix.removals.get? k = some r ∧ ¬ ix.DropsRemoval filter cut k := by
  rw [dropHistoryUpTo, get?_removals_foldl_forget, Option.ite_none_left_eq_some, and_comm,
    mem_removalsUpTo_iff hm]

theorem clearances_dropHistoryUpTo (ix : Index) (filter : Option Muid) (cut : Timestamp) :
    (ix.dropHistoryUpTo filter cut).1.clearances = ix.clearances :=
  clearances_foldl_forget _ ix

theorem dropHistory_eq_ok_iff {before : AsOf} {ix' : Index} {n : Nat} :
    ix.dropHistory filter before = .ok (ix', n)
      ↔ ∃ t, ix.resolveAsOf before = .ok t ∧ ix.dropHistoryUpTo filter t = (ix', n) := by
  rw [dropHistory]
  cases ix.resolveAsOf before with
  | error e => simp [Except.map]
  | ok t => simp [Except.map]

end GossipStore.Index
