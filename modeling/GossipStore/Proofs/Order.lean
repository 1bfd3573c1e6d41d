import GossipStore.Index.Row

set_option autoImplicit false

/-! # Order of addresses and of tables

Addresses are strictly and totally ordered. The keys of a table ascend, so the last of them that
passes a test is the greatest that does.
-/

namespace GossipStore

/-! ## Addresses -/

namespace Muid

variable {a b c : Muid}

theorem lt_irrefl (a : Muid) : ¬ a < a := fun h => by
  have h : compare a a = .lt := h
  simp at h

theorem lt_trans (h : a < b) (h' : b < c) : a < c := Std.TransCmp.lt_trans h h'

theorem lt_asymm (h : a < b) : ¬ b < a := fun h' => lt_irrefl a (lt_trans h h')

theorem lt_trichotomy (a b : Muid) : a < b ∨ a = b ∨ b < a := by
  rcases h : compare a b with _ | _ | _
  · exact .inl h
  · exact .inr (.inl (Std.LawfulEqCmp.eq_of_compare h))
  · exact .inr (.inr (Std.OrientedCmp.lt_of_gt h))

theorem lt_of_not_lt_of_lt (h : ¬ b < a) (h' : b < c) : a < c := by
  rcases lt_trichotomy a b with hlt | rfl | hgt
  · exact lt_trans hlt h'
  · exact h'
  · exact absurd hgt h

theorem lt_of_lt_of_not_lt (h : a < b) (h' : ¬ c < b) : a < c := by
  rcases lt_trichotomy b c with hlt | rfl | hgt
  · exact lt_trans h hlt
  · exact h
  · exact absurd hgt h'

theorem lt_of_not_lt_of_ne (h : ¬ b < a) (hne : a ≠ b) : a < b :=
  ((lt_trichotomy a b).resolve_right fun h' => h'.elim hne h)

theorem lt_iff : a < b ↔ a.timestamp < b.timestamp
    ∨ a.timestamp = b.timestamp ∧ (a.medallion < b.medallion
      ∨ a.medallion = b.medallion ∧ a.offset < b.offset) := by
  change compare a b = .lt ↔ _
  rw [Parted.compare_eq_lt_iff Muid, compare_pair_eq_lt_iff, Std.compare_eq_lt,
    Std.compare_eq_lt, Std.compare_eq_lt]
  rfl

theorem timestamp_le_of_lt (h : a < b) : a.timestamp ≤ b.timestamp := by
  rcases lt_iff.mp h with h | ⟨h, -⟩
  · exact Std.le_of_lt h
  · exact Std.le_of_eq h

end Muid

/-! ## Names of bundles -/

theorem BundleKey.lt_iff {k l : BundleKey} : compare k l = .lt
    ↔ k.timestamp < l.timestamp ∨ k.timestamp = l.timestamp ∧ k.medallion < l.medallion := by
  rw [Parted.compare_eq_lt_iff BundleKey, Std.compare_eq_lt, Std.compare_eq_lt]
  rfl

/-! ## Tables -/

theorem SortedMap.pairwise_keys {κ ν : Type} [Ord κ] (m : SortedMap κ ν) :
    m.keys.Pairwise fun a b => compare a b = .lt :=
  List.pairwise_map.mpr m.sorted

theorem SortedMap.mem_values_iff {κ ν : Type} [Ord κ] [Std.LawfulEqOrd κ] {m : SortedMap κ ν}
    {v : ν} : v ∈ m.values ↔ ∃ k, m.get? k = some v := by
  simp only [values, List.mem_map, Prod.exists, exists_eq_right, mem_toList_iff]

/-! ## The last of an ascending list -/

section Last

variable {α : Type} {r : α → α → Prop} {l : List α} {a : α}

/-- The last of an ascending list is the one that no other exceeds. -/
theorem getLast?_eq_some_iff_of_pairwise (hl : l.Pairwise r) (hirrefl : ∀ x, ¬ r x x)
    (hasymm : ∀ x y, r x y → ¬ r y x) :
    l.getLast? = some a ↔ a ∈ l ∧ ∀ x ∈ l, x = a ∨ r x a := by
  constructor
  · intro h
    obtain ⟨before, rfl⟩ := List.getLast?_eq_some_iff.mp h
    refine ⟨by simp, fun x hx => ?_⟩
    rcases List.mem_append.mp hx with hx | hx
    · exact .inr ((List.pairwise_append.mp hl).2.2 x hx a (by simp))
    · exact .inl (List.mem_singleton.mp hx)
  · rintro ⟨ha, hmax⟩
    obtain ⟨b, hb⟩ : ∃ b, l.getLast? = some b := by
      cases h : l.getLast? with
      | none =>
          rw [List.getLast?_eq_none_iff.mp h] at ha
          cases ha
      | some b => exact ⟨b, rfl⟩
    obtain ⟨before, rfl⟩ := List.getLast?_eq_some_iff.mp hb
    have hlast : b = a ∨ r b a := hmax b (by simp)
    rcases List.mem_append.mp ha with h | h
    · -- Something before the last is below it, so the last cannot be below that.
      have hab : r a b := (List.pairwise_append.mp hl).2.2 a h b (by simp)
      rcases hlast with rfl | hba
      · exact absurd hab (hirrefl b)
      · exact absurd hba (hasymm a b hab)
    · rw [hb, List.mem_singleton.mp h]

end Last

/-- Among finitely many things one has the greatest address. -/
theorem exists_greatest {α : Type} (address : α → Muid) {l : List α} {a : α} (ha : a ∈ l) :
    ∃ n ∈ l, ∀ x ∈ l, address x = address n ∨ address x < address n := by
  induction l generalizing a with
  | nil => cases ha
  | cons b rest ih =>
      cases hrest : rest with
      | nil => exact ⟨b, by simp, fun x hx => .inl (by rw [List.mem_singleton.mp hx])⟩
      | cons c tail =>
          obtain ⟨n, hn, hmax⟩ := ih (a := c) (by simp [hrest])
          rw [← hrest]
          -- the greatest of the rest is compared with the first
          rcases Muid.lt_trichotomy (address b) (address n) with hlt | heq | hgt
          · refine ⟨n, List.mem_cons_of_mem _ hn, fun x hx => ?_⟩
            rcases List.mem_cons.mp hx with rfl | hx
            · exact .inr hlt
            · exact hmax x hx
          · refine ⟨n, List.mem_cons_of_mem _ hn, fun x hx => ?_⟩
            rcases List.mem_cons.mp hx with rfl | hx
            · exact .inl heq
            · exact hmax x hx
          · refine ⟨b, List.mem_cons_self, fun x hx => ?_⟩
            rcases List.mem_cons.mp hx with rfl | hx
            · exact .inl rfl
            · rcases hmax x hx with h | h
              · exact .inr (h ▸ hgt)
              · exact .inr (Muid.lt_trans h hgt)

end GossipStore
