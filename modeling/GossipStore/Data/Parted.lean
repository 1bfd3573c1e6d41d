set_option autoImplicit false

/-! # Keys of several parts

The keys of the tables are made of parts: they are ordered by the first part, then by the next, and
so on, as the tuples of their parts are (`Parted`). Since the parts tell keys apart, such an order is
as lawful as those of the parts. Which of two keys comes first is told by their first parts or, where
these are equal, by the others (`Parted.compare_eq_lt_iff`, `Parted.isLE_compare_iff`). -/

namespace GossipStore

-- Pairs are ordered by their first members, and then by the second ones.
attribute [instance] lexOrd

section Pairs

variable {α β : Type} [Ord α] [Ord β] [Std.LawfulEqOrd α] {p q : α × β}

theorem compare_pair_eq_lt_iff : compare p q = .lt
    ↔ compare p.1 q.1 = .lt ∨ p.1 = q.1 ∧ compare p.2 q.2 = .lt := by
  change compareLex (compareOn Prod.fst) (compareOn Prod.snd) p q = .lt ↔ _
  rw [compareLex, Ordering.then_eq_lt, compareOn, compareOn, Std.compare_eq_iff_eq]

theorem isLE_compare_pair_iff : (compare p q).isLE
    ↔ compare p.1 q.1 = .lt ∨ p.1 = q.1 ∧ (compare p.2 q.2).isLE := by
  change (compareLex (compareOn Prod.fst) (compareOn Prod.snd) p q).isLE ↔ _
  rw [compareLex, Ordering.isLE_then_iff_or, compareOn, compareOn, Std.compare_eq_iff_eq]

/-- Pairs with one first member are ordered by the second ones. -/
theorem compare_snd_eq_lt (h : compare p q = .lt) (hfst : p.1 = q.1) :
    compare p.2 q.2 = .lt := by
  rcases compare_pair_eq_lt_iff.mp h with hlt | ⟨-, hlt⟩
  · rw [hfst, Std.ReflOrd.compare_self] at hlt
    cases hlt
  · exact hlt

end Pairs

/-- Keys that are known by their parts, as a structure is by its fields. -/
class Parted (κ : Type) (π : outParam Type) where
  parts : κ → π
  parts_injective {k l : κ} (h : parts k = parts l) : k = l := by
    rintro ⟨⟩ ⟨⟩ ⟨⟩
    rfl

namespace Parted

section Order

variable {κ π : Type} [Parted κ π] [Ord π]

/-- Keys are ordered as their parts are. -/
instance (priority := low) : Ord κ := ⟨compareOn parts⟩

theorem transOrd [Std.TransOrd π] : Std.TransOrd κ :=
  inferInstanceAs (Std.TransCmp (compareOn parts))

theorem lawfulEqOrd [Std.LawfulEqOrd π] : Std.LawfulEqOrd κ where
  compare_self {k} := (Std.ReflOrd.compare_self : compare (parts k) (parts k) = .eq)
  eq_of_compare h := parts_injective (Std.LawfulEqOrd.eq_of_compare h)

end Order

section Lexicographic

variable {α β : Type} (κ : Type) [Parted κ (α × β)] [Ord α] [Ord β] [Std.LawfulEqOrd α] {k l : κ}

/-- A key comes first by its first part, or by the others if the first parts are equal. -/
theorem compare_eq_lt_iff : compare k l = .lt ↔ compare (parts k).1 (parts l).1 = .lt
    ∨ (parts k).1 = (parts l).1 ∧ compare (parts k).2 (parts l).2 = .lt :=
  compare_pair_eq_lt_iff

theorem isLE_compare_iff : (compare k l).isLE ↔ compare (parts k).1 (parts l).1 = .lt
    ∨ (parts k).1 = (parts l).1 ∧ (compare (parts k).2 (parts l).2).isLE :=
  isLE_compare_pair_iff

/-- Keys with one first part are ordered by the others. -/
theorem compare_rest_eq_lt (h : compare k l = .lt) (hfirst : (parts k).1 = (parts l).1) :
    compare (parts k).2 (parts l).2 = .lt :=
  compare_snd_eq_lt h hfirst

end Lexicographic

end Parted

end GossipStore
