set_option autoImplicit false

/-! # Sorted maps

A finite map kept as a list of pairs in strictly ascending key order. The order is part of the
type, so a map has one representation only: two maps that answer every look-up alike are equal
(`SortedMap.ext_get?`), and reading a table out "in key order" is reading its list.

Main statements: `SortedMap.get?_insert_self`, `SortedMap.get?_insert_of_ne`,
`SortedMap.get?_erase_self`, `SortedMap.get?_erase_of_ne`, `SortedMap.mem_toList_iff` and
`SortedMap.ext_get?`. -/

namespace GossipStore

/-- A finite map as its list of pairs in strictly ascending key order. -/
structure SortedMap (κ ν : Type) [Ord κ] where
  /-- The pairs in ascending key order. -/
  toList : List (κ × ν)
  /-- Every key is below each later one. -/
  sorted : toList.Pairwise fun a b => compare a.1 b.1 = .lt

namespace SortedMap

variable {κ ν : Type} [Ord κ]

/-! ## Operations on the list of pairs -/

/-- Places a pair before the first larger key, replacing a pair with the same key. -/
def insertPair (k : κ) (v : ν) : List (κ × ν) → List (κ × ν)
  | [] => [(k, v)]
  | e :: rest =>
    match compare k e.1 with
    | .lt => (k, v) :: e :: rest
    | .eq => (k, v) :: rest
    | .gt => e :: insertPair k v rest

/-- The value of the first pair with the given key. -/
def findPair (k : κ) : List (κ × ν) → Option ν
  | [] => none
  | e :: rest => if compare k e.1 = .eq then some e.2 else findPair k rest

theorem mem_insertPair {k : κ} {v : ν} {e : κ × ν} {l : List (κ × ν)}
    (h : e ∈ insertPair k v l) : e = (k, v) ∨ e ∈ l := by
  induction l with
  | nil => simpa [insertPair] using h
  | cons a rest ih =>
    rw [insertPair] at h
    split at h
    · simpa using h
    · rcases List.mem_cons.1 h with h | h
      · exact .inl h
      · exact .inr (List.mem_cons_of_mem _ h)
    · rcases List.mem_cons.1 h with h | h
      · exact .inr (h ▸ List.mem_cons_self)
      · exact (ih h).imp id (List.mem_cons_of_mem _)

theorem pairwise_insertPair [Std.TransOrd κ] [Std.LawfulEqOrd κ] (k : κ) (v : ν)
    {l : List (κ × ν)} (h : l.Pairwise fun a b => compare a.1 b.1 = .lt) :
    (insertPair k v l).Pairwise fun a b => compare a.1 b.1 = .lt := by
  induction l with
  | nil => simp [insertPair]
  | cons a rest ih =>
    obtain ⟨ha, hr⟩ := List.pairwise_cons.1 h
    rw [insertPair]
    split
    · rename_i hlt
      refine List.pairwise_cons.2 ⟨fun b hb => ?_, h⟩
      rcases List.mem_cons.1 hb with rfl | hb
      · exact hlt
      · exact Std.TransCmp.lt_trans hlt (ha b hb)
    · rename_i heq
      have hk : k = a.1 := Std.LawfulEqCmp.eq_of_compare heq
      exact List.pairwise_cons.2 ⟨fun b hb => by simpa [hk] using ha b hb, hr⟩
    · rename_i hgt
      refine List.pairwise_cons.2 ⟨fun b hb => ?_, ih hr⟩
      rcases mem_insertPair hb with rfl | hb
      · exact Std.OrientedCmp.lt_of_gt hgt
      · exact ha b hb

/-! ## The interface -/

/-- The map without pairs. -/
def empty : SortedMap κ ν := ⟨[], .nil⟩

instance : EmptyCollection (SortedMap κ ν) := ⟨empty⟩

instance : Inhabited (SortedMap κ ν) := ⟨empty⟩

/-- The value at a key. -/
def get? (m : SortedMap κ ν) (k : κ) : Option ν := findPair k m.toList

/-- Whether a key has a value. -/
def contains (m : SortedMap κ ν) (k : κ) : Bool := (m.get? k).isSome

/-- Sets the value at a key, replacing an earlier one. -/
def insert [Std.TransOrd κ] [Std.LawfulEqOrd κ] (m : SortedMap κ ν) (k : κ) (v : ν) :
    SortedMap κ ν :=
  ⟨insertPair k v m.toList, pairwise_insertPair k v m.sorted⟩

/-- Keeps the pairs that pass a test. -/
def filter (m : SortedMap κ ν) (p : κ → ν → Bool) : SortedMap κ ν :=
  ⟨m.toList.filter fun e => p e.1 e.2, m.sorted.filter _⟩

/-- Drops the value at a key. -/
def erase (m : SortedMap κ ν) (k : κ) : SortedMap κ ν :=
  m.filter fun k' _ => compare k k' != .eq

/-- The keys in ascending order. -/
def keys (m : SortedMap κ ν) : List κ := m.toList.map Prod.fst

/-- The values in the order of their keys. -/
def values (m : SortedMap κ ν) : List ν := m.toList.map Prod.snd

/-- The number of pairs. -/
def size (m : SortedMap κ ν) : Nat := m.toList.length

/-- Whether the map has no pair. -/
def isEmpty (m : SortedMap κ ν) : Bool := m.toList.isEmpty

/-- Inserts the pairs of a list from left to right, so that of two pairs with one key the later
stays. -/
def ofList [Std.TransOrd κ] [Std.LawfulEqOrd κ] (l : List (κ × ν)) : SortedMap κ ν :=
  l.foldl (fun m e => m.insert e.1 e.2) empty

/-! ## Equality -/

theorem ext_toList {m n : SortedMap κ ν} (h : m.toList = n.toList) : m = n := by
  cases m; cases n; cases h; rfl

instance [DecidableEq κ] [DecidableEq ν] : DecidableEq (SortedMap κ ν) := fun m n =>
  if h : m.toList = n.toList then .isTrue (ext_toList h) else .isFalse fun e => h (e ▸ rfl)

/-! ## Look-up after an update -/

@[simp] theorem get?_empty (k : κ) : (empty : SortedMap κ ν).get? k = none := rfl

section Lists

variable [Std.LawfulEqOrd κ]

theorem findPair_insertPair_self (k : κ) (v : ν) (l : List (κ × ν)) :
    findPair k (insertPair k v l) = some v := by
  induction l with
  | nil => simp [insertPair, findPair]
  | cons a rest ih =>
    rw [insertPair]
    split
    · simp [findPair]
    · simp [findPair]
    · rename_i hgt
      simp [findPair, hgt, ih]

theorem findPair_insertPair_of_ne {k k' : κ} (h : k' ≠ k) (v : ν) (l : List (κ × ν)) :
    findPair k' (insertPair k v l) = findPair k' l := by
  induction l with
  | nil => simp [insertPair, findPair, h]
  | cons a rest ih =>
    rw [insertPair]
    split
    · simp [findPair, h]
    · rename_i heq
      have hk : k = a.1 := Std.LawfulEqCmp.eq_of_compare heq
      simp [findPair, ← hk, h]
    · simp [findPair, ih]

theorem findPair_eq_some_iff {k : κ} {v : ν} {l : List (κ × ν)}
    (h : l.Pairwise fun a b => compare a.1 b.1 = .lt) :
    findPair k l = some v ↔ (k, v) ∈ l := by
  induction l with
  | nil => simp [findPair]
  | cons a rest ih =>
    obtain ⟨ha, hr⟩ := List.pairwise_cons.1 h
    by_cases hk : k = a.1
    · subst hk
      have hnot : (a.1, v) ∉ rest := fun hm => by
        have := ha _ hm
        simp at this
      simp only [findPair, Std.ReflCmp.compare_self, if_true, Option.some.injEq, List.mem_cons,
        hnot, or_false]
      exact ⟨fun e => by rw [← e], fun e => by rw [← e]⟩
    · have hne : (k, v) ≠ a := fun e => hk (by rw [← e])
      simp [findPair, hk, ih hr, hne]

/-- A pair is in the list exactly when a look-up finds it. -/
theorem mem_toList_iff {m : SortedMap κ ν} {k : κ} {v : ν} :
    (k, v) ∈ m.toList ↔ m.get? k = some v :=
  (findPair_eq_some_iff m.sorted).symm

theorem get?_filter (m : SortedMap κ ν) (p : κ → ν → Bool) (k : κ) :
    (m.filter p).get? k = (m.get? k).filter (p k) := by
  ext v
  rw [← mem_toList_iff, Option.filter_eq_some_iff, ← mem_toList_iff]
  simp [filter]

@[simp] theorem get?_erase_self (m : SortedMap κ ν) (k : κ) : (m.erase k).get? k = none := by
  simp [erase, get?_filter]

theorem get?_erase_of_ne (m : SortedMap κ ν) {k k' : κ} (h : k' ≠ k) :
    (m.erase k).get? k' = m.get? k' := by
  have hp : (compare k k' != .eq) = true := by simp [Ne.symm h]
  rw [erase, get?_filter, hp]
  cases m.get? k' <;> rfl

theorem mem_keys_iff {m : SortedMap κ ν} {k : κ} : k ∈ m.keys ↔ ∃ v, m.get? k = some v := by
  simp [keys, ← mem_toList_iff]

end Lists

section Laws

variable [Std.TransOrd κ] [Std.LawfulEqOrd κ]

@[simp] theorem get?_insert_self (m : SortedMap κ ν) (k : κ) (v : ν) :
    (m.insert k v).get? k = some v :=
  findPair_insertPair_self k v m.toList

theorem get?_insert_of_ne (m : SortedMap κ ν) {k k' : κ} (h : k' ≠ k) (v : ν) :
    (m.insert k v).get? k' = m.get? k' :=
  findPair_insertPair_of_ne h v m.toList

/-- The list is determined by the set of its pairs. -/
theorem eq_of_mem_iff {l₁ l₂ : List (κ × ν)}
    (h₁ : l₁.Pairwise fun a b => compare a.1 b.1 = .lt)
    (h₂ : l₂.Pairwise fun a b => compare a.1 b.1 = .lt)
    (h : ∀ e, e ∈ l₁ ↔ e ∈ l₂) : l₁ = l₂ := by
  induction l₁ generalizing l₂ with
  | nil =>
    cases l₂ with
    | nil => rfl
    | cons b _ => exact absurd ((h b).2 List.mem_cons_self) (by simp)
  | cons a r₁ ih =>
    cases l₂ with
    | nil => exact absurd ((h a).1 List.mem_cons_self) (by simp)
    | cons b r₂ =>
      obtain ⟨ha, hr₁⟩ := List.pairwise_cons.1 h₁
      obtain ⟨hb, hr₂⟩ := List.pairwise_cons.1 h₂
      have irrefl : ∀ k : κ, compare k k ≠ .lt := fun k => by simp
      have hab : a = b := by
        rcases List.mem_cons.1 ((h a).1 List.mem_cons_self) with e | hm
        · exact e
        rcases List.mem_cons.1 ((h b).2 List.mem_cons_self) with e | hm'
        · exact e.symm
        exact absurd (Std.TransCmp.lt_trans (hb a hm) (ha b hm')) (irrefl _)
      subst hab
      refine congrArg _ (ih hr₁ hr₂ fun e => ⟨fun he => ?_, fun he => ?_⟩)
      · rcases List.mem_cons.1 ((h e).1 (List.mem_cons_of_mem _ he)) with rfl | hm
        · exact absurd (ha _ he) (irrefl _)
        · exact hm
      · rcases List.mem_cons.1 ((h e).2 (List.mem_cons_of_mem _ he)) with rfl | hm
        · exact absurd (hb _ he) (irrefl _)
        · exact hm

/-- Two maps that answer every look-up alike are equal. -/
theorem ext_get? {m n : SortedMap κ ν} (h : ∀ k, m.get? k = n.get? k) : m = n := by
  refine ext_toList (eq_of_mem_iff m.sorted n.sorted fun e => ?_)
  obtain ⟨k, v⟩ := e
  rw [mem_toList_iff, mem_toList_iff, h]

end Laws

end SortedMap

/-! ## Sorted sets -/

/-- A finite set as its members in strictly ascending order: a map onto the one value. -/
abbrev SortedSet (κ : Type) [Ord κ] := SortedMap κ Unit

namespace SortedSet

variable {κ : Type} [Ord κ]

/-- The members in ascending order. -/
def members (s : SortedSet κ) : List κ := s.keys

/-- Adds a member. -/
def add [Std.TransOrd κ] [Std.LawfulEqOrd κ] (s : SortedSet κ) (k : κ) : SortedSet κ :=
  s.insert k ()

/-- Removes a member. -/
def remove (s : SortedSet κ) (k : κ) : SortedSet κ := s.erase k

/-- The set of the members of a list. -/
def ofMembers [Std.TransOrd κ] [Std.LawfulEqOrd κ] (l : List κ) : SortedSet κ :=
  l.foldl add SortedMap.empty

section Laws

variable [Std.LawfulEqOrd κ]

theorem mem_members_iff {s : SortedSet κ} {k : κ} : k ∈ members s ↔ s.get? k = some () := by
  rw [members, SortedMap.mem_keys_iff]
  exact ⟨fun ⟨_, h⟩ => h, fun h => ⟨_, h⟩⟩

theorem mem_members_remove {s : SortedSet κ} {a k : κ} :
    k ∈ members (remove s a) ↔ k ≠ a ∧ k ∈ members s := by
  rw [mem_members_iff, mem_members_iff, remove]
  by_cases h : k = a
  · subst h; simp
  · simp [SortedMap.get?_erase_of_ne _ h, h]

variable [Std.TransOrd κ]

theorem mem_members_add {s : SortedSet κ} {a k : κ} :
    k ∈ members (add s a) ↔ k = a ∨ k ∈ members s := by
  rw [mem_members_iff, mem_members_iff, add]
  by_cases h : k = a
  · subst h; simp
  · simp [SortedMap.get?_insert_of_ne _ h, h]

end Laws

end SortedSet

end GossipStore
