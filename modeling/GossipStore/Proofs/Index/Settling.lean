import GossipStore.Proofs.Index.Movements

set_option autoImplicit false

/-! # Movements one after the other

What a run of movements makes of the place of one entry (`settle`): a movement that is older than
the place has no effect, and an entry that has been taken away stays away. So the order matters if
a removal comes before a later move in one order and after it in another, and the outcome is the
same for all orders exactly if no removal is newer than the place, or some removal is newer than all
moves as well (`settle_alike_iff`).
-/

namespace GossipStore.Index

/-! ## Moves one after the other -/

/-- A movement of an entry as far as it decides about the place of the entry. -/
structure Move where
  id : Muid
  /-- The new position; zero takes the entry away. -/
  dest : Timestamp
deriving DecidableEq

/-- What a movement makes of the place of an entry. -/
def Move.take (m : Move) (place : Option Entry) : Option Entry :=
  place.bind fun x =>
    if m.id < x.placement then some x
    else if m.dest = 0 then none
    else some (x.movedTo m.id m.dest)

/-- The place of an entry after movements that arrive one after the other. -/
def settle (place : Option Entry) (moves : List Move) : Option Entry :=
  moves.foldl (fun place m => m.take place) place

/-- Whether a place is the newest of an earlier place and those to which movements lead. -/
structure IsNewestPlace (moves : List Move) (x y : Entry) : Prop where
  reached : y = x ∨ ∃ m ∈ moves, m.dest ≠ 0 ∧ y = x.movedTo m.id m.dest
  later : ¬ y.placement < x.placement
  last : ∀ m ∈ moves, m.dest ≠ 0 → ¬ y.placement < m.id

section Settle

variable {moves : List Move} {x y : Entry}

@[simp] theorem settle_none (moves : List Move) : settle none moves = none := by
  induction moves with
  | nil => rfl
  | cons m rest ih => exact ih

theorem settle_append (place : Option Entry) (moves more : List Move) :
    settle place (moves ++ more) = settle (settle place moves) more :=
  List.foldl_append

theorem take_of_lt {m : Move} (h : m.id < x.placement) : m.take (some x) = some x := if_pos h

theorem take_removal {r : Move} (hdest : r.dest = 0) (h : ¬ r.id < x.placement) :
    r.take (some x) = none := by
  change (if r.id < x.placement then some x else if r.dest = 0 then none else _) = none
  rw [if_neg h, if_pos hdest]

theorem take_move {m : Move} (hdest : m.dest ≠ 0) (h : ¬ m.id < x.placement) :
    m.take (some x) = some (x.movedTo m.id m.dest) := by
  change (if m.id < x.placement then some x else if m.dest = 0 then none else _) = _
  rw [if_neg h, if_neg hdest]

/-- A removal that is newer than the place and than all moves takes the entry away in any order. -/
theorem settle_eq_none {r : Move} (hr : r ∈ moves) (hdest : r.dest = 0) (hx : x.placement < r.id)
    (hnewest : ∀ m ∈ moves, m.dest ≠ 0 → m.id < r.id) : settle (some x) moves = none := by
  -- on the movements still to come, as none of them leads to a place newer than the removal
  induction moves generalizing x with
  | nil => cases hr
  | cons m rest ih =>
      change settle (m.take (some x)) rest = none
      rcases List.mem_cons.mp hr with rfl | hr
      · rw [take_removal hdest (Muid.lt_asymm hx), settle_none]
      · have hrest : ∀ m ∈ rest, m.dest ≠ 0 → m.id < r.id := fun n hn =>
          hnewest n (List.mem_cons_of_mem m hn)
        by_cases hold : m.id < x.placement
        · rw [take_of_lt hold]
          exact ih hr hx hrest
        · by_cases hm : m.dest = 0
          · rw [take_removal hm hold, settle_none]
          · rw [take_move hm hold]
            exact ih hr (hnewest m List.mem_cons_self hm) hrest

/-- As long as no removal is newer than its place, an entry ends up at the newest place. -/
theorem exists_settle (h : ∀ r ∈ moves, r.dest = 0 → r.id < x.placement) :
    ∃ y, settle (some x) moves = some y ∧ IsNewestPlace moves x y := by
  induction moves generalizing x with
  | nil => exact ⟨x, rfl, .inl rfl, Muid.lt_irrefl _, fun m hm => by cases hm⟩
  | cons m rest ih =>
      have hrest : ∀ r ∈ rest, r.dest = 0 → r.id < x.placement := fun r hr =>
        h r (List.mem_cons_of_mem m hr)
      change ∃ y, settle (m.take (some x)) rest = some y ∧ _
      by_cases hold : m.id < x.placement
      · rw [take_of_lt hold]
        obtain ⟨y, hy, hreached, hlater, hlast⟩ := ih hrest
        refine ⟨y, hy, ?_, hlater, fun n hn hdest => ?_⟩
        · exact hreached.imp_right fun ⟨n, hn, h⟩ => ⟨n, List.mem_cons_of_mem m hn, h⟩
        · rcases List.mem_cons.mp hn with rfl | hn
          · exact fun hlt => hlater (Muid.lt_trans hlt hold)
          · exact hlast n hn hdest
      · have hdest : m.dest ≠ 0 := fun hdest => hold (h m List.mem_cons_self hdest)
        rw [take_move hdest hold]
        -- the removals to come are older than the new place, which is newer than the old one
        have hnotlater {p : Muid} (hp : p < x.placement) : p < m.id :=
          Muid.lt_of_lt_of_not_lt hp hold
        obtain ⟨y, hy, hreached, hlater, hlast⟩ :=
          ih (x := x.movedTo m.id m.dest) fun r hr hr0 => hnotlater (hrest r hr hr0)
        refine ⟨y, hy, .inr ?_, fun hlt => hlater (hnotlater hlt), fun n hn hdest => ?_⟩
        · rcases hreached with rfl | ⟨n, hn, hn0, rfl⟩
          · exact ⟨m, List.mem_cons_self, hdest, rfl⟩
          · exact ⟨n, List.mem_cons_of_mem m hn, hn0, rfl⟩
        · rcases List.mem_cons.mp hn with rfl | hn
          · exact hlater
          · exact hlast n hn hdest

theorem IsNewestPlace.unique {y' : Entry} (h : IsNewestPlace moves x y)
    (h' : IsNewestPlace moves x y') (hids : (moves.map Move.id).Nodup)
    (hnew : ∀ m ∈ moves, m.id ≠ x.placement) : y = y' := by
  have hsame {p q : Muid} (hpq : ¬ p < q) (hqp : ¬ q < p) : p = q :=
    ((Muid.lt_trichotomy p q).resolve_left hpq).resolve_right hqp
  rcases h.reached with rfl | ⟨m, hm, hdest, rfl⟩ <;>
    rcases h'.reached with rfl | ⟨n, hn, hdest', rfl⟩
  · rfl
  · exact absurd (hsame h'.later (h.last n hn hdest')) (hnew n hn)
  · exact absurd (hsame h.later (h'.last m hm hdest)) (hnew m hm)
  · have hid : m.id = n.id := hsame (h.last n hn hdest') (h'.last m hm hdest)
    rw [List.inj_on_of_nodup_map hids hm hn hid]

theorem IsNewestPlace.perm {l : List Move} (h : IsNewestPlace l x y) (hperm : l.Perm moves) :
    IsNewestPlace moves x y where
  reached := h.reached.imp_right fun ⟨m, hm, hdest⟩ => ⟨m, hperm.subset hm, hdest⟩
  later := h.later
  last m hm := h.last m (hperm.symm.subset hm)

/-- Removals take away nothing that is newer than all of them. -/
theorem settle_removals (hremovals : ∀ r ∈ moves, r.dest = 0)
    (hold : ∀ r ∈ moves, r.id < x.placement) : settle (some x) moves = some x := by
  obtain ⟨y, hy, hreached, -⟩ := exists_settle fun r hr _ => hold r hr
  rcases hreached with rfl | ⟨m, hm, hdest, -⟩
  · exact hy
  · exact absurd (hremovals m hm) hdest

/-- If removals take away what moves have settled, one of them is newer than all of that. -/
theorem exists_lateRemoval {removals : List Move} (hmoves : ∀ m ∈ moves, m.dest ≠ 0)
    (hremovals : ∀ r ∈ removals, r.dest = 0) (hids : ((moves ++ removals).map Move.id).Nodup)
    (hnew : ∀ m ∈ moves ++ removals, m.id ≠ x.placement)
    (hgone : settle (some x) (moves ++ removals) = none) :
    ∃ r ∈ removals, x.placement < r.id ∧ ∀ m ∈ moves, m.id < r.id := by
  obtain ⟨y, hy, hnewest⟩ := exists_settle (x := x) fun m hm hdest =>
    absurd hdest (hmoves m hm)
  rw [settle_append, hy] at hgone
  obtain ⟨r, hr, hlate⟩ : ∃ r ∈ removals, ¬ r.id < y.placement := by
    refine Classical.byContradiction fun hnone => ?_
    have hold : ∀ r ∈ removals, r.id < y.placement := by simpa using hnone
    rw [settle_removals hremovals hold] at hgone
    cases hgone
  -- the address of the removal is neither that of the place nor of a move that leads there
  have hne : y.placement ≠ r.id := by
    rcases hnewest.reached with rfl | ⟨m, hm, hdest, rfl⟩
    · exact (hnew r (List.mem_append_right moves hr)).symm
    · intro hid
      have hsame : m = r := List.inj_on_of_nodup_map hids (List.mem_append_left removals hm)
        (List.mem_append_right moves hr) hid
      exact hdest (hsame ▸ hremovals r hr)
  have hlt : y.placement < r.id := Muid.lt_of_not_lt_of_ne hlate hne
  exact ⟨r, hr, Muid.lt_of_not_lt_of_lt hnewest.later hlt, fun m hm =>
    Muid.lt_of_not_lt_of_lt (hnewest.last m hm (hmoves m hm)) hlt⟩

/-- **When the order of movements does not matter.** Movements of distinct addresses settle an
entry alike in all orders exactly if no removal is newer than its place, or some removal is newer
than its place and than all moves. -/
theorem settle_alike_iff {α : Type} (f : α → Move) {l : List α}
    (hids : ((l.map f).map Move.id).Nodup) (hnew : ∀ m ∈ l.map f, m.id ≠ x.placement) :
    (∀ l₁ l₂ : List α, l₁.Perm l → l₂.Perm l →
        settle (some x) (l₁.map f) = settle (some x) (l₂.map f))
      ↔ (∀ r ∈ l.map f, r.dest = 0 → r.id < x.placement)
        ∨ ∃ r ∈ l.map f, r.dest = 0 ∧ x.placement < r.id
          ∧ ∀ m ∈ l.map f, m.dest ≠ 0 → m.id < r.id := by
  constructor
  · intro halike
    refine Classical.or_iff_not_imp_left.mpr fun hremoval => ?_
    -- some removal takes the entry away if it comes first, so in all orders
    obtain ⟨r, hr, hdest, hold⟩ : ∃ r ∈ l.map f, r.dest = 0 ∧ ¬ r.id < x.placement := by
      simpa using hremoval
    obtain ⟨a, ha, rfl⟩ := List.mem_map.mp hr
    obtain ⟨before, after, rfl⟩ := List.append_of_mem ha
    have hgone : settle (some x) ((a :: (before ++ after)).map f) = none := by
      change settle ((f a).take (some x)) ((before ++ after).map f) = none
      rw [take_removal hdest hold, settle_none]
    -- so also in the order in which all moves come first
    let l := before ++ a :: after
    let isMove (b : α) : Bool := (f b).dest ≠ 0
    have hperm : (l.filter isMove ++ l.filter fun b => !isMove b).Perm l :=
      List.filter_append_perm isMove l
    have hsorted := halike _ _ hperm List.perm_middle.symm
    rw [hgone, List.map_append] at hsorted
    have hmap := hperm.map f
    rw [List.map_append] at hmap
    obtain ⟨r, hr, hlt, hlate⟩ := exists_lateRemoval
      (fun m hm => by
        obtain ⟨b, hb, rfl⟩ := List.mem_map.mp hm
        exact of_decide_eq_true (List.mem_filter.mp hb).2)
      (fun r hr => by
        obtain ⟨b, hb, rfl⟩ := List.mem_map.mp hr
        simpa [isMove] using (List.mem_filter.mp hb).2)
      ((hmap.map Move.id).nodup_iff.mpr hids) (fun m hm => hnew m (hmap.subset hm)) hsorted
    obtain ⟨b, hb, rfl⟩ := List.mem_map.mp hr
    obtain ⟨hbl, hb0⟩ := List.mem_filter.mp hb
    refine ⟨f b, List.mem_map_of_mem hbl, by simpa [isMove] using hb0, hlt, fun m hm hdest => ?_⟩
    obtain ⟨c, hc, rfl⟩ := List.mem_map.mp hm
    exact hlate (f c) (List.mem_map_of_mem (List.mem_filter.mpr ⟨hc, decide_eq_true hdest⟩))
  · rintro (hold | ⟨r, hr, hdest, hlt, hnewest⟩) l₁ l₂ hperm₁ hperm₂
    · have hnewest {l' : List α} (hperm : l'.Perm l) :
          ∃ y, settle (some x) (l'.map f) = some y ∧ IsNewestPlace (l.map f) x y := by
        have hmoves : ∀ r ∈ l'.map f, r.dest = 0 → r.id < x.placement := fun r hr =>
          hold r ((hperm.map f).subset hr)
        obtain ⟨y, hy, hnewest⟩ := exists_settle hmoves
        exact ⟨y, hy, hnewest.perm (hperm.map f)⟩
      obtain ⟨y₁, hy₁, hnewest₁⟩ := hnewest hperm₁
      obtain ⟨y₂, hy₂, hnewest₂⟩ := hnewest hperm₂
      rw [hy₁, hy₂, hnewest₁.unique hnewest₂ hids hnew]
    · have hgone {l' : List α} (hperm : l'.Perm l) : settle (some x) (l'.map f) = none :=
        settle_eq_none ((hperm.map f).symm.subset hr) hdest hlt fun m hm =>
          hnewest m ((hperm.map f).subset hm)
      rw [hgone hperm₁, hgone hperm₂]

end Settle

end GossipStore.Index
