import GossipStore.Proofs.Index.Forgetting

set_option autoImplicit false

/-! # What is left without history

The same changes are applied to two indexes. One of them has never kept history. The other one has
kept it, at least for a time, and may have dropped it later. What the first one has, the second one
has as well and has not removed (`Remnant`), whatever the changes and their order.

It may be less, for there is one difference in what the two do. An entry that comes in replaces the
newest older one at its key. Where history is kept, that may be one that has been removed, and the
entry passes over older ones that have not (`passesOver`). Where none is kept, it replaces the
newest of those that are left. As long as no entry passes over another, and movements name no
container or that of their entry, nothing is lost (`Whole`).
-/

namespace GossipStore.Index

variable {ix live plain : Index} {id p : Muid} {changes more : List (Muid × Change)} {x y : Entry}

/-! ## What remains of an index -/

/-- Whether a placement is stored and has not been removed. -/
def Remains (ix : Index) (p : Muid) (x : Entry) : Prop :=
  ix.entries.get? p = some x ∧ ix.isRemoved p Int64.maxValue = false

theorem isRemoved_congr {ix' : Index} (h : ix'.removals = ix.removals) :
    ix'.isRemoved = ix.isRemoved := by
  funext p t
  rw [isRemoved, isRemoved, h]

theorem isRemoved_insertRemoval {r : Removal} :
    (ix.insertRemoval r).isRemoved p Int64.maxValue = true
      ↔ p = r.removing ∨ ix.isRemoved p Int64.maxValue = true := by
  simp only [isRemoved_latest_iff, get?_removals_insertRemoval]
  constructor
  · rintro ⟨k, s, hs, rfl⟩
    split at hs
    · rename_i hk
      exact .inl (congrArg RemovalKey.removing hk)
    · exact .inr ⟨k, s, hs, rfl⟩
  · rintro (rfl | ⟨k, s, hs, rfl⟩)
    · exact ⟨removalKey r, r, if_pos rfl, rfl⟩
    · by_cases hk : k = removalKey r
      · exact ⟨k, r, if_pos hk, rfl⟩
      · exact ⟨k, s, by rw [if_neg hk, hs], rfl⟩

theorem isRemoved_moveFrom_iff {m : MovementChange} :
    (ix.moveFrom id m x).isRemoved p Int64.maxValue = true
      ↔ ix.dropsPlace m = false ∧ p = x.placement ∨ ix.isRemoved p Int64.maxValue = true := by
  cases hdrops : ix.dropsPlace m with
  | false => rw [isRemoved_moveFrom hdrops, eq_self, true_and]
  | true =>
      simp only [isRemoved_latest_iff, get?_removals_moveFrom, hdrops, Bool.true_eq_false,
        false_and, if_false, false_or]

theorem Forgetful.isRemoved_eq_false (h : ix.Forgetful) (p : Muid) (t : Timestamp) :
    ix.isRemoved p t = false := by
  rw [← Bool.not_eq_true, isRemoved_iff]
  rintro ⟨k, r, hr, -⟩
  rw [h.nothing k] at hr
  cases hr

/-- Without history nothing is left that has been removed. -/
theorem Forgetful.remains_iff (h : ix.Forgetful) :
    ix.Remains p x ↔ ix.entries.get? p = some x :=
  and_iff_left (h.isRemoved_eq_false p _)

/-- The current place of an entry is the newest that remains. -/
theorem current?_eq_some_iff_remains (hm : Mirrored ix) {entryId : Muid} :
    ix.current? entryId = some x ↔ ix.Remains x.placement x ∧ x.entryId = entryId
      ∧ ∀ y, ix.Remains y.placement y → y.entryId = entryId → ¬ x.placement < y.placement := by
  rw [current?_eq_some_iff hm]
  constructor
  · rintro ⟨hx, hentry, hkept, hmax⟩
    refine ⟨⟨hx, hkept⟩, hentry, fun y hy hye hlt => ?_⟩
    rcases hmax y.placement ((mem_placementsOf_iff hm).mpr ⟨y, hy.1, hye⟩) hy.2 with heq | hgt
    · exact Muid.lt_irrefl _ (heq ▸ hlt)
    · exact Muid.lt_asymm hlt hgt
  · rintro ⟨⟨hx, hkept⟩, hentry, hmax⟩
    refine ⟨hx, hentry, hkept, fun q hq hqkept => ?_⟩
    obtain ⟨y, hy, hye⟩ := (mem_placementsOf_iff hm).mp hq
    obtain rfl : y.placement = q := hm.placed q y hy
    rcases Muid.lt_trichotomy y.placement x.placement with hlt | heq | hgt
    · exact .inr hlt
    · exact .inl heq
    · exact absurd hgt (hmax y ⟨hy, hqkept⟩ hye)

/-! ### Changes -/

theorem remains_insertEntry_iff {e : Entry} (hfree : ix.entries.get? e.placement = none)
    (hunremoved : ix.isRemoved e.placement Int64.maxValue = false) :
    (ix.insertEntry e).Remains p x ↔ p = e.placement ∧ x = e ∨ ix.Remains p x := by
  have hsame : (ix.insertEntry e).isRemoved = ix.isRemoved := isRemoved_congr rfl
  rw [Remains, Remains, hsame, get?_entries_insertEntry]
  by_cases hp : p = e.placement
  · subst hp
    simp [hfree, hunremoved, @eq_comm _ x]
  · simp [hp]

/-- With history or without, making room for an entry leaves all but what it supersedes. -/
theorem remains_makeRoom_iff (c : EntryChange) :
    (ix.makeRoom id c).Remains p x ↔ ix.superseded? id c ≠ some p ∧ ix.Remains p x := by
  cases hsuperseded : ix.superseded? id c with
  | none =>
      rw [makeRoom_of_none hsuperseded]
      simp
  | some previous =>
      rw [makeRoom_of_some hsuperseded, Remains, Remains, Ne, Option.some.injEq,
        @eq_comm _ previous]
      split
      · rw [← Bool.not_eq_true, isRemoved_insertRemoval, ← Bool.not_eq_true]
        change _ ∧ ¬ (p = previous ∨ _) ↔ _
        tauto
      · rw [get?_entries_deleteEntry, isRemoved_congr (deleteEntry_frame ix previous).2.1,
          Option.ite_none_left_eq_some, and_assoc]

/-- Making room for an entry removes only what is older. -/
theorem isRemoved_makeRoom_self (hm : Mirrored ix) (c : EntryChange)
    (hunremoved : ix.isRemoved id Int64.maxValue = false) :
    (ix.makeRoom id c).isRemoved id Int64.maxValue = false := by
  cases hsuperseded : ix.superseded? id c with
  | none => rwa [makeRoom_of_none hsuperseded]
  | some previous =>
      rw [makeRoom_of_some hsuperseded]
      split
      · rw [← Bool.not_eq_true, isRemoved_insertRemoval, hunremoved]
        have hlt := ((superseded?_eq_some_iff hm).mp hsuperseded).2.1
        rintro (hid | hnone)
        · have hid : id = previous := hid
          exact Muid.lt_irrefl id (hid ▸ hlt)
        · cases hnone
      · rwa [isRemoved_congr (deleteEntry_frame ix previous).2.1]

/-- An entry remains after it has come in, with all that it does not supersede. -/
theorem Traced.remains_applyEntry_iff (h : Traced changes ix) (hnew : id ∉ changes.map Prod.fst)
    {c : EntryChange} (hkept : ix.isPurged (entryOf id c).container id = false) :
    (ix.applyEntry id c).Remains p x
      ↔ p = id ∧ x = entryOf id c ∨ ix.superseded? id c ≠ some p ∧ ix.Remains p x := by
  have hfree : (ix.makeRoom id c).entries.get? id = none := h.get?_entries_makeRoom hnew c
  have hunremoved := isRemoved_makeRoom_self h.tidy.mirrored c (h.isRemoved_eq_false hnew _)
  rw [applyEntry_eq, if_neg (Bool.eq_false_iff.mp hkept), remains_insertEntry_iff hfree hunremoved,
    remains_makeRoom_iff]
  rfl

/-- A moved entry remains at its new place, if it has one, and not at the one it leaves. -/
theorem Traced.remains_moveFrom_iff (h : Traced changes ix) (hnew : id ∉ changes.map Prod.fst)
    (hx : ix.entries.get? x.placement = some x) {m : MovementChange} :
    (ix.moveFrom id m x).Remains p y ↔ m.dest ≠ 0 ∧ p = id ∧ y = x.movedTo id m.dest
      ∨ p ≠ x.placement ∧ ix.Remains p y := by
  have hxid : x.placement ≠ id := by
    intro heq
    rw [heq, (h.free hnew).1] at hx
    cases hx
  rw [Remains, Remains, ← Bool.not_eq_true, isRemoved_moveFrom_iff, get?_entries_moveFrom,
    ← Bool.not_eq_true]
  by_cases hp : p = x.placement
  · -- it is dropped or has been removed
    subst hp
    cases ix.dropsPlace m <;> simp [hxid]
  · by_cases hid : p = id
    · subst hid
      rw [h.isRemoved_eq_false hnew, (h.free hnew).1]
      by_cases hdest : m.dest ≠ 0 <;> simp [hp, hdest, @eq_comm _ y]
    · simp [hp, hid]

theorem remains_applyClearance (hm : Mirrored ix) {c : ClearanceChange} (hx : ix.Remains p x)
    (hkept : ¬ Covers id c x.container p) : (ix.applyClearance id c).Remains p x := by
  refine ⟨?_, ?_⟩
  · rw [get?_entries_applyClearance id c hm, hx.1]
    exact Option.filter_eq_some_iff.mpr ⟨rfl, decide_eq_true hkept⟩
  · rw [← Bool.not_eq_true, isRemoved_latest_iff]
    rintro ⟨k, r, hr, hk⟩
    rw [get?_removals_applyClearance id c hm, Option.filter_eq_some_iff] at hr
    have hremoved : ix.isRemoved p Int64.maxValue = true :=
      isRemoved_latest_iff.mpr ⟨k, r, hr.1, hk⟩
    rw [hx.2] at hremoved
    cases hremoved

/-- A purge that leaves a placement leaves its removals, as far as entries are moved at home. -/
theorem Traced.remains_applyClearance_iff (h : Traced changes ix) (hhome : MovesAtHome changes)
    {c : ClearanceChange} : (ix.applyClearance id c).Remains p x
      ↔ ix.Remains p x ∧ ¬ Covers id c x.container p := by
  have hm := h.tidy.mirrored
  refine ⟨fun ⟨hx, hunremoved⟩ => ?_, fun hx => remains_applyClearance hm hx.1 hx.2⟩
  rw [get?_entries_applyClearance id c hm, Option.filter_eq_some_iff, decide_eq_true_eq] at hx
  refine ⟨⟨hx.1, ?_⟩, hx.2⟩
  rw [← Bool.not_eq_true, isRemoved_latest_iff] at hunremoved ⊢
  rintro ⟨k, r, hr, rfl⟩
  have hcontainer : r.container = x.container :=
    (h.within hhome hr hx.1).elim (fun heq => heq) fun heq => heq
  refine hunremoved ⟨k, r, ?_, rfl⟩
  rw [get?_removals_applyClearance id c hm, hr]
  exact Option.filter_eq_some_iff.mpr ⟨rfl, decide_eq_true (hcontainer ▸ hx.2)⟩

theorem clearances_stopHistory (ix : Index) : ix.stopHistory.clearances = ix.clearances :=
  clearances_dropHistoryUpTo { ix with keepingHistory := false } none _

/-- Dropping all history drops what has been removed. -/
theorem get?_entries_stopHistory_iff (hm : Mirrored ix) :
    ix.stopHistory.entries.get? p = some x ↔ ix.Remains p x := by
  have hm' : Mirrored { ix with keepingHistory := false } := hm.withHistory false
  rw [stopHistory, get?_entries_dropHistoryUpTo_eq_some_iff hm', Remains, ← Bool.not_eq_true,
    isRemoved_latest_iff]
  refine and_congr_right fun _ => not_congr ⟨?_, ?_⟩
  · rintro ⟨k, ⟨r, hr, -⟩, hk⟩
    exact ⟨k, r, hr, hk⟩
  · rintro ⟨k, r, hr, hk⟩
    exact ⟨k, ⟨r, hr, Int64.le_maxValue _, fun _ h => by cases h⟩, hk⟩

/-- An index that stops keeping history has none. -/
theorem Mirrored.forgetful_stopHistory (hm : Mirrored ix) : ix.stopHistory.Forgetful where
  notKeeping := keepingHistory_foldl_forget _ { ix with keepingHistory := false }
  nothing k := by
    have hm' : Mirrored { ix with keepingHistory := false } := hm.withHistory false
    refine Option.eq_none_iff_forall_ne_some.mpr fun r hr => ?_
    obtain ⟨hr, hkept⟩ := (get?_removals_dropHistoryUpTo_eq_some_iff hm').mp hr
    exact hkept ⟨r, hr, Int64.le_maxValue _, fun _ h => by cases h⟩

theorem remains_stopHistory_iff (hm : Mirrored ix) :
    ix.stopHistory.Remains p x ↔ ix.Remains p x :=
  hm.forgetful_stopHistory.remains_iff.trans (get?_entries_stopHistory_iff hm)

/-! ## The remnant -/

/-- What an index without history has of one with the same changes that has kept it for a time:
nothing but what remains there, and of each entry nothing but its newest place. -/
structure Remnant (changes : List (Muid × Change)) (live plain : Index) : Prop where
  traced : Traced changes live
  plainTraced : Traced changes plain
  forgetful : plain.Forgetful
  clearances : plain.clearances = live.clearances
  part : ∀ p x, plain.Remains p x → live.Remains p x
  newest : ∀ x y, plain.Remains x.placement x → live.entries.get? y.placement = some y →
    x.entryId = y.entryId → ¬ x.placement < y.placement

/-- Whether an index without history has all that remains of one with it. -/
def Whole (live plain : Index) : Prop := ∀ p x, live.Remains p x → plain.Remains p x

/-- Whether an entry that comes in finds the newest older one at its key removed, and there is an
older one yet that has not been. -/
def passesOver (ix : Index) (id : Muid) : Change → Bool
  | .entry c => (ix.superseded? id c).any fun previous =>
      ix.isRemoved previous Int64.maxValue
        && (ix.placementsAtKey (entryOf id c).container (entryOf id c).key).any fun q =>
          q < id && !ix.isRemoved q Int64.maxValue
  | _ => false

/-- Whether any entry among some changes passes over another one. -/
def everPassesOver (ix : Index) : List (Muid × Change) → Bool
  | [] => false
  | (id, c) :: rest => ix.passesOver id c || (ix.applyChange id c).everPassesOver rest

theorem passesOver_entry_iff (hm : Mirrored ix) {c : EntryChange} :
    ix.passesOver id (.entry c) = true ↔ ∃ previous, ix.superseded? id c = some previous
      ∧ ix.isRemoved previous Int64.maxValue = true ∧ ∃ x, ix.Remains x.placement x
        ∧ AtKey (entryOf id c).container (entryOf id c).key x ∧ x.placement < id := by
  simp only [passesOver, Option.any_eq_true, Bool.and_eq_true, List.any_eq_true, decide_eq_true_eq,
    Bool.not_eq_true', mem_placementsAtKey_iff hm]
  refine exists_congr fun previous => and_congr_right fun _ => and_congr_right fun _ => ?_
  constructor
  · rintro ⟨q, ⟨x, hx, hkey⟩, hlt, hkept⟩
    obtain rfl : x.placement = q := hm.placed q x hx
    exact ⟨x, ⟨hx, hkept⟩, hkey, hlt⟩
  · rintro ⟨x, ⟨hx, hkept⟩, hkey, hlt⟩
    exact ⟨x.placement, ⟨x, hx, hkey⟩, hlt, hkept⟩

/-- Nothing is passed over where nothing has been removed. -/
theorem Forgetful.passesOver_eq_false (h : ix.Forgetful) (id : Muid) (c : Change) :
    ix.passesOver id c = false := by
  cases c with
  | entry c =>
      cases hsuperseded : ix.superseded? id c <;>
        simp [passesOver, hsuperseded, h.isRemoved_eq_false]
  | _ => rfl

namespace Remnant

theorem empty (keepingHistory : Bool) : Remnant [] (.empty keepingHistory) (.empty false) where
  traced := .empty keepingHistory
  plainTraced := .empty false
  forgetful := ⟨rfl, fun _ => rfl⟩
  clearances := rfl
  part p x hx := by cases hx.1
  newest x y hx := by cases hx.1

theorem mono (h : Remnant changes live plain) (hsub : changes.Sublist more) :
    Remnant more live plain where
  traced := h.traced.mono hsub
  plainTraced := h.plainTraced.mono hsub
  forgetful := h.forgetful
  clearances := h.clearances
  part := h.part
  newest := h.newest

/-! ### What a change looks for -/

section Lookups

variable (h : Remnant changes live plain)
include h

/-- If the entry to be replaced is left, the index without history replaces it as well. -/
theorem superseded?_eq {c : EntryChange} (hsuperseded : live.superseded? id c = some p)
    (hx : plain.Remains p x) : plain.superseded? id c = some p := by
  obtain ⟨hreplacing, hlt, ⟨y, hy, hkey⟩, hmax⟩ :=
    (superseded?_eq_some_iff h.traced.tidy.mirrored).mp hsuperseded
  obtain rfl : x = y := Option.some.inj ((h.part p x hx).1.symm.trans hy)
  refine (superseded?_eq_some_iff h.plainTraced.tidy.mirrored).mpr
    ⟨hreplacing, hlt, ⟨x, hx.1, hkey⟩, fun z hz => hmax z ?_⟩
  exact (h.part _ z (h.forgetful.remains_iff.mpr hz)).1

/-- What is the current place of an entry without history is its current place with it. -/
theorem current?_eq_some {entryId : Muid} (hcurrent : plain.current? entryId = some x) :
    live.current? entryId = some x := by
  obtain ⟨hx, hentry, -⟩ := (current?_eq_some_iff_remains h.plainTraced.tidy.mirrored).mp hcurrent
  refine (current?_eq_some_iff_remains h.traced.tidy.mirrored).mpr ⟨h.part _ x hx, hentry, ?_⟩
  exact fun y hy hye => h.newest x y hx hy.1 (hentry.trans hye.symm)

/-- Without history no place of an entry is left but the current one. -/
theorem current?_eq_of_remains (hx : plain.Remains x.placement x) :
    plain.current? x.entryId = some x := by
  refine (current?_eq_some_iff_remains h.plainTraced.tidy.mirrored).mpr ⟨hx, rfl, ?_⟩
  exact fun y hy hentry => h.newest x y hx (h.part _ y hy).1 hentry.symm

/-- A movement of an entry that is left has the same effect on both indexes, or none. -/
theorem applyMovement_cases {m : MovementChange}
    (hcurrent : plain.current? (movedEntry id m) = some x) :
    plain.applyMovement id m = plain ∧ live.applyMovement id m = live
    ∨ plain.applyMovement id m = plain.moveFrom id m x
      ∧ live.applyMovement id m = live.moveFrom id m x
      ∧ live.isPurged x.container id = false
      ∧ ∀ q ∈ live.placementsOf (movedEntry id m), ¬ id < q := by
  have hm := h.traced.tidy.mirrored
  have hm' := h.plainTraced.tidy.mirrored
  obtain ⟨hx, hentry, -⟩ := (current?_eq_some_iff_remains hm').mp hcurrent
  -- the newest of all places is left, so both indexes agree on whether the movement is too late
  have hlate : (∃ q ∈ plain.placementsOf (movedEntry id m), id < q)
      ↔ ∃ q ∈ live.placementsOf (movedEntry id m), id < q := by
    constructor
    · rintro ⟨q, hq, hlt⟩
      obtain ⟨y, hy, hye⟩ := (mem_placementsOf_iff hm').mp hq
      have hy' := (h.part q y (h.forgetful.remains_iff.mpr hy)).1
      exact ⟨q, (mem_placementsOf_iff hm).mpr ⟨y, hy', hye⟩, hlt⟩
    · rintro ⟨q, hq, hlt⟩
      obtain ⟨y, hy, hye⟩ := (mem_placementsOf_iff hm).mp hq
      obtain rfl : y.placement = q := hm.placed q y hy
      have hnot := h.newest x y hx hy (hentry.trans hye.symm)
      refine ⟨x.placement, (mem_placementsOf_iff hm').mpr ⟨x, hx.1, hentry⟩, ?_⟩
      rcases Muid.lt_trichotomy x.placement y.placement with hxy | heq | hyx
      · exact absurd hxy hnot
      · exact heq ▸ hlt
      · exact Muid.lt_trans hlt hyx
  rw [Index.applyMovement_eq, Index.applyMovement_eq, hcurrent, h.current?_eq_some hcurrent,
    isPurged_congr h.clearances]
  simp only [hlate]
  split
  · exact .inl ⟨rfl, rfl⟩
  · rename_i hnewest
    split
    · exact .inl ⟨rfl, rfl⟩
    · rename_i hkept
      exact .inr ⟨rfl, rfl, eq_false_of_ne_true hkept, fun q hq hlt => hnewest ⟨q, hq, hlt⟩⟩

end Lookups

/-! ### Changes -/

section Steps

variable (h : Remnant changes live plain) (hnew : id ∉ changes.map Prod.fst)
include h hnew

theorem applyEntry (c : EntryChange) : Remnant (changes ++ [(id, .entry c)])
    (live.applyEntry id c) (plain.applyEntry id c) := by
  have htraced := h.traced.applyEntry hnew c
  have hplain := h.plainTraced.applyEntry hnew c
  have hforgetful : (plain.applyEntry id c).Forgetful :=
    h.forgetful.applyChange h.plainTraced.tidy.mirrored id (.entry c)
  have hclearances : (plain.applyEntry id c).clearances = (live.applyEntry id c).clearances := by
    rw [clearances_applyEntry, clearances_applyEntry, h.clearances]
  have hpurges := isPurged_congr h.clearances
  cases hpurged : live.isPurged (entryOf id c).container id with
  | true =>
      rw [applyEntry_of_purged hpurged] at htraced hclearances ⊢
      rw [applyEntry_of_purged (hpurges ▸ hpurged)] at hplain hforgetful hclearances ⊢
      exact ⟨htraced, hplain, hforgetful, hclearances, h.part, h.newest⟩
  | false =>
      refine ⟨htraced, hplain, hforgetful, hclearances, fun p x hx => ?_,
        fun x y hx hy hentry => ?_⟩
      · rw [h.plainTraced.remains_applyEntry_iff hnew (hpurges ▸ hpurged)] at hx
        rw [h.traced.remains_applyEntry_iff hnew hpurged]
        rcases hx with hself | ⟨hkept, hx⟩
        · exact .inl hself
        · exact .inr ⟨fun hsuperseded => hkept (h.superseded?_eq hsuperseded hx), h.part p x hx⟩
      · -- what is stored of the new entry is nothing but itself
        rw [h.plainTraced.remains_applyEntry_iff hnew (hpurges ▸ hpurged)] at hx
        rcases hx with ⟨-, rfl⟩ | ⟨-, hx⟩
        · rcases of_get?_entries_applyEntry hy with rfl | hy
          · exact Muid.lt_irrefl _
          · exact absurd hentry.symm (h.traced.entryId_ne hnew hy)
        · rcases of_get?_entries_applyEntry hy with rfl | hy
          · exact absurd hentry (h.traced.entryId_ne hnew (h.part _ x hx).1)
          · exact h.newest x y hx hy hentry

/-- A movement of an entry of which nothing is left changes nothing that is. -/
theorem moveFrom_of_none {m : MovementChange} (hnone : plain.current? (movedEntry id m) = none)
    (hcurrent : live.current? (movedEntry id m) = some y)
    (hkept : live.isPurged y.container id = false) :
    Remnant (changes ++ [(id, .movement m)]) (live.moveFrom id m y) plain := by
  have hsub := List.sublist_append_left changes [(id, Change.movement m)]
  obtain ⟨hy, hentry, -⟩ := (current?_eq_some_iff_remains h.traced.tidy.mirrored).mp hcurrent
  have hother (z : Entry) (hz : plain.Remains z.placement z) : z.entryId ≠ y.entryId := by
    intro heq
    have hz' := h.current?_eq_of_remains hz
    rw [heq, hentry, hnone] at hz'
    cases hz'
  refine ⟨h.traced.moveFrom hnew hcurrent hkept, h.plainTraced.mono hsub, h.forgetful, ?_,
    fun p x hx => ?_, fun x z hx hz hxz => ?_⟩
  · rw [(moveFrom_frame id m y live).2, h.clearances]
  · rw [h.traced.remains_moveFrom_iff hnew hy.1]
    refine .inr ⟨?_, h.part p x hx⟩
    rintro rfl
    obtain rfl : x = y := Option.some.inj ((h.part _ x hx).1.symm.trans hy.1)
    exact hother x hx rfl
  · rcases of_get?_entries_moveFrom hz with rfl | ⟨hz, -⟩
    · exact absurd hxz (hother x hx)
    · exact h.newest x z hx hz hxz

theorem moveFrom {m : MovementChange} (hcurrent : plain.current? (movedEntry id m) = some x)
    (hkept : live.isPurged x.container id = false)
    (hnewest : ∀ q ∈ live.placementsOf (movedEntry id m), ¬ id < q) :
    Remnant (changes ++ [(id, .movement m)]) (live.moveFrom id m x) (plain.moveFrom id m x) := by
  have hm := h.traced.tidy.mirrored
  obtain ⟨hx, hentry, -⟩ := (current?_eq_some_iff_remains h.plainTraced.tidy.mirrored).mp hcurrent
  have hx' := h.part _ x hx
  have hpurges := isPurged_congr h.clearances
  refine ⟨h.traced.moveFrom hnew (h.current?_eq_some hcurrent) hkept,
    h.plainTraced.moveFrom hnew hcurrent (hpurges ▸ hkept), h.forgetful.moveFrom id m x, ?_,
    fun p y hy => ?_, fun y z hy hz hyz => ?_⟩
  · rw [(moveFrom_frame id m x live).2, (moveFrom_frame id m x plain).2, h.clearances]
  · rw [h.plainTraced.remains_moveFrom_iff hnew hx.1] at hy
    rw [h.traced.remains_moveFrom_iff hnew hx'.1]
    exact hy.imp_right fun ⟨hp, hy⟩ => ⟨hp, h.part p y hy⟩
  · rw [h.plainTraced.remains_moveFrom_iff hnew hx.1] at hy
    rcases hy with ⟨-, -, rfl⟩ | ⟨hp, hy⟩
    · -- nothing is newer than the place to which the entry has been moved
      rcases of_get?_entries_moveFrom hz with rfl | ⟨hz, -⟩
      · exact Muid.lt_irrefl _
      · exact hnewest _ ((mem_placementsOf_iff hm).mpr ⟨z, hz, hyz.symm.trans hentry⟩)
    · rcases of_get?_entries_moveFrom hz with rfl | ⟨hz, -⟩
      · -- the entry has no other place than the one it leaves
        have hyx := h.current?_eq_of_remains hy
        rw [hyz.trans hentry, hcurrent] at hyx
        exact absurd (congrArg Entry.placement (Option.some.inj hyx).symm) hp
      · exact h.newest y z hy hz hyz

theorem applyMovement (m : MovementChange) : Remnant (changes ++ [(id, .movement m)])
    (live.applyMovement id m) (plain.applyMovement id m) := by
  have hsame : Remnant (changes ++ [(id, .movement m)]) live plain :=
    h.mono (List.sublist_append_left changes [(id, .movement m)])
  cases hcurrent : plain.current? (movedEntry id m) with
  | none =>
      rw [applyMovement_of_none hcurrent]
      rcases applyMovement_eq_or live id m with hnothing | ⟨y, hy, hkept, -, hmoves⟩
      · rw [hnothing]
        exact hsame
      · rw [hmoves]
        exact h.moveFrom_of_none hnew hcurrent hy hkept
  | some x =>
      rcases h.applyMovement_cases hcurrent with ⟨hplain, hlive⟩ | ⟨hplain, hlive, hkept, hnewest⟩
      · rw [hplain, hlive]
        exact hsame
      · rw [hplain, hlive]
        exact h.moveFrom hnew hcurrent hkept hnewest

omit hnew in
theorem applyClearance (c : ClearanceChange) : Remnant (changes ++ [(id, .clearance c)])
    (live.applyClearance id c) (plain.applyClearance id c) := by
  have hforgetful : (plain.applyClearance id c).Forgetful :=
    h.forgetful.applyChange h.plainTraced.tidy.mirrored id (.clearance c)
  have hremains {q : Muid} {x : Entry} (hx : (plain.applyClearance id c).Remains q x) :
      plain.Remains q x ∧ ¬ Covers id c x.container q := by
    have hx := hx.1
    rw [get?_entries_applyClearance id c h.plainTraced.tidy.mirrored, Option.filter_eq_some_iff,
      decide_eq_true_eq] at hx
    exact ⟨h.forgetful.remains_iff.mpr hx.1, hx.2⟩
  refine ⟨h.traced.applyClearance id c, h.plainTraced.applyClearance id c, hforgetful,
    SortedMap.ext_get? fun k => ?_, fun p x hx => ?_, fun x y hx hy hentry => ?_⟩
  · rw [get?_clearances_applyClearance, get?_clearances_applyClearance, h.clearances]
  · exact remains_applyClearance h.traced.tidy.mirrored (h.part p x (hremains hx).1) (hremains hx).2
  · exact h.newest x y (hremains hx).1 (of_get?_entries_applyClearance hy) hentry

/-- **Every change of a new address keeps the relation.** -/
theorem applyChange (c : Change) :
    Remnant (changes ++ [(id, c)]) (live.applyChange id c) (plain.applyChange id c) := by
  cases c with
  | container behavior =>
      exact ⟨h.traced.applyChange hnew _, h.plainTraced.applyChange hnew _,
        h.forgetful.applyChange h.plainTraced.tidy.mirrored id _, h.clearances, h.part, h.newest⟩
  | entry c => exact h.applyEntry hnew c
  | movement m => exact h.applyMovement hnew m
  | clearance c => exact h.applyClearance c

end Steps

/-! ### History and records -/

/-- Where history is dropped nothing is that remains. -/
theorem stopHistory (h : Remnant changes live plain) : Remnant changes live.stopHistory plain where
  traced := (h.traced.withHistory false).dropHistoryUpTo none _
  plainTraced := h.plainTraced
  forgetful := h.forgetful
  clearances := h.clearances.trans (clearances_stopHistory live).symm
  part p x hx := (remains_stopHistory_iff h.traced.tidy.mirrored).mpr (h.part p x hx)
  newest x y hx hy :=
    h.newest x y hx ((get?_entries_stopHistory_iff h.traced.tidy.mirrored).mp hy).1

theorem withRecords (h : Remnant changes live plain) (chains : SortedMap ChainKey BundleInfo)
    (bundles : SortedMap BundleKey Bundle) (claims : List ClaimedChain)
    (chains' : SortedMap ChainKey BundleInfo) (bundles' : SortedMap BundleKey Bundle)
    (claims' : List ClaimedChain) :
    Remnant changes (live.withRecords chains bundles claims)
      (plain.withRecords chains' bundles' claims') where
  traced := h.traced.withRecords chains bundles claims
  plainTraced := h.plainTraced.withRecords chains' bundles' claims'
  forgetful := ⟨h.forgetful.notKeeping, h.forgetful.nothing⟩
  clearances := h.clearances
  part := h.part
  newest := h.newest

end Remnant

/-- What holds of two indexes together with the changes that both have applied, and is upheld by
every change of a new address, whatever the records. -/
structure UpheldTogether (P : List (Muid × Change) → Index → Index → Prop) : Prop where
  applyChange : ∀ {changes live plain id c}, P changes live plain →
    ((changes ++ [(id, c)]).map Prod.fst).Nodup →
    P (changes ++ [(id, c)]) (live.applyChange id c) (plain.applyChange id c)
  withRecords : ∀ {changes live plain}, P changes live plain →
    ∀ chains bundles claims chains' bundles' claims', P changes
      (live.withRecords chains bundles claims) (plain.withRecords chains' bundles' claims')

theorem UpheldTogether.applyChanges {P : List (Muid × Change) → Index → Index → Prop}
    (hP : UpheldTogether P) (h : P changes live plain)
    (hids : ((changes ++ more).map Prod.fst).Nodup) :
    P (changes ++ more) (live.applyChanges more) (plain.applyChanges more) := by
  induction more generalizing changes live plain with
  | nil =>
      rw [List.append_nil]
      exact h
  | cons x rest ih =>
      rw [List.append_cons] at hids ⊢
      have hbefore := hids.sublist ((List.sublist_append_left (changes ++ [x]) rest).map Prod.fst)
      exact ih (hP.applyChange h hbefore) hids

theorem UpheldTogether.apply {P : List (Muid × Change) → Index → Index → Prop}
    (hP : UpheldTogether P) (h : P changes live plain) {b : Bundle}
    (hids : ((changes ++ b.changesWithIds).map Prod.fst).Nodup) :
    P (changes ++ b.changesWithIds) (live.apply b) (plain.apply b) := by
  rw [apply_eq, apply_eq]
  exact hP.withRecords (hP.applyChanges h hids) _ _ _ _ _ _

theorem upheldTogether_remnant : UpheldTogether Remnant where
  applyChange h hids := h.applyChange (not_mem_of_nodup hids) _
  withRecords h := h.withRecords

/-! ## The whole -/

namespace Whole

variable (hwhole : Whole live plain) (h : Remnant changes live plain)
  (hnew : id ∉ changes.map Prod.fst)
include hwhole h

/-- An entry that passes over none replaces the same one in both indexes. -/
theorem superseded?_eq {c : EntryChange} (hpasses : live.passesOver id (.entry c) = false)
    (hsuperseded : plain.superseded? id c = some p) : live.superseded? id c = some p := by
  have hm := h.traced.tidy.mirrored
  obtain ⟨hreplacing, hlt, ⟨x, hx, hkey⟩, hmax⟩ :=
    (superseded?_eq_some_iff h.plainTraced.tidy.mirrored).mp hsuperseded
  obtain rfl : x.placement = p := h.plainTraced.tidy.mirrored.placed p x hx
  have hx' : live.Remains x.placement x := h.part _ x (h.forgetful.remains_iff.mpr hx)
  have hpositional : x.key.isPositional = false := by
    rw [hkey.2, isPositional_key_entryOf, hreplacing]
    rfl
  obtain ⟨q, hq⟩ := exists_superseded? hm hx'.1 hkey hpositional hlt
  obtain ⟨-, -, ⟨y, hy, hykey⟩, hmax'⟩ := (superseded?_eq_some_iff hm).mp hq
  obtain rfl : y.placement = q := hm.placed q y hy
  rcases Muid.lt_trichotomy y.placement x.placement with hyx | heq | hxy
  · exact absurd hyx (hmax' x hx'.1 hkey hlt)
  · exact heq ▸ hq
  · -- what is replaced instead has been removed, so that the other one is passed over
    have hylt := ((superseded?_eq_some_iff hm).mp hq).2.1
    cases hremoved : live.isRemoved y.placement Int64.maxValue with
    | true =>
        have hpassed := (passesOver_entry_iff hm).mpr ⟨_, hq, hremoved, x, hx', hkey, hlt⟩
        rw [hpasses] at hpassed
        cases hpassed
    | false => exact absurd hxy (hmax y (hwhole _ y ⟨hy, hremoved⟩).1 hykey hylt)

include hnew

theorem applyEntry {c : EntryChange} (hpasses : live.passesOver id (.entry c) = false) :
    Whole (live.applyEntry id c) (plain.applyEntry id c) := by
  have hpurges := isPurged_congr h.clearances
  cases hpurged : live.isPurged (entryOf id c).container id with
  | true =>
      rw [applyEntry_of_purged hpurged, applyEntry_of_purged (hpurges ▸ hpurged)]
      exact hwhole
  | false =>
      intro p x hx
      rw [h.traced.remains_applyEntry_iff hnew hpurged] at hx
      rw [h.plainTraced.remains_applyEntry_iff hnew (hpurges ▸ hpurged)]
      rcases hx with hself | ⟨hkept, hx⟩
      · exact .inl hself
      · exact .inr ⟨fun hsuperseded => hkept (hwhole.superseded?_eq h hpasses hsuperseded),
          hwhole p x hx⟩

theorem applyMovement (m : MovementChange) :
    Whole (live.applyMovement id m) (plain.applyMovement id m) := by
  cases hcurrent : plain.current? (movedEntry id m) with
  | none =>
      have hlive : live.applyMovement id m = live := by
        rcases applyMovement_eq_or live id m with hsame | ⟨y, hy, -⟩
        · exact hsame
        · -- a place that the entry has with history is left without it
          obtain ⟨hy, hentry, -⟩ :=
            (current?_eq_some_iff_remains h.traced.tidy.mirrored).mp hy
          have hy' := h.current?_eq_of_remains (hwhole _ y hy)
          rw [hentry, hcurrent] at hy'
          cases hy'
      rw [applyMovement_of_none hcurrent, hlive]
      exact hwhole
  | some x =>
      rcases h.applyMovement_cases hcurrent with ⟨hplain, hlive⟩ | ⟨hplain, hlive, -, -⟩
      · rw [hplain, hlive]
        exact hwhole
      · obtain ⟨hx, -⟩ := (current?_eq_some_iff_remains h.plainTraced.tidy.mirrored).mp hcurrent
        rw [hplain, hlive]
        intro p y hy
        rw [h.traced.remains_moveFrom_iff hnew (h.part _ x hx).1] at hy
        rw [h.plainTraced.remains_moveFrom_iff hnew hx.1]
        exact hy.imp_right fun ⟨hp, hy⟩ => ⟨hp, hwhole p y hy⟩

omit hnew in
theorem applyClearance (hhome : MovesAtHome changes) (c : ClearanceChange) :
    Whole (live.applyClearance id c) (plain.applyClearance id c) := by
  intro p x hx
  obtain ⟨hx, hkept⟩ := (h.traced.remains_applyClearance_iff hhome).mp hx
  exact remains_applyClearance h.plainTraced.tidy.mirrored (hwhole p x hx) hkept

/-- **A change keeps the index without history whole** if it passes over no entry, as far as entries
are moved at home. -/
theorem applyChange (hhome : MovesAtHome changes) {c : Change}
    (hpasses : live.passesOver id c = false) :
    Whole (live.applyChange id c) (plain.applyChange id c) := by
  cases c with
  | container behavior => exact hwhole
  | entry c => exact hwhole.applyEntry h hnew hpasses
  | movement m => exact hwhole.applyMovement h hnew m
  | clearance c => exact hwhole.applyClearance h hhome c

end Whole

namespace Whole

theorem empty (keepingHistory : Bool) : Whole (.empty keepingHistory) (.empty false) :=
  fun p x hx => by cases hx.1

theorem applyChanges (hwhole : Whole live plain) (h : Remnant changes live plain)
    (hids : ((changes ++ more).map Prod.fst).Nodup) (hhome : MovesAtHome (changes ++ more))
    (hpasses : live.everPassesOver more = false) :
    Whole (live.applyChanges more) (plain.applyChanges more) := by
  induction more generalizing changes live plain with
  | nil => exact hwhole
  | cons x rest ih =>
      obtain ⟨id, c⟩ := x
      rw [everPassesOver, Bool.or_eq_false_iff] at hpasses
      rw [List.append_cons] at hids hhome
      have hnew := not_mem_of_nodup
        (hids.sublist ((List.sublist_append_left (changes ++ [(id, c)]) rest).map Prod.fst))
      have hhome' : MovesAtHome changes := by
        rw [List.append_assoc] at hhome
        exact hhome.mono (List.sublist_append_left _ _)
      exact ih (hwhole.applyChange h hnew hhome' hpasses.1) (h.applyChange hnew c) hids hhome
        hpasses.2

theorem stopHistory (hwhole : Whole live plain) (hm : Mirrored live) :
    Whole live.stopHistory plain :=
  fun p x hx => hwhole p x ((remains_stopHistory_iff hm).mp hx)

theorem withRecords (hwhole : Whole live plain) (chains : SortedMap ChainKey BundleInfo)
    (bundles : SortedMap BundleKey Bundle) (claims : List ClaimedChain)
    (chains' : SortedMap ChainKey BundleInfo) (bundles' : SortedMap BundleKey Bundle)
    (claims' : List ClaimedChain) : Whole (live.withRecords chains bundles claims)
      (plain.withRecords chains' bundles' claims') :=
  hwhole

end Whole

end GossipStore.Index
