import GossipStore.Proofs.Index.Containment

set_option autoImplicit false

/-! # Containers that a bundle does not touch

A bundle touches the containers that its entries and clearances name. What else it does happens in
the containers of the entries that it moves, and where it purges one: a removal is dropped with the
container under which it is recorded. So a container stays as it is if a bundle does not touch it,
moves none of its entries and purges no container under which a removal of them is recorded
(`sameWithin_applyChanges`).
-/

namespace GossipStore.Index

variable {ix ix' ix'' : Index} {container id p : Muid} {changes more : List (Muid × Change)}

/-! ## Updates elsewhere -/

namespace SameWithin

theorem refl (container : Muid) (ix : Index) : SameWithin container ix ix :=
  ⟨fun _ _ => Iff.rfl, fun _ _ _ _ _ => rfl, fun _ _ => rfl⟩

theorem trans (h : SameWithin container ix ix') (h' : SameWithin container ix' ix'') :
    SameWithin container ix ix'' where
  entries x hx := (h'.entries x hx).trans (h.entries x hx)
  removals x k hx hcontainer hk :=
    (h'.removals x k ((h.entries x hcontainer).mpr hx) hcontainer hk).trans
      (h.removals x k hx hcontainer hk)
  clearances k hk := (h'.clearances k hk).trans (h.clearances k hk)

theorem insertEntry {e : Entry} (hother : e.container ≠ container)
    (hfree : ix.entries.get? e.placement = none) : SameWithin container ix (ix.insertEntry e) where
  entries x hx := by
    rw [get?_entries_insertEntry]
    split
    · rename_i hplaced
      rw [hplaced, hfree, Option.some.injEq]
      constructor
      · rintro rfl
        exact absurd hx hother
      · intro hnone
        cases hnone
    · exact Iff.rfl
  removals _ _ _ _ _ := rfl
  clearances _ _ := rfl

theorem deleteEntry (hother : ∀ x, ix.entries.get? p = some x → x.container ≠ container) :
    SameWithin container ix (ix.deleteEntry p) := by
  obtain ⟨-, hremovals, -, hclearances⟩ := deleteEntry_frame ix p
  refine ⟨fun x hx => ?_, fun _ k _ _ _ => by rw [hremovals], fun k _ => by rw [hclearances]⟩
  rw [get?_entries_deleteEntry]
  split
  · rename_i hplaced
    constructor
    · intro hnone
      cases hnone
    · intro hstored
      exact absurd hx (hother x (hplaced ▸ hstored))
  · exact Iff.rfl

theorem insertRemoval {r : Removal}
    (hother : ∀ x, ix.entries.get? r.removing = some x → x.container ≠ container) :
    SameWithin container ix (ix.insertRemoval r) where
  entries _ _ := Iff.rfl
  removals x k hx hcontainer hk := by
    rw [get?_removals_insertRemoval, if_neg]
    rintro rfl
    have hremoving : r.removing = x.placement := hk
    exact hother x (hremoving ▸ hx) hcontainer
  clearances _ _ := rfl

end SameWithin

/-! ## Changes -/

/-- Whether a change has nothing to do with a container: it does not touch it, moves no entry of it,
and purges no other one under which a removal of such an entry is recorded. -/
structure Bypasses (container : Muid) (ix : Index) (x : Muid × Change) : Prop where
  touches : x.2.touchedContainer? x.1.timestamp x.1.medallion ≠ some container
  moves : ∀ m, x.2 = .movement m → ∀ e, ix.entries.get? e.placement = some e →
    e.entryId = movedEntry x.1 m → e.container ≠ container
  purges : ∀ c, x.2 = .clearance c → c.purge = true → ∀ k r e, ix.removals.get? k = some r →
    ix.entries.get? k.removing = some e → e.container = container →
    r.container ≠ clearedContainer x.1 c

/-- Where a container stays as it is, so does what has nothing to do with it. -/
theorem Bypasses.congr {x : Muid × Change} (h : Bypasses container ix x)
    (hsame : SameWithin container ix ix') (hm' : Mirrored ix') : Bypasses container ix' x where
  touches := h.touches
  moves m hm e he hentry hcontainer :=
    h.moves m hm e ((hsame.entries e hcontainer).mp he) hentry hcontainer
  purges c hc hpurge k r e hr he hcontainer := by
    have hplaced : e.placement = k.removing := hm'.placed _ e he
    rw [← hplaced] at he
    have he := (hsame.entries e hcontainer).mp he
    rw [hsame.removals e k he hcontainer hplaced.symm] at hr
    exact h.purges c hc hpurge k r e hr (hplaced ▸ he) hcontainer

section Steps

variable (h : Traced changes ix) (hnew : id ∉ changes.map Prod.fst)
include h hnew

/-- An entry of another container replaces one of its own container. -/
theorem sameWithin_applyEntry {c : EntryChange} (hother : (entryOf id c).container ≠ container) :
    SameWithin container ix (ix.applyEntry id c) := by
  have hfree : (ix.makeRoom id c).entries.get? id = none := h.get?_entries_makeRoom hnew c
  have hroom : SameWithin container ix (ix.makeRoom id c) := by
    cases hsuperseded : ix.superseded? id c with
    | none =>
        rw [makeRoom_of_none hsuperseded]
        exact .refl container ix
    | some previous =>
        obtain ⟨-, -, ⟨y, hy, hkey⟩, -⟩ :=
          (superseded?_eq_some_iff h.tidy.mirrored).mp hsuperseded
        have helsewhere : ∀ x, ix.entries.get? previous = some x → x.container ≠ container := by
          intro x hx
          obtain rfl : y = x := Option.some.inj (hy.symm.trans hx)
          exact hkey.1 ▸ hother
        rw [makeRoom_of_some hsuperseded]
        split
        · exact .insertRemoval helsewhere
        · exact .deleteEntry helsewhere
  rw [applyEntry_eq]
  split
  · exact .refl container ix
  · exact hroom.trans (.insertEntry hother hfree)

/-- A moved entry stays in its container. -/
theorem sameWithin_applyMovement {m : MovementChange}
    (hother : ∀ e, ix.entries.get? e.placement = some e → e.entryId = movedEntry id m →
      e.container ≠ container) : SameWithin container ix (ix.applyMovement id m) := by
  rcases applyMovement_eq_or ix id m with hsame | ⟨x, hcurrent, -, -, hmoves⟩
  · rw [hsame]
    exact .refl container ix
  obtain ⟨hx, hentry, -, -⟩ := (current?_eq_some_iff h.tidy.mirrored).mp hcurrent
  have hxother : x.container ≠ container := hother x hx hentry
  have hinserted : SameWithin container ix (ix.insertMoved id m x) := by
    rw [insertMoved]
    split
    · exact .refl container ix
    · exact .insertEntry hxother (h.free hnew).1
  have hleft : ∀ y, (ix.insertMoved id m x).entries.get? x.placement = some y →
      y.container ≠ container := by
    intro y hy
    rw [get?_entries_insertMoved] at hy
    split at hy
    · cases hy
      exact hxother
    · rw [hx] at hy
      cases hy
      exact hxother
  rw [hmoves, moveFrom]
  split
  · exact hinserted.trans (.deleteEntry hleft)
  · exact hinserted.trans (.insertRemoval hleft)

end Steps

/-- **What has nothing to do with a container leaves it as it is.** -/
theorem sameWithin_applyChange (h : Traced changes ix) (hnew : id ∉ changes.map Prod.fst)
    {c : Change} (hbypasses : Bypasses container ix (id, c)) :
    SameWithin container ix (ix.applyChange id c) := by
  cases c with
  | container behavior => exact ⟨fun _ _ => Iff.rfl, fun _ _ _ _ _ => rfl, fun _ _ => rfl⟩
  | entry c =>
      refine sameWithin_applyEntry h hnew fun heq => hbypasses.touches ?_
      exact congrArg some heq
  | movement m => exact sameWithin_applyMovement h hnew (hbypasses.moves m rfl)
  | clearance c =>
      have hother : container ≠ clearedContainer id c := fun heq =>
        hbypasses.touches (congrArg some heq.symm)
      exact (spares_applyClearance_of_purge h.tidy.mirrored (hbypasses.purges c rfl)
        hother).sameWithin

theorem sameWithin_applyChanges (h : Traced changes ix)
    (hids : ((changes ++ more).map Prod.fst).Nodup)
    (hbypass : ∀ x ∈ more, Bypasses container ix x) :
    SameWithin container ix (ix.applyChanges more) := by
  induction more generalizing changes ix with
  | nil => exact .refl container ix
  | cons x rest ih =>
      obtain ⟨id, c⟩ := x
      obtain ⟨hfirst, hrest⟩ := List.forall_mem_cons.mp hbypass
      rw [List.append_cons] at hids
      have hnew := not_mem_of_nodup
        (hids.sublist ((List.sublist_append_left (changes ++ [(id, c)]) rest).map Prod.fst))
      have htraced := h.applyChange hnew c
      have hsame := sameWithin_applyChange h hnew hfirst
      exact hsame.trans (ih htraced hids fun y hy =>
        (hrest y hy).congr hsame htraced.tidy.mirrored)

/-! ## Bundles -/

/-- The containers that some changes purge. -/
def purgedBy (changes : List (Muid × Change)) : List Muid :=
  changes.filterMap fun x =>
    match x with
    | (id, .clearance c) => if c.purge then some (clearedContainer id c) else none
    | _ => none

theorem clearedContainer_mem_purgedBy {c : ClearanceChange} (hmem : (id, .clearance c) ∈ changes)
    (hpurge : c.purge = true) : clearedContainer id c ∈ purgedBy changes :=
  List.mem_filterMap.mpr ⟨_, hmem, if_pos hpurge⟩

/-- Whether some changes move an entry that is stored in a container. -/
def MovesEntriesOf (container : Muid) (ix : Index) (changes : List (Muid × Change)) : Prop :=
  ∃ id m e, (id, Change.movement m) ∈ changes ∧ ix.entries.get? e.placement = some e
    ∧ e.entryId = movedEntry id m ∧ e.container = container

variable {b : Bundle} {t : Timestamp} {asOf : AsOf}

/-- A bundle touches what its changes touch at their addresses. -/
theorem mem_touched {x : Muid × Change} (hx : x ∈ b.changesWithIds)
    (htouches : x.2.touchedContainer? x.1.timestamp x.1.medallion = some container) :
    container ∈ b.touched := by
  obtain ⟨⟨c, n⟩, hmem, rfl⟩ := List.mem_map.mp hx
  exact List.mem_filterMap.mpr ⟨c, List.fst_mem_of_mem_zipIdx hmem, htouches⟩

section Untouched

variable (h : Traced changes ix) (hids : ((changes ++ b.changesWithIds).map Prod.fst).Nodup)
  (hnames : Names (fun home named => home = container → named ∉ purgedBy b.changesWithIds) changes)
  (huntouched : container ∉ b.touched)
  (hstay : ¬ MovesEntriesOf container ix b.changesWithIds)
include h hids hnames huntouched hstay

/-- **A bundle that does not touch a container leaves it as it is**, if it moves none of its entries
and purges nothing that movements of them have named. -/
theorem sameWithin_apply : SameWithin container ix (ix.apply b) := by
  have hsame : SameWithin container ix (ix.applyChanges b.changesWithIds) := by
    refine sameWithin_applyChanges h hids fun x hx => ?_
    obtain ⟨id, c⟩ := x
    refine ⟨fun htouches => huntouched (mem_touched hx htouches), fun m hm e he hentry hcontainer =>
      hstay ⟨id, m, e, hm ▸ hx, he, hentry, hcontainer⟩, ?_⟩
    rintro d rfl hpurge k r e hr he hcontainer hcleared
    rcases h.within hnames hr he with hhome | hnamed
    · have htouches : clearedContainer id d = container := by rw [← hcleared, hhome, hcontainer]
      exact huntouched (mem_touched hx (congrArg some htouches))
    · exact hnamed hcontainer (hcleared ▸ clearedContainer_mem_purgedBy hx hpurge)
  rw [apply_eq]
  exact ⟨hsame.entries, hsame.removals, hsame.clearances⟩

/-- So it shows the same at every moment. -/
theorem lists_apply (hmoment : Moment asOf t) :
    ix.keyedEntries container asOf = (ix.apply b).keyedEntries container asOf
      ∧ ∀ limit, ix.orderedEntries container limit asOf
        = (ix.apply b).orderedEntries container limit asOf := by
  have hm := h.tidy.mirrored
  have hm' : Mirrored (ix.apply b) := (h.tidy.apply (List.map_append ▸ hids)).mirrored
  have hstands (x : Entry) (hx : x.container = container) :
      ix.StandsAt t x ↔ (ix.apply b).StandsAt t x :=
    (sameWithin_apply h hids hnames huntouched hstay).standsAt_iff hm hm' hx
  exact ⟨keyedEntries_congr hm hm' hmoment hstands, orderedEntries_congr hm hm' hmoment hstands⟩

end Untouched

end GossipStore.Index
