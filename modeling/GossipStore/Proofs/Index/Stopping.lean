import GossipStore.Proofs.Index.Remnants

set_option autoImplicit false

/-! # Stopping to keep history

An index keeps history for some changes, then stops and goes on without it. Another index applies
the same changes and has never kept any. As soon as the first one has stopped neither passes over
anything, so the second one lacks what it lacked by then (`Stopped`), and answers alike about the
present if nothing of that stands (`Stopped.readAlike_iff`).
-/

namespace GossipStore.Index

variable {live plain ix : Index} {changes : List (Muid × Change)} {x : Entry}

/-! ## The present -/

/-- What stands at last is what remains and has not been cleared. -/
theorem Mirrored.standsAt_latest_iff (hm : Mirrored ix) : ix.StandsAt Int64.maxValue x
    ↔ ix.Remains x.placement x ∧ ix.isCleared x Int64.maxValue = false := by
  rw [hm.standsAt_iff, isLive_iff, Remains]
  have hle : x.placedAt ≤ Int64.maxValue := Int64.le_maxValue _
  tauto

namespace Remnant

variable (h : Remnant changes live plain)
include h

theorem thinned (hleft : ∀ x, live.StandsAt Int64.maxValue x → plain.Remains x.placement x) :
    Thinned Int64.maxValue live plain where
  stored p x hx := (h.part p x (h.forgetful.remains_iff.mpr hx)).1
  standing x := by
    rw [h.plainTraced.tidy.mirrored.standsAt_latest_iff, isCleared_congr h.clearances]
    constructor
    · rintro ⟨hx, hcleared⟩
      exact h.traced.tidy.mirrored.standsAt_latest_iff.mpr ⟨h.part _ x hx, hcleared⟩
    · intro hx
      exact ⟨hleft x hx, (h.traced.tidy.mirrored.standsAt_latest_iff.mp hx).2⟩

/-- **If all is left that stands**, both indexes answer alike about the present, once the first one
has no history either. -/
theorem readAlike (hids : (changes.map Prod.fst).Nodup) (hforgetful : live.Forgetful)
    (hleft : ∀ x, live.StandsAt Int64.maxValue x → plain.Remains x.placement x) :
    ReadAlike .latest live plain := by
  have hm := h.traced.tidy.mirrored
  have htop {P : Entry → Prop} (hcontainer : ∀ e f, live.entries.get? e.placement = some e →
      live.entries.get? f.placement = some f → P e → P f → e.container = f.container) :
      live.TopStands Int64.maxValue P := by
    refine topStands_of_removed hm hcontainer fun e n _ _ _ _ _ _ _ hremoved => ?_
    rw [hforgetful.isRemoved_eq_false] at hremoved
    cases hremoved
  exact (h.thinned hleft).readAlike hm h.plainTraced.tidy.mirrored (.inr ⟨rfl, rfl⟩)
    (fun _ _ _ => htop fun e f _ _ he hf => he.1.trans hf.1.symm)
    (fun _ => htop fun e f he hf hee hfe => h.traced.container_eq hids he hf (hee.trans hfe.symm))

/-- If both indexes answer alike about the present, all is left that stands. -/
theorem remains_of_readAlike (hids : (changes.map Prod.fst).Nodup)
    (hundivided : Undivided changes live) (halike : ReadAlike .latest live plain)
    (hx : live.StandsAt Int64.maxValue x) : plain.Remains x.placement x := by
  have hm := h.traced.tidy.mirrored
  have hm' := h.plainTraced.tidy.mirrored
  have htops := (hundivided.tops_iff hids).mpr ⟨rfl, hx⟩
  have hsame := (entryById_eq_iff hm hm' (.inr ⟨rfl, rfl⟩)).mp (halike.byId x.entryId) x
  exact (hm'.standsAt_latest_iff.mp (hsame.mp htops).stands).1

end Remnant

/-! ## Stopping -/

/-- What two indexes have after some changes, one with history and one without. -/
def AfterBoth (changes : List (Muid × Change)) (live plain : Index) : Prop :=
  (∃ chains bundles claims,
      live = ((empty true).applyChanges changes).withRecords chains bundles claims)
    ∧ ∃ chains bundles claims,
      plain = ((empty false).applyChanges changes).withRecords chains bundles claims

theorem afterBoth_empty : AfterBoth [] (.empty true) (.empty false) :=
  ⟨⟨.empty, .empty, [], rfl⟩, .empty, .empty, [], rfl⟩

theorem upheldTogether_afterBoth : UpheldTogether AfterBoth where
  applyChange h _ := by
    obtain ⟨⟨chains, bundles, claims, rfl⟩, chains', bundles', claims', rfl⟩ := h
    refine ⟨⟨chains, bundles, claims, ?_⟩, chains', bundles', claims', ?_⟩
    · rw [applyChanges_concat, applyChange_withRecords]
    · rw [applyChanges_concat, applyChange_withRecords]
  withRecords h chains bundles claims chains' bundles' claims' := by
    obtain ⟨⟨_, _, _, rfl⟩, _, _, _, rfl⟩ := h
    exact ⟨⟨chains, bundles, claims, rfl⟩, chains', bundles', claims', rfl⟩

/-- How an index that has stopped keeping history after some changes stands to one that has never
kept any. -/
structure Stopped (kept changes : List (Muid × Change)) (live plain : Index) : Prop where
  remnant : Remnant changes live plain
  forgetful : live.Forgetful
  undivided : MovesAtHome changes → Undivided changes live
  whole : MovesAtHome changes → (empty true).everPassesOver kept = false → Whole live plain

theorem AfterBoth.stopHistory (h : AfterBoth changes live plain)
    (hids : (changes.map Prod.fst).Nodup) : Stopped changes changes live.stopHistory plain := by
  obtain ⟨⟨chains, bundles, claims, rfl⟩, chains', bundles', claims', rfl⟩ := h
  have hremnant := (upheldTogether_remnant.applyChanges (.empty true) hids).withRecords chains
    bundles claims chains' bundles' claims'
  have hm := hremnant.traced.tidy.mirrored
  refine ⟨hremnant.stopHistory, hm.forgetful_stopHistory, fun hhome => ?_, fun hhome hpasses => ?_⟩
  · have hundivided : Undivided changes ((empty true).applyChanges changes) :=
      upheld_undivided.applyChanges (fun _ => .empty true) hids hhome
    have hoff := (hundivided.withRecords chains bundles claims).withHistory false
    exact hoff.dropHistoryUpTo none Int64.maxValue
  · have hwhole := (Whole.empty true).applyChanges (.empty true) hids hhome hpasses
    exact (hwhole.withRecords chains bundles claims chains' bundles' claims').stopHistory hm

theorem upheldTogether_stopped (kept : List (Muid × Change)) : UpheldTogether (Stopped kept) where
  applyChange {changes live plain id c} h hids := by
    have hnew := not_mem_of_nodup hids
    have hsub := List.sublist_append_left changes [(id, c)]
    refine ⟨h.remnant.applyChange hnew c,
      h.forgetful.applyChange h.remnant.traced.tidy.mirrored id c,
      fun hhome => (h.undivided (hhome.mono hsub)).applyChange hnew hhome,
      fun hhome hpasses => ?_⟩
    -- no entry passes over another one where nothing is removed
    exact (h.whole (hhome.mono hsub) hpasses).applyChange h.remnant hnew (hhome.mono hsub)
      (h.forgetful.passesOver_eq_false id c)
  withRecords h chains bundles claims chains' bundles' claims' :=
    ⟨h.remnant.withRecords chains bundles claims chains' bundles' claims',
      ⟨h.forgetful.notKeeping, h.forgetful.nothing⟩,
      fun hhome => (h.undivided hhome).withRecords chains bundles claims, h.whole⟩

namespace Stopped

variable {kept : List (Muid × Change)} (h : Stopped kept changes live plain)
include h

/-- To stop again changes nothing. -/
theorem stopHistory : Stopped kept changes live.stopHistory plain := by
  have hm := h.remnant.traced.tidy.mirrored
  refine ⟨h.remnant.stopHistory, hm.forgetful_stopHistory, fun hhome => ?_, fun hhome hpasses => ?_⟩
  · exact ((h.undivided hhome).withHistory false).dropHistoryUpTo none Int64.maxValue
  · exact (h.whole hhome hpasses).stopHistory hm

/-- **Both indexes answer alike about the present exactly if nothing is lost that stands**, as far
as entries are moved at home. -/
theorem readAlike_iff (hids : (changes.map Prod.fst).Nodup) (hhome : MovesAtHome changes) :
    ReadAlike .latest live plain
      ↔ ∀ x, live.StandsAt Int64.maxValue x → plain.entries.get? x.placement = some x := by
  constructor
  · intro halike x hx
    exact (h.remnant.remains_of_readAlike hids (h.undivided hhome) halike hx).1
  · intro hleft
    exact h.remnant.readAlike hids h.forgetful fun x hx =>
      h.remnant.forgetful.remains_iff.mpr (hleft x hx)

/-- So they do if no entry has passed over another one while history was kept. -/
theorem readAlike (hids : (changes.map Prod.fst).Nodup) (hhome : MovesAtHome changes)
    (hpasses : (empty true).everPassesOver kept = false) : ReadAlike .latest live plain := by
  refine h.remnant.readAlike hids h.forgetful fun x hx => ?_
  have hm := h.remnant.traced.tidy.mirrored
  exact h.whole hhome hpasses _ x (hm.standsAt_latest_iff.mp hx).1

end Stopped

end GossipStore.Index
