import GossipStore.Proofs.Index.Chains
import GossipStore.Proofs.Index.Remnants

set_option autoImplicit false

/-! # Not keeping history

An index that keeps no history deletes what one that keeps it would record as removed. If bundles
come in the order of their times and owners, an entry that comes in passes over no other, because
what the history-keeping index has removed at a key lies under all that it has not
(`Layered.passesOver_eq_false`). If besides movements name no container or that of their entry, the
index without history has at all times just what the other one has not removed (`Condenses`), and
both answer alike about the present (`history_optional`).
-/

namespace GossipStore

namespace Index

variable {full plain : Index} {id p : Muid} {changes : List (Muid × Change)} {e x y : Entry}

/-- Whether changes come in the order of their addresses. -/
def Ascending (changes : List (Muid × Change)) : Prop := (changes.map Prod.fst).Pairwise (· < ·)

namespace Ascending

theorem nodup (h : Ascending changes) : (changes.map Prod.fst).Nodup :=
  List.Pairwise.imp (fun {a b} hlt => by
    rintro rfl
    exact Muid.lt_irrefl a hlt) h

theorem mono (h : Ascending changes) {fewer : List (Muid × Change)}
    (hsub : fewer.Sublist changes) : Ascending fewer :=
  List.Pairwise.sublist (hsub.map Prod.fst) h

theorem inOrderUpTo (h : Ascending changes) (g : Entry) : InOrderUpTo changes g := by
  refine (List.pairwise_map.mp h).filterMap _ fun x y hlt e he f hf _ _ _ _ => ?_
  obtain ⟨q, d⟩ := x
  obtain ⟨q', d'⟩ := y
  cases d with
  | entry c =>
      cases d' with
      | entry c' =>
          cases he
          cases hf
          exact hlt
      | _ => cases hf
  | _ => cases he

end Ascending

/-- The changes of bundles in the order of their times and owners come in the order of their
addresses. -/
theorem ascending_flatMap_changesWithIds {bs : List Bundle}
    (hkeys : bs.Pairwise fun a b => compare a.key b.key = .lt)
    (hsize : ∀ b ∈ bs, b.changes.length < 0x100000000) :
    Ascending (bs.flatMap Bundle.changesWithIds) := by
  rw [Ascending, List.map_flatMap, List.pairwise_flatMap]
  refine ⟨fun b hb => ?_, hkeys.imp fun {a b} hlt q hq q' hq' => ?_⟩
  · rw [Bundle.changesWithIds, List.map_map, List.pairwise_map, List.pairwise_iff_getElem]
    intro i j hi hj hlt
    -- no offset of a bundle of this size is cut off
    have hsize := hsize b hb
    rw [List.length_zipIdx] at hi hj
    refine Muid.lt_iff.mpr (.inr ⟨rfl, .inr ⟨rfl, UInt32.lt_iff_toNat_lt.mpr ?_⟩⟩)
    simp only [List.getElem_zipIdx, Function.comp, Bundle.changeId, UInt32.toNat_ofNat']
    omega
  · simp only [Bundle.changesWithIds, List.map_map, List.mem_map] at hq hq'
    obtain ⟨x, -, rfl⟩ := hq
    obtain ⟨y, -, rfl⟩ := hq'
    rcases BundleKey.lt_iff.mp hlt with htime | ⟨htime, howner⟩
    · exact Muid.lt_iff.mpr (.inl htime)
    · exact Muid.lt_iff.mpr (.inr ⟨htime, .inl howner⟩)

/-! ## The simulation relation -/

/-- How an index without history stands to one with history after the same changes: it has just
what that one has not removed. -/
structure Condenses (changes : List (Muid × Change)) (full plain : Index) : Prop where
  layered : Layered changes full
  traced : Traced changes plain
  forgetful : plain.Forgetful
  clearances : plain.clearances = full.clearances
  entries : ∀ p x, plain.entries.get? p = some x
    ↔ full.entries.get? p = some x ∧ full.isRemoved p Int64.maxValue = false

/-- Of two entries at a key the older one has been removed if entries come in order. -/
theorem Layered.isRemoved_of_lt (h : Layered changes full) (horder : InOrderUpTo changes y)
    (hx : full.entries.get? x.placement = some x) (hy : full.entries.get? y.placement = some y)
    (hkey : AtKey y.container y.key x) (hpositional : y.key.isPositional = false)
    (hlt : x.placement < y.placement) :
    full.isRemoved x.placement Int64.maxValue = true := by
  have hxkey : x.key.isPositional = false := hkey.2 ▸ hpositional
  have hpair := horder.sublist (h.traced.mem_written hx hxkey) (h.traced.mem_written hy hpositional)
    hkey ⟨rfl, rfl⟩ hlt (Muid.lt_irrefl _)
  exact (h.superseded x y hx hxkey hpair hkey hlt horder).isRemoved (Int64.le_maxValue _)

/-- An entry that comes after all others passes over none. -/
theorem Layered.passesOver_eq_false (h : Layered changes full) (hascending : Ascending changes)
    (c : Change) : full.passesOver id c = false := by
  rw [← Bool.not_eq_true]
  intro hpasses
  cases c with
  | entry c =>
      have hm := h.traced.tidy.mirrored
      obtain ⟨q, hq, hremoved, x, hx, hkey, hlt⟩ := (passesOver_entry_iff hm).mp hpasses
      obtain ⟨hreplacing, -, ⟨y, hy, hykey⟩, hmax⟩ := (superseded?_eq_some_iff hm).mp hq
      obtain rfl : y.placement = q := hm.placed q y hy
      -- the newer of the two would have removed the older one
      have hpositional : y.key.isPositional = false := by
        rw [hykey.2, isPositional_key_entryOf, hreplacing]
        rfl
      rcases Muid.lt_trichotomy x.placement y.placement with hxy | heq | hyx
      · have hxremoved := h.isRemoved_of_lt (hascending.inOrderUpTo y) hx.1 hy
          ⟨hkey.1.trans hykey.1.symm, hkey.2.trans hykey.2.symm⟩ hpositional hxy
        rw [hx.2] at hxremoved
        cases hxremoved
      · rw [← heq, hx.2] at hremoved
        cases hremoved
      · exact hmax x hx.1 hkey hlt hyx
  | _ => cases hpasses

theorem Layered.everPassesOver_eq_false {more : List (Muid × Change)} (h : Layered changes full)
    (hascending : Ascending (changes ++ more)) : full.everPassesOver more = false := by
  induction more generalizing changes full with
  | nil => rfl
  | cons x rest ih =>
      obtain ⟨id, c⟩ := x
      have hbefore := hascending.mono (List.sublist_append_left changes _)
      rw [List.append_cons] at hascending
      have hnew := not_mem_of_nodup (hascending.mono (List.sublist_append_left _ rest)).nodup
      rw [everPassesOver, h.passesOver_eq_false hbefore, Bool.false_or]
      exact ih (h.applyChange hnew c) hascending

/-- **After every run of changes** in order, with entries moved at home, an index without history
has what one with history has not removed. -/
theorem condenses_applyChanges (hascending : Ascending changes) (hhome : MovesAtHome changes) :
    Condenses changes ((empty true).applyChanges changes) ((empty false).applyChanges changes) := by
  have hremnant : Remnant changes ((empty true).applyChanges changes)
      ((empty false).applyChanges changes) := 
    upheldTogether_remnant.applyChanges (.empty true) hascending.nodup
  have hpasses : (empty true).everPassesOver changes = false :=
    Layered.empty.everPassesOver_eq_false hascending
  have hwhole : Whole ((empty true).applyChanges changes) ((empty false).applyChanges changes) :=
    (Whole.empty true).applyChanges (.empty true) hascending.nodup hhome hpasses
  exact {
    layered := layered_applyChanges hascending.nodup
    traced := hremnant.plainTraced
    forgetful := hremnant.forgetful
    clearances := hremnant.clearances
    entries := fun p x => ⟨fun hx => hremnant.part p x (hremnant.forgetful.remains_iff.mpr hx),
      fun hx => (hwhole p x hx).1⟩ }

namespace Condenses

variable (h : Condenses changes full plain)
include h

theorem withRecords (chains chains' : SortedMap ChainKey BundleInfo)
    (bundles bundles' : SortedMap BundleKey Bundle) (claims claims' : List ClaimedChain) :
    Condenses changes (full.withRecords chains bundles claims)
      (plain.withRecords chains' bundles' claims') where
  layered := h.layered.withRecords chains bundles claims
  traced := h.traced.withRecords chains' bundles' claims'
  forgetful := ⟨h.forgetful.notKeeping, h.forgetful.nothing⟩
  clearances := h.clearances
  entries := h.entries

/-! ### The present -/

/-- What an index without history lacks does not stand. -/
theorem thinned : Thinned Int64.maxValue full plain where
  stored p x hx := ((h.entries p x).mp hx).1
  standing x := by
    rw [h.traced.tidy.mirrored.standsAt_iff, h.layered.traced.tidy.mirrored.standsAt_iff,
      isLive_iff, isLive_iff, h.entries, isCleared_congr h.clearances,
      h.forgetful.isRemoved_eq_false]
    tauto

/-- **Both indexes answer alike about the present.** -/
theorem readAlike (hundivided : Undivided changes full) (hascending : Ascending changes) :
    ReadAlike .latest full plain :=
  h.thinned.readAlike h.layered.traced.tidy.mirrored h.traced.tidy.mirrored (.inr ⟨rfl, rfl⟩)
    (fun _ _ hkey => h.layered.topStands (fun g _ _ _ => hascending.inOrderUpTo g) hkey)
    (hundivided.topStands hascending.nodup)

end Condenses

/-! ## Acceptance -/

/-- Whether history is kept makes no difference to what is accepted. -/
theorem offerAll_history (bs : List Bundle) :
    ((empty false).offerAll bs).2 = ((empty true).offerAll bs).2 := by
  have hchains : (empty false).chains = (empty true).chains := rfl
  exact offerAll_congr hchains bs

theorem condenses_offerAll {arrivals : List Bundle} (hascending : Ascending (applied true arrivals))
    (hhome : MovesAtHome (applied true arrivals)) :
    Condenses (applied true arrivals) ((empty true).offerAll arrivals).1
      ((empty false).offerAll arrivals).1 := by
  have hsame : applied false arrivals = applied true arrivals := by
    rw [applied, applied, offerAll_history]
  obtain ⟨chains, bundles, claims, heq⟩ := exists_offerAll_eq true arrivals
  obtain ⟨chains', bundles', claims', heq'⟩ := exists_offerAll_eq false arrivals
  rw [heq, heq', hsame]
  exact (condenses_applyChanges hascending hhome).withRecords chains chains' bundles bundles' claims
    claims'

/-- **Keeping history is optional.** Offer bundles in the order of their times and owners, of fewer
changes than there are offsets, in which movements name no container or that of their entry, to an
index that keeps history, and let it accept all of them. Then an index that keeps none accepts them
as well, and after each of them it has just what the other one has not removed and answers all
questions about the present alike. -/
theorem history_optional (arrivals : List Bundle)
    (hkeys : arrivals.Pairwise fun a b => compare a.key b.key = .lt)
    (hsize : ∀ b ∈ arrivals, b.changes.length < 0x100000000)
    (hhome : MovesAtHome (arrivals.flatMap Bundle.changesWithIds))
    (haccepted : ((empty true).offerAll arrivals).2 = arrivals) (before : List Bundle)
    (hbefore : before <+: arrivals) :
    let full := ((empty true).offerAll before).1
    let plain := ((empty false).offerAll before).1
    ((empty false).offerAll before).2 = before
      ∧ (∀ p e, plain.entries.get? p = some e
        ↔ full.entries.get? p = some e ∧ full.isRemoved p Int64.maxValue = false)
      ∧ ReadAlike .latest full plain := by
  intro full plain
  have hfull : ((empty true).offerAll before).2 = before := offerAll_eq_of_prefix haccepted hbefore
  have happlied : applied true before = before.flatMap Bundle.changesWithIds := by
    rw [applied, hfull]
  obtain ⟨later, rfl⟩ := hbefore
  have hascending : Ascending (applied true before) := by
    rw [happlied]
    exact ascending_flatMap_changesWithIds (hkeys.sublist (List.sublist_append_left before later))
      fun b hb => hsize b (List.mem_append_left later hb)
  have hhome' : MovesAtHome (applied true before) := by
    rw [happlied]
    rw [List.flatMap_append] at hhome
    exact hhome.mono (List.sublist_append_left _ _)
  have h : Condenses (applied true before) full plain := condenses_offerAll hascending hhome'
  exact ⟨(offerAll_history before).trans hfull, h.entries,
    h.readAlike (undivided_offerAll hascending.nodup hhome') hascending⟩

/-- Two owners replace, delete, move, take away and clear what they have written, and drop some of
it for good. -/
theorem history_optional_everyKind :
    let sequence : Muid := ⟨-1, -1, 2⟩
    let other : Muid := ⟨-1, -1, 4⟩
    let write (key : String) (value : UInt8) : Change := .setKey .root (.text key) [value]
    let first := Bundle.ofValid ⟨10, 1, 10, none, none⟩
      [write "k" 1, write "j" 2, .push sequence [3], .push sequence [4], .push other [5]] rfl
      (by decide) (by decide)
    let second := Bundle.ofValid ⟨10, 2, 10, none, none⟩
      [write "k" 6, .deleteKey .root (.text "j"), .moveEntry sequence ⟨10, 1, 3⟩ 7] rfl (by decide)
      (by decide)
    let third := Bundle.ofValid ⟨20, 1, 10, some 10, none⟩
      [.removeEntry sequence ⟨10, 1, 3⟩ false, .removeEntry .root ⟨10, 2, 1⟩ true, write "k" 8] rfl
      (by decide) (by decide)
    let fourth := Bundle.ofValid ⟨30, 2, 10, some 10, none⟩
      [.clear sequence false, .clear other true, .push sequence [9]] rfl (by decide) (by decide)
    let arrivals := [first, second, third, fourth]
    let full := ((empty true).offerAll arrivals).1
    let plain := ((empty false).offerAll arrivals).1
    ((empty false).offerAll arrivals).2 = arrivals ∧ ReadAlike .latest full plain
      ∧ full.entryCount = 8 ∧ plain.entryCount = 4 := by
  intro sequence other write first second third fourth arrivals full plain
  have haccepted : ((empty true).offerAll arrivals).2 = arrivals := by decide +kernel
  obtain ⟨hplain, -, halike⟩ := history_optional arrivals (by decide +kernel) (by decide +kernel)
    (names_of_forall (by decide +kernel)) haccepted arrivals (List.prefix_refl _)
  exact ⟨hplain, halike, by decide +kernel, by decide +kernel⟩

end Index

end GossipStore
