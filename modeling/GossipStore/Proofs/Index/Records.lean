import GossipStore.Index.Apply

set_option autoImplicit false

/-! # Changes and the records of an index

The chains, the bundles and the claims of an index are its records: they say what was accepted
and by whom, and the changes of a bundle neither read nor write them. So applying a change
commutes with replacing the records (`withRecords`), and everything else about the records is a
case of that: changes leave them alone, and claims made earlier or later do not matter.
-/

namespace GossipStore.Index

/-- The same tables beside other chains, bundles and claims. -/
def withRecords (ix : Index) (chains : SortedMap ChainKey BundleInfo)
    (bundles : SortedMap BundleKey Bundle) (claims : List ClaimedChain) : Index :=
  { ix with chains, bundles, claims }

section Commutation

variable (ix : Index) (chains : SortedMap ChainKey BundleInfo)
  (bundles : SortedMap BundleKey Bundle) (claims : List ClaimedChain)

theorem insertEntry_withRecords (e : Entry) :
    (ix.withRecords chains bundles claims).insertEntry e
      = (ix.insertEntry e).withRecords chains bundles claims := rfl

theorem deleteEntry_withRecords (placement : Muid) :
    (ix.withRecords chains bundles claims).deleteEntry placement
      = (ix.deleteEntry placement).withRecords chains bundles claims := by
  simp only [deleteEntry, withRecords]
  cases ix.entries.get? placement <;> rfl

theorem insertRemoval_withRecords (r : Removal) :
    (ix.withRecords chains bundles claims).insertRemoval r
      = (ix.insertRemoval r).withRecords chains bundles claims := rfl

theorem deleteRemoval_withRecords (k : RemovalKey) :
    (ix.withRecords chains bundles claims).deleteRemoval k
      = (ix.deleteRemoval k).withRecords chains bundles claims := by
  simp only [deleteRemoval, withRecords]
  cases ix.removals.get? k <;> rfl

theorem supersede_withRecords (container previous id : Muid) :
    (ix.withRecords chains bundles claims).supersede container previous id
      = (ix.supersede container previous id).withRecords chains bundles claims := by
  unfold supersede
  by_cases h : ix.keepingHistory = true
  · rw [if_pos h, if_pos (show (ix.withRecords chains bundles claims).keepingHistory = true from h)]
    rfl
  · have h' : ¬ (ix.withRecords chains bundles claims).keepingHistory = true := h
    rw [if_neg h, if_neg h']
    exact deleteEntry_withRecords ix chains bundles claims previous

theorem applyEntry_withRecords (id : Muid) (c : EntryChange) :
    (ix.withRecords chains bundles claims).applyEntry id c
      = (ix.applyEntry id c).withRecords chains bundles claims := by
  unfold applyEntry
  have hpurged : (ix.withRecords chains bundles claims).isPurged = ix.isPurged := rfl
  have hprevious : (ix.withRecords chains bundles claims).previousAtKey? = ix.previousAtKey? := rfl
  simp only [hpurged, hprevious]
  split
  · rfl
  · -- what is replaced is found in the tables, not in the records
    cases (if (entryOf id c).behavior.isReplacing = true
        then ix.previousAtKey? (entryOf id c).container (entryOf id c).key id else none) with
    | none => rfl
    | some previous =>
        simp only [supersede_withRecords]
        rfl

theorem applyMovement_withRecords (id : Muid) (m : MovementChange) :
    (ix.withRecords chains bundles claims).applyMovement id m
      = (ix.applyMovement id m).withRecords chains bundles claims := by
  unfold applyMovement
  have hpurged : (ix.withRecords chains bundles claims).isPurged = ix.isPurged := rfl
  have hplacements : (ix.withRecords chains bundles claims).placementsOf = ix.placementsOf := rfl
  have hcurrent :
      (ix.withRecords chains bundles claims).currentPlacement? = ix.currentPlacement? := rfl
  have hentries : (ix.withRecords chains bundles claims).entries = ix.entries := rfl
  have hhistory : (ix.withRecords chains bundles claims).keepingHistory = ix.keepingHistory := rfl
  simp only [hpurged, hplacements, hcurrent, hentries, hhistory]
  split
  · rfl
  · cases (ix.currentPlacement? (m.entry.resolve id.timestamp id.medallion)).bind
        ix.entries.get? with
    | none => rfl
    | some found =>
        simp only
        by_cases hp : ix.isPurged found.container id = true
        · rw [if_pos hp, if_pos hp]
        · rw [if_neg hp, if_neg hp]
          -- Whether the entry gets a new placement and what becomes of the old one are apart.
          by_cases hd : m.dest = 0 <;> by_cases hk : (m.purge || !ix.keepingHistory) = true
          all_goals simp only [hd, hk, if_true, if_false, insertEntry_withRecords,
            deleteEntry_withRecords, insertRemoval_withRecords, Bool.false_eq_true]

theorem purgeContainer_withRecords (container clearanceId : Muid) :
    (ix.withRecords chains bundles claims).purgeContainer container clearanceId
      = (ix.purgeContainer container clearanceId).withRecords chains bundles claims := by
  have hentries (l : List Muid) (ix : Index) :
      l.foldl deleteEntry (ix.withRecords chains bundles claims)
        = (l.foldl deleteEntry ix).withRecords chains bundles claims :=
    List.foldl_hom (withRecords · chains bundles claims)
      (fun ix p => deleteEntry_withRecords ix chains bundles claims p)
  have hremovals (l : List RemovalKey) (ix : Index) :
      l.foldl deleteRemoval (ix.withRecords chains bundles claims)
        = (l.foldl deleteRemoval ix).withRecords chains bundles claims :=
    List.foldl_hom (withRecords · chains bundles claims)
      (fun ix k => deleteRemoval_withRecords ix chains bundles claims k)
  have hrows : (ix.withRecords chains bundles claims).byKey = ix.byKey := rfl
  simp only [purgeContainer, hrows, hentries]
  -- the removals to drop are read off once the entries are gone
  rw [show ∀ ix : Index, (ix.withRecords chains bundles claims).removalsByContainer
    = ix.removalsByContainer from fun _ => rfl, hremovals]
  rfl

theorem applyClearance_withRecords (id : Muid) (c : ClearanceChange) :
    (ix.withRecords chains bundles claims).applyClearance id c
      = (ix.applyClearance id c).withRecords chains bundles claims := by
  unfold applyClearance
  by_cases h : c.purge = true
  · simp only [if_pos h, purgeContainer_withRecords]
    rfl
  · simp only [if_neg h]
    rfl

/-- Changes neither read nor write the records. -/
theorem applyChange_withRecords (id : Muid) (c : Change) :
    (ix.withRecords chains bundles claims).applyChange id c
      = (ix.applyChange id c).withRecords chains bundles claims := by
  cases c with
  | container behavior => rfl
  | entry e => exact applyEntry_withRecords ix chains bundles claims id e
  | movement m => exact applyMovement_withRecords ix chains bundles claims id m
  | clearance c => exact applyClearance_withRecords ix chains bundles claims id c

/-- The tables of an index after some changes. -/
def applyChanges (ix : Index) (l : List (Muid × Change)) : Index :=
  l.foldl (fun ix e => ix.applyChange e.1 e.2) ix

theorem applyChanges_append (l more : List (Muid × Change)) :
    ix.applyChanges (l ++ more) = (ix.applyChanges l).applyChanges more :=
  List.foldl_append

theorem applyChanges_concat (l : List (Muid × Change)) (id : Muid) (c : Change) :
    ix.applyChanges (l ++ [(id, c)]) = (ix.applyChanges l).applyChange id c :=
  applyChanges_append ix l [(id, c)]

theorem applyChanges_withRecords (l : List (Muid × Change)) :
    (ix.withRecords chains bundles claims).applyChanges l
      = (ix.applyChanges l).withRecords chains bundles claims :=
  List.foldl_hom (withRecords · chains bundles claims)
    (fun ix e => applyChange_withRecords ix chains bundles claims e.1 e.2)

end Commutation

theorem applyChanges_eq_withRecords (ix : Index) (l : List (Muid × Change)) :
    ix.applyChanges l = (ix.applyChanges l).withRecords ix.chains ix.bundles ix.claims :=
  applyChanges_withRecords ix ix.chains ix.bundles ix.claims l

/-! ## Records after a bundle -/

section Apply

variable (ix : Index) (b : Bundle)

theorem apply_eq : ix.apply b = (ix.applyChanges b.changesWithIds).withRecords
    (ix.chains.insert b.info.chain b.info)
    (ix.bundles.insert ⟨b.info.timestamp, b.info.medallion⟩ b) ix.claims := by
  have h := applyChanges_eq_withRecords ix b.changesWithIds
  rw [apply, ← applyChanges, h]
  rfl

@[simp] theorem apply_chains : (ix.apply b).chains = ix.chains.insert b.info.chain b.info := by
  rw [apply_eq]
  rfl

@[simp] theorem apply_bundles :
    (ix.apply b).bundles = ix.bundles.insert ⟨b.info.timestamp, b.info.medallion⟩ b := by
  rw [apply_eq]
  rfl

@[simp] theorem apply_claims : (ix.apply b).claims = ix.claims := by
  rw [apply_eq]
  rfl

end Apply

/-! ## Claims -/

theorem claimChain_eq_withRecords (ix : Index) (chain : ChainKey) (actor : ActorId) :
    ix.claimChain chain actor = ix.withRecords ix.chains ix.bundles
      (ix.claims.filter (·.chain ≠ chain) ++ [⟨chain, actor⟩]) := rfl

/-- A claim may as well be made after a bundle as before it. -/
theorem apply_claimChain (ix : Index) (chain : ChainKey) (actor : ActorId) (b : Bundle) :
    (ix.claimChain chain actor).apply b = (ix.apply b).claimChain chain actor := by
  rw [apply_eq, claimChain_eq_withRecords, applyChanges_withRecords, claimChain_eq_withRecords,
    apply_eq]
  rfl

/-! ## Adding -/

/-- What adding a bundle does is decided by the check. -/
theorem add_eq (ix : Index) (b : Bundle) :
    ix.add b = (ix.check b.info).map fun novel => (if novel then ix.apply b else ix, novel) := by
  rw [add]
  cases ix.check b.info with
  | error e => rfl
  | ok novel => cases novel <;> rfl

section Outcomes

variable {ix ix' : Index} {b : Bundle}

theorem add_eq_ok_true_iff :
    ix.add b = .ok (ix', true) ↔ ix.check b.info = .ok true ∧ ix.apply b = ix' := by
  rw [add_eq]
  rcases ix.check b.info with e | _ | _ <;> simp [Except.map]

theorem add_eq_ok_false_iff :
    ix.add b = .ok (ix', false) ↔ ix.check b.info = .ok false ∧ ix = ix' := by
  rw [add_eq]
  rcases ix.check b.info with e | _ | _ <;> simp [Except.map]

theorem add_eq_error_iff {e : StoreError} : ix.add b = .error e ↔ ix.check b.info = .error e := by
  rw [add_eq]
  rcases ix.check b.info with e | _ | _ <;> simp [Except.map]

end Outcomes

end GossipStore.Index
