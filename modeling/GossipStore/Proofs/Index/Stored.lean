import GossipStore.Proofs.Bundle.Building
import GossipStore.Proofs.Index.Chains
import GossipStore.Proofs.Index.Past
import GossipStore.Proofs.Index.Reasons

set_option autoImplicit false

/-! # Entries under the addresses of their changes

Where history is kept and nothing is purged, a change writes under its own address only
(`get?_entries_applyChange`). So an entry of an accepted bundle is stored under the address of its
change, whatever else the bundle changes before and after, unless an earlier purge hides it
(`get?_entries_applyChanges_of_mem`).

That address was handed out when the change was added to the bundle under construction, and other
changes of the bundle may have named it since. It is filled in everywhere alike: in the container,
in what is described or pointed to, and in pairs (`Stored`). So the addresses that are handed out
while a bundle is built are those under which its entries are stored (`Building.handedOut_stored`).
-/

namespace GossipStore

/-- In a sealed bundle, the relative form of an address is read as its full form. -/
theorem PendingMuid.resolve_relative (pending : PendingMuid) (info : BundleInfo) :
    pending.relative.resolve info.timestamp info.medallion = pending.resolve info := rfl

namespace Index

variable {ix : Index} {id p : Muid} {changes : List (Muid × Change)}

/-! ## Changes and what is stored elsewhere -/

theorem get?_entries_applyEntry (hhistory : ix.keepingHistory = true) (c : EntryChange) (p : Muid) :
    (ix.applyEntry id c).entries.get? p
      = if p = id ∧ ix.isPurged (entryOf id c).container id = false then some (entryOf id c)
        else ix.entries.get? p := by
  have hplacement : (entryOf id c).placement = id := rfl
  rw [applyEntry_eq]
  cases hpurged : ix.isPurged (entryOf id c).container id with
  | true => simp
  | false =>
      rw [if_neg Bool.false_ne_true, get?_entries_insertEntry, (makeRoom_keeping hhistory id c).2]
      simp only [hplacement, and_true]

/-- **A change writes under its own address only**, where history is kept and it does not purge. -/
theorem get?_entries_applyChange (hhistory : ix.keepingHistory = true) {c : Change}
    (hkeeps : c.purges = false) (hne : p ≠ id) :
    (ix.applyChange id c).entries.get? p = ix.entries.get? p := by
  cases c with
  | container behavior => rfl
  | entry c => rw [applyChange, get?_entries_applyEntry hhistory, if_neg fun h => hne h.1]
  | movement m =>
      have hpurge : m.purge = false := hkeeps
      have hstays : ¬ ix.dropsPlace m = true := by simp [dropsPlace, hpurge, hhistory]
      rw [applyChange]
      rcases applyMovement_cases ix id m with hsame | ⟨x, hmoves⟩
      · rw [hsame]
      · rw [hmoves, get?_entries_moveFrom, if_neg fun h => hstays h.1, if_neg fun h => hne h.2]
  | clearance c =>
      have hpurge : c.purge = false := hkeeps
      rw [applyChange, applyClearance_eq, afterPurge, hpurge]
      rfl

/-- A change that does not purge is no reason to leave out what comes late. -/
theorem isPurged_applyChange {c : Change} (hkeeps : c.purges = false) {container : Muid}
    (hkept : ix.isPurged container p = false) :
    (ix.applyChange id c).isPurged container p = false := by
  cases c with
  | container behavior => exact hkept
  | entry c => rwa [applyChange, isPurged_congr (clearances_applyEntry ix id c)]
  | movement m => rwa [applyChange, isPurged_congr (clearances_applyMovement ix id m)]
  | clearance c =>
      have hpurge : ¬ c.purge = true := ne_true_of_eq_false hkeeps
      refine eq_false_of_ne_true fun hpurged => ?_
      rcases isPurged_or_covers hpurged with hbefore | hcovers
      · rw [hkept] at hbefore
        cases hbefore
      · exact not_covers id c hpurge container p hcovers

theorem get?_entries_applyChanges_of_not_mem (hhistory : ix.keepingHistory = true)
    (hkeeps : ∀ x ∈ changes, x.2.purges = false) (hother : p ∉ changes.map Prod.fst) :
    (ix.applyChanges changes).entries.get? p = ix.entries.get? p := by
  induction changes generalizing ix with
  | nil => rfl
  | cons x rest ih =>
      obtain ⟨hxkeeps, hrestkeeps⟩ := List.forall_mem_cons.mp hkeeps
      obtain ⟨hne, hrest⟩ := not_or.mp (mt List.mem_cons.mpr hother)
      have hstill := (keepingHistory_applyChange ix x.1 x.2).trans hhistory
      exact (ih hstill hrestkeeps hrest).trans (get?_entries_applyChange hhistory hxkeeps hne)

/-- **An entry is stored under the address of its change**, unless an earlier purge hides it. -/
theorem get?_entries_applyChanges_of_mem (hhistory : ix.keepingHistory = true)
    (hkeeps : ∀ x ∈ changes, x.2.purges = false) (hids : (changes.map Prod.fst).Nodup)
    {c : EntryChange} (hmem : (id, .entry c) ∈ changes)
    (hkept : ix.isPurged (entryOf id c).container id = false) :
    (ix.applyChanges changes).entries.get? id = some (entryOf id c) := by
  induction changes generalizing ix with
  | nil => cases hmem
  | cons x rest ih =>
      obtain ⟨hxkeeps, hrestkeeps⟩ := List.forall_mem_cons.mp hkeeps
      obtain ⟨hnew, hrest⟩ := List.nodup_cons.mp hids
      have hstill := (keepingHistory_applyChange ix x.1 x.2).trans hhistory
      rcases List.mem_cons.mp hmem with rfl | hmem
      · -- the changes after it have other addresses
        have hstored : (ix.applyChange id (.entry c)).entries.get? id = some (entryOf id c) := by
          rw [applyChange, get?_entries_applyEntry hhistory, if_pos ⟨rfl, hkept⟩]
        exact (get?_entries_applyChanges_of_not_mem hstill hrestkeeps hnew).trans hstored
      · exact ih hstill hrestkeeps hrest hmem (isPurged_applyChange hxkeeps hkept)

/-! ## Addresses in stored entries -/

/-- What the stored form of an entry has to do with the addresses handed out in its bundle: it
stands under that of its change, and holds in full those that the change names. -/
structure Stored (full : PendingMuid → Option Muid) (own : PendingMuid) (c : EntryChange)
    (e : Entry) : Prop where
  entryId : full own = some e.entryId
  placement : full own = some e.placement
  container : ∀ q, c.container = some q.relative → full q = some e.container
  /-- What is described is stored as the key of properties and groups, which are keyed by it. -/
  describing : ∀ q, c.describing = some q.relative → ∀ subject, e.key = .describing subject
    ↔ (c.behavior = .property ∨ c.behavior = .group) ∧ full q = some subject
  pointee : ∀ q, c.pointee = some q.relative → full q = e.pointee
  source : ∀ q other, c.pair = some (q.relative, other) → full q = e.source
  target : ∀ q other, c.pair = some (other, q.relative) → full q = e.target
  /-- Pair sets and pair maps are keyed by the pair. -/
  pairKey : c.behavior = .pairSet ∨ c.behavior = .pairMap → ∀ pair, e.pair = some pair →
    e.key = .pair pair.1 pair.2

theorem stored_entryOf (info : BundleInfo) (own : PendingMuid) (c : EntryChange) :
    Stored (fun q => some (q.resolve info)) own c (entryOf (own.resolve info) c) where
  entryId := rfl
  placement := rfl
  container q hq := by
    show some (q.resolve info) = some (c.containerId info.timestamp info.medallion)
    rw [EntryChange.containerId, hq]
    exact congrArg some (q.resolve_relative info).symm
  describing q hq subject := by
    show c.storageKey info.timestamp info.medallion = _ ↔ _
    rw [EntryChange.storageKey, hq, Option.getD_some, q.resolve_relative]
    cases c.behavior <;> simp
  pointee q hq := by
    show some (q.resolve info) = c.pointee.map (·.resolve info.timestamp info.medallion)
    rw [hq, Option.map_some, q.resolve_relative]
  source q other hpair := by
    show some (q.resolve info) = (c.resolvedPair info.timestamp info.medallion).map Prod.fst
    rw [EntryChange.resolvedPair, hpair, Option.map_some, Option.map_some, q.resolve_relative]
  target q other hpair := by
    show some (q.resolve info) = (c.resolvedPair info.timestamp info.medallion).map Prod.snd
    rw [EntryChange.resolvedPair, hpair, Option.map_some, Option.map_some, q.resolve_relative]
  pairKey hbehavior pair hpair := by
    have hresolved : c.resolvedPair info.timestamp info.medallion = some pair := hpair
    show c.storageKey info.timestamp info.medallion = _
    rw [EntryChange.storageKey, hresolved]
    rcases hbehavior with hbehavior | hbehavior
    · rw [hbehavior]
      rfl
    · rw [hbehavior]
      rfl

/-- The entries of an accepted bundle are stored under the addresses of their changes. -/
theorem get?_entries_of_add {ix' : Index} {b : Bundle} (hhistory : ix.keepingHistory = true)
    (hkeeps : ∀ c ∈ b.changes, c.purges = false) (hsize : b.changes.length ≤ 0x100000000)
    (hadd : ix.add b = .ok (ix', true)) {c : EntryChange} (hmem : (id, .entry c) ∈ b.changesWithIds)
    (hkept : ix.isPurged (entryOf id c).container id = false) :
    ix'.entries.get? id = some (entryOf id c) := by
  obtain ⟨-, rfl⟩ := add_eq_ok_true_iff.mp hadd
  rw [apply_eq]
  exact get?_entries_applyChanges_of_mem hhistory
    (fun x hx => hkeeps x.2 (change_mem_of_mem_changesWithIds hx)) (nodup_changesWithIds hsize) hmem
    hkept

end Index

namespace Building

/-- **Addresses handed out while a bundle is built are the addresses stored.** Whatever operations a
bundler has been through, one that fails leaves it as it is. The addresses are numbered in the order
of the changes, as long as there are offsets left, and are not known in full until the bundle is
sealed. From then on nothing changes. A sealed bundle, which is also what is read from its bytes,
pairs each change with the address that was handed out for it. Where an index that keeps history
accepts the bundle and nothing in it purges, every entry that no earlier purge hides is stored under
that address, and the addresses it names are stored in full. -/
theorem handedOut_stored (comment : Option String) (medallion : Option Medallion)
    (ops : List Operation)
    (hsize : ((start comment medallion).run ops).1.bundler.changes.length < 0x100000000) :
    let w := ((start comment medallion).run ops).1
    let handed := ((start comment medallion).run ops).2
    (∀ op e w', (perform op).runOn w = (.error e, w') → w' = w)
      ∧ (w.bundler.sealed = none → ∀ x ∈ handed, w.resolve? x.2 = none)
      ∧ handed.map Prod.fst = w.bundler.changes
      ∧ (∀ k x, handed[k]? = some x → x.2.offset.toNat = k + 1)
      ∧ ∀ b, w.bundler.sealed = some b → (∀ more, w.run more = (w, []))
        ∧ Bundle.decode b.bytes = .ok b
        ∧ (b.changesWithIds.map Prod.fst).Nodup
        ∧ handed.map (fun x => (w.resolve? x.2, x.1))
          = b.changesWithIds.map (fun x => (some x.1, x.2))
        ∧ ∀ ix ix' : Index, ix.keepingHistory = true → (∀ c ∈ b.changes, c.purges = false) →
          ix.add b = .ok (ix', true) → ∀ c own id, (.entry c, own) ∈ handed →
          w.resolve? own = some id →
          ix.isPurged (c.containerId id.timestamp id.medallion) id = false →
          ∃ e, ix'.entries.get? id = some e ∧ Index.Stored w.resolve? own c e := by
  intro w handed
  have hconsistent : Consistent w handed := consistent_run comment medallion ops
  refine ⟨fun op e w' => unchanged_of_error,
    fun hopen x _ => hconsistent.resolve?_of_open hopen x.2, ?_, fun k x hx => ?_,
    fun b hb => ⟨run_of_sealed hb, b.decode_bytes, ?_⟩⟩
  · rw [hconsistent.numbered, map_fst_numbered]
  · rw [hconsistent.numbered] at hx
    exact toNat_offset_of_numbered hsize hx
  have hresolve : w.resolve? = fun q => some (q.resolve b.info) :=
    funext (hconsistent.resolve?_of_sealed hb)
  have hbsize : b.changes.length ≤ 0x100000000 := by
    rw [hconsistent.changes b hb]
    exact Nat.le_of_lt hsize
  have hids := hconsistent.changesWithIds_eq hb
  refine ⟨Index.nodup_changesWithIds hbsize, ?_, ?_⟩
  · rw [hids, hresolve, List.map_map]
    rfl
  · intro ix ix' hhistory hkeeps hadd c own id hmem hid hkept
    rw [hresolve] at hid ⊢
    obtain rfl : own.resolve b.info = id := Option.some.inj hid
    have hmem' : (own.resolve b.info, Change.entry c) ∈ b.changesWithIds := by
      rw [hids]
      exact List.mem_map_of_mem hmem
    exact ⟨_, Index.get?_entries_of_add hhistory hkeeps hbsize hadd hmem' hkept,
      Index.stored_entryOf b.info own c⟩

/-- A property that describes itself, made between an invalid change and a seal under the medallion
of another owner, and one more change that comes too late. -/
theorem handedOut_stored_betweenFailures :
    let entry : EntryChange :=
      { behavior := .property, container := some ⟨0, 0, 1⟩, describing := some ⟨0, 0, 1⟩ }
    let ops : List Operation := [.addChange (.container .property),
      .addChange (.entry { behavior := .directory }), .addChange (.entry entry),
      .sealWith (BundleInfo.first 8 100), .setComment "note", .sealWith (BundleInfo.first 7 100),
      .addChange (.container .box)]
    let b := Bundle.ofValid ((BundleInfo.first 7 100).withComment "note")
      [.container .property, .entry entry] rfl (by decide) (by decide)
    let ix := Index.empty true
    ((start none (some 7)).run ops).1.bundler.changes.length < 0x100000000
      ∧ ((start none (some 7)).run ops).1.bundler.sealed = some b
      ∧ ix.add b = .ok (ix.apply b, true)
      ∧ ∃ e, (ix.apply b).entries.get? ⟨100, 7, 2⟩ = some e ∧ e.placement = ⟨100, 7, 2⟩
        ∧ e.container = ⟨100, 7, 1⟩ ∧ e.key = .describing ⟨100, 7, 1⟩ := by
  intro entry ops b ix
  have hsize : ((start none (some 7)).run ops).1.bundler.changes.length < 0x100000000 := by
    decide +kernel
  have hsealed : ((start none (some 7)).run ops).1.bundler.sealed = some b := by decide +kernel
  have hadd : ix.add b = .ok (ix.apply b, true) := Index.add_eq_ok_true_iff.mpr ⟨rfl, rfl⟩
  have hhanded : (.entry entry, ⟨2⟩) ∈ ((start none (some 7)).run ops).2 := by decide +kernel
  have hown : ((start none (some 7)).run ops).1.resolve? ⟨2⟩ = some ⟨100, 7, 2⟩ := by
    decide +kernel
  have hother : ((start none (some 7)).run ops).1.resolve? ⟨1⟩ = some ⟨100, 7, 1⟩ := by
    decide +kernel
  have hrun := (handedOut_stored none (some 7) ops hsize).2.2.2.2 b hsealed
  obtain ⟨e, he, hfull⟩ := hrun.2.2.2.2 ix (ix.apply b) rfl (by decide) hadd entry ⟨2⟩
    ⟨100, 7, 2⟩ hhanded hown rfl
  refine ⟨hsize, hsealed, hadd, e, he, ?_, ?_, ?_⟩
  · exact Option.some.inj (hfull.placement.symm.trans hown)
  · exact Option.some.inj ((hfull.container ⟨1⟩ rfl).symm.trans hother)
  · exact (hfull.describing ⟨1⟩ rfl _).mpr ⟨.inl rfl, hother⟩

end Building

end GossipStore
