import GossipStore.Proofs.Database.Durable
import GossipStore.Proofs.Index.Built
import GossipStore.Proofs.Index.Untouched

set_option autoImplicit false

/-! # Listeners of containers

When a bundle is stored, the listeners of the containers that it touches are called. Which these
are is read off its entries and clearances, without a look at the store. So a listener of a
container may miss that an entry is moved there, but nothing else that changes what the container
shows (`listeners_called_of_change`).
-/

namespace GossipStore.Database

variable {α : Type} {db db' : Database α} {ix : Index} {b : Bundle} {accepted : List Bundle}

/-! ## Who is called -/

/-- Whether no listener has been called, and all are still registered. -/
structure CallsNobody (db db' : Database α) : Prop where
  listeners : db'.listeners = db.listeners
  called : db'.effects.called = db.effects.called

namespace CallsNobody

theorem refl (db : Database α) : db.CallsNobody db := ⟨rfl, rfl⟩

theorem trans {db'' : Database α} (h : db.CallsNobody db') (h' : db'.CallsNobody db'') :
    db.CallsNobody db'' :=
  ⟨h'.listeners.trans h.listeners, h'.called.trans h.called⟩

theorem disconnect (db : Database α) (id : PeerId) : db.CallsNobody (db.disconnect id) := by
  rw [Database.disconnect]
  split <;> exact ⟨rfl, rfl⟩

theorem absorbOrDrop {β : Type} (db : Database α) (o : Peer.Outcome β) :
    db.CallsNobody (db.absorbOrDrop o) := by
  have habsorb : db.CallsNobody (db.absorb o) := ⟨rfl, rfl⟩
  rw [Database.absorbOrDrop]
  split
  · exact habsorb
  · exact habsorb.trans (disconnect _ _)

theorem tellSender (s : Surroundings) (db : Database α) (info : BundleInfo)
    (sender : Option PeerId) : db.CallsNobody (db.tellSender s info sender) := by
  cases sender with
  | none => exact .refl db
  | some id =>
      rw [Database.tellSender, acknowledge]
      split
      · exact .refl db
      · exact absorbOrDrop _ _

theorem passOn (s : Surroundings) (db : Database α) (b : Bundle) (sender : Option PeerId) :
    db.CallsNobody (db.passOn s b sender) := by
  rw [Database.passOn]
  refine List.foldlRecOn _ _ (CallsNobody.refl db) fun db₁ h id _ => h.trans ?_
  rw [offerTo]
  split
  · exact .refl db₁
  · exact absorbOrDrop _ _

end CallsNobody

/-- **For a new bundle the listeners that want it are called**, whatever becomes of the peers. -/
theorem called_receiveDecoded (hstore : db.store = .memory ix) (hnew : ix.check b.info = .ok true)
    (s : Surroundings) (sender : Option PeerId) :
    (db.receiveDecoded s b sender).1.store = .memory (ix.apply b)
      ∧ (db.receiveDecoded s b sender).1.effects.called = db.effects.called
        ++ (db.listeners.matching b sender.isSome).map (·, b) := by
  refine ⟨?_, ?_⟩
  · rcases receiveDecoded_cases hstore s b sender with
      ⟨-, hkeeps, -⟩ | ⟨hknown, -⟩ | ⟨e, herror, -⟩
    · exact hkeeps.store
    · rw [hnew] at hknown
      cases hknown
    · rw [hnew] at herror
      cases herror
  · let stored := { db with store := .memory (ix.apply b) }.track b.info
    have hresult : (db.receiveDecoded s b sender).1
        = ((stored.tellSender s b.info sender).passOn s b sender).notify b sender.isSome := by
      rw [receiveDecoded, hstore, add_memory, hnew]
      cases sender <;> rfl
    have hsilent := (CallsNobody.tellSender s stored b.info sender).trans
      (.passOn s (stored.tellSender s b.info sender) b sender)
    rw [hresult, notify, hsilent.called, hsilent.listeners]
    rfl

/-! ## What listeners miss -/

/-- **A listener of a container misses nothing but movements.** Take a database in memory whose
store has been built of some bundles, and a bundle that is new. Let no two of them have the same
time and owner, none more changes than there are offsets, and let no movement of an entry of a
container name another one that the new bundle purges. If the container shows something else after
the bundle has been stored, and the bundle moves none of its entries, then every listener of the
container is called for the bundle, but for those that want bundles of others only if it comes from
nobody else. -/
theorem listeners_called_of_change (hstore : db.store = .memory ix)
    (hbuilt : Index.BuiltOf accepted ix) (hnew : ix.check b.info = .ok true)
    (hkeys : (accepted ++ [b]).Pairwise fun a b => a.key ≠ b.key)
    (hsize : ∀ a ∈ accepted ++ [b], a.changes.length ≤ 0x100000000) (container : Muid)
    (hnames : Index.Names
      (fun home named => home = container → named ∉ Index.purgedBy b.changesWithIds)
      (accepted.flatMap Bundle.changesWithIds))
    (s : Surroundings) (sender : Option PeerId) :
    let after := (db.receiveDecoded s b sender).1
    ∃ called : List (Listener α), called.Sublist db.listeners.registered
      ∧ after.effects.called = db.effects.called ++ called.map (fun l => (l.label, b))
      ∧ (after.store.index.keyedEntries container .latest
            ≠ db.store.index.keyedEntries container .latest
          ∨ after.store.index.orderedEntries container none .latest
            ≠ db.store.index.orderedEntries container none .latest →
        ¬ Index.MovesEntriesOf container ix b.changesWithIds →
        ∀ l ∈ db.listeners.registered, l.container = some container →
          sender.isSome = true ∨ l.remoteOnly = false → l ∈ called) := by
  intro after
  obtain ⟨hafter, hcalled⟩ := called_receiveDecoded hstore hnew s sender
  refine ⟨db.listeners.registered.filter (Listeners.wants b sender.isSome), List.filter_sublist,
    ?_, fun hchange hstay l hl hcontainer hremote => ?_⟩
  · rw [hcalled, Listeners.matching, List.map_map]
    rfl
  · have hids : (((accepted ++ [b]).flatMap Bundle.changesWithIds).map Prod.fst).Nodup :=
      Index.nodup_flatMap_changesWithIds (hkeys.imp Bundle.key_ne_iff.mp) hsize
    rw [List.flatMap_append, List.flatMap_singleton] at hids
    have htraced : Index.Traced (accepted.flatMap Bundle.changesWithIds) ix :=
      hbuilt.upheld Index.upheld_traced Index.Traced.empty
        (hids.sublist ((List.sublist_append_left _ _).map Prod.fst))
    have htouches : container ∈ b.touched := by
      by_contra huntouched
      obtain ⟨hkeyed, hordered⟩ := Index.lists_apply htraced hids hnames huntouched hstay
        (.inr ⟨rfl, rfl⟩)
      have hbefore : db.store.index = ix := congrArg Store.index hstore
      have hindex : after.store.index = ix.apply b := congrArg Store.index hafter
      rw [hbefore, hindex] at hchange
      rcases hchange with hdiffers | hdiffers
      · exact hdiffers hkeyed.symm
      · exact hdiffers (hordered none).symm
    refine List.mem_filter.mpr ⟨hl, ?_⟩
    rw [Listeners.wants, hcontainer, Option.all_some, Bool.and_eq_true, Bool.or_eq_true,
      Bool.not_eq_true']
    exact ⟨hremote, List.contains_iff_mem.mpr htouches⟩

/-- A peer sends a bundle that pushes to a sequence and purges a directory. The sequence has had an
entry moved, and three listen to it or to the directory of which they want to know only what others
do. -/
theorem listeners_called_of_change_push :
    let s : Surroundings :=
      ⟨0, 1000, fun _ => .ok (), fun _ => 5, fun _ => true, ⟨none, none, none⟩, 1⟩
    let sequence : Muid := ⟨-1, -1, 2⟩
    let directory : Muid := ⟨-1, -1, 4⟩
    let first := Bundle.ofValid ⟨10, 1, 10, none, none⟩
      [.push sequence [1], .setKey directory (.text "k") [2]] rfl (by decide) (by decide)
    let second := Bundle.ofValid ⟨20, 2, 20, none, none⟩ [.moveEntry sequence ⟨10, 1, 1⟩ 5] rfl
      (by decide) (by decide)
    let b := Bundle.ofValid ⟨30, 3, 30, none, none⟩ [.push sequence [3], .clear directory true] rfl
      (by decide) (by decide)
    let built := (Index.empty true).carryOutAll [.add first, .add second]
    let opened : Database String := ofStore (.memory built.1) Config.default true
    let db := (((opened.addListener (some sequence) false "all").1.addListener (some sequence) true
      "remote").1.addListener none false "any").1
    let after := (db.receiveDecoded s b (some 7)).1
    built.2 = [first, second]
      ∧ after.store.index.orderedEntries sequence none .latest
        ≠ db.store.index.orderedEntries sequence none .latest
      ∧ ∃ called : List (Listener String),
        after.effects.called = called.map (fun l => (l.label, b))
        ∧ ⟨1, some sequence, false, "all"⟩ ∈ called
        ∧ ⟨2, some sequence, true, "remote"⟩ ∈ called := by
  intro s sequence directory first second b built opened db after
  have hadded : built.2 = [first, second] := by decide +kernel
  have hbuilt : Index.BuiltOf built.2 built.1 :=
    (Index.BuiltOf.empty true).carryOutAll [.add first, .add second]
  have hstore : db.store = .memory built.1 := rfl
  have hnames : Index.Names
      (fun home named => home = sequence → named ∉ Index.purgedBy b.changesWithIds)
      (built.2.flatMap Bundle.changesWithIds) := by
    rw [hadded]
    exact Index.names_of_forall (by decide +kernel)
  obtain ⟨called, -, hcalled, hmisses⟩ := listeners_called_of_change hstore hbuilt
    (by decide +kernel) (by rw [hadded]; decide +kernel) (by rw [hadded]; decide +kernel) sequence
    hnames s (some 7)
  have hchange : after.store.index.orderedEntries sequence none .latest
      ≠ db.store.index.orderedEntries sequence none .latest := by decide +kernel
  have hstay : ¬ Index.MovesEntriesOf sequence built.1 b.changesWithIds := by
    rintro ⟨id, m, -, hmoves, -⟩
    have hnone : ∀ x ∈ b.changesWithIds, Index.moving? x = none := by decide +kernel
    cases hnone _ hmoves
  have hall := hmisses (.inr hchange) hstay
  have hnobody : db.effects.called = [] := rfl
  rw [hnobody, List.nil_append] at hcalled
  have hafter : after = (db.receiveDecoded s b (some 7)).1 := rfl
  refine ⟨hadded, hchange, called, ?_, ?_, ?_⟩
  · rw [hafter]
    exact hcalled
  · exact hall ⟨1, some sequence, false, "all"⟩ (by decide +kernel) rfl (.inl rfl)
  · exact hall ⟨2, some sequence, true, "remote"⟩ (by decide +kernel) rfl (.inl rfl)

/-- The only entry of a sequence is taken away by a movement, and the listener of the sequence is
not called. -/
theorem listeners_called_of_change_movement :
    let s : Surroundings :=
      ⟨0, 1000, fun _ => .ok (), fun _ => 5, fun _ => true, ⟨none, none, none⟩, 1⟩
    let sequence : Muid := ⟨-1, -1, 2⟩
    let push := Bundle.ofValid ⟨10, 7, 10, none, none⟩ [.push sequence [1]] rfl (by decide)
      (by decide)
    let away := Bundle.ofValid ⟨20, 8, 20, none, none⟩
      [.movement ⟨some sequence, ⟨10, 7, 1⟩, 0, false⟩] rfl (by decide) (by decide)
    let opened : Database String := ofStore (.memory (.empty true)) Config.default true
    let db := ((opened.addListener (some sequence) false "all").1.receiveDecoded s push none).1
    let after := (db.receiveDecoded s away none).1
    db.effects.called = [("all", push)] ∧ db.store.index.check away.info = .ok true
      ∧ after.store.index.orderedEntries sequence none .latest = .ok []
      ∧ db.store.index.orderedEntries sequence none .latest ≠ .ok []
      ∧ ⟨1, some sequence, false, "all"⟩ ∈ after.listeners.registered
      ∧ after.effects.called = db.effects.called := by
  decide +kernel

end GossipStore.Database
