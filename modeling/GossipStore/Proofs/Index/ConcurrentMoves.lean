import GossipStore.Proofs.Index.Whereabouts

set_option autoImplicit false

/-! # Concurrent movements of an entry

Movements of one entry, each in a bundle of its own, arrive in any order. What an index with history
makes of them is decided by their addresses and positions alone (`Located.foldl_apply`), if its own
history has moved the entry within its container only (`Traces.located`). So two indexes
that had the entry at the same place have it at the same place afterwards, in all orders, exactly
if the movements settle alike (`movements_agree_iff`).
-/

namespace GossipStore.Index

/-! ## Bundles that move an entry -/

/-- Whether all that a bundle has to say is a movement of an entry that keeps the place left. -/
def OnlyMoves (entryId : Muid) (b : Bundle) : Prop :=
  ∃ m, b.changes = [.movement m] ∧ m.purge = false ∧ movedEntry (b.changeId 1) m = entryId

/-- The movement in a bundle that has nothing else. -/
def moveOf (b : Bundle) : Move where
  id := b.changeId 1
  dest := match b.changes with
    | [.movement m] => m.dest
    | _ => 0

section Bundles

variable {ix : Index} {entryId : Muid} {place : Option Entry} {b : Bundle}

theorem changeId_ne {b c : Bundle} (h : b.key ≠ c.key) (i j : Nat) :
    b.changeId i ≠ c.changeId j := by
  intro heq
  obtain ⟨htime, hmedallion, -⟩ := Muid.mk.inj heq
  exact Bundle.key_ne_iff.mp h ⟨htime, hmedallion⟩

/-- The tables after a bundle that moves an entry are those after the movement. -/
theorem exists_apply_eq (hmoves : OnlyMoves entryId b) (ix : Index) :
    ∃ m, m.purge = false ∧ movedEntry (b.changeId 1) m = entryId
      ∧ moveOf b = ⟨b.changeId 1, m.dest⟩
      ∧ ∃ chains bundles, ix.apply b
        = (ix.applyMovement (b.changeId 1) m).withRecords chains bundles ix.claims := by
  obtain ⟨m, hchanges, hpurge, hentry⟩ := hmoves
  refine ⟨m, hpurge, hentry, by rw [moveOf, hchanges], ix.chains.insert b.info.chain b.info,
    ix.bundles.insert b.key b, ?_⟩
  rw [apply_eq, Bundle.changesWithIds, hchanges]
  rfl

theorem Located.withRecords (h : Located ix entryId place) (chains : SortedMap ChainKey BundleInfo)
    (bundles : SortedMap BundleKey Bundle) (claims : List ClaimedChain) :
    Located (ix.withRecords chains bundles claims) entryId place :=
  ⟨h.keeping, h.mirrored.withRecords _ _ _, h.here, h.left⟩

/-- **A bundle that moves an entry** settles its place and shows in nothing else. -/
theorem Located.apply (h : Located ix entryId place) (hmoves : OnlyMoves entryId b)
    (hunused : ix.Unused (b.changeId 1)) :
    Located (ix.apply b) entryId ((moveOf b).take place)
      ∧ ix.ShowAlikeBut (ix.apply b) entryId
      ∧ ∀ other, other ≠ b.changeId 1 → ix.Unused other → (ix.apply b).Unused other := by
  obtain ⟨m, hpurge, hentry, hmove, chains, bundles, happly⟩ := exists_apply_eq hmoves ix
  rw [happly, hmove]
  exact ⟨(h.applyMovement hunused hpurge hentry).withRecords _ _ _,
    h.showAlikeBut hunused hpurge hentry, fun other hne hother =>
      Unused.applyMovement h.mirrored hother hne m⟩

/-- **After bundles that move an entry** it is where their movements settle it. -/
theorem Located.foldl_apply {bs : List Bundle} (h : Located ix entryId place)
    (hmoves : ∀ b ∈ bs, OnlyMoves entryId b) (hunused : ∀ b ∈ bs, ix.Unused (b.changeId 1))
    (hkeys : bs.Pairwise fun a b => a.key ≠ b.key) :
    Located (bs.foldl Index.apply ix) entryId (settle place (bs.map moveOf))
      ∧ ix.ShowAlikeBut (bs.foldl Index.apply ix) entryId := by
  -- on the bundles still to come, whose addresses stay unused
  induction bs generalizing ix place with
  | nil => exact ⟨h, fun y _ => Iff.rfl⟩
  | cons b rest ih =>
      obtain ⟨hne, hkeys⟩ := List.pairwise_cons.mp hkeys
      obtain ⟨hlocated, halike, hothers⟩ :=
        h.apply (hmoves b List.mem_cons_self) (hunused b List.mem_cons_self)
      obtain ⟨hlocated', halike'⟩ := ih hlocated (fun c hc => hmoves c (List.mem_cons_of_mem b hc))
        (fun c hc => hothers _ (changeId_ne (hne c hc).symm 1 1)
          (hunused c (List.mem_cons_of_mem b hc))) hkeys
      exact ⟨hlocated', fun y hy => (halike' y hy).trans (halike y hy)⟩

/-- Bundles that each continue a chain of their own are accepted in any order. -/
theorem offerAll_ownChains {bs : List Bundle} (hnext : ∀ b ∈ bs, ix.check b.info = .ok true)
    (hchains : bs.Pairwise fun a b => a.info.chain ≠ b.info.chain) :
    ix.offerAll bs = (bs.foldl Index.apply ix, bs) := by
  induction bs generalizing ix with
  | nil => rfl
  | cons b rest ih =>
      obtain ⟨hne, hchains⟩ := List.pairwise_cons.mp hchains
      have hrest : ∀ c ∈ rest, (ix.apply b).check c.info = .ok true := by
        intro c hc
        rw [check, apply_chains, SortedMap.get?_insert_of_ne _ (hne c hc).symm]
        exact hnext c (List.mem_cons_of_mem b hc)
      rw [offerAll_cons_of_new (hnext b List.mem_cons_self), ih hrest hchains]
      rfl

end Bundles

/-! ## What two indexes show -/

/-- Whether two indexes have an entry at the same place and list the same in a container. -/
def PlaceAlike (ix ix' : Index) (entryId container : Muid) : Prop :=
  ix.entryById entryId .latest = ix'.entryById entryId .latest
    ∧ ix.orderedEntries container none .latest = ix'.orderedEntries container none .latest

section Show

variable {ix ix' : Index} {entryId container : Muid} {place place' : Option Entry}

theorem mem_positionalEntries_iff_get? (hm : Mirrored ix) {t : Timestamp} {y : Entry} :
    y ∈ ix.positionalEntries container t ↔ y.container = container ∧ y.key.isPositional = true
      ∧ ix.entries.get? y.placement = some y ∧ ix.isVisible y t = true := by
  have hlist : ix.positionalEntries container t
      = (ix.entriesOf (ix.rowsOf container StorageKey.isPositional)).filter (ix.isVisible · t) :=
    rfl
  rw [hlist, List.mem_filter, mem_entriesOf_rowsOf hm]
  constructor
  · rintro ⟨⟨hy, hcontainer, hkey⟩, hvisible⟩
    exact ⟨hcontainer, hkey, hy, hvisible⟩
  · rintro ⟨hcontainer, hkey, hy, hvisible⟩
    exact ⟨⟨hy, hcontainer, hkey⟩, hvisible⟩

theorem orderedEntries_latest (ix : Index) (container : Muid) :
    ix.orderedEntries container none .latest
      = .ok (ix.positionalEntries container Int64.maxValue) := rfl

/-- Of an entry an index shows the place where it is, and nothing else. -/
theorem Located.visible_iff (h : Located ix entryId place) {y : Entry}
    (hid : y.entryId = entryId) :
    ix.entries.get? y.placement = some y ∧ ix.isVisible y Int64.maxValue = true
      ↔ place = some y ∧ y.deletion = false := by
  rw [isVisible, Bool.and_eq_true, Bool.not_eq_true']
  constructor
  · rintro ⟨hy, hdeletion, hlive⟩
    refine ⟨Classical.byContradiction fun hne => ?_, hdeletion⟩
    have hremoved := (h.left y.placement y hy hid hne).1
    simp [isLive, hremoved] at hlive
  · rintro ⟨hplace, hdeletion⟩
    obtain ⟨hy, -, hlive⟩ := h.here y hplace
    exact ⟨hy, hdeletion, hlive⟩

theorem ShowAlikeBut.mem_positionalEntries_iff (halike : ix.ShowAlikeBut ix' entryId)
    (hm : Mirrored ix) (hm' : Mirrored ix') {y : Entry} (hid : y.entryId ≠ entryId) :
    y ∈ ix'.positionalEntries container Int64.maxValue
      ↔ y ∈ ix.positionalEntries container Int64.maxValue := by
  rw [mem_positionalEntries_iff_get? hm, mem_positionalEntries_iff_get? hm', halike y hid]

/-- By position, and by age within a position. -/
def StandsBefore (e f : Entry) : Prop :=
  e.key.positionPart < f.key.positionPart
    ∨ e.key.positionPart = f.key.positionPart ∧ e.placement < f.placement

instance (e f : Entry) : Decidable (StandsBefore e f) := inferInstanceAs (Decidable (_ ∨ _))

theorem not_standsBefore_self (e : Entry) : ¬ StandsBefore e e := by
  rintro (h | ⟨-, h⟩)
  · exact Std.lt_irrefl h
  · exact Muid.lt_irrefl _ h

theorem standsBefore_asymm {e f : Entry} (h : StandsBefore e f) : ¬ StandsBefore f e := by
  rintro (h' | ⟨heq', h'⟩) <;> rcases h with h | ⟨heq, h⟩
  · exact Std.lt_irrefl (Std.lt_trans h h')
  · exact Std.lt_irrefl (heq ▸ h')
  · exact Std.lt_irrefl (heq' ▸ h)
  · exact Muid.lt_asymm h h'

/-- Two indexes that list the same of all other entries place an entry alike exactly if it is at the
same place in both. -/
theorem Located.placeAlike_iff (h : Located ix entryId place) (h' : Located ix' entryId place')
    (hothers : ∀ y, y.entryId ≠ entryId → (y ∈ ix.positionalEntries container Int64.maxValue
      ↔ y ∈ ix'.positionalEntries container Int64.maxValue)) :
    PlaceAlike ix ix' entryId container ↔ place = place' := by
  rw [PlaceAlike, h.entryById, h'.entryById, orderedEntries_latest, orderedEntries_latest]
  constructor
  · exact fun halike => Except.ok.inj halike.1
  · rintro rfl
    refine ⟨rfl, congrArg Except.ok ?_⟩
    refine eq_of_mem_iff_of_pairwise (pairwise_positionalEntries h.mirrored container _)
      (pairwise_positionalEntries h'.mirrored container _) not_standsBefore_self
      (fun _ _ => standsBefore_asymm) fun y => ?_
    by_cases hid : y.entryId = entryId
    · rw [mem_positionalEntries_iff_get? h.mirrored, mem_positionalEntries_iff_get? h'.mirrored,
        h.visible_iff hid, h'.visible_iff hid]
    · exact hothers y hid

end Show

/-! ## From the history of an index -/

section History

variable {changes : List (Muid × Change)} {ix : Index} {entryId : Muid} {x : Entry}

/-- An entry that is found by its identity is located there, as its other places have been left. -/
theorem Traces.located (h : Traces changes entryId ix)
    (hx : ix.entryById entryId .latest = .ok (some x)) : Located ix entryId (some x) := by
  rw [entryById_of_moment ix (.inr ⟨rfl, rfl⟩)] at hx
  obtain ⟨hnewest, hlive⟩ := Option.filter_eq_some_iff.mp (Except.ok.inj hx)
  obtain ⟨hstored, hplaced, -, hmax⟩ :=
    (newestUpTo?_eq_some_iff h.mirrored (pairwise_placementsOf ix entryId)).mp hnewest
  obtain ⟨y, hy, hid⟩ := (mem_placementsOf_iff h.mirrored).mp hplaced
  obtain rfl : x = y := Option.some.inj (hstored.symm.trans hy)
  refine ⟨h.keeping, h.mirrored, fun y hy => ?_, fun p y hy hyid hne => ?_⟩
  · cases hy
    exact ⟨hstored, hid, hlive⟩
  · have hlt : p < x.placement := by
      have hp := (mem_placementsOf_iff h.mirrored).mpr ⟨y, hy, hyid⟩
      rcases hmax p hp (Int64.le_maxValue _) with rfl | hlt
      · exact absurd (hstored.symm.trans hy) hne
      · exact hlt
    obtain ⟨k, r, hr, hk, -⟩ := h.moved p x.placement y x hy hstored hyid hid hlt
    refine ⟨isRemoved_latest_iff.mpr ⟨k, r, hr, hk⟩, fun z hz => ?_⟩
    cases hz
    exact hlt

theorem Traces.unused (h : Traces changes entryId ix) {id : Muid}
    (hnew : id ∉ changes.map Prod.fst) : ix.Unused id := by
  refine ⟨h.get?_entries_eq_none hnew, fun k r hr => ⟨?_, ?_⟩⟩
  · rintro rfl
    exact hnew (h.removed k r hr).1
  · rintro rfl
    exact hnew (h.removed k r hr).2

/-- Whether an index that has been offered bundles is ready for further ones that move an entry: all
times or owners are distinct, no bundle has had more changes than there are offsets, the entry has
only been moved within its container, and each of the further bundles continues a chain. -/
structure ReadyFor (arrivals moving : List Bundle) (entryId : Muid) : Prop where
  keys : (((empty true).offerAll arrivals).2 ++ moving).Pairwise fun a b => a.key ≠ b.key
  size : ∀ b ∈ ((empty true).offerAll arrivals).2, b.changes.length ≤ 0x100000000
  within : MovesWithin (((empty true).offerAll arrivals).2.flatMap Bundle.changesWithIds) entryId
  next : ∀ b ∈ moving, ((empty true).offerAll arrivals).1.check b.info = .ok true

variable {arrivals moving : List Bundle}

theorem ReadyFor.traces (h : ReadyFor arrivals moving entryId) :
    Traces (((empty true).offerAll arrivals).2.flatMap Bundle.changesWithIds) entryId
      ((empty true).offerAll arrivals).1 :=
  traces_offerAll (List.pairwise_append.mp h.keys).1 h.size h.within

theorem ReadyFor.unused (h : ReadyFor arrivals moving entryId) {b : Bundle} (hb : b ∈ moving) :
    ((empty true).offerAll arrivals).1.Unused (b.changeId 1) := by
  refine h.traces.unused fun hmem => ?_
  obtain ⟨y, hy, hid⟩ := List.mem_map.mp hmem
  obtain ⟨a, ha, hy⟩ := List.mem_flatMap.mp hy
  obtain ⟨e, -, rfl⟩ := List.mem_map.mp hy
  exact changeId_ne ((List.pairwise_append.mp h.keys).2.2 a ha b hb) _ _ hid

/-- **After any order of the movements** all bundles have been accepted, the entry is where they
settle it, and nothing else shows. -/
theorem ReadyFor.located (h : ReadyFor arrivals moving entryId)
    (hchains : moving.Pairwise fun a b => a.info.chain ≠ b.info.chain)
    (hmoves : ∀ b ∈ moving, OnlyMoves entryId b)
    (hx : ((empty true).offerAll arrivals).1.entryById entryId .latest = .ok (some x))
    {bs : List Bundle} (hperm : bs.Perm moving) :
    let ix := ((empty true).offerAll arrivals).1
    (ix.offerAll bs).2 = bs
      ∧ Located (ix.offerAll bs).1 entryId (settle (some x) (bs.map moveOf))
      ∧ ix.ShowAlikeBut (ix.offerAll bs).1 entryId := by
  intro ix
  have haccepted : ix.offerAll bs = (bs.foldl apply ix, bs) :=
    offerAll_ownChains (fun b hb => h.next b (hperm.subset hb))
      ((hperm.pairwise_iff Ne.symm).mpr hchains)
  have hkeys : bs.Pairwise fun a b => a.key ≠ b.key :=
    (hperm.pairwise_iff Ne.symm).mpr (List.pairwise_append.mp h.keys).2.1
  rw [haccepted]
  exact ⟨rfl, (h.traces.located hx).foldl_apply (fun b hb => hmoves b (hperm.subset hb))
    (fun b hb => h.unused (hperm.subset hb)) hkeys⟩

end History

/-- **When concurrent movements converge.** Let two indexes be ready for bundles that each move one
entry and continue a chain of their own, have the entry at the same place, and list the same in
a container. In whatever order the bundles arrive, they are accepted, and the entry is where
their movements settle it. The indexes place it alike after all orders exactly if no removal is
newer than the place at which it was, or some removal is newer than that and than all moves. -/
theorem movements_agree_iff {arrivals arrivals' moving : List Bundle} {entryId container : Muid}
    {x : Entry} (hready : ReadyFor arrivals moving entryId)
    (hready' : ReadyFor arrivals' moving entryId)
    (hchains : moving.Pairwise fun a b => a.info.chain ≠ b.info.chain)
    (hmoves : ∀ b ∈ moving, OnlyMoves entryId b)
    (hx : ((empty true).offerAll arrivals).1.entryById entryId .latest = .ok (some x))
    (hsame : PlaceAlike ((empty true).offerAll arrivals).1 ((empty true).offerAll arrivals').1
      entryId container) :
    let ix := ((empty true).offerAll arrivals).1
    let ix' := ((empty true).offerAll arrivals').1
    let moves := moving.map moveOf
    (∀ bs, bs.Perm moving → (ix.offerAll bs).2 = bs ∧ (ix.offerAll bs).1.entryById entryId .latest
        = .ok (settle (some x) (bs.map moveOf)))
      ∧ ((∀ bs bs', bs.Perm moving → bs'.Perm moving →
          PlaceAlike (ix.offerAll bs).1 (ix'.offerAll bs').1 entryId container)
        ↔ (∀ r ∈ moves, r.dest = 0 → r.id < x.placement)
          ∨ ∃ r ∈ moves, r.dest = 0 ∧ x.placement < r.id
            ∧ ∀ m ∈ moves, m.dest ≠ 0 → m.id < r.id) := by
  intro ix ix' moves
  have hx' : ix'.entryById entryId .latest = .ok (some x) := hsame.1.symm.trans hx
  have hlocated : Located ix entryId (some x) := hready.traces.located hx
  have hafter {bs : List Bundle} (hperm : bs.Perm moving) :=
    hready.located hchains hmoves hx hperm
  have hafter' {bs : List Bundle} (hperm : bs.Perm moving) :=
    hready'.located hchains hmoves hx' hperm
  have hids : (moves.map Move.id).Nodup := by
    simp only [moves, List.map_map, List.Nodup, List.pairwise_map]
    exact (List.pairwise_append.mp hready.keys).2.1.imp fun hne => changeId_ne hne 1 1
  have hnew : ∀ m ∈ moves, m.id ≠ x.placement := by
    intro m hm
    obtain ⟨b, hb, rfl⟩ := List.mem_map.mp hm
    exact ((hready.unused hb).ne_placement (hlocated.here x rfl).1).symm
  -- what the indexes list of the other entries was the same before and has not changed
  have hothers {bs bs' : List Bundle} (hperm : bs.Perm moving) (hperm' : bs'.Perm moving)
      (y : Entry) (hid : y.entryId ≠ entryId) :
      y ∈ (ix.offerAll bs).1.positionalEntries container Int64.maxValue
        ↔ y ∈ (ix'.offerAll bs').1.positionalEntries container Int64.maxValue := by
    have hlists : ix.positionalEntries container Int64.maxValue
        = ix'.positionalEntries container Int64.maxValue := Except.ok.inj hsame.2
    obtain ⟨-, hbs, halike⟩ := hafter hperm
    obtain ⟨-, hbs', halike'⟩ := hafter' hperm'
    rw [halike.mem_positionalEntries_iff hready.traces.mirrored hbs.mirrored hid,
      halike'.mem_positionalEntries_iff hready'.traces.mirrored hbs'.mirrored hid, hlists]
  have hplaces {bs bs' : List Bundle} (hperm : bs.Perm moving) (hperm' : bs'.Perm moving) :
      PlaceAlike (ix.offerAll bs).1 (ix'.offerAll bs').1 entryId container
        ↔ settle (some x) (bs.map moveOf) = settle (some x) (bs'.map moveOf) :=
    (hafter hperm).2.1.placeAlike_iff (hafter' hperm').2.1 (hothers hperm hperm')
  refine ⟨fun bs hperm => ⟨(hafter hperm).1, (hafter hperm).2.1.entryById⟩, ?_⟩
  rw [← settle_alike_iff moveOf hids hnew]
  constructor
  · exact fun halike bs bs' hperm hperm' => (hplaces hperm hperm').mp (halike bs bs' hperm hperm')
  · exact fun halike bs bs' hperm hperm' => (hplaces hperm hperm').mpr (halike bs bs' hperm hperm')

/-- A removal that is newer than a concurrent move, of an entry that had been moved before. -/
theorem movements_agree_newestRemoval :
    let sequence : Muid := ⟨-1, -1, 2⟩
    let entryId : Muid := ⟨10, 1, 1⟩
    let push : EntryChange :=
      { behavior := .sequence, container := some sequence, value := some [7] }
    let takeTo (dest : Timestamp) : Change := .movement ⟨none, entryId, dest, false⟩
    let first := Bundle.ofValid ⟨10, 1, 10, none, none⟩ [.entry push] rfl (by decide) (by decide)
    let earlier := Bundle.ofValid ⟨15, 1, 10, some 10, none⟩ [takeTo 5] rfl (by decide) (by decide)
    let move := Bundle.ofValid ⟨20, 2, 20, none, none⟩ [takeTo 50] rfl (by decide) (by decide)
    let removal := Bundle.ofValid ⟨30, 3, 30, none, none⟩ [takeTo 0] rfl (by decide) (by decide)
    let ix := ((empty true).offerAll [first, earlier]).1
    ix.entryById entryId .latest = .ok (some ((entryOf entryId push).movedTo ⟨15, 1, 1⟩ 5))
      ∧ ∀ bs bs', bs.Perm [move, removal] → bs'.Perm [move, removal] →
        PlaceAlike (ix.offerAll bs).1 (ix.offerAll bs').1 entryId sequence := by
  intro sequence entryId push takeTo first earlier move removal ix
  have haccepted : ((empty true).offerAll [first, earlier]).2 = [first, earlier] := by
    decide +kernel
  have hx : ix.entryById entryId .latest
      = .ok (some ((entryOf entryId push).movedTo ⟨15, 1, 1⟩ 5)) := by decide +kernel
  have hready : ReadyFor [first, earlier] [move, removal] entryId := by
    refine ⟨?_, ?_, ?_, by decide +kernel⟩
    · rw [haccepted]
      decide +kernel
    · rw [haccepted]
      decide +kernel
    · rw [haccepted]
      intro id m c hm _ _ container hcontainer
      obtain ⟨-, rfl⟩ : id = earlier.changeId 1 ∧ m = ⟨none, entryId, 5, false⟩ := by
        simpa [first, earlier, takeTo, Bundle.changesWithIds, Bundle.ofValid] using hm
      cases hcontainer
  have hmoves : ∀ b ∈ [move, removal], OnlyMoves entryId b := by
    intro b hb
    rcases List.mem_pair.mp hb with rfl | rfl
    · exact ⟨_, rfl, rfl, by decide +kernel⟩
    · exact ⟨_, rfl, rfl, by decide +kernel⟩
  have hanswers := movements_agree_iff hready hready (by decide +kernel) hmoves hx
    (⟨rfl, rfl⟩ : PlaceAlike ix ix entryId sequence)
  exact ⟨hx, hanswers.2.mpr (.inr (by decide +kernel))⟩

/-- A removal that arrives before a newer move takes the entry away for good, and one that arrives
after it is too old to do so. -/
theorem movements_agree_iff_removalFirst :
    let sequence : Muid := ⟨-1, -1, 2⟩
    let entryId : Muid := ⟨10, 1, 1⟩
    let push : EntryChange :=
      { behavior := .sequence, container := some sequence, value := some [7] }
    let takeTo (dest : Timestamp) : Change := .movement ⟨none, entryId, dest, false⟩
    let first := Bundle.ofValid ⟨10, 1, 10, none, none⟩ [.entry push] rfl (by decide) (by decide)
    let removal := Bundle.ofValid ⟨20, 2, 20, none, none⟩ [takeTo 0] rfl (by decide) (by decide)
    let move := Bundle.ofValid ⟨30, 3, 30, none, none⟩ [takeTo 50] rfl (by decide) (by decide)
    let ix := ((empty true).offerAll [first]).1
    let gone := ix.offerAll [removal, move]
    let moved := ix.offerAll [move, removal]
    gone.2 = [removal, move] ∧ moved.2 = [move, removal]
      ∧ gone.1.entryById entryId .latest = .ok none
      ∧ moved.1.entryById entryId .latest
        = .ok (some ((entryOf entryId push).movedTo ⟨30, 3, 1⟩ 50))
      ∧ gone.1.orderedEntries sequence none .latest
        ≠ moved.1.orderedEntries sequence none .latest := by
  decide +kernel

end GossipStore.Index
