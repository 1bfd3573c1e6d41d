import GossipStore.Proofs.Index.ConcurrentMoves
import GossipStore.Proofs.Index.Ranges
import GossipStore.Proofs.Index.Upkeep

set_option autoImplicit false

/-! # Questions answered by brute force

A question to an index looks up ranges of rows (`ReadsRanges`) and follows them to the records. The
reference looks through all records instead: all entries from the oldest placement to the newest,
all removals and all clearances (`Contents`). While the rows mirror the records (`HoldsOwnRows`)
both give the same answer (`AnswersByScan`), to every question and at every moment
(`answers_bruteForce`).
-/

namespace GossipStore.Index

/-! ## The reference -/

/-- The records of an index without any rows that lead to them. -/
structure Contents where
  /-- The entries from the oldest placement to the newest. -/
  entries : List Entry
  removals : List Removal
  clearances : List Clearance

/-- What an index stores. -/
def contents (ix : Index) : Contents :=
  ⟨ix.entries.values, ix.removals.values, ix.clearances.values⟩

namespace Contents

variable (s : Contents)

/-- Whether an entry has been placed up to a time and neither cleared nor removed by then. -/
def live (t : Timestamp) (e : Entry) : Bool :=
  e.placedAt ≤ t
    && !s.clearances.any (fun c =>
      c.container = e.container && c.clearanceId.timestamp ≤ t && e.placement < c.clearanceId)
    && !s.removals.any fun r => r.removing = e.placement && r.removalId.timestamp ≤ t

/-- Whether an entry is live and says that something is there. -/
def visible (t : Timestamp) (e : Entry) : Bool := !e.deletion && s.live t e

/-- The newest of the entries that pass a test. -/
def newest? (test : Entry → Bool) : Option Entry := (s.entries.filter test).getLast?

/-- The newest entry placed at a key up to a time, if it is visible. -/
def byKey (container : Muid) (key : StorageKey) (t : Timestamp) : Option Entry :=
  (s.newest? fun e => e.container = container && e.key = key && e.placedAt ≤ t).filter (s.visible t)

/-- The newest place of an entry up to a time, if it is live. -/
def byId (entryId : Muid) (t : Timestamp) : Option Entry :=
  (s.newest? fun e => e.entryId = entryId && e.placedAt ≤ t).filter (s.live t)

/-- What a keyed container has at a key: the newest live entry there, unless it is a deletion. -/
def keyed (container : Muid) (t : Timestamp) (key : StorageKey) : Option Entry :=
  if key.isPositional then none
  else (s.newest? fun e => e.container = container && e.key = key && s.live t e).filter
    (!·.deletion)

/-- Whether an entry of an ordered container does not stand after another one. -/
def notAfter (e f : Entry) : Bool := !decide (StandsBefore f e)

/-- The visible entries of an ordered container by position, and by age within a position. -/
def ordered (container : Muid) (t : Timestamp) : List Entry :=
  (s.entries.filter fun e => e.container = container && e.key.isPositional
    && s.visible t e).mergeSort notAfter

/-- The visible entries with a vertex at one side of their pairs, by age. -/
def touching (vertex : Muid) (side : PairSide) (t : Timestamp) : List Entry :=
  s.entries.filter fun e => memberAt side e = some vertex && s.visible t e

/-- The entries that point to an address, by age. -/
def pointing (target : Muid) : List Entry := s.entries.filter fun e => e.pointee = some target

end Contents

/-! ## Records -/

section Records

variable {ids : List Muid} {ix : Index} {t : Timestamp}

theorem mem_entries_iff (h : Mirrored ix) {e : Entry} :
    e ∈ ix.contents.entries ↔ ix.entries.get? e.placement = some e := by
  rw [contents, SortedMap.mem_values_iff]
  constructor
  · rintro ⟨p, he⟩
    rw [h.placed p e he, he]
  · exact fun he => ⟨e.placement, he⟩

/-- The entries are scanned from the oldest placement to the newest. -/
theorem pairwise_entries (h : Mirrored ix) :
    ix.contents.entries.Pairwise fun e f => e.placement < f.placement := by
  rw [contents, SortedMap.values, List.pairwise_map]
  refine ix.entries.sorted.imp_of_mem fun {a b} ha hb hlt => ?_
  rw [h.placed a.1 a.2 (SortedMap.mem_toList_iff.mp ha),
    h.placed b.1 b.2 (SortedMap.mem_toList_iff.mp hb)]
  exact hlt

theorem any_removals_iff (h : Mirrored ix) (p : Muid) :
    ix.contents.removals.any (fun r => r.removing = p && r.removalId.timestamp ≤ t)
      = ix.isRemoved p t := by
  rw [Bool.eq_iff_iff, isRemoved_iff]
  simp only [List.any_eq_true, contents, SortedMap.mem_values_iff, Bool.and_eq_true,
    decide_eq_true_eq]
  constructor
  · rintro ⟨r, ⟨k, hr⟩, hremoving, hle⟩
    obtain rfl : removalKey r = k := h.removed k r hr
    exact ⟨removalKey r, r, hr, hremoving, hle⟩
  · rintro ⟨k, r, hr, hremoving, hle⟩
    obtain rfl : removalKey r = k := h.removed k r hr
    exact ⟨r, ⟨removalKey r, hr⟩, hremoving, hle⟩

/-- An entry is cleared if any clearance is above it, not only the latest one. -/
theorem any_clearances_iff (h : Tidy ids ix) (e : Entry) :
    ix.contents.clearances.any (fun c => c.container = e.container
      && c.clearanceId.timestamp ≤ t && e.placement < c.clearanceId) = ix.isCleared e t := by
  rw [Bool.eq_iff_iff, isCleared_iff_exists]
  simp only [List.any_eq_true, contents, SortedMap.mem_values_iff, Bool.and_eq_true,
    decide_eq_true_eq]
  constructor
  · rintro ⟨c, ⟨k, hc⟩, ⟨hcontainer, hle⟩, hlt⟩
    obtain rfl := h.filed k c hc
    exact ⟨_, c, hc, hcontainer, hle, hlt⟩
  · rintro ⟨k, c, hc, hcontainer, hle, hlt⟩
    obtain rfl := h.filed k c hc
    exact ⟨c, ⟨_, hc⟩, ⟨hcontainer, hle⟩, hlt⟩

theorem live_eq (h : Tidy ids ix) : ix.contents.live t = fun e => ix.isLive e t := by
  funext e
  rw [Contents.live, any_clearances_iff h, any_removals_iff h.mirrored, isLive]

theorem visible_eq (h : Tidy ids ix) : ix.contents.visible t = fun e => ix.isVisible e t := by
  funext e
  rw [Contents.visible, live_eq h, isVisible]

/-! ## Answers -/

theorem newest?_eq_some_iff (h : Mirrored ix) {test : Entry → Bool} {e : Entry} :
    ix.contents.newest? test = some e ↔ ix.entries.get? e.placement = some e ∧ test e = true
      ∧ ∀ f, ix.entries.get? f.placement = some f → test f = true →
        f = e ∨ f.placement < e.placement := by
  rw [Contents.newest?, getLast?_eq_some_iff_of_pairwise ((pairwise_entries h).filter test)
    (fun e => Muid.lt_irrefl e.placement) fun _ _ => Muid.lt_asymm]
  simp only [List.mem_filter, mem_entries_iff h, and_imp, and_assoc]

/-- The newest of the placements that some rows lead to is the newest of all entries with these
rows. -/
theorem newestUpTo?_eq_newest? (h : Mirrored ix) {placements : List Muid} (test : Entry → Bool)
    (hsorted : placements.Pairwise (· < ·))
    (hmem : ∀ p, p ∈ placements ↔ ∃ e, ix.entries.get? p = some e ∧ test e = true) :
    ix.newestUpTo? placements t = ix.contents.newest? fun e => test e && e.placedAt ≤ t := by
  ext e
  rw [newestUpTo?_eq_some_iff h hsorted, newest?_eq_some_iff h]
  simp only [Bool.and_eq_true, decide_eq_true_eq, and_imp]
  constructor
  · rintro ⟨he, hplaced, hle, hmax⟩
    obtain ⟨e', he', htest⟩ := (hmem _).mp hplaced
    obtain rfl : e = e' := Option.some.inj (he.symm.trans he')
    refine ⟨he, ⟨htest, hle⟩, fun f hf htest hft => ?_⟩
    refine (hmax f.placement ((hmem _).mpr ⟨f, hf, htest⟩) hft).imp (fun hp => ?_) id
    rw [hp, he] at hf
    exact (Option.some.inj hf).symm
  · rintro ⟨he, ⟨htest, hle⟩, hmax⟩
    refine ⟨he, (hmem _).mpr ⟨e, he, htest⟩, hle, fun p hp hpt => ?_⟩
    obtain ⟨f, hf, htest⟩ := (hmem p).mp hp
    obtain rfl : f.placement = p := h.placed p f hf
    exact (hmax f hf htest hpt).imp (congrArg Entry.placement) id

theorem newestUpTo?_placementsAtKey (h : Mirrored ix) (container : Muid) (key : StorageKey) :
    ix.newestUpTo? (ix.placementsAtKey container key) t
      = ix.contents.newest? fun e => e.container = container && e.key = key && e.placedAt ≤ t := by
  refine newestUpTo?_eq_newest? h (fun e => e.container = container && e.key = key)
    (pairwise_placementsAtKey ix container key) fun p => ?_
  simp only [mem_placementsAtKey_iff h, Bool.and_eq_true, decide_eq_true_eq]

theorem newestUpTo?_placementsOf (h : Mirrored ix) (entryId : Muid) :
    ix.newestUpTo? (ix.placementsOf entryId) t
      = ix.contents.newest? fun e => e.entryId = entryId && e.placedAt ≤ t := by
  refine newestUpTo?_eq_newest? h (fun e => e.entryId = entryId)
    (pairwise_placementsOf ix entryId) fun p => ?_
  simp only [mem_placementsOf_iff h, decide_eq_true_eq]

/-- A list of stored entries by age is found by looking through all entries. -/
theorem eq_filter_entries (h : Mirrored ix) {l : List Entry} {test : Entry → Bool}
    (hsorted : l.Pairwise fun e f => e.placement < f.placement)
    (hmem : ∀ e, e ∈ l ↔ ix.entries.get? e.placement = some e ∧ test e = true) :
    l = ix.contents.entries.filter test := by
  refine eq_of_mem_iff_of_pairwise hsorted ((pairwise_entries h).filter test)
    (fun e => Muid.lt_irrefl e.placement) (fun _ _ => Muid.lt_asymm) fun e => ?_
  rw [hmem, List.mem_filter, mem_entries_iff h]

/-- The live entry that has the last word about a key of a keyed container. -/
theorem get?_foldl_keyedStep_eq (h : Tidy ids ix) (container : Muid) (key : StorageKey) :
    ((ix.rowsOf container fun k => !k.isPositional).foldl (ix.keyedStep t) .empty).get? key
      = ix.contents.keyed container t key := by
  rw [get?_foldl_keyedStep, Contents.keyed]
  cases hkey : key.isPositional with
  | true =>
      rw [if_pos rfl, liveAtKey, filter_rowsOf_positional hkey]
      rfl
  | false =>
      have hlive : ix.liveAtKey t key (ix.rowsOf container fun k => !k.isPositional)
          = ix.contents.entries.filter fun e =>
            e.container = container && e.key = key && ix.contents.live t e := by
        refine eq_filter_entries h.mirrored (pairwise_liveAtKey h.mirrored hkey) fun e => ?_
        rw [liveAtKey, filter_rowsOf hkey, List.mem_filter, mem_entriesOf_rowsOf h.mirrored,
          live_eq h]
        simp only [Bool.and_eq_true, decide_eq_true_eq, and_assoc]
      rw [if_neg Bool.false_ne_true, hlive, Contents.newest?]
      cases (ix.contents.entries.filter fun e =>
        e.container = container && e.key = key && ix.contents.live t e).getLast? with
      | none => rfl
      | some e => cases hdeletion : e.deletion <;> simp [leaves, hdeletion, Option.filter_some]

/-- What stands before another stands before a third or the third before the other. -/
theorem StandsBefore.before_or {e g : Entry} (h : StandsBefore e g) (f : Entry) :
    StandsBefore e f ∨ StandsBefore f g := by
  by_cases hef : e.key.positionPart < f.key.positionPart
  · exact .inl (.inl hef)
  by_cases hfe : f.key.positionPart < e.key.positionPart
  · refine .inr (.inl ?_)
    rcases h with hlt | ⟨heq, -⟩
    · exact Std.lt_trans hfe hlt
    · exact heq ▸ hfe
  have hsame : e.key.positionPart = f.key.positionPart :=
    Std.le_antisymm (Std.not_lt.mp hfe) (Std.not_lt.mp hef)
  rcases h with hlt | ⟨heq, hlt⟩
  · exact .inr (.inl (hsame ▸ hlt))
  · by_cases hplaced : e.placement < f.placement
    · exact .inl (.inr ⟨hsame, hplaced⟩)
    · exact .inr (.inr ⟨hsame.symm.trans heq, Muid.lt_of_not_lt_of_lt hplaced hlt⟩)

/-- Of two entries at different placements one stands before the other. -/
theorem placement_eq_of_not_standsBefore {e f : Entry} (hef : ¬ StandsBefore e f)
    (hfe : ¬ StandsBefore f e) : e.placement = f.placement := by
  rw [StandsBefore, not_or, not_and] at hef hfe
  have hposition : e.key.positionPart = f.key.positionPart :=
    Std.le_antisymm (Std.not_lt.mp hfe.1) (Std.not_lt.mp hef.1)
  exact Classical.byContradiction fun hne =>
    hef.2 hposition (Muid.lt_of_not_lt_of_ne (hfe.2 hposition.symm) hne)

theorem notAfter_iff {e f : Entry} : Contents.notAfter e f = true ↔ ¬ StandsBefore f e := by
  rw [Contents.notAfter, Bool.not_eq_true', decide_eq_false_iff_not]

theorem notAfter_trans (e f g : Entry) (hef : Contents.notAfter e f = true)
    (hfg : Contents.notAfter f g = true) : Contents.notAfter e g = true := by
  rw [notAfter_iff] at hef hfg ⊢
  exact fun hge => (hge.before_or f).elim hfg hef

theorem notAfter_total (e f : Entry) :
    (Contents.notAfter e f || Contents.notAfter f e) = true := by
  rw [Bool.or_eq_true, notAfter_iff, notAfter_iff]
  by_cases hfe : StandsBefore f e
  · exact .inr (standsBefore_asymm hfe)
  · exact .inl hfe

theorem positionalEntries_eq (h : Tidy ids ix) (container : Muid) :
    ix.positionalEntries container t = ix.contents.ordered container t := by
  have hsorted := pairwise_positionalEntries h.mirrored container t
  have hmem (e : Entry) : e ∈ ix.positionalEntries container t ↔
      e ∈ ix.contents.entries.filter fun e =>
        e.container = container && e.key.isPositional && ix.contents.visible t e := by
    rw [mem_positionalEntries_iff_get? h.mirrored, List.mem_filter, mem_entries_iff h.mirrored,
      visible_eq h]
    simp only [Bool.and_eq_true, decide_eq_true_eq]
    tauto
  have hstored {e : Entry} (he : e ∈ ix.positionalEntries container t) :
      ix.entries.get? e.placement = some e :=
    (mem_entries_iff h.mirrored).mp (List.mem_of_mem_filter ((hmem e).mp he))
  have hperm : (ix.positionalEntries container t).Perm (ix.contents.ordered container t) := by
    refine List.Perm.trans ?_ (List.mergeSort_perm _ _).symm
    refine (List.perm_ext_iff_of_nodup ?_ ?_).mpr hmem
    · exact List.Pairwise.imp (fun {e f} (hlt : StandsBefore e f) (heq : e = f) =>
        not_standsBefore_self f (heq ▸ hlt)) hsorted
    · exact List.Pairwise.imp (fun {e f} (hlt : e.placement < f.placement) (heq : e = f) =>
        Muid.lt_irrefl f.placement (heq ▸ hlt)) ((pairwise_entries h.mirrored).filter _)
  have hleft : (ix.positionalEntries container t).Pairwise (Contents.notAfter · ·) :=
    hsorted.imp fun hlt => notAfter_iff.mpr (standsBefore_asymm hlt)
  have hright : (ix.contents.ordered container t).Pairwise (Contents.notAfter · ·) :=
    List.pairwise_mergeSort notAfter_trans notAfter_total _
  refine hperm.eq_of_pairwise (fun e f he hf hef hfe => ?_) hleft hright
  -- neither stands before the other, so both are what is stored at one placement
  have hplaced := placement_eq_of_not_standsBefore (notAfter_iff.mp hfe) (notAfter_iff.mp hef)
  have he := hstored he
  rw [hplaced, hstored (hperm.mem_iff.mpr hf)] at he
  exact (Option.some.inj he).symm

theorem touchingEntries_eq (h : Tidy ids ix) (vertex : Muid) (side : PairSide) :
    ix.touchingEntries vertex side t = ix.contents.touching vertex side t := by
  refine eq_filter_entries h.mirrored (pairwise_touchingEntries h.mirrored vertex side t)
    fun e => ?_
  rw [mem_touchingEntries_iff h.mirrored, visible_eq h, Bool.and_eq_true, decide_eq_true_eq]

theorem backRefs_eq (h : Mirrored ix) (target : Muid) :
    ix.backRefs target = ix.contents.pointing target := by
  refine eq_filter_entries h (pairwise_backRefs h target) fun e => ?_
  rw [mem_backRefs_iff_get? h, decide_eq_true_eq]

end Records

/-! ## Rows and answers together -/

/-- Entries and removals are stored under their own keys, and each table of rows holds the rows of
the stored records and nothing else. -/
structure HoldsOwnRows (ix : Index) : Prop where
  placed : ∀ p e, ix.entries.get? p = some e → e.placement = p
  byKey : ∀ r, r ∈ SortedSet.members ix.byKey ↔ ∃ e ∈ ix.contents.entries, keyRow e = r
  byLocation : ∀ r, r ∈ SortedSet.members ix.byLocation
    ↔ ∃ e ∈ ix.contents.entries, locationRow e = r
  byPointee : ∀ r, r ∈ SortedSet.members ix.byPointee
    ↔ ∃ e ∈ ix.contents.entries, rowUnder? e.pointee e = some r
  bySource : ∀ r, r ∈ SortedSet.members ix.bySource
    ↔ ∃ e ∈ ix.contents.entries, rowUnder? e.source e = some r
  byTarget : ∀ r, r ∈ SortedSet.members ix.byTarget
    ↔ ∃ e ∈ ix.contents.entries, rowUnder? e.target e = some r
  removed : ∀ k r, ix.removals.get? k = some r → removalKey r = k
  byContainer : ∀ r, r ∈ SortedSet.members ix.removalsByContainer
    ↔ ∃ x ∈ ix.contents.removals, containerRemoval x = r

/-- The answers of an index are those of the reference. -/
structure AnswersByScan (ix : Index) : Prop where
  byKey : ∀ container key asOf, ix.entryByKey container key asOf
    = (ix.resolveAsOf asOf).map (ix.contents.byKey container key)
  byId : ∀ entryId asOf, ix.entryById entryId asOf
    = (ix.resolveAsOf asOf).map (ix.contents.byId entryId)
  keyed : ∀ container asOf, (ix.keyedEntries container asOf).map SortedMap.get?
    = (ix.resolveAsOf asOf).map (ix.contents.keyed container)
  ordered : ∀ container asOf, ix.orderedEntries container none asOf
    = (ix.resolveAsOf asOf).map (ix.contents.ordered container)
  orderedFirst : ∀ container asOf (n : Int64), 0 ≤ n → ix.orderedEntries container (some n) asOf
    = (ix.resolveAsOf asOf).map fun t => (ix.contents.ordered container t).take n.toInt.toNat
  orderedLast : ∀ container asOf (n : Int64), n < 0 → ix.orderedEntries container (some n) asOf
    = (ix.resolveAsOf asOf).map fun t =>
      (ix.contents.ordered container t).reverse.take n.toInt.natAbs
  touching : ∀ vertex side asOf, ix.entriesTouching vertex side asOf
    = (ix.resolveAsOf asOf).map (ix.contents.touching vertex side)
  pointing : ∀ target, ix.backRefs target = ix.contents.pointing target

section Assembly

variable {ids : List Muid} {ix : Index}

/-- A row that leads to a record is the row of one of all records. -/
theorem mem_rows_iff {κ ρ ν : Type} [Ord κ] [Std.LawfulEqOrd κ] [Ord ρ] {rows : SortedSet ρ}
    {records : SortedMap κ ν} {row : ν → Option ρ} {keyOf : ρ → κ}
    (h : Lists rows records row keyOf)
    (hkey : ∀ k v r, records.get? k = some v → row v = some r → keyOf r = k) (r : ρ) :
    r ∈ SortedSet.members rows ↔ ∃ v ∈ records.values, row v = some r := by
  rw [h r]
  constructor
  · rintro ⟨v, hv, hrow⟩
    exact ⟨v, SortedMap.mem_values_iff.mpr ⟨_, hv⟩, hrow⟩
  · rintro ⟨v, hmem, hrow⟩
    obtain ⟨k, hv⟩ := SortedMap.mem_values_iff.mp hmem
    exact ⟨v, hkey k v r hv hrow ▸ hv, hrow⟩

theorem Mirrored.holdsOwnRows (h : Mirrored ix) : HoldsOwnRows ix where
  placed := h.placed
  byKey r := by
    rw [mem_rows_iff h.byKey (fun p e r he hr => by cases hr; exact h.placed p e he) r]
    simp only [contents, Option.some.injEq]
  byLocation r := by
    rw [mem_rows_iff h.byLocation (fun p e r he hr => by cases hr; exact h.placed p e he) r]
    simp only [contents, Option.some.injEq]
  byPointee := mem_rows_iff h.byPointee fun p e r he hr =>
    (placement_rowUnder? hr).trans (h.placed p e he)
  bySource := mem_rows_iff h.bySource fun p e r he hr =>
    (placement_rowUnder? hr).trans (h.placed p e he)
  byTarget := mem_rows_iff h.byTarget fun p e r he hr =>
    (placement_rowUnder? hr).trans (h.placed p e he)
  removed := h.removed
  byContainer r := by
    rw [mem_rows_iff h.byContainer (fun k x r hx hr => by cases hr; exact h.removed k x hx) r]
    simp only [contents, Option.some.injEq]

theorem limited_of_nonneg {α : Type} {n : Int64} (hn : 0 ≤ n) (l : List α) :
    limited (some n) l = l.take n.toInt.toNat := if_pos hn

theorem limited_of_neg {α : Type} {n : Int64} (hn : n < 0) (l : List α) :
    limited (some n) l = l.reverse.take n.toInt.natAbs := if_neg (Std.not_le.mpr hn)

theorem Tidy.orderedEntries (h : Tidy ids ix) (container : Muid) (limit : Option Int64)
    (asOf : AsOf) : ix.orderedEntries container limit asOf
      = (ix.resolveAsOf asOf).map fun t => limited limit (ix.contents.ordered container t) := by
  simp only [← positionalEntries_eq h]
  rfl

theorem Tidy.answersByScan (h : Tidy ids ix) : AnswersByScan ix where
  byKey container key asOf := by
    rw [entryByKey]
    cases ix.resolveAsOf asOf with
    | error e => rfl
    | ok t =>
        refine congrArg Except.ok ?_
        rw [newestUpTo?_placementsAtKey h.mirrored, Contents.byKey, visible_eq h]
  byId entryId asOf := by
    rw [entryById]
    cases ix.resolveAsOf asOf with
    | error e => rfl
    | ok t =>
        refine congrArg Except.ok ?_
        rw [newestUpTo?_placementsOf h.mirrored, Contents.byId, live_eq h]
  keyed container asOf := by
    rw [keyedEntries]
    cases ix.resolveAsOf asOf with
    | error e => rfl
    | ok t => exact congrArg Except.ok (funext (get?_foldl_keyedStep_eq h container))
  ordered container := h.orderedEntries container none
  orderedFirst container asOf n hn := by
    simp only [h.orderedEntries container (some n) asOf, limited_of_nonneg hn]
  orderedLast container asOf n hn := by
    simp only [h.orderedEntries container (some n) asOf, limited_of_neg hn]
  touching vertex side asOf := by
    rw [entriesTouching]
    cases ix.resolveAsOf asOf with
    | error e => rfl
    | ok t => exact congrArg Except.ok (touchingEntries_eq h vertex side)
  pointing := backRefs_eq h.mirrored

end Assembly

/-- **Questions are answered as by brute force.** Whatever calls an index has answered, if the
bundles that it has accepted have distinct times or owners, and no more changes than there are
offsets, then its tables hold the rows of its records and nothing else, its questions look up
ranges of rows, and every answer is the one that a search through all records gives. -/
theorem answers_bruteForce (keepingHistory : Bool) (calls : List Call)
    (hkeys : ((empty keepingHistory).carryOutAll calls).2.Pairwise fun a b => a.key ≠ b.key)
    (hsize : ∀ b ∈ ((empty keepingHistory).carryOutAll calls).2,
      b.changes.length ≤ 0x100000000) :
    let ix := ((empty keepingHistory).carryOutAll calls).1
    HoldsOwnRows ix ∧ (ix.contents.entries.Pairwise fun e f => e.placement < f.placement)
      ∧ ReadsRanges ix ∧ AnswersByScan ix := by
  intro ix
  have htidy : Tidy _ ix := tidy_carryOutAll hkeys hsize
  exact ⟨htidy.mirrored.holdsOwnRows, pairwise_entries htidy.mirrored, readsRanges ix,
    htidy.answersByScan⟩

/-- A sequence that is pushed to, moved within and cleared, while history is kept, dropped, not
kept and kept again. -/
theorem answers_bruteForce_afterClearance :
    let sequence : Muid := ⟨-1, -1, 2⟩
    let push (value : UInt8) : Change :=
      .entry { behavior := .sequence, container := some sequence, value := some [value] }
    let first := Bundle.ofValid ⟨10, 1, 10, none, none⟩ [push 1, push 2] rfl (by decide) (by decide)
    let move := Bundle.ofValid ⟨20, 2, 20, none, none⟩ [.movement ⟨none, ⟨10, 1, 1⟩, 30, false⟩]
      rfl (by decide) (by decide)
    let clearance := Bundle.ofValid ⟨15, 3, 15, none, none⟩ [.clearance ⟨sequence, false⟩] rfl
      (by decide) (by decide)
    let unseen := Bundle.ofValid ⟨12, 1, 10, some 11, none⟩ [push 3] rfl (by decide) (by decide)
    let calls := [Call.add first, .dropHistory none .latest, .add unseen, .add move, .stopHistory,
      .add clearance, .startHistory, .add first]
    let ran := (empty true).carryOutAll calls
    ran.2 = [first, move, clearance] ∧ ran.1.entryCount = 2
      ∧ ran.1.positionalEntries sequence Int64.maxValue
        = ran.1.contents.ordered sequence Int64.maxValue
      ∧ HoldsOwnRows ran.1 ∧ AnswersByScan ran.1 := by
  intro sequence push first move clearance unseen calls ran
  have haccepted : ran.2 = [first, move, clearance] := by decide +kernel
  have hkeys : ran.2.Pairwise fun a b => a.key ≠ b.key := by rw [haccepted]; decide +kernel
  have hsize : ∀ b ∈ ran.2, b.changes.length ≤ 0x100000000 := by rw [haccepted]; decide +kernel
  obtain ⟨hrows, -, -, hanswers⟩ := answers_bruteForce true calls hkeys hsize
  exact ⟨haccepted, by decide +kernel, by decide +kernel, hrows, hanswers⟩

end GossipStore.Index
