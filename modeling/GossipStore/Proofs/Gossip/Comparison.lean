import GossipStore.Convergence
import GossipStore.Proofs.Gossip.Reordering
import GossipStore.Proofs.Index.Built
import GossipStore.Proofs.Store.Refinement

set_option autoImplicit false

/-! # Comparing replicas

Replicas that hold the same bundles are found to have converged, and no others are unless the hash
fails to tell them apart. What is hashed can be cut again into the bytes of the bundles, for each
begins with its length and no bundle is longer than a length can say (`hashedBytes_inj`). And what a
store lists and how far it has seen each chain depend only on which bundles it has accepted, as long
as no two of them have one time and owner (`MadeOf.compareWith_eq`).
-/

namespace GossipStore

/-- Two byte strings that the hash does not tell apart. -/
def Blake3.Collide (a b : Bytes) : Prop := a ≠ b ∧ Blake3.hash a = Blake3.hash b

/-- The hash tells byte strings apart unless they collide. -/
theorem Blake3.hash_eq_iff {a b : Bytes} :
    Blake3.hash a = Blake3.hash b ↔ a = b ∨ Blake3.Collide a b := by
  constructor
  · intro heq
    by_cases hab : a = b
    · exact .inl hab
    · exact .inr ⟨hab, heq⟩
  · rintro (rfl | hcollide)
    · rfl
    · exact hcollide.2

/-! ## What is hashed -/

/-- The length in front of a bundle tells where the bundle ends. -/
theorem framedBundle_append_inj {a b : Bundle} {rest rest' : Bytes}
    (h : framedBundle a ++ rest = framedBundle b ++ rest') : a.bytes = b.bytes ∧ rest = rest' := by
  rw [framedBundle, framedBundle, List.append_assoc, List.append_assoc] at h
  obtain ⟨hframe, hbytes⟩ := List.append_inj h (by rw [Bytes.length_ofNat, Bytes.length_ofNat])
  have hlength : a.bytes.length = b.bytes.length := by
    have hread := congrArg Bytes.toNat hframe
    rwa [Bytes.toNat_ofNat (BundleFormat.eq_form_of_encode a.encodes).2,
      Bytes.toNat_ofNat (BundleFormat.eq_form_of_encode b.encodes).2] at hread
  exact List.append_inj hbytes hlength

theorem framedBundle_ne_nil (b : Bundle) : framedBundle b ≠ [] := by
  intro h
  have hlength := congrArg List.length h
  rw [framedBundle, List.length_append, Bytes.length_ofNat, List.length_nil] at hlength
  omega

theorem flatMap_framedBundle_inj {bs bs' : List Bundle}
    (h : bs.flatMap framedBundle = bs'.flatMap framedBundle) :
    bs.map (·.bytes) = bs'.map (·.bytes) := by
  -- on both lists: the first frames agree, and so do the rests after them
  induction bs generalizing bs' with
  | nil =>
      cases bs' with
      | nil => rfl
      | cons b' rest' =>
          rw [List.flatMap_nil, List.flatMap_cons] at h
          exact absurd (List.append_eq_nil_iff.mp h.symm).1 (framedBundle_ne_nil b')
  | cons b rest ih =>
      cases bs' with
      | nil =>
          rw [List.flatMap_nil, List.flatMap_cons] at h
          exact absurd (List.append_eq_nil_iff.mp h).1 (framedBundle_ne_nil b)
      | cons b' rest' =>
          rw [List.flatMap_cons, List.flatMap_cons] at h
          obtain ⟨hfirst, hrest⟩ := framedBundle_append_inj h
          rw [List.map_cons, List.map_cons, hfirst, ih hrest]

/-- **The hashed bytes determine the bundles.** -/
theorem hashedBytes_inj {bs bs' : List Bundle} : hashedBytes bs = hashedBytes bs'
    ↔ bs.map (·.bytes) = bs'.map (·.bytes) := by
  constructor
  · intro h
    exact flatMap_framedBundle_inj (List.append_cancel_left h)
  · intro h
    rw [List.map_injective_iff.mpr Bundle.bytes_injective h]

/-- Two replicas are found to have converged if they have seen the same chains to the same points
and list the same bytes, or what they list collides. -/
theorem Index.compareWith_eq_converged_iff {ix other : Index} :
    ix.compareWith other = .converged ↔ ix.chainTracker.rows = other.chainTracker.rows
      ∧ (ix.bundleList.map (·.bytes) = other.bundleList.map (·.bytes)
        ∨ Blake3.Collide (hashedBytes ix.bundleList) (hashedBytes other.bundleList)) := by
  have hhash : ix.stateHash = other.stateHash
      ↔ ix.bundleList.map (·.bytes) = other.bundleList.map (·.bytes)
        ∨ Blake3.Collide (hashedBytes ix.bundleList) (hashedBytes other.bundleList) := by
    rw [Index.stateHash, Index.stateHash, StateHash.mk.injEq, Blake3.hash_eq_iff, hashedBytes_inj]
  rw [← hhash, Index.compareWith]
  by_cases hrows : ix.chainTracker.rows = other.chainTracker.rows
  · by_cases hstate : ix.stateHash = other.stateHash <;> simp [hrows, hstate]
  · simp [hrows]

/-! ## Stores to which bundles are added -/

/-- Adds bundles one after the other, and lists those that were new. A store is left as it is by a
bundle that it refuses. -/
def Store.offerAll (s : Store) : List Bundle → Store × List Bundle
  | [] => (s, [])
  | b :: rest =>
    match s.add b with
    | .ok (s', true) => ((s'.offerAll rest).1, b :: (s'.offerAll rest).2)
    | .ok (s', false) => s'.offerAll rest
    | .error _ => s.offerAll rest

/-- Whether nothing has been added to a store. -/
def Store.Fresh (s : Store) : Prop := ∃ keepingHistory, s.index = .empty keepingHistory

/-- What adding a bundle does to what a store knows. -/
theorem Store.index_add {s s' : Store} {b : Bundle} {novel : Bool}
    (h : s.add b = .ok (s', novel)) : novel = false ∧ s'.index = s.index
      ∨ novel = true ∧ s.index.check b.info = .ok true ∧ s'.index = s.index.apply b := by
  cases s with
  | memory ix =>
      rw [Store.add, Index.add_eq] at h
      rw [Store.index]
      rcases hcheck : ix.check b.info with e | _ | _
      · rw [hcheck] at h
        cases h
      · rw [hcheck] at h
        cases h
        exact .inl ⟨rfl, rfl⟩
      · rw [hcheck] at h
        cases h
        exact .inr ⟨rfl, rfl, rfl⟩
  | logged l =>
      rw [Store.add, LoggedStore.add_eq_addInPlace] at h
      rw [Store.index]
      rcases l.addInPlace_cases b with ⟨e, -, ha⟩ | ⟨-, ha⟩ | ⟨-, -, ha⟩ | ⟨hcheck, -, ha⟩
      · rw [ha] at h
        cases h
      · rw [ha] at h
        cases h
        exact .inl ⟨rfl, rfl⟩
      · rw [ha] at h
        cases h
      · rw [ha] at h
        cases h
        exact .inr ⟨rfl, hcheck, rfl⟩

namespace Index

variable {accepted accepted' : List Bundle} {ix ix' : Index} {b : Bundle}

/-- Whether an index has its chains and its table from the bundles that it has accepted. -/
structure MadeOf (accepted : List Bundle) (ix : Index) : Prop where
  lines : FollowsLines accepted ix
  lasts : KeepsLast accepted ix

namespace MadeOf

theorem empty (keepingHistory : Bool) : MadeOf [] (.empty keepingHistory) :=
  ⟨followsLines_offerAll keepingHistory [], keepsLast_offerAll keepingHistory []⟩

theorem apply (h : MadeOf accepted ix) (hb : ix.check b.info = .ok true) :
    MadeOf (accepted ++ [b]) (ix.apply b) := ⟨h.lines.apply hb, h.lasts.apply b⟩

/-- Adding bundles keeps the record of what was accepted. -/
theorem offerAll {s : Store} (h : MadeOf accepted s.index) (arrivals : List Bundle) :
    MadeOf (accepted ++ (s.offerAll arrivals).2) (s.offerAll arrivals).1.index := by
  induction arrivals generalizing accepted s with
  | nil =>
      rw [Store.offerAll, List.append_nil]
      exact h
  | cons b rest ih =>
      rw [Store.offerAll]
      rcases hadd : s.add b with e | ⟨s', _ | _⟩
      · exact ih h
      · rcases Store.index_add hadd with ⟨-, hindex⟩ | ⟨hnovel, -⟩
        · exact ih (hindex ▸ h)
        · cases hnovel
      · rcases Store.index_add hadd with ⟨hnovel, -⟩ | ⟨-, hcheck, hindex⟩
        · cases hnovel
        · have hnext : MadeOf (accepted ++ [b]) s'.index := hindex ▸ h.apply hcheck
          simp only
          rw [List.append_cons]
          exact ih hnext

/-- The chains depend only on which bundles were accepted. -/
theorem chains_eq (h : MadeOf accepted ix) (h' : MadeOf accepted' ix')
    (hsame : ∀ b, b ∈ accepted ↔ b ∈ accepted') : ix.chains = ix'.chains := by
  refine SortedMap.ext_get? fun chain => ?_
  have hchain : ofChain accepted chain = ofChain accepted' chain :=
    eq_of_newer (h.lines chain).1.pairwise (h'.lines chain).1.pairwise fun b => by
      rw [mem_ofChain_iff, mem_ofChain_iff, hsame b]
  rw [(h.lines chain).2, (h'.lines chain).2, hchain]

theorem nodup (h : MadeOf accepted ix) : accepted.Nodup := by
  refine List.nodup_iff_count_le_one.mpr fun b => ?_
  -- all copies of a bundle are of one chain
  have hline : (ofChain accepted b.info.chain).Nodup := by
    refine (h.lines b.info.chain).1.pairwise.imp fun {x y} hlt hxy => ?_
    rw [hxy] at hlt
    exact Std.lt_irrefl hlt
  have hcount := List.nodup_iff_count_le_one.mp hline b
  rwa [ofChain, List.count_filter (by simp)] at hcount

/-- The list of bundles depends only on which bundles were accepted, if it has them all. -/
theorem bundleList_eq (h : MadeOf accepted ix) (h' : MadeOf accepted' ix')
    (hsame : ∀ b, b ∈ accepted ↔ b ∈ accepted')
    (hkeys : accepted.Pairwise fun a b => a.key ≠ b.key) : ix.bundleList = ix'.bundleList := by
  have : Std.Irrefl fun a b : Bundle => compare a.key b.key = .lt :=
    ⟨fun _ => compare_self_ne_lt _⟩
  have : Std.Antisymm fun a b : Bundle => compare a.key b.key = .lt :=
    ⟨fun _ _ hab hba => absurd (Std.TransCmp.lt_trans hab hba) (compare_self_ne_lt _)⟩
  have hperm : accepted.Perm accepted' :=
    (List.perm_ext_iff_of_nodup h.nodup h'.nodup).mpr hsame
  have hkeys' : accepted'.Pairwise fun a b => a.key ≠ b.key :=
    (hperm.pairwise_iff Ne.symm).mp hkeys
  refine h.lasts.pairwise_bundleList.eq_of_mem_iff h'.lasts.pairwise_bundleList fun b => ?_
  calc b ∈ ix.bundleList
      ↔ b ∈ accepted := (h.lasts.perm_bundleList_iff.mpr hkeys).mem_iff
    _ ↔ b ∈ accepted' := hsame b
    _ ↔ b ∈ ix'.bundleList := (h'.lasts.perm_bundleList_iff.mpr hkeys').mem_iff.symm

/-- **Replicas that have accepted the same bundles have converged.** -/
theorem compareWith_eq (h : MadeOf accepted ix) (h' : MadeOf accepted' ix')
    (hsame : ∀ b, b ∈ accepted ↔ b ∈ accepted')
    (hkeys : accepted.Pairwise fun a b => a.key ≠ b.key) : ix.compareWith ix' = .converged := by
  have htracker : ix.chainTracker = ix'.chainTracker := by
    rw [h.lines.tipsFiled.chainTracker_eq, h'.lines.tipsFiled.chainTracker_eq,
      h.chains_eq h' hsame]
  have hlist := h.bundleList_eq h' hsame hkeys
  exact compareWith_eq_converged_iff.mpr ⟨by rw [htracker], .inl (by rw [hlist])⟩

end MadeOf

end Index

namespace Store

/-- The index of a store that was empty is made of what has been accepted since. -/
theorem Fresh.madeOf {s : Store} (h : s.Fresh) (arrivals : List Bundle) :
    (s.offerAll arrivals).1.index.MadeOf (s.offerAll arrivals).2 := by
  obtain ⟨keepingHistory, hempty⟩ := h
  have hmade : Index.MadeOf [] s.index := hempty ▸ Index.MadeOf.empty keepingHistory
  exact hmade.offerAll arrivals

/-- **Replicas are found to have converged exactly if they hold the same.** Add any bundles to each
of two stores that are empty at first, in memory or with a log. The comparison finds that they have
converged exactly if they have seen the same chains to the same points and list the same bundles,
byte for byte, or if the hash does not tell apart what they list. There what is hashed determines
the list of bundles. And stores that have accepted the same bundles, no two of one time and owner,
have converged, in whatever orders the bundles came. -/
theorem compareWith_converged (s s' : Store) (hfresh : s.Fresh) (hfresh' : s'.Fresh)
    (arrivals arrivals' : List Bundle) :
    let ix := (s.offerAll arrivals).1.index
    let ix' := (s'.offerAll arrivals').1.index
    let accepted := (s.offerAll arrivals).2
    let accepted' := (s'.offerAll arrivals').2
    (ix.compareWith ix' = .converged ↔ ix.chainTracker.rows = ix'.chainTracker.rows
        ∧ (ix.bundleList.map (·.bytes) = ix'.bundleList.map (·.bytes)
          ∨ Blake3.Collide (hashedBytes ix.bundleList) (hashedBytes ix'.bundleList)))
      ∧ (∀ bs bs' : List Bundle, hashedBytes bs = hashedBytes bs'
        ↔ bs.map (·.bytes) = bs'.map (·.bytes))
      ∧ ((∀ b, b ∈ accepted ↔ b ∈ accepted') → (accepted.Pairwise fun a b => a.key ≠ b.key) →
        ix.compareWith ix' = .converged) := by
  intro ix ix' accepted accepted'
  have hmade : ix.MadeOf accepted := hfresh.madeOf arrivals
  have hmade' : ix'.MadeOf accepted' := hfresh'.madeOf arrivals'
  exact ⟨Index.compareWith_eq_converged_iff, fun bs bs' => hashedBytes_inj,
    hmade.compareWith_eq hmade'⟩

/-- A store in memory and one with a log get the bundles of two chains in different orders, the
second one with a repetition and with a bundle that comes too early at first. -/
theorem compareWith_converged_inOtherOrder :
    let first := Bundle.ofValid ⟨10, 1, 10, none, none⟩ [] rfl (List.forall_mem_nil _) (by decide)
    let second := Bundle.ofValid ⟨20, 1, 10, some 10, none⟩ [] rfl (List.forall_mem_nil _)
      (by decide)
    let other := Bundle.ofValid ⟨15, 2, 15, none, none⟩ [] rfl (List.forall_mem_nil _) (by decide)
    let s := ((memory (.empty false)).offerAll [first, second, other]).1
    let s' := ((logged ⟨.empty, .empty true⟩).offerAll [other, second, first, first, second]).1
    s.index.bundleList = [first, other, second] ∧ s.index.compareWith s'.index = .converged := by
  intro first second other s s'
  refine ⟨by decide +kernel, (compareWith_converged (memory (.empty false))
    (logged ⟨.empty, .empty true⟩) ⟨false, rfl⟩ ⟨true, rfl⟩ [first, second, other]
    [other, second, first, first, second]).2.2 (fun b => ?_) (by decide +kernel)⟩
  have haccepted : ((memory (.empty false)).offerAll [first, second, other]).2
      = [first, second, other] := by decide +kernel
  have haccepted' : ((logged ⟨.empty, .empty true⟩).offerAll
      [other, second, first, first, second]).2 = [other, first, second] := by decide +kernel
  rw [haccepted, haccepted']
  simp only [List.mem_cons, List.not_mem_nil, or_false]
  tauto

end Store

end GossipStore
