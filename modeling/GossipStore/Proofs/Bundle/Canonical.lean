import GossipStore.Bundle.Basic
import GossipStore.Proofs.Bundle.Fields
import GossipStore.Proofs.Cbor.Written

set_option autoImplicit false

/-! # Bundles have one written form

Writing a bundle produces the form of its item (`encode_eq`), and every part of that item is read
back as it was: a change (`toChange_ofChange`), the metadata (`toInfo_bundleFields`) and the list of
changes (`changeList_bundleFields`). So reading accepts the canonical bytes of valid metadata and
changes (`decodeParts_of_encode`), and it accepts nothing else.
-/

namespace GossipStore.BundleFormat

open Cbor (Value Plain Ordered)

/-! ## Changes -/

theorem behavior_of_lookup? {entries : List (Value × Value)} {b : Behavior}
    (h : Value.lookup? entries behaviorKey = some (.ofNat b.number.toNat)) :
    behavior entries = .ok b := by
  rw [behavior, required_of_lookup? h, toUInt8_ofNat]
  simp [bind, Except.bind, Behavior.ofNumber?_number, pure, Except.pure]

/-- What a look-up finds among the fields of an entry, which follow the kind of change. -/
theorem lookup?_entryFields (kind : Value) (e : EntryChange) :
    let l := field kindKey kind ++ entryFields e
    Value.lookup? l kindKey = some kind
      ∧ Value.lookup? l behaviorKey = some (.ofNat e.behavior.number.toNat)
      ∧ Value.lookup? l containerKey = e.container.map ofMuid
      ∧ Value.lookup? l scalarKey = e.key.map ofScalar
      ∧ Value.lookup? l describingKey = e.describing.map ofMuid
      ∧ Value.lookup? l pairKey = e.pair.map (fun p => .array [ofMuid p.1, ofMuid p.2])
      ∧ Value.lookup? l pointeeKey = e.pointee.map ofMuid
      ∧ Value.lookup? l valueKey = e.value.map .bytes
      ∧ Value.lookup? l deletionKey = (if e.deletion = true then some (.bool true) else none)
      ∧ Value.lookup? l effectiveKey = e.effective.map ofInt64 := by
  simp [entryFields, lookup?_append, lookup?_field, lookup?_optionalField, lookup?_flagField,
    kindKey, behaviorKey, containerKey, scalarKey, describingKey, pairKey, pointeeKey, valueKey,
    deletionKey, effectiveKey]

theorem toEntry_entryFields (kind : Value) (e : EntryChange) :
    toEntry (field kindKey kind ++ entryFields e) = .ok e := by
  obtain ⟨-, hbehavior, hcontainer, hkey, hdescribing, hpair, hpointee, hvalue, hdeletion,
    heffective⟩ := lookup?_entryFields kind e
  rw [toEntry, behavior_of_lookup? hbehavior, optional_of_lookup? hcontainer toMuid_ofMuid,
    optional_of_lookup? hkey toScalar_ofScalar, optional_of_lookup? hdescribing toMuid_ofMuid,
    optional_of_lookup? hpair toPair_ofPair, optional_of_lookup? hpointee toMuid_ofMuid,
    optional_of_lookup? hvalue fun _ => rfl, flag_of_lookup? hdeletion,
    optional_of_lookup? heffective (toInt64_ofInt64 .optional)]
  rfl

/-- The destination of a movement as a field that is absent where it is zero. -/
theorem movementFields_eq (m : MovementChange) :
    movementFields m = optionalField containerKey ofMuid m.container
      ++ field entryKey (ofMuid m.entry)
      ++ optionalField destKey ofInt64 (if m.dest = 0 then none else some m.dest)
      ++ flagField purgeKey m.purge := by
  rw [movementFields]
  split <;> rfl

/-- What a look-up finds among the fields of a movement. -/
theorem lookup?_movementFields (kind : Value) (m : MovementChange) :
    let l := field kindKey kind ++ movementFields m
    Value.lookup? l kindKey = some kind
      ∧ Value.lookup? l containerKey = m.container.map ofMuid
      ∧ Value.lookup? l entryKey = some (ofMuid m.entry)
      ∧ Value.lookup? l destKey = (if m.dest = 0 then none else some m.dest).map ofInt64
      ∧ Value.lookup? l purgeKey = (if m.purge = true then some (.bool true) else none) := by
  simp [movementFields_eq, lookup?_append, lookup?_field, lookup?_optionalField,
    lookup?_flagField, kindKey, containerKey, entryKey, destKey, purgeKey]

theorem toMovement_movementFields (kind : Value) (m : MovementChange) :
    toMovement (field kindKey kind ++ movementFields m) = .ok m := by
  obtain ⟨-, hcontainer, hentry, hdest, hpurge⟩ := lookup?_movementFields kind m
  -- a destination that was left out is read as zero, which is when it was left out
  have habsent : (if m.dest = 0 then none else some m.dest).getD 0 = m.dest := by
    split
    · rename_i h
      rw [h]
      rfl
    · rfl
  rw [toMovement, optional_of_lookup? hcontainer toMuid_ofMuid, required_of_lookup? hentry,
    toMuid_ofMuid, optional_of_lookup? hdest (toInt64_ofInt64 .optional), flag_of_lookup? hpurge]
  simp only [bind, Except.bind, pure, Except.pure, habsent]

/-- What a look-up finds among the fields of a clearance. -/
theorem lookup?_clearanceFields (kind : Value) (c : ClearanceChange) :
    let l := field kindKey kind ++ (field containerKey (ofMuid c.container)
      ++ flagField purgeKey c.purge)
    Value.lookup? l kindKey = some kind
      ∧ Value.lookup? l containerKey = some (ofMuid c.container)
      ∧ Value.lookup? l purgeKey = (if c.purge = true then some (.bool true) else none) := by
  simp [lookup?_append, lookup?_field, lookup?_flagField, kindKey, containerKey, purgeKey]

theorem toClearance_clearanceFields (kind : Value) (c : ClearanceChange) :
    toClearance (field kindKey kind ++ (field containerKey (ofMuid c.container)
      ++ flagField purgeKey c.purge)) = .ok c := by
  obtain ⟨-, hcontainer, hpurge⟩ := lookup?_clearanceFields kind c
  rw [toClearance, required_of_lookup? hcontainer, toMuid_ofMuid, flag_of_lookup? hpurge]
  rfl

/-- The kind of change that a list of fields begins with. -/
theorem kind_of_lookup? {entries : List (Value × Value)} {n : UInt8}
    (h : Value.lookup? entries kindKey = some (.ofNat n.toNat)) :
    required entries kindKey (.missing .changeKind) (toUInt8 .changeKind) = .ok n := by
  rw [required_of_lookup? h, toUInt8_ofNat]

/-- The fields of a change, beginning with its kind. -/
def changeFields (c : Change) : List (Value × Value) :=
  field kindKey (.ofNat c.kind.toNat) ++
    match c with
    | .container behavior => field behaviorKey (.ofNat behavior.number.toNat)
    | .entry e => entryFields e
    | .movement m => movementFields m
    | .clearance x => field containerKey (ofMuid x.container) ++ flagField purgeKey x.purge

theorem ofChange_eq (c : Change) : ofChange c = .map (changeFields c) := rfl

theorem toUncheckedChange_changeFields (c : Change) :
    toUncheckedChange (changeFields c) = .ok c := by
  -- the kind that is read decides how the other fields are read
  cases c with
  | container b =>
      have hkind : Value.lookup? (changeFields (.container b)) kindKey
          = some (.ofNat (1 : UInt8).toNat) := by
        simp [changeFields, lookup?_append, lookup?_field, kindKey, Change.kind]
      have hbehavior : Value.lookup? (changeFields (.container b)) behaviorKey
          = some (.ofNat b.number.toNat) := by
        simp [changeFields, lookup?_append, lookup?_field, kindKey, behaviorKey]
      simp [toUncheckedChange, kind_of_lookup? hkind, behavior_of_lookup? hbehavior, bind,
        Except.bind, pure, Except.pure]
  | entry e =>
      have hkind := kind_of_lookup? (n := (Change.entry e).kind) (lookup?_entryFields _ e).1
      have hentry := toEntry_entryFields (.ofNat (Change.entry e).kind.toNat) e
      rw [toUncheckedChange, changeFields, hkind]
      change (toEntry _).bind (fun e => .ok (Change.entry e)) = .ok (Change.entry e)
      rw [hentry]
      rfl
  | movement m =>
      have hkind := kind_of_lookup? (n := (Change.movement m).kind) (lookup?_movementFields _ m).1
      have hmovement := toMovement_movementFields (.ofNat (Change.movement m).kind.toNat) m
      rw [toUncheckedChange, changeFields, hkind]
      change (toMovement _).bind (fun m => .ok (Change.movement m)) = .ok (Change.movement m)
      rw [hmovement]
      rfl
  | clearance x =>
      have hkind := kind_of_lookup? (n := (Change.clearance x).kind) (lookup?_clearanceFields _ x).1
      have hclearance := toClearance_clearanceFields (.ofNat (Change.clearance x).kind.toNat) x
      rw [toUncheckedChange, changeFields, hkind]
      change (toClearance _).bind (fun x => .ok (Change.clearance x)) = .ok (Change.clearance x)
      rw [hclearance]
      rfl

/-- A valid change is read back as it was. -/
theorem toChange_ofChange {c : Change} (h : c.validate = .ok ()) :
    toChange (ofChange c) = .ok c := by
  rw [ofChange_eq, toChange, toUncheckedChange_changeFields]
  simp [bind, Except.bind, h, pure, Except.pure]

theorem toChanges_map_ofChange {cs : List Change} (h : ∀ c ∈ cs, c.validate = .ok ()) :
    toChanges (cs.map ofChange) = .ok cs := by
  induction cs with
  | nil => rfl
  | cons c rest ih =>
      have hrest := ih fun d hd => h d (by simp [hd])
      simp [toChanges, toChange_ofChange (h c (by simp)), hrest, bind, Except.bind, pure,
        Except.pure]

/-! ## The item of a bundle -/

/-- The fields of a bundle. -/
def bundleFields (info : BundleInfo) (changes : List Change) : List (Value × Value) :=
  field versionKey (.ofNat version.toNat)
    ++ field timestampKey (ofInt64 info.timestamp)
    ++ field medallionKey (ofInt64 info.medallion)
    ++ field chainStartKey (ofInt64 info.chainStart)
    ++ optionalField priorTimeKey ofInt64 info.priorTime
    ++ optionalField commentKey .text info.comment
    ++ field changesKey (.array (changes.map ofChange))

theorem ofParts_eq (info : BundleInfo) (changes : List Change) :
    ofParts info changes = .map (bundleFields info changes) := rfl

/-- What a look-up finds among the fields of a bundle. -/
theorem lookup?_bundleFields (info : BundleInfo) (changes : List Change) :
    let l := bundleFields info changes
    Value.lookup? l versionKey = some (.ofNat version.toNat)
      ∧ Value.lookup? l timestampKey = some (ofInt64 info.timestamp)
      ∧ Value.lookup? l medallionKey = some (ofInt64 info.medallion)
      ∧ Value.lookup? l chainStartKey = some (ofInt64 info.chainStart)
      ∧ Value.lookup? l priorTimeKey = info.priorTime.map ofInt64
      ∧ Value.lookup? l commentKey = info.comment.map .text
      ∧ Value.lookup? l changesKey = some (.array (changes.map ofChange)) := by
  simp [bundleFields, lookup?_append, lookup?_field, lookup?_optionalField, versionKey,
    timestampKey, medallionKey, chainStartKey, priorTimeKey, commentKey, changesKey]

theorem toInfo_bundleFields (info : BundleInfo) (changes : List Change) :
    toInfo (bundleFields info changes) = .ok info := by
  obtain ⟨hversion, htimestamp, hmedallion, hstart, hprior, hcomment, -⟩ :=
    lookup?_bundleFields info changes
  rw [toInfo, required_of_lookup? hversion, toUInt8_ofNat, required_of_lookup? htimestamp,
    toInt64_ofInt64, required_of_lookup? hmedallion, toInt64_ofInt64, required_of_lookup? hstart,
    toInt64_ofInt64, optional_of_lookup? hprior (toInt64_ofInt64 .optional),
    optional_of_lookup? hcomment fun _ => rfl]
  rfl

theorem changeList_bundleFields (info : BundleInfo) {changes : List Change}
    (h : ∀ c ∈ changes, c.validate = .ok ()) :
    changeList (bundleFields info changes) = .ok changes := by
  obtain ⟨-, -, -, -, -, -, hchanges⟩ := lookup?_bundleFields info changes
  rw [changeList, hchanges]
  exact toChanges_map_ofChange h

/-! ## Order and depth -/

theorem fields_changeFields (d : Nat) (c : Change) : Fields (d + 2) 0 24 (changeFields c) := by
  refine .append (m := 1) (.field (by decide) (by decide) (.unsigned _ _) (.unsigned _)) ?_
    (by decide) (by decide) (by decide)
  cases c with
  | container b => exact .field (by decide) (by decide) (.unsigned _ _) (.unsigned _)
  | entry e =>
      have muid (k lo hi : Nat) (hlo : lo ≤ k) (hhi : k < hi) (o : Option Muid) :
          Fields (d + 2) lo hi (optionalField k ofMuid o) :=
        .optionalField hlo hhi (plain_ofMuid _) ordered_ofMuid o
      -- the last field is split off again and again, and `m` is its number
      refine .append (m := 9) ?_ (.optionalField (by decide) (by decide) (plain_ofInt64 _)
        ordered_ofInt64 e.effective) (by decide) (by decide) (by decide)
      refine .append (m := 8) ?_ (.flagField (by decide) (by decide) e.deletion)
        (by decide) (by decide) (by decide)
      refine .append (m := 7) ?_ (.optionalField (by decide) (by decide) (.bytes _) .bytes
        e.value) (by decide) (by decide) (by decide)
      refine .append (m := 6) ?_ (muid _ _ _ (by decide) (by decide) e.pointee)
        (by decide) (by decide) (by decide)
      refine .append (m := 5) ?_ (.optionalField (by decide) (by decide) (plain_ofPair d)
        ordered_ofPair e.pair) (by decide) (by decide) (by decide)
      refine .append (m := 4) ?_ (muid _ _ _ (by decide) (by decide) e.describing)
        (by decide) (by decide) (by decide)
      refine .append (m := 3) ?_ (.optionalField (by decide) (by decide) (plain_ofScalar _)
        ordered_ofScalar e.key) (by decide) (by decide) (by decide)
      exact .append (m := 2) (.field (by decide) (by decide) (.unsigned _ _) (.unsigned _))
        (muid _ _ _ (by decide) (by decide) e.container) (by decide) (by decide) (by decide)
  | movement m =>
      simp only [movementFields_eq]
      refine .append (m := 12) ?_ (.flagField (by decide) (by decide) m.purge)
        (by decide) (by decide) (by decide)
      refine .append (m := 11) ?_ (.optionalField (by decide) (by decide) (plain_ofInt64 _)
        ordered_ofInt64 _) (by decide) (by decide) (by decide)
      exact .append (m := 10) (.optionalField (by decide) (by decide) (plain_ofMuid _)
        ordered_ofMuid m.container) (.field (by decide) (by decide) (plain_ofMuid _ _)
        (ordered_ofMuid _)) (by decide) (by decide) (by decide)
  | clearance x =>
      exact .append (m := 12) (.field (by decide) (by decide) (plain_ofMuid _ _)
        (ordered_ofMuid _)) (.flagField (by decide) (by decide) x.purge) (by decide) (by decide)
        (by decide)

theorem fields_bundleFields (d : Nat) (info : BundleInfo) (changes : List Change) :
    Fields (d + 4) 0 24 (bundleFields info changes) := by
  have number (k lo hi : Nat) (hlo : lo ≤ k) (hhi : k < hi) (n : Int64) :
      Fields (d + 4) lo hi (field k (ofInt64 n)) :=
    .field hlo hhi (plain_ofInt64 _ n) (ordered_ofInt64 n)
  -- a bundle nests its changes, a change its pairs, and a pair its addresses
  have hplain : Plain (d + 4) (.array (changes.map ofChange)) := by
    refine .array fun v hv => ?_
    obtain ⟨c, -, rfl⟩ := List.mem_map.mp hv
    exact (fields_changeFields d c).plain_map
  have hordered : Ordered (.array (changes.map ofChange)) := by
    refine .array fun v hv => ?_
    obtain ⟨c, -, rfl⟩ := List.mem_map.mp hv
    exact (fields_changeFields d c).ordered_map
  refine .append (m := 6) ?_ (.field (by decide) (by decide) hplain hordered)
    (by decide) (by decide) (by decide)
  refine .append (m := 5) ?_ (.optionalField (by decide) (by decide) (.text _) .text
    info.comment) (by decide) (by decide) (by decide)
  refine .append (m := 4) ?_ (.optionalField (by decide) (by decide) (plain_ofInt64 _)
    ordered_ofInt64 info.priorTime) (by decide) (by decide) (by decide)
  refine .append (m := 3) ?_ (number _ _ _ (by decide) (by decide) _)
    (by decide) (by decide) (by decide)
  refine .append (m := 2) ?_ (number _ _ _ (by decide) (by decide) _)
    (by decide) (by decide) (by decide)
  exact .append (m := 1) (.field (by decide) (by decide) (.unsigned _ _) (.unsigned _))
    (number _ _ _ (by decide) (by decide) _) (by decide) (by decide) (by decide)

theorem plain_ofParts (info : BundleInfo) (changes : List Change) :
    Plain Cbor.maxDepth (ofParts info changes) :=
  (fields_bundleFields 251 info changes).plain_map

theorem ordered_ofParts (info : BundleInfo) (changes : List Change) :
    Ordered (ofParts info changes) :=
  (fields_bundleFields 0 info changes).ordered_map

/-! ## Bytes -/

/-- Writing fails only for a bundle whose bytes are too many to be counted in a head. -/
theorem encode_eq (info : BundleInfo) (changes : List Change) :
    encode info changes =
      if (ofParts info changes).form.length < 0x10000000000000000
      then .ok (ofParts info changes).form else .error .tooLong := by
  have hw := Cbor.writes_form (plain_ofParts info changes) (ordered_ofParts info changes)
  rw [encode]
  split
  · rename_i hlen
    rw [hw.eq_ok (Cbor.counted_of_length_lt (plain_ofParts info changes) hlen)]
    simp [bind, Except.bind, hlen, pure, Except.pure]
  · -- the bytes are too many: the writer says so, or they are counted in the end
    rename_i hlen
    rcases hw with ⟨h, -⟩ | ⟨h, -⟩
    · rw [h]
      simp [bind, Except.bind, hlen]
      rfl
    · rw [h]
      rfl

theorem eq_form_of_encode {info : BundleInfo} {changes : List Change} {b : Bytes}
    (h : encode info changes = .ok b) :
    b = (ofParts info changes).form ∧ b.length < 0x10000000000000000 := by
  rw [encode_eq] at h
  split at h
  · rename_i hlen
    cases h
    exact ⟨rfl, hlen⟩
  · cases h

/-- The canonical bytes of valid metadata and changes are read back. -/
theorem decodeParts_of_encode {b : Bytes} {info : BundleInfo} {changes : List Change}
    (hi : info.validate = .ok ()) (hc : ∀ c ∈ changes, c.validate = .ok ())
    (he : encode info changes = .ok b) : decodeParts b = .ok (info, changes) := by
  obtain ⟨hb, hlen⟩ := eq_form_of_encode he
  have hread : Cbor.read b = .ok (ofParts info changes) := by
    have h := Cbor.read_form (plain_ofParts info changes) (hb ▸ hlen) []
    rwa [List.append_nil, ← hb] at h
  rw [ofParts_eq] at hread
  -- what was read is written once more and compared with the bytes
  simp only [decodeParts, hread, toFields, toInfo_bundleFields, hi,
    changeList_bundleFields info hc, he, mapError_ok, bind, Except.bind, if_true]
  rfl

/-- **Reading accepts exactly the canonical bytes of valid parts.** In particular valid parts
survive writing and reading (unless their bytes are too many to be counted), no two byte strings
say the same, and no two valid parts have one form. -/
theorem decodeParts_canonical :
    (∀ (b : Bytes) (info : BundleInfo) (changes : List Change),
      decodeParts b = .ok (info, changes) ↔
        info.validate = .ok () ∧ (∀ c ∈ changes, c.validate = .ok ())
          ∧ encode info changes = .ok b)
    ∧ (∀ (info : BundleInfo) (changes : List Change),
        info.validate = .ok () → (∀ c ∈ changes, c.validate = .ok ()) →
        (ofParts info changes).form.length < 0x10000000000000000 →
        ∃ b, encode info changes = .ok b ∧ decodeParts b = .ok (info, changes))
    ∧ (∀ (b b' : Bytes) (parts : BundleInfo × List Change),
        decodeParts b = .ok parts → decodeParts b' = .ok parts → b = b')
    ∧ (∀ (info info' : BundleInfo) (changes changes' : List Change) (b : Bytes),
        info.validate = .ok () → (∀ c ∈ changes, c.validate = .ok ()) →
        info'.validate = .ok () → (∀ c ∈ changes', c.validate = .ok ()) →
        encode info changes = .ok b → encode info' changes' = .ok b →
        info = info' ∧ changes = changes') := by
  refine ⟨fun b info changes => ⟨decodeParts_eq_ok, ?_⟩, ?_, ?_, ?_⟩
  · rintro ⟨hi, hc, he⟩
    exact decodeParts_of_encode hi hc he
  · intro info changes hi hc hlen
    have he : encode info changes = .ok (ofParts info changes).form := by
      rw [encode_eq, if_pos hlen]
    exact ⟨_, he, decodeParts_of_encode hi hc he⟩
  · rintro b b' ⟨info, changes⟩ h h'
    have he := (decodeParts_eq_ok h).2.2
    rw [(decodeParts_eq_ok h').2.2] at he
    exact (Except.ok.inj he).symm
  · intro info info' changes changes' b hi hc hi' hc' he he'
    have h := decodeParts_of_encode hi hc he
    rw [decodeParts_of_encode hi' hc' he'] at h
    obtain ⟨rfl, rfl⟩ := Prod.mk.inj (Except.ok.inj h)
    exact ⟨rfl, rfl⟩

/-- An entry whose container is the root by name, at the least position, and a removal. -/
theorem decodeParts_canonical_atEdges :
    let info : BundleInfo := ⟨9, 7, 5, some 5, some "β"⟩
    let changes : List Change :=
      [.entry { behavior := .sequence, container := some .root, effective := some Int64.minValue },
        .movement ⟨none, ⟨0, 0, 1⟩, 0, true⟩]
    ∃ b, encode info changes = .ok b ∧ decodeParts b = .ok (info, changes) := by
  intro info changes
  have hvalid : ∀ c ∈ changes, c.validate = .ok () := by
    intro c hc
    simp only [changes, List.mem_cons, List.not_mem_nil, or_false] at hc
    rcases hc with rfl | rfl <;> rfl
  exact decodeParts_canonical.2.1 info changes rfl hvalid (by decide)

end GossipStore.BundleFormat

namespace GossipStore.Bundle

/-- A bundle is read from its bytes. -/
theorem decode_bytes (b : Bundle) : decode b.bytes = .ok b := by
  have hparts := BundleFormat.decodeParts_of_encode b.infoValid b.changesValid b.encodes
  have hsome : ∃ b', decode b.bytes = .ok b' ∧ b'.info = b.info ∧ b'.changes = b.changes := by
    unfold decode
    split
    · rename_i e he
      rw [hparts] at he
      cases he
    · rename_i info changes he
      rw [hparts] at he
      cases he
      exact ⟨_, rfl, rfl, rfl⟩
  obtain ⟨b', hb', hinfo, hchanges⟩ := hsome
  -- the parts of a bundle decide its bytes
  rw [hb', ext_parts hinfo hchanges]

/-- The bytes of a bundle are all that there is to it. -/
theorem bytes_injective : Function.Injective bytes := by
  intro a b hbytes
  have hdecoded := a.decode_bytes
  rw [hbytes, b.decode_bytes] at hdecoded
  exact (Except.ok.inj hdecoded).symm

/-- The bundle of valid parts whose bytes are not too many to be counted. -/
def ofValid (info : BundleInfo) (changes : List Change) (hi : info.validate = .ok ())
    (hc : ∀ c ∈ changes, c.validate = .ok ())
    (hlen : (BundleFormat.ofParts info changes).form.length < 0x10000000000000000) : Bundle where
  bytes := (BundleFormat.ofParts info changes).form
  info
  changes
  infoValid := hi
  changesValid := hc
  encodes := by rw [BundleFormat.encode_eq, if_pos hlen]

end GossipStore.Bundle
