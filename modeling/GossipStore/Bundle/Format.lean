import GossipStore.Bundle.Info
import GossipStore.Change
import GossipStore.Data.Except

set_option autoImplicit false

/-! # The written form of bundles

A bundle is written as a map from small numbers to fields, one of which is the list of changes,
each again such a map. Absent fields, false flags and a zero destination are not written at all.
The bytes are the identity of a bundle, so reading accepts the canonical form only: whatever
`decodeParts` returns encodes to exactly the bytes it was read from (`decodeParts_eq_ok`). -/

namespace GossipStore.BundleFormat

open Cbor (Value)

/-- The version of the layout. -/
def version : UInt8 := 0

/-! ## Field numbers -/

/-- Field numbers of a bundle. -/
def versionKey : Nat := 0
/-- When the bundle was written. -/
def timestampKey : Nat := 1
/-- Who wrote it. -/
def medallionKey : Nat := 2
/-- The first timestamp of its chain. -/
def chainStartKey : Nat := 3
/-- The timestamp before it on its chain. -/
def priorTimeKey : Nat := 4
/-- The comment. -/
def commentKey : Nat := 5
/-- The list of changes. -/
def changesKey : Nat := 6

/-- Field numbers of a change, beginning with its kind. -/
def kindKey : Nat := 0
/-- The behavior of a container or an entry. -/
def behaviorKey : Nat := 1
/-- The container. -/
def containerKey : Nat := 2
/-- The user's key. -/
def scalarKey : Nat := 3
/-- The described container. -/
def describingKey : Nat := 4
/-- The pair. -/
def pairKey : Nat := 5
/-- The address pointed at. -/
def pointeeKey : Nat := 6
/-- The value. -/
def valueKey : Nat := 7
/-- Whether the entry is a deletion. -/
def deletionKey : Nat := 8
/-- The position of an entry. -/
def effectiveKey : Nat := 9
/-- The entry that is moved. -/
def entryKey : Nat := 10
/-- Where it is moved to. -/
def destKey : Nat := 11
/-- Whether what is taken away is deleted for good. -/
def purgeKey : Nat := 12

/-! ## Writing -/

/-- The item for a signed word. -/
def ofInt64 (n : Int64) : Value := .ofInt n.toInt

/-- The item for an address. -/
def ofMuid (m : Muid) : Value :=
  .array [ofInt64 m.timestamp, ofInt64 m.medallion, .ofNat m.offset.toNat]

/-- The item for a user's key. -/
def ofScalar : ScalarKey → Value
  | .integer n => ofInt64 n
  | .text s => .text s
  | .bytes b => .bytes b

/-- One field. -/
def field (key : Nat) (v : Value) : List (Value × Value) := [(.ofNat key, v)]

/-- A field that is written only if it has a value. -/
def optionalField {α : Type} (key : Nat) (item : α → Value) : Option α → List (Value × Value)
  | none => []
  | some x => field key (item x)

/-- A flag, which is written only if it is set. -/
def flagField (key : Nat) (b : Bool) : List (Value × Value) :=
  if b then field key (.bool true) else []

/-- The fields of an entry. -/
def entryFields (e : EntryChange) : List (Value × Value) :=
  field behaviorKey (.ofNat e.behavior.number.toNat)
    ++ optionalField containerKey ofMuid e.container
    ++ optionalField scalarKey ofScalar e.key
    ++ optionalField describingKey ofMuid e.describing
    ++ optionalField pairKey (fun p => .array [ofMuid p.1, ofMuid p.2]) e.pair
    ++ optionalField pointeeKey ofMuid e.pointee
    ++ optionalField valueKey .bytes e.value
    ++ flagField deletionKey e.deletion
    ++ optionalField effectiveKey ofInt64 e.effective

/-- The fields of a movement. -/
def movementFields (m : MovementChange) : List (Value × Value) :=
  optionalField containerKey ofMuid m.container
    ++ field entryKey (ofMuid m.entry)
    ++ (if m.dest = 0 then [] else field destKey (ofInt64 m.dest))
    ++ flagField purgeKey m.purge

/-- The item for a change. -/
def ofChange (c : Change) : Value :=
  .map (field kindKey (.ofNat c.kind.toNat) ++
    match c with
    | .container behavior => field behaviorKey (.ofNat behavior.number.toNat)
    | .entry e => entryFields e
    | .movement m => movementFields m
    | .clearance x => field containerKey (ofMuid x.container) ++ flagField purgeKey x.purge)

/-- The item for a bundle. -/
def ofParts (info : BundleInfo) (changes : List Change) : Value :=
  .map (field versionKey (.ofNat version.toNat)
    ++ field timestampKey (ofInt64 info.timestamp)
    ++ field medallionKey (ofInt64 info.medallion)
    ++ field chainStartKey (ofInt64 info.chainStart)
    ++ optionalField priorTimeKey ofInt64 info.priorTime
    ++ optionalField commentKey .text info.comment
    ++ field changesKey (.array (changes.map ofChange)))

/-- The canonical bytes of metadata and changes, valid or not. There are fewer than `2^64` of
them, so that their number fits into the head of a message. -/
def encode (info : BundleInfo) (changes : List Change) : Except Cbor.WriteError Bytes := do
  let b ← Cbor.write (ofParts info changes)
  if b.length < 0x10000000000000000 then return b else throw .tooLong

/-! ## Reading -/

/-- The integer between two bounds that an item is. -/
def toIntIn (lo hi : Int) (name : Field) (v : Value) : Except Malformation Int :=
  match v.toInt? with
  | none => .error (.notInteger name)
  | some i => if lo ≤ i ∧ i ≤ hi then .ok i else .error (.outOfRange name)

/-- The signed word that an item is. -/
def toInt64 (name : Field) (v : Value) : Except Malformation Int64 :=
  (toIntIn (-0x8000000000000000) 0x7fffffffffffffff name v).map Int64.ofInt

/-- The byte that an item is. -/
def toUInt8 (name : Field) (v : Value) : Except Malformation UInt8 :=
  (toIntIn 0 0xff name v).map fun i => UInt8.ofNat i.toNat

/-- The offset that an item is. -/
def toUInt32 (name : Field) (v : Value) : Except Malformation UInt32 :=
  (toIntIn 0 0xffffffff name v).map fun i => UInt32.ofNat i.toNat

/-- The address that an item is. -/
def toMuid : Value → Except Malformation Muid
  | .array [timestamp, medallion, offset] => do
    return ⟨← toInt64 .muidTimestamp timestamp, ← toInt64 .muidMedallion medallion,
      ← toUInt32 .muidOffset offset⟩
  | _ => .error .badMuid

/-- The user's key that an item is. -/
def toScalar (v : Value) : Except Malformation ScalarKey :=
  match v with
  | .unsigned _ | .negative _ => return .integer (← toInt64 .key v)
  | .text s => .ok (.text s)
  | .bytes b => .ok (.bytes b)
  | _ => .error .badKey

/-- The pair that an item is. -/
def toPair : Value → Except Malformation (Muid × Muid)
  | .array [left, right] => return (← toMuid left, ← toMuid right)
  | _ => .error .badPair

/-- The value that an item is. -/
def toBytes : Value → Except Malformation Bytes
  | .bytes b => .ok b
  | _ => .error .badValue

/-- The comment that an item is. -/
def toComment : Value → Except Malformation String
  | .text s => .ok s
  | _ => .error .badComment

/-- The flag that an item is. -/
def toFlag : Value → Except Malformation Bool
  | .bool b => .ok b
  | _ => .error .badFlag

/-- A field that must be there. -/
def required {α : Type} (entries : List (Value × Value)) (key : Nat) (absent : Malformation)
    (item : Value → Except Malformation α) : Except Malformation α :=
  match Value.lookup? entries key with
  | none => .error absent
  | some v => item v

/-- A field that may be absent. -/
def optional {α : Type} (entries : List (Value × Value)) (key : Nat)
    (item : Value → Except Malformation α) : Except Malformation (Option α) :=
  match Value.lookup? entries key with
  | none => .ok none
  | some v => (item v).map some

/-- A flag, which is unset where it is absent. -/
def flag (entries : List (Value × Value)) (key : Nat) : Except Malformation Bool :=
  return (← optional entries key toFlag).getD false

/-- The behavior of a container or an entry. -/
def behavior (entries : List (Value × Value)) : Except Malformation Behavior := do
  let number ← required entries behaviorKey (.missing .behavior) (toUInt8 .behavior)
  match Behavior.ofNumber? number with
  | none => .error (.unknownBehavior number)
  | some b => return b

/-- The entry that the fields of a change describe. -/
def toEntry (entries : List (Value × Value)) : Except Malformation EntryChange := do
  return {
    behavior := ← behavior entries
    container := ← optional entries containerKey toMuid
    key := ← optional entries scalarKey toScalar
    describing := ← optional entries describingKey toMuid
    pair := ← optional entries pairKey toPair
    pointee := ← optional entries pointeeKey toMuid
    value := ← optional entries valueKey toBytes
    deletion := ← flag entries deletionKey
    effective := ← optional entries effectiveKey (toInt64 .optional) }

/-- The movement that the fields of a change describe. -/
def toMovement (entries : List (Value × Value)) : Except Malformation MovementChange := do
  return {
    container := ← optional entries containerKey toMuid
    entry := ← required entries entryKey .movementWithoutEntry toMuid
    dest := (← optional entries destKey (toInt64 .optional)).getD 0
    purge := ← flag entries purgeKey }

/-- The clearance that the fields of a change describe. -/
def toClearance (entries : List (Value × Value)) : Except Malformation ClearanceChange := do
  return {
    container := ← required entries containerKey .clearanceWithoutContainer toMuid
    purge := ← flag entries purgeKey }

/-- The change that some fields describe, whether its own rules hold or not. -/
def toUncheckedChange (entries : List (Value × Value)) : Except Malformation Change := do
  match ← required entries kindKey (.missing .changeKind) (toUInt8 .changeKind) with
  | 1 => return .container (← behavior entries)
  | 2 => return .entry (← toEntry entries)
  | 3 => return .movement (← toMovement entries)
  | 4 => return .clearance (← toClearance entries)
  | kind => .error (.unknownKind kind)

/-- The change that an item is. -/
def toChange : Value → Except Malformation Change
  | .map entries => do
    let c ← toUncheckedChange entries
    c.validate
    return c
  | _ => .error .changeNotMap

/-- The changes that the items of a list are. -/
def toChanges : List Value → Except Malformation (List Change)
  | [] => .ok []
  | v :: rest => return (← toChange v) :: (← toChanges rest)

/-- The metadata among the fields of a bundle of a known version. -/
def toInfo (entries : List (Value × Value)) : Except Malformation BundleInfo := do
  let v ← required entries versionKey (.missing .version) (toUInt8 .optional)
  if v = version then
    return {
      timestamp := ← required entries timestampKey (.missing .timestamp) (toInt64 .timestamp)
      medallion := ← required entries medallionKey (.missing .medallion) (toInt64 .medallion)
      chainStart := ← required entries chainStartKey (.missing .chainStart) (toInt64 .chainStart)
      priorTime := ← optional entries priorTimeKey (toInt64 .optional)
      comment := ← optional entries commentKey toComment }
  else .error (.unsupportedVersion v)

/-- The list of changes among the fields of a bundle. -/
def changeList (entries : List (Value × Value)) : Except Malformation (List Change) :=
  match Value.lookup? entries changesKey with
  | some (.array items) => toChanges items
  | _ => .error (.missing .changes)

/-- The fields of a bundle. -/
def toFields : Value → Except Malformation (List (Value × Value))
  | .map entries => .ok entries
  | _ => .error .bundleNotMap

/-- The valid metadata and changes whose canonical form the bytes are. -/
def decodeParts (b : Bytes) : Except BundleError (BundleInfo × List Change) := do
  let v ← (Cbor.read b).mapError fun e => .decoding (.unreadable e)
  let entries ← (toFields v).mapError .malformedBundle
  let info ← (toInfo entries).mapError .malformedBundle
  info.validate.mapError .invalidInfo
  let changes ← (changeList entries).mapError .malformedBundle
  let canonical ← (encode info changes).mapError .encoding
  if canonical = b then return (info, changes) else .error (.malformedBundle .notCanonical)

/-! ## What has been read is valid and canonical -/

theorem validate_of_toChange {v : Value} {c : Change} (h : toChange v = .ok c) :
    c.validate = .ok () := by
  unfold toChange at h
  split at h
  · rename_i entries
    cases hc : toUncheckedChange entries with
    | error e => rw [hc] at h; cases h
    | ok c' =>
      rw [hc] at h
      cases hv : c'.validate with
      | error e => simp [bind, Except.bind, hv] at h
      | ok u =>
        simp [bind, Except.bind, hv, pure, Except.pure] at h
        rw [← h, hv]
  · cases h

theorem validate_of_toChanges {items : List Value} {cs : List Change}
    (h : toChanges items = .ok cs) : ∀ c ∈ cs, c.validate = .ok () := by
  induction items generalizing cs with
  | nil =>
    cases h
    simp
  | cons v rest ih =>
    cases hc : toChange v with
    | error e => simp [toChanges, hc, bind, Except.bind] at h
    | ok c =>
      cases hr : toChanges rest with
      | error e => simp [toChanges, hc, hr, bind, Except.bind] at h
      | ok cs' =>
        simp [toChanges, hc, hr, bind, Except.bind, pure, Except.pure] at h
        subst h
        intro x hx
        rcases List.mem_cons.1 hx with rfl | hx
        · exact validate_of_toChange hc
        · exact ih hr x hx

/-- What has been read from some bytes is valid and encodes to these bytes. -/
theorem decodeParts_eq_ok {b : Bytes} {info : BundleInfo} {changes : List Change}
    (h : decodeParts b = .ok (info, changes)) :
    info.validate = .ok () ∧ (∀ c ∈ changes, c.validate = .ok ()) ∧
      encode info changes = .ok b := by
  unfold decodeParts at h
  cases hv : Cbor.read b with
  | error e => simp [hv, mapError_error, bind, Except.bind] at h
  | ok v =>
    cases hf : toFields v with
    | error e => simp [hv, hf, mapError_error, mapError_ok, bind, Except.bind] at h
    | ok entries =>
      cases hi : toInfo entries with
      | error e => simp [hv, hf, hi, mapError_error, mapError_ok, bind, Except.bind] at h
      | ok i =>
        cases hw : i.validate with
        | error e => simp [hv, hf, hi, hw, mapError_error, mapError_ok, bind, Except.bind] at h
        | ok u =>
          cases hl : changeList entries with
          | error e =>
            simp [hv, hf, hi, hw, hl, mapError_error, mapError_ok, bind, Except.bind] at h
          | ok cs =>
            cases he : encode i cs with
            | error e =>
              simp [hv, hf, hi, hw, hl, he, mapError_error, mapError_ok, bind, Except.bind] at h
            | ok b' =>
              simp only [hv, hf, hi, hw, hl, he, mapError_ok, bind, Except.bind, pure,
                Except.pure] at h
              split at h
              · rename_i hb
                injection h with h
                injection h with h₁ h₂
                subst h₁ h₂ hb
                refine ⟨hw, ?_, he⟩
                unfold changeList at hl
                split at hl
                · exact validate_of_toChanges hl
                · cases hl
              · cases h

end GossipStore.BundleFormat
