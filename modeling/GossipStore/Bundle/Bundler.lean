import GossipStore.Bundle.Basic

set_option autoImplicit false

/-! # Building bundles

A bundler collects changes until it is sealed. An address in a bundle under construction has an
offset at once and a timestamp and medallion after sealing. Every operation either succeeds or
leaves the bundler as it was, and a sealed bundler never changes again. -/

namespace GossipStore

/-- The address of a change of a bundle that may not be sealed yet. -/
structure PendingMuid where
  offset : UInt32
deriving DecidableEq, Repr

namespace PendingMuid

/-- The address to use in other changes of the same bundle. -/
def relative (p : PendingMuid) : Muid := ⟨0, 0, p.offset⟩

/-- The address under the metadata of the sealed bundle. -/
def resolve (p : PendingMuid) (info : BundleInfo) : Muid :=
  ⟨info.timestamp, info.medallion, p.offset⟩

end PendingMuid

/-- A bundle under construction, or a finished one. -/
structure Bundler where
  changes : List Change
  comment : Option String
  /-- The medallion under which the bundle must be sealed, if that is fixed. -/
  medallion : Option Medallion
  sealed : Option Bundle
deriving DecidableEq

namespace Bundler

/-- A bundler without changes. -/
def new : Bundler := ⟨[], none, none, none⟩

instance : Inhabited Bundler := ⟨new⟩

/-- Fixes the medallion under which the bundle must be sealed. -/
def withMedallion (b : Bundler) (medallion : Medallion) : Bundler :=
  { b with medallion := some medallion }

/-- Sets the comment when the bundler is made. -/
def withComment (b : Bundler) (comment : String) : Bundler :=
  { b with comment := some comment }

/-- Whether the bundler has been sealed. -/
def isSealed (b : Bundler) : Bool := b.sealed.isSome

/-- Fails if the bundler has been sealed. -/
def ensureOpen (b : Bundler) : Except BundleError Unit :=
  if b.isSealed then .error .alreadySealed else .ok ()

/-- Changes the comment. -/
def setComment (b : Bundler) (comment : String) : Except BundleError Bundler := do
  b.ensureOpen
  return b.withComment comment

/-- Adds a change and hands out its address. -/
def addChange (b : Bundler) (c : Change) : Except BundleError (Bundler × PendingMuid) := do
  b.ensureOpen
  c.validate.mapError .malformedBundle
  let changes := b.changes ++ [c]
  return ({ b with changes }, ⟨UInt32.ofNat changes.length⟩)

/-- Seals the bundle. The bundler's comment is used where the metadata has none. -/
def sealWith (b : Bundler) (info : BundleInfo) : Except BundleError (Bundler × Bundle) := do
  b.ensureOpen
  match b.medallion with
  | some expected =>
    if expected ≠ info.medallion then throw (.medallionMismatch expected info.medallion)
  | none => pure ()
  let bundle ← Bundle.ofParts { info with comment := info.comment <|> b.comment } b.changes
  return ({ b with sealed := some bundle }, bundle)

/-- The sealed bundle. -/
def bundle (b : Bundler) : Except BundleError Bundle :=
  match b.sealed with
  | none => .error .notSealed
  | some bundle => .ok bundle

/-- The medallion of the sealed bundle, or the one that is fixed beforehand. -/
def medallion? (b : Bundler) : Except BundleError Medallion :=
  match b.sealed, b.medallion with
  | some bundle, _ => .ok bundle.info.medallion
  | none, some medallion => .ok medallion
  | none, none => .error .notSealed

end Bundler

/-! ## Common changes -/

namespace Change

/-- Sets a key of a directory. -/
def setKey (directory : Muid) (key : ScalarKey) (value : Bytes) : Change :=
  .entry { EntryChange.of .directory directory with key := some key, value := some value }

/-- Marks a key of a directory as deleted. -/
def deleteKey (directory : Muid) (key : ScalarKey) : Change :=
  .entry { EntryChange.of .directory directory with key := some key, deletion := true }

/-- Puts a value at the end of a sequence, at the time of the bundle. -/
def push (sequence : Muid) (value : Bytes) : Change :=
  .entry { EntryChange.of .sequence sequence with value := some value }

/-- Puts a value into a sequence at a position. -/
def pushAt (sequence : Muid) (position : Timestamp) (value : Bytes) : Change :=
  .entry { EntryChange.of .sequence sequence with
    value := some value, effective := some position }

/-- Sets the value of a property for the container it describes. -/
def setProperty (property describing : Muid) (value : Bytes) : Change :=
  .entry { EntryChange.of .property property with
    describing := some describing, value := some value }

/-- Sets the value of a pair in a pair map. -/
def setPair (pairMap left right : Muid) (value : Bytes) : Change :=
  .entry { EntryChange.of .pairMap pairMap with pair := some (left, right), value := some value }

/-- Moves an entry to a position. -/
def moveEntry (container entry : Muid) (dest : Timestamp) : Change :=
  .movement ⟨containerField container, entry, dest, false⟩

/-- Takes an entry away. -/
def removeEntry (container entry : Muid) (purge : Bool) : Change :=
  .movement ⟨containerField container, entry, 0, purge⟩

/-- Takes away all that a container holds. -/
def clear (container : Muid) (purge : Bool) : Change := .clearance ⟨container, purge⟩

end Change

end GossipStore
