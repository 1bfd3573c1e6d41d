import GossipStore.Bundle.Error
import GossipStore.StorageKey

set_option autoImplicit false

/-! # Changes

A bundle is a list of changes: definitions of containers, entries, movements of entries and
clearances of containers. A change may use addresses relative to its own bundle; the functions
that look at its content take the timestamp and medallion to resolve them with. -/

namespace GossipStore

/-! ## The four kinds of change -/

/-- Puts a value, a pointer or a deletion at a key or position of a container. -/
structure EntryChange where
  behavior : Behavior
  /-- The container, or none for the root. -/
  container : Option Muid := none
  key : Option ScalarKey := none
  describing : Option Muid := none
  pair : Option (Muid × Muid) := none
  pointee : Option Muid := none
  value : Option Bytes := none
  deletion : Bool := false
  /-- The position in an ordered container, if it is not the time of the bundle. -/
  effective : Option Timestamp := none
deriving DecidableEq, Repr

/-- Moves an entry to another position or takes it away. -/
structure MovementChange where
  container : Option Muid
  entry : Muid
  /-- The new position; zero takes the entry away. -/
  dest : Timestamp
  purge : Bool
deriving DecidableEq, Repr

/-- Takes away all that a container holds. -/
structure ClearanceChange where
  container : Muid
  purge : Bool
deriving DecidableEq, Repr

/-- One change of a bundle. -/
inductive Change where
  /-- Defines a container, whose address is that of the change. -/
  | container (behavior : Behavior)
  | entry (entry : EntryChange)
  | movement (movement : MovementChange)
  | clearance (clearance : ClearanceChange)
deriving DecidableEq, Repr

/-- The container field for an address: none for the root. -/
def containerField (container : Muid) : Option Muid :=
  if container = Muid.root then none else some container

/-! ## Entries -/

namespace EntryChange

/-- An entry without content in a container. -/
def of (behavior : Behavior) (container : Muid) : EntryChange :=
  { behavior, container := containerField container }

/-- Whether the key that the behavior asks for is missing. -/
def lacksKey (e : EntryChange) : Bool :=
  match e.behavior with
  | .directory | .keySet => e.key.isNone
  | .property | .group => e.describing.isNone
  | .pairSet | .pairMap | .edgeType => e.pair.isNone
  | .box | .vertex | .sequence => false

/-- Checks the fields against the behavior. -/
def validate (e : EntryChange) : Except Malformation Unit :=
  if e.lacksKey then .error (.entryWithoutKey e.behavior)
  else if e.deletion && (e.value.isSome || e.pointee.isSome) then .error .deletionWithContent
  else .ok ()

/-- The container in which the entry ends up. -/
def containerId (e : EntryChange) (timestamp : Timestamp) (medallion : Medallion) : Muid :=
  match e.container with
  | none => .root
  | some c => c.resolve timestamp medallion

/-- The pair with its addresses resolved. -/
def resolvedPair (e : EntryChange) (timestamp : Timestamp) (medallion : Medallion) :
    Option (Muid × Muid) :=
  e.pair.map fun p => (p.1.resolve timestamp medallion, p.2.resolve timestamp medallion)

/-- The key under which the container holds the entry. -/
def storageKey (e : EntryChange) (timestamp : Timestamp) (medallion : Medallion) : StorageKey :=
  match e.behavior with
  | .directory | .keySet => .scalar (e.key.getD (.integer 0))
  | .sequence | .edgeType => .position (e.effective.getD timestamp)
  | .box | .vertex => .unit
  | .property | .group => .describing ((e.describing.getD .root).resolve timestamp medallion)
  | .pairSet | .pairMap =>
    let p := (e.resolvedPair timestamp medallion).getD (.root, .root)
    .pair p.1 p.2

/-- The storage key of an entry that passes its checks. -/
def storageKey? (e : EntryChange) (timestamp : Timestamp) (medallion : Medallion) :
    Except Malformation StorageKey := do
  e.validate
  return e.storageKey timestamp medallion

end EntryChange

/-! ## Changes -/

namespace Change

/-- The number that stands for the kind of change in a bundle. -/
def kind : Change → UInt8
  | container _ => 1
  | entry _ => 2
  | movement _ => 3
  | clearance _ => 4

/-- Checks what can be checked on the change alone. -/
def validate : Change → Except Malformation Unit
  | entry e => e.validate
  | movement m => if m.entry = Muid.root then .error .movementOfRoot else .ok ()
  | container _ | clearance _ => .ok ()

/-- The container whose content an entry or a clearance changes. -/
def touchedContainer? (c : Change) (timestamp : Timestamp) (medallion : Medallion) :
    Option Muid :=
  match c with
  | entry e => some (e.containerId timestamp medallion)
  | clearance x => some (x.container.resolve timestamp medallion)
  | container _ | movement _ => none

end Change

end GossipStore
