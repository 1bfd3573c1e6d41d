import GossipStore.Muid

set_option autoImplicit false

/-! # Behaviors of containers

The behavior of a container says how its entries are keyed and whether a new entry takes the
place of the one before it at the same key. -/

namespace GossipStore

/-- The kind of a container. -/
inductive Behavior where
  | box
  | sequence
  | keySet
  | directory
  | pairSet
  | pairMap
  | vertex
  | edgeType
  | property
  | group
deriving DecidableEq, Repr

namespace Behavior

/-- The number that stands for the behavior in a bundle. -/
def number : Behavior → UInt8
  | box => 1
  | sequence => 2
  | keySet => 3
  | directory => 4
  | pairSet => 5
  | pairMap => 6
  | vertex => 7
  | edgeType => 8
  | property => 9
  | group => 10

/-- The behavior that a number stands for. -/
def ofNumber? : UInt8 → Option Behavior
  | 1 => some box
  | 2 => some sequence
  | 3 => some keySet
  | 4 => some directory
  | 5 => some pairSet
  | 6 => some pairMap
  | 7 => some vertex
  | 8 => some edgeType
  | 9 => some property
  | 10 => some group
  | _ => none

theorem ofNumber?_number (b : Behavior) : ofNumber? b.number = some b := by cases b <;> rfl

/-- The name of the behavior. -/
def name : Behavior → String
  | box => "Box"
  | sequence => "Sequence"
  | keySet => "KeySet"
  | directory => "Directory"
  | pairSet => "PairSet"
  | pairMap => "PairMap"
  | vertex => "Vertex"
  | edgeType => "EdgeType"
  | property => "Property"
  | group => "Group"

/-- Whether entries are ordered by position instead of keyed. -/
def isOrdered : Behavior → Bool
  | sequence | edgeType => true
  | _ => false

/-- Whether a new entry takes the place of the one before it at the same key. -/
def isReplacing (b : Behavior) : Bool := !b.isOrdered

/-- The container of each behavior that every replica has without defining it. -/
def globalContainer (b : Behavior) : Muid := ⟨-1, -1, b.number.toUInt32⟩

end Behavior

end GossipStore
