import GossipStore.Bundle.Basic
import GossipStore.Data.SortedMap

set_option autoImplicit false

/-! # Listeners

Listeners are told of every bundle that a store has newly accepted. A listener may ask for the
bundles that change one container only, and for those only that came from another replica. What
a listener does is not modelled: it is known by a label. -/

namespace GossipStore

/-- A registered listener. -/
structure Listener (α : Type) where
  id : UInt64
  container : Option Muid
  remoteOnly : Bool
  label : α
deriving DecidableEq, Repr

/-- The registered listeners in the order of their registration. -/
structure Listeners (α : Type) where
  /-- The number of the listener registered last, removed or not. -/
  lastId : UInt64
  registered : List (Listener α)
deriving DecidableEq, Repr

namespace Listeners

variable {α : Type}

/-- No listeners. -/
def empty : Listeners α := ⟨0, []⟩

/-- Registers a listener and hands out its number. -/
def add (ls : Listeners α) (container : Option Muid) (remoteOnly : Bool) (label : α) :
    Listeners α × UInt64 :=
  let id := ls.lastId + 1
  (⟨id, ls.registered ++ [⟨id, container, remoteOnly, label⟩]⟩, id)

/-- Removes a listener and tells whether there was one. -/
def remove (ls : Listeners α) (id : UInt64) : Listeners α × Bool :=
  ({ ls with registered := ls.registered.filter (·.id ≠ id) }, ls.registered.any (·.id = id))

/-- Whether a listener is told of a bundle, local or from another replica. -/
def wants (bundle : Bundle) (remote : Bool) (l : Listener α) : Bool :=
  (remote || !l.remoteOnly) && l.container.all (bundle.touched.contains ·)

/-- The labels of the listeners that are told of a bundle, in the order of registration. -/
def matching (ls : Listeners α) (bundle : Bundle) (remote : Bool) : List α :=
  (ls.registered.filter (wants bundle remote)).map (·.label)

/-- The text form of a table of listeners. -/
def text (ls : Listeners α) : String := s!"Listeners \x7b count: {ls.registered.length} \x7d"

end Listeners

/-- The containers that a bundle changes, in order and without repetitions. -/
def Bundle.touchedSet (b : Bundle) : SortedSet Muid := .ofMembers b.touched

end GossipStore
