import GossipStore.Convergence
import GossipStore.Store.Basic

set_option autoImplicit false

/-! # Stores on a shelf

In a simulation a store is opened, closed and opened again, perhaps as one of another kind, and the
file of its log is edited while nobody looks. A place on the shelf holds the store and the file. The
file belongs to the place: a store that does not use it leaves it as it is. -/

namespace GossipStore

/-- The kinds of stores. -/
inductive StoreKind where
  /-- A bare index. -/
  | index
  /-- A store in memory. -/
  | memory
  /-- A store with a log in memory. -/
  | log
  /-- A store with a log in a file. -/
  | logFile
  | indexWithoutHistory
  | memoryWithoutHistory
deriving DecidableEq, Repr

namespace StoreKind

/-- Whether the store keeps history from the start. -/
def keepsHistory : StoreKind → Bool
  | indexWithoutHistory | memoryWithoutHistory => false
  | _ => true

/-- Whether the store is a bare index, which counts what it drops. -/
def isBare : StoreKind → Bool
  | index | indexWithoutHistory => true
  | _ => false

/-- Opens a store of the kind. Only a log in a file begins with what the file holds. -/
def openStore (kind : StoreKind) (file : Log) : Except StoreError Store :=
  match kind with
  | logFile => (LoggedStore.ofLog file).map .logged
  | log => (LoggedStore.ofLog .empty).map .logged
  | _ => .ok (.memory (.empty kind.keepsHistory))

end StoreKind

/-- A place on the shelf. -/
structure StoreSlot where
  kind : StoreKind
  /-- The file, if there is one and no open store writes to it. -/
  file : Option Log
  /-- The store, if it is open. -/
  store? : Option Store

namespace StoreSlot

/-- A place without a store and a file. -/
def empty (kind : StoreKind) : StoreSlot := ⟨kind, none, none⟩

/-- The file of the place, whoever writes to it. -/
def file? (slot : StoreSlot) : Option Log :=
  match slot.kind, slot.store? with
  | .logFile, some s => s.log?
  | _, _ => slot.file

/-- Puts a store into the place. -/
def put (slot : StoreSlot) (s : Store) : StoreSlot := { slot with store? := some s }

/-- Closes the store if it is open, and opens it again. -/
def reopen (slot : StoreSlot) : StoreSlot × Except StoreError Unit :=
  match slot.kind.openStore (slot.file?.getD .empty) with
  | .ok s =>
    (⟨slot.kind, if slot.kind = .logFile then none else slot.file?, some s⟩, .ok ())
  | .error e => (⟨slot.kind, slot.file?, none⟩, .error e)

/-- Edits the file of the place, if there is one. An open store does not notice until it writes. -/
def editFile (slot : StoreSlot) (f : Log → Log × Nat) : StoreSlot × Nat :=
  match slot.kind, slot.store?, slot.file with
  | .logFile, some (.logged s), _ =>
    let (log, changed) := f s.log
    (slot.put (.logged { s with log }), changed)
  | _, _, some file =>
    let (file, changed) := f file
    ({ slot with file := some file }, changed)
  | _, _, none => (slot, 0)

/-- The number of rows in the log of the store, if it has one. -/
def logLength? (slot : StoreSlot) : Option Nat :=
  slot.store?.bind fun s => s.log?.map (·.rows.length)

end StoreSlot

/-! ## Edits of a file -/

namespace Log

/-- Appends a row whatever the index says, unless there is one of the same time and owner. -/
def forceRow (key : BundleKey) (chainStart : Timestamp) (bytes : Bytes) (l : Log) : Log × Nat :=
  match l.append? key chainStart bytes with
  | some l => (l, 1)
  | none => (l, 0)

/-- Sets whether history is kept. -/
def forceKeepHistory (value : Int64) (l : Log) : Log × Nat := (l.setKeepHistory value, 1)

end Log

end GossipStore
