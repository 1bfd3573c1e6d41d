import GossipStore.Json

set_option autoImplicit false

/-! # Configuration

The settings of a database and their reading from a JSON object. Fields that are missing take
their defaults and unknown fields are ignored; a known field given twice is refused. A list in place
of the object gives the fields in their order. -/

namespace GossipStore

/-- The number of an actor that may own chains. -/
abbrev ActorId := UInt32

/-- The settings of a database. -/
structure Config where
  /-- The comment of every chain that the database starts. -/
  identity : Option String
  actorId : Option ActorId
  /-- How long a new peer has to send its greeting, in milliseconds. -/
  handshakeTimeout : UInt64
  keepHistory : Bool
  /-- How long the message loop waits for a frame, in milliseconds. -/
  messageTimeout : UInt64
deriving DecidableEq, Repr

namespace Config

/-- The settings where nothing is given. -/
def default : Config where
  identity := none
  actorId := none
  handshakeTimeout := 1000
  keepHistory := true
  messageTimeout := 100

instance : Inhabited Config := ⟨default⟩

/-- The whole milliseconds of a span, at most as many as fit into a word. -/
def wholeMillis (seconds nanos : Nat) : UInt64 :=
  UInt64.ofNat (min ((seconds * 1000000000 + nanos) / 1000000) 0xffffffffffffffff)

/-- The number up to a limit that an item is. -/
def number? (limit : Nat) : Json → Option Nat
  | .number (some n) => if n ≤ limit then some n else none
  | _ => none

/-- The item of a field that may be null. -/
def nullable {α : Type} (item : Json → Option α) : Json → Option (Option α)
  | .null => some none
  | v => (item v).map some

/-- The text that an item is. -/
def text? : Json → Option String
  | .string s => s
  | _ => none

/-- The truth value that an item is. -/
def bool? : Json → Option Bool
  | .bool b => some b
  | _ => none

/-- Sets the field with the given name, if there is one. -/
def setField (c : Config) (name : String) (v : Json) : Option Config :=
  match name with
  | "identity" => (nullable text? v).map fun identity => { c with identity }
  | "actor_id" =>
    (nullable (number? 0xffffffff) v).map fun n => { c with actorId := n.map UInt32.ofNat }
  | "handshake_timeout_ms" =>
    (number? 0xffffffffffffffff v).map fun n => { c with handshakeTimeout := UInt64.ofNat n }
  | "keep_history" => (bool? v).map fun keepHistory => { c with keepHistory }
  | "message_timeout_ms" =>
    (number? 0xffffffffffffffff v).map fun n => { c with messageTimeout := UInt64.ofNat n }
  | _ => some c

/-- The names of the fields. -/
def fieldNames : List String :=
  ["identity", "actor_id", "handshake_timeout_ms", "keep_history", "message_timeout_ms"]

/-- Reads the fields one after another. No known field may come twice. -/
def ofFields : (seen : List String) → List (Option String × Json) → Config → Option Config
  | _, [], c => some c
  | seen, (some name, v) :: rest, c =>
    if seen.contains name then none
    else do
      let c ← c.setField name v
      ofFields (if fieldNames.contains name then name :: seen else seen) rest c
  | _, (none, _) :: _, _ => none

/-- Reads the fields from a list, which gives them in the order of their names and may stop
early. -/
def ofItems (items : List Json) : Option Config :=
  if items.length ≤ fieldNames.length then ofFields [] ((fieldNames.map some).zip items) default
  else none

/-- The settings that a JSON text gives. -/
def parse (s : String) : Option Config :=
  match Json.parse s with
  | some (.object fields) => ofFields [] fields default
  | some (.array items) => ofItems items
  | _ => none

end Config

end GossipStore
