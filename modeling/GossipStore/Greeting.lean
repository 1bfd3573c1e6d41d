import GossipStore.Bundle.Format

set_option autoImplicit false

/-! # Greetings

A replica greets another with the list of the chains it knows and how far it has seen each. The
list is written as an array of rows of three integers. Reading takes any form of such an array,
canonical or not. -/

namespace GossipStore

/-- How far one chain has been seen. -/
structure GreetingRow where
  medallion : Medallion
  chainStart : Timestamp
  seenThrough : Timestamp
deriving DecidableEq, Repr

namespace Greeting

open Cbor (Value)

/-- The item for a row. -/
def ofRow (r : GreetingRow) : Value :=
  .array [BundleFormat.ofInt64 r.medallion, BundleFormat.ofInt64 r.chainStart,
    BundleFormat.ofInt64 r.seenThrough]

/-- The bytes of a greeting. -/
def encode (rows : List GreetingRow) : Except BundleError Bytes :=
  (Cbor.write (.array (rows.map ofRow))).mapError .encoding

/-- The row that an item is. -/
def toRow : Value → Except BundleError GreetingRow
  | .array [medallion, chainStart, seenThrough] =>
    Except.mapError .malformedBundle do
      return ⟨← BundleFormat.toInt64 .medallion medallion,
        ← BundleFormat.toInt64 .chainStart chainStart,
        ← BundleFormat.toInt64 .seenThrough seenThrough⟩
  | _ => .error (.decoding .badGreetingRow)

/-- The rows that the items of a list are. -/
def toRows : List Value → Except BundleError (List GreetingRow)
  | [] => .ok []
  | v :: rest => return (← toRow v) :: (← toRows rest)

/-- The rows of a greeting. -/
def decode (b : Bytes) : Except BundleError (List GreetingRow) := do
  match ← (Cbor.read b).mapError fun e => .decoding (.unreadable e) with
  | .array items => toRows items
  | _ => .error (.decoding .greetingNotArray)

end Greeting

end GossipStore
