import GossipStore.Bundle.Error

set_option autoImplicit false

/-! # Bundle metadata and chains

A chain is the sequence of bundles that one owner writes. It is named by the owner's medallion
and the timestamp of its first bundle. The first bundle has no prior time and sits at the chain
start; each later one names the timestamp of the bundle before it. `BundleInfo.validate` checks
what can be checked on one bundle alone. -/

namespace GossipStore

/-! ## Chains -/

/-- The name of a chain: its owner and the timestamp of its first bundle. -/
structure ChainKey where
  medallion : Medallion
  chainStart : Timestamp
deriving DecidableEq, Repr

namespace ChainKey

/-- Medallion first, then chain start. -/
instance : Parted ChainKey (Medallion × Timestamp) where
  parts c := (c.medallion, c.chainStart)

instance : Std.TransOrd ChainKey := Parted.transOrd

instance : Std.LawfulEqOrd ChainKey := Parted.lawfulEqOrd

/-- The text form of a chain name. -/
def text (c : ChainKey) : String := s!"({c.medallion}, {c.chainStart})"

end ChainKey

/-! ## Metadata -/

/-- The metadata of a bundle. -/
structure BundleInfo where
  timestamp : Timestamp
  medallion : Medallion
  chainStart : Timestamp
  /-- The timestamp of the bundle before this one on its chain. -/
  priorTime : Option Timestamp
  comment : Option String
deriving DecidableEq, Repr

namespace BundleInfo

/-- The metadata of the first bundle of a chain. -/
def first (medallion : Medallion) (timestamp : Timestamp) : BundleInfo where
  timestamp
  medallion
  chainStart := timestamp
  priorTime := none
  comment := none

/-- The metadata of the bundle that comes next on the chain. -/
def extend (info : BundleInfo) (timestamp : Timestamp) : BundleInfo where
  timestamp
  medallion := info.medallion
  chainStart := info.chainStart
  priorTime := some info.timestamp
  comment := none

/-- Sets the comment. -/
def withComment (info : BundleInfo) (comment : String) : BundleInfo :=
  { info with comment := some comment }

/-- Whether this is the first bundle of its chain. -/
def isFirst (info : BundleInfo) : Bool :=
  info.timestamp = info.chainStart && info.priorTime.isNone

/-- The chain that the bundle belongs to. -/
def chain (info : BundleInfo) : ChainKey := ⟨info.medallion, info.chainStart⟩

/-- Checks the rules that each bundle must satisfy on its own. -/
def validate (info : BundleInfo) : Except InfoError Unit :=
  if info.medallion ≤ 0 then .error (.medallionNotPositive info.medallion)
  else if info.timestamp ≤ 0 ∨ info.chainStart ≤ 0 then .error .timestampNotPositive
  else if info.timestamp < info.chainStart then
    .error (.beforeChainStart info.timestamp info.chainStart)
  else match info.priorTime with
    | none =>
      if info.timestamp = info.chainStart then .ok ()
      else .error (.priorMissing info.timestamp info.chainStart)
    | some prior =>
      if info.timestamp ≤ prior ∨ prior < info.chainStart then
        .error (.priorOutOfRange prior info.timestamp)
      else .ok ()

/-- The text form of the metadata. -/
def text (info : BundleInfo) : String :=
  let base := s!"bundle {info.timestamp} on chain {info.chain.text}"
  match info.priorTime with
  | none => base
  | some prior => s!"{base} after {prior}"

end BundleInfo

end GossipStore
