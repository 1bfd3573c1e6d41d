import GossipStore.Bundle.Info
import GossipStore.Data.SortedMap
import GossipStore.Greeting

set_option autoImplicit false

/-! # Chain trackers

A tracker records for every chain the metadata of the latest bundle seen. It is what replicas
tell each other in greetings. A task may also wait for a bundle: the tracker keeps the waits that
are not fulfilled yet, and marking a bundle returns the waits that this fulfils. -/

namespace GossipStore

/-- A wait for a bundle of an owner that covers a time. -/
structure Waiter where
  /-- The number under which the wait was registered. -/
  ticket : Nat
  medallion : Medallion
  timestamp : Timestamp
  /-- Whether nobody waits any longer. -/
  closed : Bool
deriving DecidableEq, Repr

/-- The latest bundle seen of each chain, and the waits for more. -/
structure ChainTracker where
  chains : SortedMap ChainKey BundleInfo
  waiters : List Waiter
deriving DecidableEq

namespace ChainTracker

/-- A tracker that has seen nothing. -/
def empty : ChainTracker := ⟨.empty, []⟩

instance : Inhabited ChainTracker := ⟨empty⟩

/-! ## What has been seen -/

/-- The latest bundle seen of a chain. -/
def info? (t : ChainTracker) (chain : ChainKey) : Option BundleInfo := t.chains.get? chain

/-- How far a chain has been seen. -/
def seenTo? (t : ChainTracker) (chain : ChainKey) : Option Timestamp :=
  (t.info? chain).map (·.timestamp)

/-- How far a chain has been seen, and zero for a chain not seen at all. -/
def seenThrough (t : ChainTracker) (chain : ChainKey) : Timestamp := (t.seenTo? chain).getD 0

/-- Whether a chain of the owner has been seen from at or before the time up to it. -/
def has (t : ChainTracker) (medallion : Medallion) (timestamp : Timestamp) : Bool :=
  t.chains.toList.any fun e =>
    e.1.medallion = medallion && e.1.chainStart ≤ timestamp && timestamp ≤ e.2.timestamp

/-- The chains seen, all of them or those of one owner. -/
def chainKeys (t : ChainTracker) (medallion : Option Medallion) : List ChainKey :=
  t.chains.keys.filter fun c => medallion.all (· = c.medallion)

/-- The rows of a greeting in the order of their chains. -/
def rows (t : ChainTracker) : List GreetingRow :=
  t.chains.toList.map fun e => ⟨e.1.medallion, e.1.chainStart, e.2.timestamp⟩

/-- Whether two trackers have seen the same chains to the same points. -/
def sameRows (t u : ChainTracker) : Bool := t.rows = u.rows

/-! ## Marking -/

/-- What marking a bundle did. -/
structure Marking where
  tracker : ChainTracker
  /-- Whether the chain got longer. -/
  advanced : Bool
  /-- The tickets of the waits that are fulfilled now. -/
  reached : List Nat
deriving DecidableEq

/-- Whether marking this bundle fulfils a wait. -/
def reaches (info : BundleInfo) (w : Waiter) : Bool :=
  w.medallion = info.medallion && info.chainStart ≤ w.timestamp && w.timestamp ≤ info.timestamp

/-- Whether a bundle directly continues its chain from what has been seen. -/
def continuesFrom (info : BundleInfo) (seenThrough : Timestamp) : Bool :=
  (info.timestamp = info.chainStart || info.priorTime.isSome)
    && info.priorTime.getD 0 = seenThrough

/-- Records that a bundle has been seen. With `check`, a bundle that does not directly continue
its chain is refused. A bundle at or behind what has been seen changes nothing. -/
def mark (t : ChainTracker) (info : BundleInfo) (check : Bool) : Except BundleError Marking :=
  let seen := t.seenThrough info.chain
  if info.timestamp ≤ seen then .ok ⟨t, false, []⟩
  else if check && !continuesFrom info seen then
    .error (.invalidExtension info.medallion info.chainStart info.timestamp seen)
  else
    let chains := t.chains.insert info.chain info
    let waiters := t.waiters.filter fun w => !reaches info w && !w.closed
    .ok ⟨⟨chains, waiters⟩, true, (t.waiters.filter (reaches info)).map (·.ticket)⟩

/-- Records that a bundle has been seen, whatever was seen before it. -/
def markUnchecked (t : ChainTracker) (info : BundleInfo) : Marking :=
  match t.mark info false with
  | .ok m => m
  | .error _ => ⟨t, false, []⟩

/-! ## Greetings -/

/-- The metadata that a greeting row stands for. -/
def infoOfRow (r : GreetingRow) : BundleInfo where
  timestamp := r.seenThrough
  medallion := r.medallion
  chainStart := r.chainStart
  priorTime := none
  comment := none

/-- The tracker that some rows describe; of two rows for one chain the later counts. -/
def ofRows (rows : List GreetingRow) : ChainTracker :=
  ⟨rows.foldl (fun m r => m.insert ⟨r.medallion, r.chainStart⟩ (infoOfRow r)) .empty, []⟩

/-- The tracker that a greeting describes. -/
def ofGreeting (b : Bytes) : Except BundleError ChainTracker := (Greeting.decode b).map ofRows

/-- The greeting that describes the tracker. -/
def greeting (t : ChainTracker) : Except BundleError Bytes := Greeting.encode t.rows

/-! ## Waiting -/

/-- Registers a wait, unless it is fulfilled already: then nothing is returned. -/
def wait? (t : ChainTracker) (ticket : Nat) (medallion : Medallion) (timestamp : Timestamp) :
    Option ChainTracker :=
  if t.has medallion timestamp then none
  else some { t with waiters := t.waiters ++ [⟨ticket, medallion, timestamp, false⟩] }

/-- Notes that nobody waits under a ticket any longer. The wait itself goes away when a chain
next gets longer. -/
def closeWait (t : ChainTracker) (ticket : Nat) : ChainTracker :=
  { t with waiters := t.waiters.map fun w => if w.ticket = ticket then { w with closed := true }
    else w }

/-- A copy of what has been seen, without the waits. -/
def withoutWaits (t : ChainTracker) : ChainTracker := { t with waiters := [] }

/-! ## Text form -/

/-- The text of a row. -/
def rowText (r : GreetingRow) : String := s!"({r.medallion}, {r.chainStart}, {r.seenThrough})"

/-- The text form of a tracker. -/
def text (t : ChainTracker) : String :=
  let rows := ", ".intercalate (t.rows.map rowText)
  s!"ChainTracker \x7b chains: [{rows}], waiters: {t.waiters.length} \x7d"

end ChainTracker

end GossipStore
