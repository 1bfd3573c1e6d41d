import GossipStore.ChainTracker

set_option autoImplicit false

/-! # Waits in the background

A wait for a bundle runs beside other work until the bundle arrives, its time is up, or somebody
cancels it. Its result can be taken once. The waits of a simulation are numbered in the order in
which they start, and the number is the ticket under which a tracker knows the wait. -/

namespace GossipStore

/-- How a wait stands. -/
inductive WaitState where
  /-- It goes on, until a time if one is given. -/
  | pending (medallion : Medallion) (timestamp : Timestamp) (deadline : Option Nat)
  /-- It has ended, and nobody has taken the result. -/
  | finished (result : Except BundleError Unit)
  /-- It was cancelled, or its result was taken. -/
  | gone

namespace WaitState

/-- Whether a wait that goes on is over at a time. -/
def isDue (now : Nat) : WaitState → Bool
  | pending _ _ (some deadline) => deadline ≤ now
  | _ => false

/-- Ends a wait that goes on. -/
def finish (result : Medallion → Timestamp → Except BundleError Unit) : WaitState → WaitState
  | pending medallion timestamp _ => finished (result medallion timestamp)
  | w => w

end WaitState

/-- The waits by their numbers. -/
abbrev Waits := List WaitState

namespace Waits

/-- Starts a wait that lasts a number of milliseconds at most, counted from now. Its ticket is the
number of waits before it. -/
def start (ws : Waits) (medallion : Medallion) (timestamp : Timestamp) (now : Nat)
    (timeout : Option Nat) : Waits :=
  ws ++ [.pending medallion timestamp (timeout.map (now + ·))]

/-- Changes the waits with certain tickets. -/
def change (ws : Waits) (p : Nat → Bool) (f : WaitState → WaitState) : Waits :=
  ws.zipIdx.map fun e => if p e.2 then f e.1 else e.1

/-- Ends waits because their bundles have arrived. -/
def fulfil (ws : Waits) (tickets : List Nat) : Waits :=
  ws.change (tickets.contains ·) (.finish fun _ _ => .ok ())

/-- The tickets of the waits whose time is up. -/
def due (ws : Waits) (now : Nat) : List Nat :=
  (ws.zipIdx.filter fun e => e.1.isDue now).map Prod.snd

/-- Ends the waits whose time is up. -/
def expire (ws : Waits) (now : Nat) : Waits :=
  ws.change ((ws.due now).contains ·) (.finish fun medallion timestamp =>
    .error (.timeout medallion timestamp))

/-- Ends all waits because nobody keeps track of bundles for them any longer. -/
def abandon (ws : Waits) : Waits :=
  ws.change (fun _ => true) (.finish fun _ _ => .error .waitAbandoned)

/-- Cancels a wait. -/
def cancel (ws : Waits) (ticket : Nat) : Waits := ws.change (· = ticket) fun _ => .gone

/-- Cancels all waits. -/
def cancelAll (ws : Waits) : Waits := ws.change (fun _ => true) fun _ => .gone

/-- How a wait stands. A result that is found is taken. -/
def take (ws : Waits) (ticket : Nat) : Waits × WaitState :=
  match ws[ticket]? with
  | none => (ws, .gone)
  | some (.finished result) => (ws.cancel ticket, .finished result)
  | some w => (ws, w)

end Waits

/-! ## A tracker with waits -/

/-- A tracker, the waits for it, and the time in milliseconds. -/
structure WaitingRoom where
  tracker : ChainTracker
  waits : Waits
  now : Nat

namespace WaitingRoom

/-- A room around a tracker. -/
def ofTracker (tracker : ChainTracker) : WaitingRoom := ⟨tracker, [], 0⟩

/-- Ends the waits whose time is up. -/
def settle (r : WaitingRoom) : WaitingRoom :=
  { r with
    tracker := (r.waits.due r.now).foldl ChainTracker.closeWait r.tracker
    waits := r.waits.expire r.now }

/-- Lets time pass. -/
def advance (r : WaitingRoom) (ms : Nat) : WaitingRoom := { r with now := r.now + ms }.settle

/-- Marks a bundle, which may end waits, and tells whether a chain got longer. -/
def mark (r : WaitingRoom) (info : BundleInfo) (check : Bool) :
    WaitingRoom × Except BundleError Bool :=
  match r.tracker.mark info check with
  | .error e => (r, .error e)
  | .ok m => ({ r with tracker := m.tracker, waits := r.waits.fulfil m.reached }, .ok m.advanced)

/-- Starts a wait and hands out its ticket. The time that it may take counts from its registration,
as for a wait whose result is asked for at once. -/
def start (r : WaitingRoom) (medallion : Medallion) (timestamp : Timestamp)
    (timeout : Option Nat) : WaitingRoom × Nat :=
  let ticket := r.waits.length
  let waits := r.waits.start medallion timestamp r.now timeout
  -- What has arrived already is not waited for at all.
  let r := match r.tracker.wait? ticket medallion timestamp with
    | some tracker => { r with tracker, waits }
    | none => { r with waits := waits.fulfil [ticket] }
  (r.settle, ticket)

/-- Cancels a wait. -/
def cancel (r : WaitingRoom) (ticket : Nat) : WaitingRoom :=
  { r with tracker := r.tracker.closeWait ticket, waits := r.waits.cancel ticket }

/-- Puts a copy in place of the tracker. The waits stay with the old one, which is no more. -/
def replaceByCopy (r : WaitingRoom) : WaitingRoom :=
  { r with tracker := r.tracker.withoutWaits, waits := r.waits.abandon }

/-- How a wait stands. A result that is found is taken. -/
def take (r : WaitingRoom) (ticket : Nat) : WaitingRoom × WaitState :=
  let (waits, w) := r.waits.take ticket
  ({ r with waits }, w)

end WaitingRoom

end GossipStore
