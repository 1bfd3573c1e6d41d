import GossipStore.Data.SortedMap
import GossipStore.Gossip.Error

set_option autoImplicit false

/-! # A network in memory

Every replica has a mailbox on the network, to which all others send. Frames arrive in the order in
which they were sent. A mailbox can be taken off the network while frames in it wait to be
received, and its owner can leave while it is still on the network. -/

namespace GossipStore

/-- A frame and who sent it. -/
structure Envelope where
  sender : PeerId
  frame : Bytes
deriving DecidableEq, Repr

/-- Where the frames for one replica wait. -/
structure Mailbox where
  /-- Whether others can send to it. -/
  registered : Bool
  /-- The frames that wait, oldest first, or nothing if the owner has left. -/
  queue : Option (List Envelope)
deriving DecidableEq, Repr

/-- The mailboxes by their owners. -/
abbrev Network := SortedMap PeerId Mailbox

namespace Network

/-- What an attempt to receive finds. -/
inductive Arrival where
  | frame (envelope : Envelope)
  /-- Nothing waits, but something may still come. -/
  | nothing
  /-- Nothing waits and nothing can come any more. -/
  | closed
deriving DecidableEq, Repr

/-- Changes a mailbox if there is one. -/
def adjust (net : Network) (id : PeerId) (f : Mailbox → Mailbox) : Network :=
  match net.get? id with
  | none => net
  | some box => net.insert id (f box)

/-- Puts an empty mailbox on the network in place of an earlier one. -/
def create (net : Network) (id : PeerId) : Network := net.insert id ⟨true, some []⟩

/-- Takes a mailbox off the network. What waits in it can still be received. -/
def disconnect (net : Network) (id : PeerId) : Network :=
  net.adjust id fun box => { box with registered := false }

/-- Notes that the owner of a mailbox has left. -/
def leave (net : Network) (id : PeerId) : Network :=
  net.adjust id fun box => { box with queue := none }

/-- Whether others can send to a replica. -/
def isConnected (net : Network) (id : PeerId) : Bool := (net.get? id).any (·.registered)

/-- The replicas that one of them can send to, in the order of their numbers. -/
def connectedPeers (net : Network) (own : PeerId) : List PeerId :=
  net.keys.filter fun id => id ≠ own && net.isConnected id

/-- What happens to a frame that is sent to a replica now. -/
def link (net : Network) (recipient : PeerId) : Except GossipError Unit :=
  match net.get? recipient with
  | some ⟨true, some _⟩ => .ok ()
  | some ⟨true, none⟩ => .error (.transport .peerGone)
  | _ => .error (.peerNotConnected recipient)

/-- Puts a frame into a mailbox. -/
def deliver (net : Network) (recipient : PeerId) (envelope : Envelope) : Network :=
  net.adjust recipient fun box => { box with queue := box.queue.map (· ++ [envelope]) }

/-- Sends a frame. -/
def send (net : Network) (sender recipient : PeerId) (frame : Bytes) :
    Except GossipError Network :=
  (net.link recipient).map fun _ => net.deliver recipient ⟨sender, frame⟩

/-- The frames that wait for a replica, oldest first. -/
def waiting (net : Network) (id : PeerId) : List Envelope :=
  ((net.get? id).bind (·.queue)).getD []

/-- Takes the oldest frame out of a mailbox. -/
def receive (net : Network) (id : PeerId) : Network × Arrival :=
  match net.waiting id with
  | envelope :: rest =>
    (net.adjust id fun box => { box with queue := some rest }, .frame envelope)
  | [] => (net, if net.isConnected id then .nothing else .closed)

end Network

end GossipStore
