import GossipStore.Behavior
import GossipStore.Bundle.Basic
import GossipStore.Bundle.Bundler
import GossipStore.Bundle.ChainWriter
import GossipStore.Bundle.Error
import GossipStore.Bundle.Format
import GossipStore.Bundle.Info
import GossipStore.Bytes
import GossipStore.Cbor.Reader
import GossipStore.Cbor.Value
import GossipStore.Cbor.Writer
import GossipStore.ChainTracker
import GossipStore.Change
import GossipStore.Clock
import GossipStore.Config
import GossipStore.Convergence
import GossipStore.Data.Except
import GossipStore.Data.Parted
import GossipStore.Data.SortedMap
import GossipStore.Database.Basic
import GossipStore.Database.Commit
import GossipStore.Database.Error
import GossipStore.Database.Frame
import GossipStore.Database.Receive
import GossipStore.Entry
import GossipStore.Gossip.AuthToken
import GossipStore.Gossip.Error
import GossipStore.Gossip.Message
import GossipStore.Gossip.Network
import GossipStore.Gossip.Peer
import GossipStore.Greeting
import GossipStore.Hash.Blake3
import GossipStore.Identity
import GossipStore.Index.Apply
import GossipStore.Index.Basic
import GossipStore.Index.History
import GossipStore.Index.Query
import GossipStore.Index.Row
import GossipStore.Json
import GossipStore.Listener
import GossipStore.Muid
import GossipStore.Muid.Text
import GossipStore.Simulation.Bench
import GossipStore.Simulation.Shelf
import GossipStore.Simulation.Wait
import GossipStore.Simulation.World
import GossipStore.StorageKey
import GossipStore.Store.Basic
import GossipStore.Store.Error
import GossipStore.Store.Log
import GossipStore.Store.Logged
import GossipStore.Text.Duration
import GossipStore.Text.Hex
import GossipStore.Text.Invisible
import GossipStore.Text.Quoted
import GossipStore.Proofs.Order
import GossipStore.Proofs.Cbor.Form
import GossipStore.Proofs.Bundle.Fields
import GossipStore.Proofs.Bundle.Canonical
import GossipStore.Proofs.Index.Records
import GossipStore.Proofs.Index.Rows
import GossipStore.Proofs.Index.Effects
import GossipStore.Proofs.Index.LastWriter
import GossipStore.Proofs.Index.Scan
import GossipStore.Proofs.Index.Answers
import GossipStore.Proofs.Index.Arrival
import GossipStore.Proofs.Index.Bundles
import GossipStore.Proofs.Index.Placements
import GossipStore.Proofs.Store.Replay
import GossipStore.Proofs.Store.Refinement
import GossipStore.Proofs.Gossip.Timeline
import GossipStore.Proofs.Gossip.Codec
import GossipStore.Proofs.Gossip.Offers
import GossipStore.Proofs.Gossip.Holdings
import GossipStore.Proofs.Gossip.Sending
import GossipStore.Proofs.Gossip.Replica
import GossipStore.Proofs.Gossip.Writing
import GossipStore.Proofs.Gossip.Mesh
import GossipStore.Proofs.Gossip.Convergence
import GossipStore.Proofs.Index.Superseding
import GossipStore.Proofs.Index.Movements
import GossipStore.Proofs.Index.ConcurrentMoves
import GossipStore.Proofs.Database.Durable
import GossipStore.Proofs.Database.Progress
import GossipStore.Proofs.Index.BruteForce
import GossipStore.Proofs.Index.Past
import GossipStore.Proofs.Index.Clearing
import GossipStore.Proofs.Index.Chains
import GossipStore.Proofs.Gossip.Outbound
import GossipStore.Proofs.Gossip.Release
import GossipStore.Proofs.Gossip.Stalls
import GossipStore.Proofs.Index.Standing
import GossipStore.Proofs.Index.Reasons
import GossipStore.Proofs.Index.Dropping
import GossipStore.Proofs.Index.Containment
import GossipStore.Proofs.Index.Layers
import GossipStore.Proofs.Index.Forgetting
import GossipStore.Proofs.Index.WithoutHistory
import GossipStore.Proofs.Index.OnePlace
import GossipStore.Proofs.Index.BundlesAgo
import GossipStore.Proofs.Index.Remnants
import GossipStore.Proofs.Index.Stopping
import GossipStore.Proofs.Store.Reopening
import GossipStore.Proofs.Index.Untouched
import GossipStore.Proofs.Database.Listening
import GossipStore.Proofs.Gossip.Handshake
import GossipStore.Proofs.Gossip.OneRule
import GossipStore.Proofs.Gossip.Reordering
import GossipStore.Proofs.Gossip.Waiting
import GossipStore.Proofs.Gossip.Comparison
import GossipStore.Proofs.Gossip.CatchUp
import GossipStore.Proofs.Gossip.Unacknowledged
import GossipStore.Proofs.Database.BadFrames
import GossipStore.Proofs.Muid.Text
import GossipStore.Proofs.Gossip.Greetings
import GossipStore.Proofs.Bundle.Building
import GossipStore.Proofs.Index.Stored
import GossipStore.Proofs.Clock
import GossipStore.Proofs.Cbor.Written
import GossipStore.Proofs.Gossip.Tokens
