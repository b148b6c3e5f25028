import RelayMiner.Session.Proved
import RelayMiner.Relay.Counting
import RelayMiner.Relay.Batch
import RelayMiner.Lifecycle.Retried
import RelayMiner.Lifecycle.TreeKept
import RelayMiner.Lifecycle.Tracking
import RelayMiner.Session.Listing
import RelayMiner.Smst.ColdCompaction
import RelayMiner.Lifecycle.ProofRequirement
import RelayMiner.Lifecycle.Ejection
import RelayMiner.Lifecycle.Settlement
import RelayMiner.Lifecycle.Books
import RelayMiner.Lifecycle.AddSupplier
import RelayMiner.Smst.Exit
import RelayMiner.Smst.Sealing
import RelayMiner.Transport.Wakeups
import RelayMiner.Transport.Arrival
import RelayMiner.Relayer.ClearedPairs
import RelayMiner.Transport.RedisConsumer
import RelayMiner.Relayer.Mined
import RelayMiner.Lifecycle.Passes
import RelayMiner.Lifecycle.ProofSent
import RelayMiner.Relayer.SessionMonitor
import RelayMiner.Relayer.Simulation
import RelayMiner.Session.Counters
import RelayMiner.Claimer.Holder
import RelayMiner.Claimer.Draining
import RelayMiner.Claimer.StallClock
import RelayMiner.Smst.Migration
import RelayMiner.Inclusion.Reconciler
import RelayMiner.Relay.Fates
import RelayMiner.Smst.ColdFormat
import RelayMiner.Smst.RebuildAdmission
import RelayMiner.Smst.NodeCodec
import RelayMiner.Smst.MemoryBrake
import RelayMiner.Lifecycle.BlockLoop
import RelayMiner.Transport.WholeStreams
import RelayMiner.Transport.RelayCodec
import RelayMiner.Inclusion.PebbleStorage
import RelayMiner.Inclusion.SubmissionTracker
import RelayMiner.Lifecycle.Leadership
import RelayMiner.Relayer.BridgeClose
import RelayMiner.Transport.DeliveryChannel
import RelayMiner.Cache.BlockHeight
import RelayMiner.Cache.KnownSet
import RelayMiner.Query.SessionGrid
import RelayMiner.Tx.Permits
import RelayMiner.Tx.Nonces
import RelayMiner.Lifecycle.FlushWatermark
