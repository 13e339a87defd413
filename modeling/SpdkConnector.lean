import SpdkConnector.Word
import SpdkConnector.Geometry
import SpdkConnector.Geometry.Derivation
import SpdkConnector.Allocator
import SpdkConnector.AllocatorProofs
import SpdkConnector.AllocatorRuns
import SpdkConnector.Allocator.Placement
import SpdkConnector.Allocator.Returns
import SpdkConnector.Allocator.Canonical
import SpdkConnector.Segments
import SpdkConnector.Interleaving.Program
import SpdkConnector.Interleaving.Logic
import SpdkConnector.Connector
import SpdkConnector.Segmentation
import SpdkConnector.Connector.MapSpec
import SpdkConnector.Connector.View
import SpdkConnector.Connector.Steps
import SpdkConnector.Connector.Transfers
import SpdkConnector.Connector.Locking
import SpdkConnector.Connector.SingleOps
import SpdkConnector.Connector.BatchGet
import SpdkConnector.Connector.BatchSet
import SpdkConnector.Connector.Refinement
import SpdkConnector.Connector.Pages
import SpdkConnector.Connector.Deadlock
import SpdkConnector.Interleaving.Machine
import SpdkConnector.Interleaving.Ledger
import SpdkConnector.Context.BufferPool
import SpdkConnector.Context
import SpdkConnector.Context.Requests
import SpdkConnector.Context.Executed
import SpdkConnector.Context.Tracking
import SpdkConnector.Context.IoSteps
import SpdkConnector.Interleaving.Rely
import SpdkConnector.Codec.Sha256
import SpdkConnector.Codec.Text
import SpdkConnector.Codec.Base64
import SpdkConnector.Codec.Json
import SpdkConnector.Codec.JsonScan
import SpdkConnector.Codec.Grammar
import SpdkConnector.Codec.Leaves
import SpdkConnector.Codec.Reading
import SpdkConnector.Codec.JsonRoundTrip
import SpdkConnector.Codec.PyInt
import SpdkConnector.NvmeKv.NativeConnector
import SpdkConnector.NvmeKv.Calls
import SpdkConnector.NvmeKv.Completions
import SpdkConnector.NvmeKv.Truth
import SpdkConnector.NvmeKv.DeleteRace
import SpdkConnector.NvmeKv.WholeValues
import SpdkConnector.NvmeKv.Format
import SpdkConnector.NvmeKv.FormatProofs
import SpdkConnector.NvmeKv.Store
import SpdkConnector.NvmeKv.Commands
import SpdkConnector.NvmeKv.LoadIntegrity
import SpdkConnector.NvmeKv.Records
import SpdkConnector.NvmeKv.Publication
import SpdkConnector.NvmeKv.Agreement
import SpdkConnector.NvmeKv.CrashConsistency
import SpdkConnector.NvmeKv.VisibleComplete
import SpdkConnector.NvmeKv.Recovery
import SpdkConnector.NvmeKv.Plans
import SpdkConnector.NvmeKv.RoundTrip
import SpdkConnector.NvmeKv.Leniency
import SpdkConnector.NvmeKv.Corruption
import SpdkConnector.NvmeKv.NoGarbage
import SpdkConnector.Codec.Framing
import SpdkConnector.NvmeKv.Preimages
import SpdkConnector.Context.LifeSteps
import SpdkConnector.Context.Callers
import SpdkConnector.Context.Refinement
import SpdkConnector.Context.Completion
import SpdkConnector.Context.Lifecycle
import SpdkConnector.Context.Teardown
import SpdkConnector.Context.Counters
import SpdkConnector.Context.Reactors
import SpdkConnector.Context.Waiters
import SpdkConnector.Context.BatchLifetime
import SpdkConnector.Context.Leases
import SpdkConnector.Context.Calm
import SpdkConnector.Context.Isolation
import SpdkConnector.Interleaving.Fifo
import SpdkConnector.Context.Starts
import SpdkConnector.Context.Backpressure
import SpdkConnector.Context.PoolRelease
import SpdkConnector.Context.Phases
import SpdkConnector.Context.Waking
import SpdkConnector.Context.Workers
import SpdkConnector.Context.Flush
import SpdkConnector.Context.Reports
import SpdkConnector.Context.Countdown
import SpdkConnector.Context.Handshake
import SpdkConnector.Context.PoolCalls
import SpdkConnector.Context.Draining
import SpdkConnector.Interleaving.Gauge
import SpdkConnector.Context.Gauges
import SpdkConnector.Context.PoolsEmptied
import SpdkConnector.Context.DmaGauges
import SpdkConnector.Context.Lifetime
import SpdkConnector.Context.Lending
import SpdkConnector.Context.Answers
import SpdkConnector.Context.Serving
import SpdkConnector.Context.Linearization
import SpdkConnector.Interleaving.Handle
import SpdkConnector.Connector.BatchCalls
import SpdkConnector.Stack
import SpdkConnector.Stack.Refinement
import SpdkConnector.Interleaving.Trace
import SpdkConnector.Connector.Accounts
import SpdkConnector.Connector.Alone
import SpdkConnector.Connector.Atomicity
import SpdkConnector.Connector.Bookkeeping
import SpdkConnector.Runtime
import SpdkConnector.Runtime.Ownership
import SpdkConnector.Runtime.Registry
import SpdkConnector.Runtime.Sharing
import SpdkConnector.Runtime.OneApplication
import SpdkConnector.Runtime.Destruction
import SpdkConnector.Plugin.CoreMask
import SpdkConnector.Plugin.Config
import SpdkConnector.Plugin.Guard
import SpdkConnector.Plugin.Agreement
