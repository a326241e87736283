import Sepp.Library.BigEndian
import Sepp.Library.Protobuf
import Sepp.Wire.RoundTrip
import Sepp.Library.Realize
import Sepp.Library.Toml
import Sepp.Library.Tracks
import Sepp.Store.OpProto
import Sepp.Committer.Cycle
import Sepp.Spec.Standing
import Sepp.Run.Calls
import Sepp.Run.Deliveries
import Sepp.Run.Rounds
import Sepp.Safety.WellFormed
import Sepp.Safety.Attempts
import Sepp.Safety.Fencing
import Sepp.Safety.Mirror
import Sepp.Safety.Schedule
import Sepp.Safety.Sweeping
import Sepp.Safety.Draining
import Sepp.Safety.Deleting
import Sepp.Safety.Polling
import Sepp.Committer.Loop
import Sepp.Safety.Serving
import Sepp.Library.Linearize
import Sepp.Safety.Durable
import Sepp.Safety.Backlog
import Sepp.Safety.Dedup
import Sepp.Safety.Depth
import Sepp.Safety.Atomic
import Sepp.Safety.Reserving
import Sepp.Safety.Isolation
import Sepp.Config.Backoff
import Sepp.Config.Reload
import Sepp.Admin.ConfigEdit
import Sepp.Api.Prepare
import Sepp.Api.Batch
import Sepp.Safety.Leasing
import Sepp.Safety.Lookups
import Sepp.Safety.Waking
import Sepp.Safety.Purging
import Sepp.Safety.Recovery
import Sepp.Safety.Peeking
import Sepp.Safety.Accounting
import Sepp.Safety.Totals
import Sepp.Safety.Auditing
import Sepp.Safety.Ownership
import Sepp.Safety.Once
import Sepp.Safety.Cycles
import Sepp.Safety.Replay
import Sepp.Safety.Listing
import Sepp.Safety.Indexing
import Sepp.Safety.Keeping
import Sepp.Safety.Sessions
import Sepp.Safety.Editing
import Sepp.Admin.ConfigWrite
import Sepp.Safety.KeyAdmin
import Sepp.Api.AtomicBatch
import Sepp.Safety.Emptying
