import SovereignCore.AienTest.Binding
import SovereignCore.AienTest.Canonical
import SovereignCore.AienTest.Complete
import SovereignCore.AienTest.Cycles
import SovereignCore.AienTest.Declared
import SovereignCore.AienTest.Graph
import SovereignCore.AienTest.Identity
import SovereignCore.AienTest.Judge
import SovereignCore.AienTest.Manifest
import SovereignCore.AienTest.Paths
import SovereignCore.AienTest.Returns
import SovereignCore.AienTest.Runner
import SovereignCore.AienTest.Schedule
import SovereignCore.AienTest.Select
import SovereignCore.AienTest.Utc
import SovereignCore.Board.Sharing
import SovereignCore.Closure.Digest
import SovereignCore.Closure.Graph
import SovereignCore.Closure.Render
import SovereignCore.Closure.Verify
import SovereignCore.Effects.Approvals
import SovereignCore.Effects.Macs
import SovereignCore.Evidence.Nested
import SovereignCore.Evidence.Tamper
import SovereignCore.Evidence.Verdicts
import SovereignCore.Generation.Limits
import SovereignCore.Generation.Reuse
import SovereignCore.Harness.Buckets
import SovereignCore.Harness.Cycles
import SovereignCore.Harness.Dispatch
import SovereignCore.Harness.Generations
import SovereignCore.Harness.Redelivery
import SovereignCore.Hive.Free
import SovereignCore.HostFs.Aggregates
import SovereignCore.HostFs.Bypass
import SovereignCore.HostFs.Codec
import SovereignCore.HostFs.Quota
import SovereignCore.HostFs.Steps
import SovereignCore.HostFs.Tail
import SovereignCore.Kv.Elements
import SovereignCore.Kv.Needs
import SovereignCore.Kv.Refine
import SovereignCore.Kv.Reservations
import SovereignCore.Kv.Rounding
import SovereignCore.Kv.Runs
import SovereignCore.Lib.Binary
import SovereignCore.Lib.Dispatch
import SovereignCore.Lib.Machine
import SovereignCore.Lib.Table
import SovereignCore.Replay.Exact
import SovereignCore.Residency.Generations
import SovereignCore.Residency.Retry
import SovereignCore.Residency.Tiling
import SovereignCore.Runtime.Swarm
import SovereignCore.Runtime.Worlds
import SovereignCore.Sched.Admission
import SovereignCore.Sched.Budgets
import SovereignCore.Sched.Completions
import SovereignCore.Sched.Forks
import SovereignCore.Sched.Prefills
import SovereignCore.Sched.Releases
import SovereignCore.Store.Cancels
import SovereignCore.Store.Capacity
import SovereignCore.Store.Coalesce
import SovereignCore.Store.Deletes
import SovereignCore.Store.Identity
import SovereignCore.Store.Namespace
import SovereignCore.Store.Terminals
import SovereignCore.Trace.Sink
import SovereignCore.Trace.Tree
