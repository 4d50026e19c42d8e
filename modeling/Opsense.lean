import Opsense.Components.HttpNodes
import Opsense.Kernel.Atomic
import Opsense.Kernel.Backtest
import Opsense.Station.Durable
import Opsense.Station.Reopen
import Opsense.Cluster.Gossip
import Opsense.Cluster.Raft
import Opsense.SnowflakeId
import Opsense.Station.Retention
import Opsense.Storage.Transaction
import Opsense.Kernel.Attribution
import Opsense.Station.Strict
import Opsense.Kernel.Fetching
import Opsense.Runtime.Failure
import Opsense.Proto.Frame
import Opsense.Components.Once
import Opsense.Kernel.Levels
import Opsense.Kernel.Report
import Opsense.Kernel.StockCalendar
import Opsense.Mlib.RcfForest
import Opsense.Storage.Points
import Opsense.Storage.Patterns
import Opsense.Admin.Device
import Opsense.Admin.Sessions
import Opsense.Admin.TokenCache
import Opsense.Proto.Host
import Opsense.Runner.Challenges
import Opsense.Runner.Sweep
import Opsense.Station.Separate
import Opsense.Api.Edits
import Opsense.Graph.Reference
import Opsense.Runtime.Status
import Opsense.Runtime.Connected
import Opsense.Jq.Terminates
import Opsense.Station.Identity
import Opsense.Radix.Limits
import Opsense.Api.Tallies
import Opsense.Kernel.Robust
import Opsense.Mlib.Transition
import Opsense.Mlib.Sieve
import Opsense.Cluster.Detector
import Opsense.Radix.Resume
import Opsense.Mlib.AhoMatch
import Opsense.Mlib.RcfScore
import Opsense.Radix.Prune
import Opsense.Mlib.TrendUnits
import Opsense.Lru.ReadThrough
import Opsense.Radix.BloomUnion
import Opsense.Kernel.Sizing
import Opsense.Graph.Cycles
import Opsense.Graph.SetupSound
import Opsense.Mlib.Feasible
import Opsense.Radix.Shortcuts
import Opsense.Components.CandleRows
import Opsense.Components.Templates
import Opsense.Rhai.TsOps
import Opsense.Api.Prometheus
import Opsense.Ffi.Placeholders
