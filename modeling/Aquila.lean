import Aquila.Lib.Machine
import Aquila.Lib.Keyed
import Aquila.Lib.Lists
import Aquila.Lib.Fold
import Aquila.Lib.Utf8
import Aquila.Lib.Regexp
import Aquila.Lib.Json
import Aquila.Lib.Codec
import Aquila.Lib.Unified
import Aquila.Lib.Files
import Aquila.Lib.Values
import Aquila.Lib.Float64
import Aquila.Lib.Documents
import Aquila.Lib.Groups
import Aquila.Lib.Disk
import Aquila.Lib.Publish
import Aquila.Lib.Calls
import Aquila.Lib.Sweep
import Aquila.Lib.Index
import Aquila.Lib.Decimal
import Aquila.Lib.Subtree
import Aquila.Lib.Effects
import Aquila.Go
import Aquila.Net
import Aquila.Ingest
import Aquila.Ingest.Sanitize
import Aquila.Ingest.Otlp
import Aquila.Ingest.Window
import Aquila.Graph
import Aquila.Source
import Aquila.SourceGraph
import Aquila.Investigate
import Aquila.Locate
import Aquila.Diff
import Aquila.Apply
import Aquila.Replay
import Aquila.Workload
import Aquila.Impact
import Aquila.Analyze
import Aquila.Plan
import Aquila.Validate
import Aquila.Evidence
import Aquila.Wire
import Aquila.Planning
import Aquila.Runs
import Aquila.Api
import Aquila.Unmarshal
import Aquila.Jobs.Task
import Aquila.Jobs.Job
import Aquila.Jobs.Admission
import Aquila.Jobs.Store
import Aquila.Jobs.Memory
import Aquila.Jobs.Postgres
import Aquila.Jobs.Board
import Aquila.Jobs.Submission
import Aquila.Cas
import Aquila.Action
import Aquila.Nexec
import Aquila.Gitrev
import Aquila.Worker
import Aquila.Theorems.Text
import Aquila.Theorems.Ingest.Sanitized
import Aquila.Theorems.Ingest.Queries
import Aquila.Theorems.Ingest.Window
import Aquila.Theorems.Ingest.Counted
import Aquila.Theorems.Ingest.Stores
import Aquila.Theorems.Entries
import Aquila.Theorems.Observed
import Aquila.Theorems.Extents
import Aquila.Theorems.Paths
import Aquila.Theorems.Diff.Read
import Aquila.Theorems.Diff.Git
import Aquila.Theorems.Diff.Plain
import Aquila.Theorems.Diff.Collect
import Aquila.Theorems.Diff.Patch
import Aquila.Theorems.Diff.Applied
import Aquila.Theorems.Diff.Written
import Aquila.Theorems.Diff.Touched
import Aquila.Theorems.Workload
import Aquila.Theorems.Impact.Classified
import Aquila.Theorems.Impact.Routes
import Aquila.Theorems.Impact.Joined
import Aquila.Theorems.Impact.Kept
import Aquila.Theorems.Impact.Outside
import Aquila.Theorems.Order
import Aquila.Theorems.Coverage
import Aquila.Theorems.Validate
import Aquila.Theorems.Replay
import Aquila.Theorems.Compared
import Aquila.Theorems.Exact
import Aquila.Theorems.Latency
import Aquila.Theorems.Execute
import Aquila.Theorems.Steady
import Aquila.Theorems.Earned
import Aquila.Theorems.Checked
import Aquila.Theorems.RoundTrip
import Aquila.Theorems.Runs
import Aquila.Theorems.Stored
import Aquila.Theorems.Jobs.Tasks
import Aquila.Theorems.Jobs.Settle
import Aquila.Theorems.Jobs.Transitions
import Aquila.Theorems.Jobs.Build
import Aquila.Theorems.Jobs.Board
import Aquila.Theorems.Jobs.Calls
import Aquila.Theorems.Jobs.Memory
import Aquila.Theorems.Jobs.Postgres
import Aquila.Theorems.Jobs.Stores
import Aquila.Theorems.Jobs.Fencing
import Aquila.Theorems.Jobs.Dependencies
import Aquila.Theorems.Jobs.Admission
import Aquila.Theorems.Jobs.Capacity
import Aquila.Theorems.Jobs.Agreement
import Aquila.Theorems.Jobs.Expiry
import Aquila.Theorems.Jobs.Leases
import Aquila.Theorems.Jobs.Deadlines
import Aquila.Theorems.Jobs.Progress
import Aquila.Theorems.Jobs.Gateways
import Aquila.Theorems.Jobs.Fair
import Aquila.Theorems.Jobs.Submission
import Aquila.Theorems.Jobs.Addressed
import Aquila.Theorems.Worker
import Aquila.Theorems.Cache
import Aquila.Theorems.Survives
import Aquila.Theorems.Cached
import Aquila.Theorems.Investigated
import Aquila.Theorems.Reloaded
import Aquila.Theorems.Limits
import Aquila.Theorems.Gitrev.Read
import Aquila.Theorems.Gitrev.Materialized
import Aquila.Theorems.Gitrev.Destination
import Aquila.Theorems.Gitrev.Complete
