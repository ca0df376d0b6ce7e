import WitsmlViewer.Py.Str
import WitsmlViewer.Py.Float64
import WitsmlViewer.Py.Datetime
import WitsmlViewer.Py.Dict
import WitsmlViewer.Py.Sorting
import WitsmlViewer.Domain
import WitsmlViewer.Parse
import WitsmlViewer.Queries
import WitsmlViewer.Polling
import WitsmlViewer.MockStore
import WitsmlViewer.Client
import WitsmlViewer.RingBuffer
import WitsmlViewer.WarmStore
import WitsmlViewer.StripTrack
import WitsmlViewer.Scheduler
import WitsmlViewer.Lib.Runs
import WitsmlViewer.Lib.GrowingTable
import WitsmlViewer.Serving
import WitsmlViewer.Growth
import WitsmlViewer.Fetching
import WitsmlViewer.Coverage
import WitsmlViewer.Paging
import WitsmlViewer.Accounts
import WitsmlViewer.Privileges
import WitsmlViewer.Subscriptions
import WitsmlViewer.ReadPaths
import WitsmlViewer.RoundTrip
import WitsmlViewer.Py.Fixed
import WitsmlViewer.Simulator
import WitsmlViewer.RowTokens
import WitsmlViewer.FreshRows
import WitsmlViewer.LiveCurves
import WitsmlViewer.IndexCache
import WitsmlViewer.Lib.KeyedList
import WitsmlViewer.Objects
import WitsmlViewer.Polls
import WitsmlViewer.UnorderedRows
import WitsmlViewer.MalformedRows
import WitsmlViewer.Engine
import WitsmlViewer.ExactlyOnce
import WitsmlViewer.LateCells
import WitsmlViewer.Reaching
import WitsmlViewer.NewestLast
import WitsmlViewer.SharedCurves
import WitsmlViewer.Lib.Checkpoints
import WitsmlViewer.Restarts
import WitsmlViewer.Durability
import WitsmlViewer.CatchUp
import WitsmlViewer.Pipeline
import WitsmlViewer.Fleet
import WitsmlViewer.Reseeding
import WitsmlViewer.DeclaredNulls
import WitsmlViewer.Resuming
import WitsmlViewer.Rewriting
import WitsmlViewer.Headers
import WitsmlViewer.WriteApi
import WitsmlViewer.Export
import WitsmlViewer.Formulas
import WitsmlViewer.Conversions
import WitsmlViewer.Hub
import WitsmlViewer.Ticks
import WitsmlViewer.Discovery
import WitsmlViewer.Grants
import WitsmlViewer.Snapshots
import WitsmlViewer.Lib.Windows
import WitsmlViewer.Fanout
import WitsmlViewer.Lib.LastWins
import WitsmlViewer.Lib.Alignment
import WitsmlViewer.ChartData
import WitsmlViewer.Comparison
import WitsmlViewer.Merging
import WitsmlViewer.SparseRows
import WitsmlViewer.LatestValues
import WitsmlViewer.Pivot
import WitsmlViewer.Remarks
import WitsmlViewer.Lithology
import WitsmlViewer.RealFormulas
import WitsmlViewer.Powers
import WitsmlViewer.Evaluators
import WitsmlViewer.FormulaApi
import WitsmlViewer.UnitDefs
import WitsmlViewer.Shutdown
import WitsmlViewer.DurableHistory
