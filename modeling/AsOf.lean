import AsOf.Array.Inspect
import AsOf.Config.Text
import AsOf.Kernel.Samples
import AsOf.Loader.Fault
import AsOf.Loader.Frame
import AsOf.Result.Export
import AsOf.Result.Summary
import AsOf.Run.Basic
import AsOf.Term.Windowed
import AsOf.Proofs.Direct
import AsOf.Proofs.NoLookAhead
import AsOf.Proofs.Masked
import AsOf.Proofs.Narrowed
import AsOf.Proofs.Cursor
import AsOf.Proofs.Run.Steps
import AsOf.Proofs.Schedules
import AsOf.Proofs.Evaluate.Columns
import AsOf.Proofs.Evaluate.Lasts
import AsOf.Proofs.Planned
import AsOf.Proofs.Folded
import AsOf.Proofs.Loader.Stored
import AsOf.Proofs.Evaluate.Typed
import AsOf.Proofs.Loadables
import AsOf.Proofs.Frozen
import AsOf.Proofs.Graph.Cycles
import AsOf.Proofs.Graph.Compiled
import AsOf.Proofs.Texts
import AsOf.Proofs.ReadingPaths
import AsOf.Proofs.LabelTests
import AsOf.Proofs.Merging
import AsOf.Proofs.Constants
import AsOf.Proofs.Extremes
import AsOf.Proofs.Buckets
import AsOf.Proofs.Loader.Frames
import AsOf.Proofs.Loader.Baselines
import AsOf.Proofs.Run.Recovery
import AsOf.Proofs.Exported
import AsOf.Proofs.Drawdown
import AsOf.Proofs.Closed
import AsOf.Proofs.WellFormed
import AsOf.Proofs.Cancelled
import AsOf.Proofs.Remasked
import AsOf.Proofs.Ties
import AsOf.Proofs.Horizons
import AsOf.Proofs.Percentiles
