import TtAiops.Stage2.Pipeline
import TtAiops.Dispatch.Outstanding
import TtAiops.Dispatch.Boxes
import TtAiops.Dispatch.Crash
import TtAiops.Wake
import TtAiops.Cycle.Carry
import TtAiops.Cycle.Phases
import TtAiops.Cycle.Chain
import TtAiops.Api.Roadgraph
import TtAiops.Api.Workpool
import TtAiops.TosAvail.Complete
import TtAiops.TosAvail.Script
import TtAiops.TosAvail.Story
import TtAiops.TosAvail.Once
import TtAiops.TosAvail.Order
import TtAiops.Ingest.Moves
import TtAiops.Ingest.Handover
import TtAiops.Ingest.Entering
import TtAiops.Ingest.Pool
import TtAiops.Cycle.Recon
import TtAiops.Api.Agg
import TtAiops.Stage2.Matching
import TtAiops.Stage2.Due
import TtAiops.Dispatch.Swaps
import TtAiops.Api.Candidates
import TtAiops.Api.Pace
import TtAiops.Api.Shifts
import TtAiops.Fair.Compare
import TtAiops.Cycle.TimeOfDay
import TtAiops.Stage2.DepTier
import TtAiops.Api.CostCurve
import TtAiops.Api.Rollup
import TtAiops.Core.Stats
import TtAiops.Api.Periods
import TtAiops.Ingest.TerminalTime
import TtAiops.Stage2.Checked
import TtAiops.Api.Throughput
import TtAiops.Api.Cranes
import TtAiops.Ingest.Params
import TtAiops.Dispatch.Fleet
import TtAiops.Dispatch.Evidence
import TtAiops.Api.RouteCost
import TtAiops.Dispatch.Baseline
import TtAiops.Ops.Alerts
import TtAiops.Ops.ZeroProduction
import TtAiops.Ingest.Toolbox
import TtAiops.Dispatch.HandoverLog
import TtAiops.Ops.QcWaitKpi
import TtAiops.TosAvail.AnchorText
import TtAiops.Dispatch.WorkPoints
import TtAiops.Dispatch.TosCompare
import TtAiops.Ingest.Etw
