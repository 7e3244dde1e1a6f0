import FHFCapturing.Lib.IndexLoop
import FHFCapturing.Lib.Run
import FHFCapturing.Lib.Sketch
import FHFCapturing.WorkerRun
import FHFCapturing.Reports
import FHFCapturing.Ledger
import FHFCapturing.HeavyFlow
import FHFCapturing.IntervalHeader
import FHFCapturing.ThresholdUpdate
import FHFCapturing.PlainFilter
import FHFCapturing.StageOrder
import FHFCapturing.ExactMeasure
import FHFCapturing.Shielding
import FHFCapturing.TableScan
import FHFCapturing.ControlLaw
import FHFCapturing.Progress
import FHFCapturing.Shutdown
import FHFCapturing.NoFalseNegative
import FHFCapturing.NextPrime
import FHFCapturing.RemovalThreshold
import FHFCapturing.Population
import FHFCapturing.FlowHash
import FHFCapturing.Emitter
import FHFCapturing.Schedule
import FHFCapturing.FalsePositive
import FHFCapturing.ReportLog
import FHFCapturing.MemorySafety
import FHFCapturing.ExactReports
import FHFCapturing.Races
import FHFCapturing.RandomDraws
import FHFCapturing.Convergence
import FHFCapturing.ControlRun
import FHFCapturing.Builds
import FHFCapturing.Termination
import FHFCapturing.Setup
import FHFCapturing.ExactMeter
