import SslAutoref.Model.Referee
import SslAutoref.Lib.AppendFilter
import SslAutoref.Lib.Framing
import SslAutoref.Lib.GreedyScan
import SslAutoref.Model.Log
import SslAutoref.Model.Sweep
import SslAutoref.Logic.SweepCursor
import SslAutoref.Theorems.SweepMatching
import SslAutoref.Theorems.SweepVerdicts
import SslAutoref.Logic.LoadTables
import SslAutoref.Theorems.Load
import SslAutoref.Logic.Index
import SslAutoref.Theorems.Agreement
import SslAutoref.Lib.Scanf
import SslAutoref.Model.Annotations
import SslAutoref.Logic.EvaluateRun
import SslAutoref.Theorems.SavedVerdicts
import SslAutoref.Lib.Steps
import SslAutoref.Lib.Mutex
import SslAutoref.Lib.Buffered
import SslAutoref.Model.Logger
import SslAutoref.Model.LogStream
import SslAutoref.Logic.LoggerRun
import SslAutoref.Logic.LogStreamRun
import SslAutoref.Theorems.LogFraming
import SslAutoref.Theorems.ConcurrentLogging
import SslAutoref.Theorems.Shutdown
import SslAutoref.Lib.Fanout
import SslAutoref.Model.Network
import SslAutoref.Theorems.Streams
import SslAutoref.Logic.LoadRows
import SslAutoref.Logic.SavedRows
import SslAutoref.Theorems.Annotations
import SslAutoref.Theorems.Indexing
import SslAutoref.Model.Playback
import SslAutoref.Lib.Climb
import SslAutoref.Logic.PlaybackRun
import SslAutoref.Theorems.Playback
import SslAutoref.Model.Arguments
import SslAutoref.Theorems.Arguments
import SslAutoref.Lib.Rounding
import SslAutoref.Model.Report
import SslAutoref.Logic.FloatScores
import SslAutoref.Theorems.Report
import SslAutoref.Model.ThreadSafe
import SslAutoref.Theorems.ThreadSafe
import SslAutoref.Logic.SweepGrowth
import SslAutoref.Logic.Verdicts
import SslAutoref.Logic.HandOver
import SslAutoref.Theorems.Dependence
import SslAutoref.Theorems.Growth
import SslAutoref.Theorems.Reevaluation
import SslAutoref.Theorems.Omissions
import SslAutoref.Theorems.Outcome
import SslAutoref.Theorems.Recording
import SslAutoref.Theorems.Replay
import SslAutoref.Theorems.AtomicUpdates
import SslAutoref.Theorems.Progress
import SslAutoref.Theorems.KeepingPace
import SslAutoref.Theorems.Scores
import SslAutoref.Lib.Owners
import SslAutoref.Model.ScopedLocks
import SslAutoref.Logic.ScopedLockRun
import SslAutoref.Theorems.ScopedLocks
import SslAutoref.Model.Handles
import SslAutoref.Theorems.Handles
