import SslAutoref.Model.Annotations
import SslAutoref.Model.Log
import SslAutoref.Model.Sweep

/-!
# Evaluating a log

`MergeEvaluations` and `EvaluateAutorefs` of `evaluate_main.cpp`: load the log,
index its events, and for every automatic referee sweep, merge with the
annotations of a human, count and report. The process ends early where the source
calls `exit(1)`, and where it reads a vector outside its bounds.
-/

namespace SslAutoref

/-- The files of the evaluations, by name. -/
abbrev Files := String → Option (List Char)

/-- Why a run ends early. -/
inductive Stop
  | noHumanEvents
  | humanRefereeOutOfRange
  | evaluationsOutOfRange
  | unknownEvaluation (i : Nat)
  | running
  deriving DecidableEq, Repr

/-- What the counting loop of `MergeEvaluations` adds up. -/
structure Counts where
  truePositives : Nat := 0
  falsePositives : Nat := 0
  falseNegatives : Nat := 0
  deriving DecidableEq, Repr

/-- The report on one autoref: its port, and the counts that precision, recall
and F1 score are computed from. -/
structure Report where
  port : UInt16
  counts : Counts
  deriving DecidableEq, Repr

/-- One round of the counting loop. The `default` branch exits. -/
def countEvaluation (counts : Counts) (entry : EventEvaluation × Nat) :
    Except Stop Counts :=
  if entry.1.ignore then .ok counts
  else
    match entry.1.value with
    | .truePositive => .ok { counts with truePositives := counts.truePositives + 1 }
    | .falsePositive => .ok { counts with falsePositives := counts.falsePositives + 1 }
    | .falseNegative => .ok { counts with falseNegatives := counts.falseNegatives + 1 }
    | .unknown => .error (.unknownEvaluation entry.2)

/-- The counting loop of `MergeEvaluations`. -/
def countEvaluations (evaluations : List EventEvaluation) : Except Stop Counts :=
  evaluations.zipIdx.foldlM countEvaluation {}

/-- `StringPrintf("%s.%d.eval", log_file.c_str(), ref_id)`. -/
def evaluationsFileName (logFile : String) (refId : Nat) : String :=
  logFile ++ "." ++ toString refId ++ ".eval"

/-- The first half of `MergeEvaluations`: load the annotated evaluations if they
exist and are consistent, and save the evaluations otherwise. -/
def loadOrSave (fileName : String) (files : Files) (evaluations : List EventEvaluation) :
    Except Stop (Files × List EventEvaluation) :=
  match files fileName with
  | none =>
    .ok (Function.update files fileName (some (saveEvaluations evaluations)), evaluations)
  | some text =>
    match loadEvaluations text evaluations with
    -- the annotated evaluations exist and are consistent
    | (.returned true, evaluations) => .ok (files, evaluations)
    | (.returned false, evaluations) =>
      .ok (Function.update files fileName (some (saveEvaluations evaluations)), evaluations)
    | (.outOfRange, _) => .error .evaluationsOutOfRange
    | (.running, _) => .error .running

/-- A run of `EvaluateAutorefs` so far: the files, the calls of
`MergeEvaluations` (what the sweep pushed, and the entries passed), the reports
printed, and why the run has ended, if it has. -/
structure EvalRun where
  files : Files
  merged : List (List PushBack × List EventEvaluation) := []
  reports : List Report := []
  stop : Option Stop := none

/-- `MergeEvaluations`. -/
def mergeEvaluations (logFile : String) (ports : List UInt16) (refId : Nat)
    (evaluations : List EventEvaluation) (run : EvalRun) : EvalRun :=
  match loadOrSave (evaluationsFileName logFile refId) run.files evaluations with
  | .error stop => { run with stop := some stop }
  | .ok (files, evaluations) =>
    match countEvaluations evaluations with
    | .error stop => { run with files := files, stop := some stop }
    | .ok counts =>
      { run with
        files := files
        reports := run.reports ++ [{ port := ports.getD refId 0, counts := counts }] }

/-- The body of the loop over the autorefs. -/
def evaluateAutoref (logFile : String) (ports : List UInt16) (human : List RefereeEvent)
    (run : EvalRun) (autoref : List RefereeEvent × Nat) : EvalRun :=
  if run.stop.isSome then run
  else
    match sweep human autoref.1 with
    | none => { run with stop := some .humanRefereeOutOfRange }
    | some pushed =>
      let evaluations := pushed.map (·.evaluation human autoref.1)
      mergeEvaluations logFile ports autoref.2 evaluations
        { run with merged := run.merged ++ [(pushed, evaluations)] }

/-- `EvaluateAutorefs` once the tables are loaded and indexed. -/
def evaluateTables (logFile : String) (t : Tables) (files : Files) : EvalRun :=
  match t.refereeEvents with
  | [] => { files := files, stop := some .humanRefereeOutOfRange }
  | human :: autorefs =>
    if human = [] then { files := files, stop := some .noHumanEvents }
    else
      (autorefs.zipIdx 1).foldl (evaluateAutoref logFile t.refereePorts human)
        { files := files }

/-- `EvaluateAutorefs` on a log file with the given name and bytes. -/
def evaluateAutorefs (pb : Protobuf) (logFile : String) (log : List UInt8) (files : Files) :
    EvalRun :=
  evaluateTables logFile (indexRefereeEvents (loadRefereeCommands pb log {})) files

end SslAutoref
