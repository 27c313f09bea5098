import SslAutoref.Logic.EvaluateRun
import SslAutoref.Logic.LoadTables
import SslAutoref.Logic.SweepRun

/-!
# What is handed over for each referee

A run of `EvaluateAutorefs` calls `MergeEvaluations` for one autoref after the other, in
the order of the tables, until something stops it. What it hands over for a port is a
function of two lists of recorded commands, that of the refbox and that of the port
(`callFor`, `merged_evaluateAutorefs`). Neither the other referees nor the annotation
files have a part in it.
-/

namespace SslAutoref

/-! ## The loop over the autorefs -/

/-- What is handed over for the given events of an autoref: what the sweep pushed, and the
entries made of it. -/
def callOf (human autoref : List RefereeEvent) : Option (List PushBack × List EventEvaluation) :=
  (sweep human autoref).map fun pushed => (pushed, pushed.map (·.evaluation human autoref))

section

variable (logFile : String) (ports : List UInt16) (human : List RefereeEvent)

theorem merged_mergeEvaluations (i : Nat) (evaluations : List EventEvaluation) (run : EvalRun) :
    (mergeEvaluations logFile ports i evaluations run).merged = run.merged := by
  unfold mergeEvaluations
  cases loadOrSave (evaluationsFileName logFile i) run.files evaluations with
  | error stop => rfl
  | ok loaded =>
    obtain ⟨files, evaluations⟩ := loaded
    dsimp only
    cases countEvaluations evaluations with
    | error stop => rfl
    | ok counts => rfl

/-- **One autoref.** Nothing happens when the run has ended; it ends when the sweep reads out
of bounds, and otherwise one call more is made. -/
theorem evaluateAutoref_cases (run : EvalRun) (autoref : List RefereeEvent) (i : Nat) :
    run.stop.isSome = true ∧ evaluateAutoref logFile ports human run (autoref, i) = run ∨
      run.stop = none ∧ callOf human autoref = none ∧
        evaluateAutoref logFile ports human run (autoref, i) =
          { run with stop := some .humanRefereeOutOfRange } ∨
      run.stop = none ∧ ∃ call, callOf human autoref = some call ∧
        evaluateAutoref logFile ports human run (autoref, i) =
          mergeEvaluations logFile ports i call.2
            { run with merged := run.merged ++ [call] } := by
  unfold evaluateAutoref callOf
  by_cases hstop : run.stop.isSome = true
  · rw [if_pos hstop]
    exact .inl ⟨hstop, rfl⟩
  · rw [if_neg hstop]
    have hnone := Option.not_isSome_iff_eq_none.mp hstop
    cases hsweep : sweep human autoref with
    | none => exact .inr (.inl ⟨hnone, rfl, rfl⟩)
    | some pushed => exact .inr (.inr ⟨hnone, _, rfl, rfl⟩)

/-- The calls so far are those of the first autorefs, and of all of them while the run goes
on. -/
theorem merged_foldl (files : Files) (autorefs : List (List RefereeEvent)) :
    let run := (autorefs.zipIdx 1).foldl (evaluateAutoref logFile ports human)
      { files := files }
    run.merged.map some <+: autorefs.map (callOf human) ∧
      (run.stop = none → run.merged.length = autorefs.length) := by
  induction autorefs using List.reverseRecOn with
  | nil => exact ⟨List.nil_prefix, fun _ => rfl⟩
  | append_singleton autorefs autoref ih =>
    obtain ⟨hfirst, hlength⟩ := ih
    rw [List.zipIdx_append, List.foldl_append, List.map_append, List.length_append]
    dsimp only [List.zipIdx_cons, List.zipIdx_nil, List.foldl_cons, List.foldl_nil,
      List.map_cons, List.map_nil]
    generalize (autorefs.zipIdx 1).foldl (evaluateAutoref logFile ports human)
      { files := files } = run at hfirst hlength ⊢
    rcases evaluateAutoref_cases logFile ports human run autoref (1 + autorefs.length) with
      ⟨hstopped, hrun⟩ | ⟨-, -, hrun⟩ | ⟨hnone, call, hcall, hrun⟩
    · rw [hrun]
      refine ⟨hfirst.trans (List.prefix_append _ _), ?_⟩
      intro hnone
      rw [hnone] at hstopped
      cases hstopped
    · rw [hrun]
      exact ⟨hfirst.trans (List.prefix_append _ _), nofun⟩
    · -- the calls before this one are those of all the autorefs before it
      have hall : run.merged.map some = autorefs.map (callOf human) := by
        refine hfirst.eq_of_length ?_
        rw [List.length_map, List.length_map, hlength hnone]
      rw [hrun, merged_mergeEvaluations, List.map_append, hall, List.map_singleton,
        List.map_singleton, hcall]
      refine ⟨List.prefix_rfl, fun _ => ?_⟩
      rw [List.length_append, hlength hnone]
      rfl

end

/-! ## From the traffic -/

/-- The indexed events of a port. -/
def eventsOf (traffic : List (UInt16 × SSLReferee)) (port : UInt16) : List RefereeEvent :=
  indexReferee (recordedOf traffic port)

/-- What is handed over for a port. -/
def callFor (traffic : List (UInt16 × SSLReferee)) (port : UInt16) :
    Option (List PushBack × List EventEvaluation) :=
  callOf (eventsOf traffic kRefboxPort) (eventsOf traffic port)

theorem refereePorts_load (pb : Protobuf) (log : List UInt8) :
    (loadRefereeCommands pb log {}).refereePorts = portsOf (logTraffic pb log) :=
  (holds_loadRefereeCommands pb log).portsEq

/-- **The calls of a run** are those of the first ports behind the refbox. -/
theorem merged_evaluateAutorefs (pb : Protobuf) (logFile : String) (log : List UInt8)
    (files : Files) :
    (evaluateAutorefs pb logFile log files).merged.map some <+:
      (portsOf (logTraffic pb log)).tail.map (callFor (logTraffic pb log)) := by
  have hevents := (holds_loadRefereeCommands pb log).events_indexRefereeEvents
  obtain ⟨ports, hports⟩ := exists_portsOf_eq_cons (logTraffic pb log)
  unfold evaluateAutorefs evaluateTables
  rw [hevents, hports, List.map_cons, List.tail_cons]
  dsimp only
  split
  · exact List.nil_prefix
  · have hcalls := (merged_foldl logFile
      (indexRefereeEvents (loadRefereeCommands pb log {})).refereePorts
      (eventsOf (logTraffic pb log) kRefboxPort) files
      (ports.map (eventsOf (logTraffic pb log)))).1
    rwa [List.map_map] at hcalls

/-- A run of the evaluator hands `call` over for the referee on `port`. -/
def HandsOver (pb : Protobuf) (logFile : String) (log : List UInt8) (files : Files)
    (port : UInt16) (call : List PushBack × List EventEvaluation) : Prop :=
  ∃ k, (loadRefereeCommands pb log {}).refereePorts[k + 1]? = some port ∧
    (evaluateAutorefs pb logFile log files).merged[k]? = some call

theorem HandsOver.eq_callFor {pb : Protobuf} {logFile : String} {log : List UInt8}
    {files : Files} {port : UInt16} {call : List PushBack × List EventEvaluation}
    (h : HandsOver pb logFile log files port call) :
    callFor (logTraffic pb log) port = some call := by
  obtain ⟨k, hport, hcall⟩ := h
  have hsome : ((evaluateAutorefs pb logFile log files).merged.map some)[k]? =
      some (some call) := by
    rw [List.getElem?_map, hcall]
    rfl
  obtain ⟨rest, hrest⟩ := merged_evaluateAutorefs pb logFile log files
  have hget : ((portsOf (logTraffic pb log)).tail.map (callFor (logTraffic pb log)))[k]? =
      some (some call) := by
    rw [← hrest, List.getElem?_append_left (List.getElem?_eq_some_iff.mp hsome).1]
    exact hsome
  rw [refereePorts_load] at hport
  rw [List.getElem?_map, List.getElem?_tail, hport] at hget
  exact Option.some.inj hget

end SslAutoref
