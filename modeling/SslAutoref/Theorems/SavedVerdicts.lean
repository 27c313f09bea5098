import SslAutoref.Logic.EvaluateRun
import SslAutoref.Theorems.Load

/-!
# The verdicts that are saved and counted

`EvaluateAutorefs` hands the entries of a sweep to `MergeEvaluations`, which saves
and counts them. The verdict named at a `push_back` does not get there, so for a
log with a human event the verdicts are kept, and all autorefs reported, exactly
when there are no verdicts to keep (`verdicts_kept_iff`).
-/

namespace SslAutoref.Theorems

/-- Every entry passed to `MergeEvaluations` has the verdict named at its
`push_back`, the counting loop never meets an unknown one, and every autoref is
reported. -/
structure VerdictsKept (autorefs : List UInt16) (run : EvalRun) : Prop where
  values : ∀ call ∈ run.merged, call.2.map (·.value) = call.1.map (·.value)
  counted : ∀ i, run.stop ≠ some (.unknownEvaluation i)
  reported : run.reports.map (·.port) = autorefs

/-- The ports of the reports are those of the autorefs. -/
theorem map_getD_cons (port : UInt16) (ports : List UInt16) :
    (List.range' 1 ports.length).map (fun j => (port :: ports).getD j 0) = ports := by
  refine List.ext_getElem? fun j => ?_
  rw [List.getElem?_map]
  by_cases hj : j < ports.length
  · rw [List.getElem?_range' hj]
    simp [hj, Nat.add_comm 1 j]
  · rw [List.getElem?_eq_none (by simpa using hj), List.getElem?_eq_none (by omega)]
    rfl

/-- **The loop over the autorefs** keeps the verdicts exactly when no autoref has an
event. -/
theorem verdictsKept_evaluateTables_iff {t : Tables} {human : List RefereeEvent}
    {autorefs : List (List RefereeEvent)} {ports : List UInt16} (logFile : String)
    (files : Files) (hevents : t.refereeEvents = human :: autorefs) (hhuman : human ≠ [])
    (hports : t.refereePorts = kRefboxPort :: ports)
    (hlen : ports.length = autorefs.length) :
    VerdictsKept ports (evaluateTables logFile t files) ↔
      ∀ events ∈ autorefs, events = [] := by
  unfold evaluateTables
  rw [hevents]
  dsimp only
  rw [if_neg hhuman]
  refine ⟨?_, ?_⟩
  · intro h
    have hcount := congrArg List.length h.reported
    rw [List.length_map, hlen] at hcount
    have hempty := eq_nil_of_length_reports logFile t.refereePorts human
      (hcount.trans (by simp))
    intro events hmem
    obtain ⟨i, hi⟩ := List.getElem?_of_mem hmem
    refine hempty (events, 1 + i) (List.mem_iff_getElem?.mpr ⟨i, ?_⟩)
    rw [List.getElem?_zipIdx, hi]
    rfl
  · intro h
    have hstart : ({ files := files } : EvalRun).stop = none := rfl
    obtain ⟨files', hrun⟩ := foldl_of_all_nil logFile t.refereePorts human hstart h 1
    rw [hrun]
    refine ⟨?_, fun i => nofun, ?_⟩
    · intro call hcall
      rw [List.nil_append] at hcall
      obtain rfl := List.eq_of_mem_replicate hcall
      rfl
    · simp only [List.nil_append, List.map_map, hports, ← hlen]
      exact map_getD_cons kRefboxPort ports

/-- The tables of a log, indexed: the refbox first, then its autorefs. -/
theorem exists_tables_load (pb : Protobuf) (log : List UInt8) :
    ∃ ports, portsOf (logTraffic pb log) = kRefboxPort :: ports ∧
      (indexRefereeEvents (loadRefereeCommands pb log {})).refereePorts =
        kRefboxPort :: ports ∧
      (indexRefereeEvents (loadRefereeCommands pb log {})).refereeEvents =
        indexReferee (recordedOf (logTraffic pb log) kRefboxPort) ::
          ports.map fun p => indexReferee (recordedOf (logTraffic pb log) p) := by
  have h := holds_loadRefereeCommands pb log
  obtain ⟨ports, hports⟩ := exists_portsOf_eq_cons (logTraffic pb log)
  refine ⟨ports, hports, ?_, ?_⟩
  · show (loadRefereeCommands pb log {}).refereePorts = _
    rw [h.portsEq, hports]
  · rw [h.events_indexRefereeEvents, hports]
    rfl

/-- No autoref recorded an event command. -/
def NoAutorefEvents (pb : Protobuf) (log : List UInt8) : Prop :=
  ∀ p, p ≠ kRefboxPort →
    ∀ m ∈ recordedOf (logTraffic pb log) p, m.command.isEvent = false

theorem noAutorefEvents_iff {pb : Protobuf} {log : List UInt8} {ports : List UInt16}
    (hports : portsOf (logTraffic pb log) = kRefboxPort :: ports) :
    NoAutorefEvents pb log ↔
      ∀ events ∈ ports.map (fun p => indexReferee (recordedOf (logTraffic pb log) p)),
        events = [] := by
  have hnodup : (kRefboxPort :: ports).Nodup := hports ▸ nodup_portsOf
  refine ⟨?_, ?_⟩
  · intro h events hmem
    obtain ⟨p, hp, rfl⟩ := List.mem_map.mp hmem
    refine indexReferee_eq_nil_iff.mpr (h p ?_)
    rintro rfl
    exact (List.nodup_cons.mp hnodup).1 hp
  · intro h p hne
    by_cases hp : p ∈ portsOf (logTraffic pb log)
    · rw [hports] at hp
      have hmem := (List.mem_cons.mp hp).resolve_left hne
      exact indexReferee_eq_nil_iff.mp (h _ (List.mem_map_of_mem hmem))
    · intro m hm
      unfold recordedOf at hm
      rw [messagesOf_eq_nil hp] at hm
      cases hm

/-- **The verdicts that are saved.** For a log in which the human referee recorded
an event, whatever the annotation files hold, every entry keeps its verdict and all
autorefs are reported exactly when no autoref recorded an event. -/
theorem verdicts_kept_iff {pb : Protobuf} {log : List UInt8}
    (hhuman : ∃ m ∈ recordedOf (logTraffic pb log) kRefboxPort, m.command.isEvent = true)
    (logFile : String) (files : Files) :
    VerdictsKept (loadRefereeCommands pb log {}).refereePorts.tail
        (evaluateAutorefs pb logFile log files) ↔
      NoAutorefEvents pb log := by
  obtain ⟨ports, hports, hlisted, hevents⟩ := exists_tables_load pb log
  have hhuman' : indexReferee (recordedOf (logTraffic pb log) kRefboxPort) ≠ [] := by
    intro hnil
    obtain ⟨m, hm, hevent⟩ := hhuman
    rw [indexReferee_eq_nil_iff.mp hnil m hm] at hevent
    cases hevent
  have htail : (loadRefereeCommands pb log {}).refereePorts.tail = ports :=
    congrArg List.tail hlisted
  rw [htail, noAutorefEvents_iff hports]
  exact verdictsKept_evaluateTables_iff logFile files hevents hhuman' hlisted
    (by rw [List.length_map])

/-! ## Two logs -/

/-- A goal by the human referee, and the same goal by an autoref. -/
def bothGoals : List (Nat × SSLReferee) :=
  [issue .stop 1 10000000, issue .goalYellow 2 11000000,
    (10004, ⟨.stop, 1, 10000000⟩), (10004, ⟨.goalYellow, 2, 11000000⟩)]

theorem bothGoals_traffic :
    logTraffic (sampleProtobuf [] bothGoals) (sampleLog bothGoals) =
      [(kRefboxPort, ⟨.stop, 1, 10000000⟩), (kRefboxPort, ⟨.goalYellow, 2, 11000000⟩),
        (10004, ⟨.stop, 1, 10000000⟩), (10004, ⟨.goalYellow, 2, 11000000⟩)] := by
  rw [logTraffic_sampleLog (by decide)]
  decide

/-- The true positive of this log is saved as unknown, and ends the process. -/
theorem verdict_is_lost :
    ¬ ∀ (pb : Protobuf) (logFile : String) (log : List UInt8) (files : Files),
      (∃ m ∈ recordedOf (logTraffic pb log) kRefboxPort, m.command.isEvent = true) →
      VerdictsKept (loadRefereeCommands pb log {}).refereePorts.tail
        (evaluateAutorefs pb logFile log files) := by
  intro h
  have hkept := h (sampleProtobuf [] bothGoals) "match" (sampleLog bothGoals)
    (fun _ => none) (by rw [bothGoals_traffic]; decide)
  refine hkept.counted 0 ?_
  unfold evaluateAutorefs
  rw [loadRefereeCommands_eq, bothGoals_traffic]
  rfl

/-- An autoref that only issues a stop is reported. -/
def stopAndGoal : List (Nat × SSLReferee) :=
  [issue .stop 1 10000000, issue .goalYellow 2 11000000, (10004, ⟨.stop, 1, 10000000⟩)]

theorem stopAndGoal_traffic :
    logTraffic (sampleProtobuf [] stopAndGoal) (sampleLog stopAndGoal) =
      [(kRefboxPort, ⟨.stop, 1, 10000000⟩), (kRefboxPort, ⟨.goalYellow, 2, 11000000⟩),
        (10004, ⟨.stop, 1, 10000000⟩)] := by
  rw [logTraffic_sampleLog (by decide)]
  decide

theorem verdicts_kept_stopAndGoal :
    VerdictsKept
        (loadRefereeCommands (sampleProtobuf [] stopAndGoal)
          (sampleLog stopAndGoal) {}).refereePorts.tail
        (evaluateAutorefs (sampleProtobuf [] stopAndGoal) "match" (sampleLog stopAndGoal)
          fun _ => none) ↔
      NoAutorefEvents (sampleProtobuf [] stopAndGoal) (sampleLog stopAndGoal) :=
  verdicts_kept_iff (by rw [stopAndGoal_traffic]; decide) _ _

end SslAutoref.Theorems
