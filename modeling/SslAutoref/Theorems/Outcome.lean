import SslAutoref.Logic.HandOver
import SslAutoref.Theorems.Reevaluation
import SslAutoref.Theorems.SavedVerdicts

/-!
# How an evaluation ends

The entries of a sweep have no verdict, and the counting loop exits at the first of them.
So a run reports on the autorefs in front of the first one that issued an event, all with
nothing to count, and that one ends it, in one of three ways (`outcome_exact`).
-/

namespace SslAutoref.Theorems

/-! ## An autoref with an event -/

/-- What a run is after an autoref with an event, where it was `before`, and `file` was the
annotation file of that autoref. Nothing is reported. The run ends because the sweep, or
`LoadEvaluations`, reads outside a vector, or else at the first entry, that is unknown. -/
structure EndsAt (human autoref : List RefereeEvent) (file : Option (List Char))
    (before run : EvalRun) : Prop where
  reports : run.reports = before.reports
  unswept : callOf human autoref = none →
    run.merged = before.merged ∧ run.stop = some .humanRefereeOutOfRange
  merged : ∀ call, callOf human autoref = some call → run.merged = before.merged ++ [call]
  unknown : ∀ call, callOf human autoref = some call → Returns file call.2 →
    run.stop = some (.unknownEvaluation 0)
  unloaded : ∀ call, callOf human autoref = some call → ¬ Returns file call.2 →
    run.stop = some .evaluationsOutOfRange

/-- The first entry that is handed over has no verdict. -/
theorem exists_unknown_of_callOf {human autoref : List RefereeEvent} (hne : autoref ≠ [])
    {call : List PushBack × List EventEvaluation} (h : callOf human autoref = some call) :
    ∃ e es, call.2 = e :: es ∧ e.ignore = false ∧ e.value = .unknown := by
  obtain ⟨pushed, hsweep, rfl⟩ := Option.map_eq_some_iff.mp h
  obtain ⟨p, ps, rfl⟩ := List.exists_cons_of_ne_nil (ne_nil_of_sweep hne hsweep)
  exact ⟨_, _, rfl, rfl, evaluation_value human autoref p⟩

section

variable (logFile : String) (ports : List UInt16) (human : List RefereeEvent) {run : EvalRun}

/-- **The autoref that ends a run.** -/
theorem endsAt_evaluateAutoref (hstop : run.stop = none) {autoref : List RefereeEvent}
    (hne : autoref ≠ []) (i : Nat) :
    EndsAt human autoref (run.files (evaluationsFileName logFile i)) run
      (evaluateAutoref logFile ports human run (autoref, i)) := by
  have hreports := @reports_evaluateAutoref logFile ports human run autoref hne i
  rcases evaluateAutoref_cases logFile ports human run autoref i with
    ⟨hsome, -⟩ | ⟨-, hcall, hrun⟩ | ⟨-, call, hcall, hrun⟩
  · simp [hstop] at hsome
  · refine ⟨hreports, fun _ => ?_, ?_, ?_, ?_⟩
    · rw [hrun]
      exact ⟨rfl, rfl⟩
    all_goals
      intro call' hcall'
      rw [hcall] at hcall'
      cases hcall'
  · obtain ⟨e, es, hentries, hignore, hvalue⟩ := exists_unknown_of_callOf hne hcall
    have hunique : ∀ call', callOf human autoref = some call' → call' = call := by
      intro call' hcall'
      rw [hcall] at hcall'
      exact (Option.some.inj hcall').symm
    refine ⟨hreports, ?_, ?_, ?_, ?_⟩
    · intro hnone
      rw [hcall] at hnone
      cases hnone
    · intro call' hcall'
      rw [hunique call' hcall', hrun, merged_mergeEvaluations]
    · intro call' hcall' hreturns
      obtain rfl := hunique call' hcall'
      rw [hrun]
      unfold mergeEvaluations
      rw [loadOrSave_of_returns hreturns]
      dsimp only
      rw [hentries, countEvaluations_unknown hignore hvalue]
    · intro call' hcall' hreturns
      obtain rfl := hunique call' hcall'
      rw [hrun]
      unfold mergeEvaluations
      rw [loadOrSave_of_not_returns hreturns]

end

/-! ## The first autoref with an event -/

/-- The referee on a port recorded an event command. -/
def issues (traffic : List (UInt16 × SSLReferee)) (port : UInt16) : Bool :=
  (recordedOf traffic port).any (·.command.isEvent)

theorem eventsOf_eq_nil_iff {traffic : List (UInt16 × SSLReferee)} {port : UInt16} :
    eventsOf traffic port = [] ↔ issues traffic port = false := by
  unfold eventsOf issues
  rw [indexReferee_eq_nil_iff, List.any_eq_false]
  simp

theorem eventsOf_ne_nil {traffic : List (UInt16 × SSLReferee)} {port : UInt16}
    (h : issues traffic port = true) : eventsOf traffic port ≠ [] := by
  intro hnil
  rw [eventsOf_eq_nil_iff.mp hnil] at h
  cases h

/-- The first autoref that issued an event, and those in front of it. -/
structure FirstIssuer (traffic : List (UInt16 × SSLReferee)) (quiet : List UInt16)
    (port : UInt16) : Prop where
  listed : quiet ++ [port] <+: (portsOf traffic).tail
  quiet_issues : ∀ p ∈ quiet, issues traffic p = false
  port_issues : issues traffic port = true

/-- A run that has got behind some autorefs without events: each of them was handed over
with no entries, and reported with nothing to count. -/
def quietRun (files : Files) (quiet : List UInt16) : EvalRun where
  files := files
  merged := List.replicate quiet.length ([], [])
  reports := quiet.map fun p => { port := p, counts := {} }

/-- How a run ends: at once without human events, in order when no autoref issued an event,
and at the first one that did. -/
structure Outcome (traffic : List (UInt16 × SSLReferee)) (logFile : String) (files : Files)
    (run : EvalRun) : Prop where
  no_human : issues traffic kRefboxPort = false →
    run = { files := files, stop := some .noHumanEvents }
  finishes : issues traffic kRefboxPort = true →
    (∀ p ∈ (portsOf traffic).tail, issues traffic p = false) →
    run = quietRun run.files (portsOf traffic).tail
  ends : issues traffic kRefboxPort = true → ∀ quiet port, FirstIssuer traffic quiet port →
    EndsAt (eventsOf traffic kRefboxPort) (eventsOf traffic port)
      (files (evaluationsFileName logFile (quiet.length + 1))) (quietRun files quiet) run

section

variable {traffic : List (UInt16 × SSLReferee)} (logFile : String) (files : Files)
  {ports : List UInt16}

/-- The loop over the autorefs in front that issued nothing. -/
theorem foldl_quiet {quiet : List UInt16} (hlisted : quiet <+: ports)
    (hquiet : ∀ p ∈ quiet, issues traffic p = false) :
    ∃ files', ((quiet.map (eventsOf traffic)).zipIdx 1).foldl
        (evaluateAutoref logFile (kRefboxPort :: ports) (eventsOf traffic kRefboxPort))
        { files := files } = quietRun files' quiet := by
  have hnil : ∀ events ∈ quiet.map (eventsOf traffic), events = [] := by
    intro events hmem
    obtain ⟨p, hp, rfl⟩ := List.mem_map.mp hmem
    exact eventsOf_eq_nil_iff.mpr (hquiet p hp)
  have hstart : ({ files := files } : EvalRun).stop = none := rfl
  obtain ⟨files', hrun⟩ := foldl_of_all_nil logFile (kRefboxPort :: ports)
    (eventsOf traffic kRefboxPort) hstart hnil 1
  refine ⟨files', ?_⟩
  obtain ⟨later, rfl⟩ := hlisted
  -- the autorefs are numbered from one, behind the refbox
  have hports : (List.range' 1 quiet.length).map
      (fun j => (kRefboxPort :: (quiet ++ later)).getD j 0) = quiet := by
    have hall := map_getD_cons kRefboxPort (quiet ++ later)
    rw [List.length_append, List.range'_append_1.symm, List.map_append] at hall
    exact (List.append_inj hall (by simp)).1
  have hreports := congrArg
    (List.map fun p => ({ port := p, counts := {} } : Report)) hports
  rw [List.map_map] at hreports
  rw [hrun, List.length_map]
  unfold quietRun
  rw [← hreports]
  rfl

/-- The loop up to the first autoref with an event, and over the others. -/
theorem foldl_firstIssuer (hports : portsOf traffic = kRefboxPort :: ports)
    {quiet : List UInt16} {port : UInt16} (hfirst : FirstIssuer traffic quiet port) :
    EndsAt (eventsOf traffic kRefboxPort) (eventsOf traffic port)
      (files (evaluationsFileName logFile (quiet.length + 1))) (quietRun files quiet)
      (((ports.map (eventsOf traffic)).zipIdx 1).foldl
        (evaluateAutoref logFile (kRefboxPort :: ports) (eventsOf traffic kRefboxPort))
        { files := files }) := by
  obtain ⟨later, hlisted⟩ := hfirst.listed
  rw [hports, List.tail_cons, List.append_assoc] at hlisted
  obtain ⟨files', hquiet⟩ := @foldl_quiet traffic logFile files ports quiet ⟨_, hlisted⟩
    hfirst.quiet_issues
  -- the file of the port is as it was
  have hwritten := written_foldl logFile (kRefboxPort :: ports) (eventsOf traffic kRefboxPort)
    files (quiet.map (eventsOf traffic))
  rw [hquiet] at hwritten
  have hfile : files' (evaluationsFileName logFile (quiet.length + 1)) =
      files (evaluationsFileName logFile (quiet.length + 1)) := by
    refine hwritten.others _ fun k hk heq => ?_
    have hindex := evaluationsFileName_inj heq
    have hk' : k < quiet.length := by simpa [quietRun] using hk
    omega
  have hne := eventsOf_ne_nil hfirst.port_issues
  have hstop : (quietRun files' quiet).stop = none := rfl
  have hends := endsAt_evaluateAutoref logFile (kRefboxPort :: ports)
    (eventsOf traffic kRefboxPort) hstop hne (quiet.length + 1)
  have hsplit : (ports.map (eventsOf traffic)).zipIdx 1 =
      (quiet.map (eventsOf traffic)).zipIdx 1 ++
        (eventsOf traffic port, quiet.length + 1) ::
          (later.map (eventsOf traffic)).zipIdx (quiet.length + 2) := by
    rw [← hlisted, List.map_append, List.zipIdx_append, List.length_map,
      Nat.add_comm 1 quiet.length]
    rfl
  rw [hsplit, List.foldl_append, hquiet, List.foldl_cons,
    foldl_of_stop _ _ _ (isSome_stop_evaluateAutoref logFile _ _ hne _)]
  have hbefore : (quietRun files' quiet).files (evaluationsFileName logFile (quiet.length + 1)) =
      files (evaluationsFileName logFile (quiet.length + 1)) := hfile
  rw [hbefore] at hends
  exact ⟨hends.reports, hends.unswept, hends.merged, hends.unknown, hends.unloaded⟩

end

/-- **The end of a run**, for every log and whatever the annotation files. -/
theorem outcome_exact (pb : Protobuf) (logFile : String) (log : List UInt8) (files : Files) :
    Outcome (logTraffic pb log) logFile files (evaluateAutorefs pb logFile log files) := by
  obtain ⟨ports, hports, hlisted, hevents⟩ := exists_tables_load pb log
  have hautorefs : (indexRefereeEvents (loadRefereeCommands pb log {})).refereeEvents =
      eventsOf (logTraffic pb log) kRefboxPort :: ports.map (eventsOf (logTraffic pb log)) :=
    hevents
  unfold evaluateAutorefs evaluateTables
  rw [hautorefs, hlisted]
  dsimp only
  refine ⟨?_, ?_, ?_⟩
  · intro hhuman
    rw [if_pos (eventsOf_eq_nil_iff.mpr hhuman)]
  · intro hhuman hquiet
    rw [if_neg (eventsOf_ne_nil hhuman)]
    rw [hports, List.tail_cons] at hquiet ⊢
    obtain ⟨files', hrun⟩ := @foldl_quiet _ logFile files ports ports List.prefix_rfl hquiet
    rw [hrun]
    rfl
  · intro hhuman quiet port hfirst
    rw [if_neg (eventsOf_ne_nil hhuman)]
    exact foldl_firstIssuer logFile files hports hfirst

end SslAutoref.Theorems
