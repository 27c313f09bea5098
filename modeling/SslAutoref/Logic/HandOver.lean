import Mathlib.Data.List.TakeWhile
import SslAutoref.Logic.Verdicts

/-!
# Which autorefs a run gets to

`EvaluateAutorefs` takes the autorefs in the order in which they were first heard of, and the
process ends at the first one with an event: its entries are unknown to the counting loop. So
the verdicts on an autoref are handed over exactly when no autoref that was heard of before it
has an event (`handsOver_iff`).
-/

namespace SslAutoref

/-! ## The end of a run -/

section

variable (logFile : String) (ports : List UInt16) (human : List RefereeEvent) {run : EvalRun}

/-- The process ends at an entry that has no verdict, if not before. -/
theorem isSome_stop_mergeEvaluations (i : Nat) {e : EventEvaluation} {es : List EventEvaluation}
    (hignore : e.ignore = false) (hvalue : e.value = .unknown) :
    (mergeEvaluations logFile ports i (e :: es) run).stop.isSome = true := by
  unfold mergeEvaluations
  cases hmerge : loadOrSave (evaluationsFileName logFile i) run.files (e :: es) with
  | error stop => rfl
  | ok result =>
    obtain ⟨files, evaluations⟩ := result
    obtain rfl := loadOrSave_evaluations hmerge
    dsimp only
    rw [countEvaluations_unknown hignore hvalue]
    rfl

/-- It ends at every autoref with an event. -/
theorem isSome_stop_evaluateAutoref {autoref : List RefereeEvent} (hne : autoref ≠ []) (i : Nat) :
    (evaluateAutoref logFile ports human run (autoref, i)).stop.isSome = true := by
  rcases evaluateAutoref_cases logFile ports human run autoref i with
    ⟨hstopped, hrun⟩ | ⟨-, -, hrun⟩ | ⟨-, call, hcall, hrun⟩
  · rw [hrun]
    exact hstopped
  · rw [hrun]
    rfl
  · obtain ⟨pushed, hsweep, rfl⟩ := Option.map_eq_some_iff.mp hcall
    obtain ⟨p, ps, rfl⟩ := List.exists_cons_of_ne_nil (ne_nil_of_sweep hne hsweep)
    rw [hrun]
    exact isSome_stop_mergeEvaluations logFile ports i rfl (evaluation_value human autoref p)

/-- Nothing comes after the end. -/
theorem foldl_of_stop (hstop : run.stop.isSome = true)
    (autorefs : List (List RefereeEvent × Nat)) :
    autorefs.foldl (evaluateAutoref logFile ports human) run = run := by
  induction autorefs with
  | nil => rfl
  | cons autoref autorefs ih =>
    have hstep : evaluateAutoref logFile ports human run autoref = run := if_pos hstop
    rw [List.foldl_cons, hstep, ih]

/-- The calls that were made stay. -/
theorem merged_prefix_foldl (run : EvalRun) (autorefs : List (List RefereeEvent × Nat)) :
    run.merged <+: (autorefs.foldl (evaluateAutoref logFile ports human) run).merged := by
  induction autorefs generalizing run with
  | nil => exact List.prefix_rfl
  | cons autoref autorefs ih =>
    obtain ⟨events, i⟩ := autoref
    refine List.IsPrefix.trans ?_ (ih _)
    rcases evaluateAutoref_cases logFile ports human run events i with
      ⟨-, hrun⟩ | ⟨-, -, hrun⟩ | ⟨-, call, -, hrun⟩
    · rw [hrun]
    · rw [hrun]
    · rw [hrun, merged_mergeEvaluations]
      exact List.prefix_append _ _

variable (files : Files) {before after : List (List RefereeEvent)} {autoref : List RefereeEvent}

/-- No call is made behind an autoref with an event. -/
theorem length_merged_le (hne : autoref ≠ []) :
    (((before ++ autoref :: after).zipIdx 1).foldl (evaluateAutoref logFile ports human)
      { files := files }).merged.length ≤ before.length + 1 := by
  have hsplit : before ++ autoref :: after = (before ++ [autoref]) ++ after := by simp
  have hfirst := (merged_foldl logFile ports human files (before ++ [autoref])).1.length_le
  have hstop : (((before ++ [autoref]).zipIdx 1).foldl (evaluateAutoref logFile ports human)
      { files := files }).stop.isSome = true := by
    rw [List.zipIdx_append, List.foldl_append]
    exact isSome_stop_evaluateAutoref logFile ports human hne _
  rw [hsplit, List.zipIdx_append, List.foldl_append, foldl_of_stop _ _ _ hstop]
  simpa using hfirst

/-- Behind autorefs without events the call for the next one is made, if its sweep stays inside
the human events. -/
theorem merged_of_quiet (hquiet : ∀ events ∈ before, events = []) :
    (((before ++ autoref :: after).zipIdx 1).foldl (evaluateAutoref logFile ports human)
      { files := files }).merged[before.length]? = callOf human autoref := by
  have hstart : ({ files := files } : EvalRun).stop = none := rfl
  obtain ⟨files', hbefore⟩ := foldl_of_all_nil logFile ports human hstart hquiet 1
  rw [List.zipIdx_append, List.foldl_append, hbefore, List.zipIdx_cons, List.foldl_cons]
  generalize hrun : ({ files := files', merged := _, reports := _, stop := _ } : EvalRun) = run
  have hmerged : run.merged = List.replicate before.length ([], []) := by
    rw [← hrun]
    rfl
  rcases evaluateAutoref_cases logFile ports human run autoref (1 + before.length) with
    ⟨hstopped, -⟩ | ⟨-, hcall, hnext⟩ | ⟨-, call, hcall, hnext⟩
  · rw [← hrun] at hstopped
    cases hstopped
  · rw [hnext, foldl_of_stop _ _ _ rfl, hcall]
    show run.merged[before.length]? = none
    rw [hmerged]
    exact List.getElem?_eq_none (by simp)
  · obtain ⟨later, hlater⟩ := merged_prefix_foldl logFile ports human
      (evaluateAutoref logFile ports human run (autoref, 1 + before.length))
      (after.zipIdx (1 + before.length + 1))
    rw [← hlater, hnext, merged_mergeEvaluations, hcall]
    show ((run.merged ++ [call]) ++ later)[before.length]? = some call
    rw [hmerged]
    simp

end

/-! ## The autorefs in front -/

/-- The autorefs that were heard of before the one on a port. -/
def heardBefore (traffic : List (UInt16 × SSLReferee)) (port : UInt16) : List UInt16 :=
  (portsOf traffic).tail.takeWhile (· ≠ port)

/-- The autoref on a port was heard of, and none that was heard of before it has an event. -/
structure GetsTo (traffic : List (UInt16 × SSLReferee)) (port : UInt16) : Prop where
  heard : port ∈ (portsOf traffic).tail
  quiet : ∀ p ∈ heardBefore traffic port, eventsOf traffic p = []

theorem exists_heardAfter {traffic : List (UInt16 × SSLReferee)} {port : UInt16}
    (h : port ∈ (portsOf traffic).tail) :
    ∃ after, (portsOf traffic).tail = heardBefore traffic port ++ port :: after := by
  have hsplit : heardBefore traffic port ++ (portsOf traffic).tail.dropWhile (· ≠ port) =
      (portsOf traffic).tail := List.takeWhile_append_dropWhile
  cases hrest : (portsOf traffic).tail.dropWhile (· ≠ port) with
  | nil =>
    rw [hrest, List.append_nil] at hsplit
    rw [← hsplit] at h
    have hne := List.mem_takeWhile_imp h
    simp at hne
  | cons p after =>
    have hhead := List.head?_dropWhile_not (fun p => decide (p ≠ port)) (portsOf traffic).tail
    rw [hrest] at hhead
    obtain rfl : p = port := by simpa using hhead
    rw [hrest] at hsplit
    exact ⟨after, hsplit.symm⟩

/-- An autoref is heard of in its first message. -/
theorem mem_tail_portsOf {traffic : List (UInt16 × SSLReferee)} {p : UInt16} :
    p ∈ (portsOf traffic).tail ↔ p ≠ kRefboxPort ∧ messagesOf traffic p ≠ [] := by
  obtain ⟨ports, hports⟩ := exists_portsOf_eq_cons traffic
  have hnodup := @nodup_portsOf traffic
  have hmem := @mem_portsOf traffic p
  rw [hports] at hnodup hmem
  have hrefbox := (List.nodup_cons.mp hnodup).1
  rw [hports, List.tail_cons]
  rw [List.mem_cons] at hmem
  refine ⟨fun hp => ?_, ?_⟩
  · have hne : p ≠ kRefboxPort := by
      rintro rfl
      exact hrefbox hp
    obtain ⟨m, hm⟩ := (hmem.mp (.inr hp)).resolve_left hne
    exact ⟨hne, List.ne_nil_of_mem (mem_messagesOf.mpr hm)⟩
  · rintro ⟨hne, hsome⟩
    obtain ⟨m, hm⟩ := List.exists_mem_of_ne_nil _ hsome
    exact (hmem.mpr (.inr ⟨m, mem_messagesOf.mp hm⟩)).resolve_left hne

/-- The evaluator gets to the only autoref with events. -/
theorem GetsTo.of_only {traffic : List (UInt16 × SSLReferee)} {port : UInt16}
    (hheard : port ∈ (portsOf traffic).tail)
    (honly : ∀ p, p ≠ port → p ≠ kRefboxPort → eventsOf traffic p = []) :
    GetsTo traffic port := by
  refine ⟨hheard, fun p hp => honly p ?_ ?_⟩
  · have hne := List.mem_takeWhile_imp hp
    simpa using hne
  · exact (mem_tail_portsOf.mp ((List.takeWhile_prefix _).subset hp)).1

/-! ## What is handed over -/

section

variable {pb : Protobuf} {logFile logFile' : String} {log log' : List UInt8}
  {files files' : Files} {port : UInt16} {call call' : List PushBack × List EventEvaluation}

/-- The calls of a run whose human referee has an event. -/
theorem merged_of_human (hhuman : eventsOf (logTraffic pb log) kRefboxPort ≠ []) :
    (evaluateAutorefs pb logFile log files).merged =
      ((((portsOf (logTraffic pb log)).tail.map (eventsOf (logTraffic pb log))).zipIdx 1).foldl
        (evaluateAutoref logFile (loadRefereeCommands pb log {}).refereePorts
          (eventsOf (logTraffic pb log) kRefboxPort)) { files := files }).merged := by
  have hevents := (holds_loadRefereeCommands pb log).events_indexRefereeEvents
  obtain ⟨ports, hports⟩ := exists_portsOf_eq_cons (logTraffic pb log)
  unfold evaluateAutorefs evaluateTables
  rw [hevents, hports, List.map_cons, List.tail_cons]
  exact congrArg EvalRun.merged (if_neg hhuman)

/-- Without human events there are none. -/
theorem merged_of_no_human (hhuman : eventsOf (logTraffic pb log) kRefboxPort = []) :
    (evaluateAutorefs pb logFile log files).merged = [] := by
  have hevents := (holds_loadRefereeCommands pb log).events_indexRefereeEvents
  obtain ⟨ports, hports⟩ := exists_portsOf_eq_cons (logTraffic pb log)
  unfold evaluateAutorefs evaluateTables
  rw [hevents, hports, List.map_cons]
  exact congrArg EvalRun.merged (if_pos hhuman)

/-- **What is handed over** for an autoref, and when. -/
theorem handsOver_iff :
    HandsOver pb logFile log files port call ↔
      eventsOf (logTraffic pb log) kRefboxPort ≠ [] ∧ GetsTo (logTraffic pb log) port ∧
        callFor (logTraffic pb log) port = some call := by
  have hports := refereePorts_load pb log
  obtain ⟨ports, hcons⟩ := exists_portsOf_eq_cons (logTraffic pb log)
  have htail : ports = (portsOf (logTraffic pb log)).tail := by rw [hcons, List.tail_cons]
  have hnodup : (portsOf (logTraffic pb log)).tail.Nodup := by
    have hall := @nodup_portsOf (logTraffic pb log)
    rw [hcons] at hall
    exact htail ▸ (List.nodup_cons.mp hall).2
  have hplace : ∀ k, (loadRefereeCommands pb log {}).refereePorts[k + 1]? =
      (portsOf (logTraffic pb log)).tail[k]? := by
    intro k
    rw [hports, List.getElem?_tail]
  refine ⟨?_, ?_⟩
  · intro h
    have hcall := h.eq_callFor
    obtain ⟨k, hport, hmerged⟩ := h
    have hhuman : eventsOf (logTraffic pb log) kRefboxPort ≠ [] := by
      intro hnil
      rw [merged_of_no_human hnil] at hmerged
      cases hmerged
    rw [hplace] at hport
    have hheard := List.mem_of_getElem? hport
    refine ⟨hhuman, ⟨hheard, ?_⟩, hcall⟩
    obtain ⟨after, hafter⟩ := exists_heardAfter hheard
    obtain rfl : k = (heardBefore (logTraffic pb log) port).length := by
      refine (List.getElem?_inj (List.getElem?_eq_some_iff.mp hport).1 hnodup).mp ?_
      rw [hport, hafter]
      simp
    -- an event in front would have ended the run
    intro p hp
    by_contra hne
    obtain ⟨first, second, hsplit⟩ := List.append_of_mem hp
    have hle := @length_merged_le logFile (loadRefereeCommands pb log {}).refereePorts
      (eventsOf (logTraffic pb log) kRefboxPort) files (first.map (eventsOf (logTraffic pb log)))
      ((second ++ port :: after).map (eventsOf (logTraffic pb log))) _ hne
    have hlt := (List.getElem?_eq_some_iff.mp hmerged).1
    rw [merged_of_human hhuman, hafter, hsplit] at hlt
    simp only [List.map_append, List.map_cons, List.append_assoc, List.cons_append,
      List.length_append, List.length_cons, List.length_map] at hle hlt
    omega
  · rintro ⟨hhuman, hgets, hcall⟩
    obtain ⟨after, hafter⟩ := exists_heardAfter hgets.heard
    refine ⟨(heardBefore (logTraffic pb log) port).length, ?_, ?_⟩
    · rw [hplace, hafter]
      simp
    · have hquiet : ∀ events ∈ (heardBefore (logTraffic pb log) port).map
          (eventsOf (logTraffic pb log)), events = [] := by
        intro events hmem
        obtain ⟨p, hp, rfl⟩ := List.mem_map.mp hmem
        exact hgets.quiet p hp
      have hmerged := @merged_of_quiet logFile (loadRefereeCommands pb log {}).refereePorts
        (eventsOf (logTraffic pb log) kRefboxPort) files _
        (after.map (eventsOf (logTraffic pb log))) (eventsOf (logTraffic pb log) port) hquiet
      rw [merged_of_human hhuman, hafter, List.map_append, List.map_cons]
      rw [List.length_map] at hmerged
      exact hmerged.trans hcall

/-- The events of the autoref and of the human referee decide what is handed over, and the
autorefs in front whether it is. -/
theorem HandsOver.iff_of_same (h : HandsOver pb logFile log files port call)
    (hhuman : eventsOf (logTraffic pb log') kRefboxPort =
      eventsOf (logTraffic pb log) kRefboxPort)
    (hport : eventsOf (logTraffic pb log') port = eventsOf (logTraffic pb log) port) :
    HandsOver pb logFile' log' files' port call' ↔
      call' = call ∧ GetsTo (logTraffic pb log') port := by
  obtain ⟨hissued, -, hcall⟩ := handsOver_iff.mp h
  have hcall' : callFor (logTraffic pb log') port = some call := by
    unfold callFor at hcall ⊢
    rw [hhuman, hport, hcall]
  rw [handsOver_iff, hhuman, hcall']
  refine ⟨?_, ?_⟩
  · rintro ⟨-, hgets, hsame⟩
    exact ⟨(Option.some.inj hsame).symm, hgets⟩
  · rintro ⟨rfl, hgets⟩
    exact ⟨hissued, hgets, rfl⟩

end

end SslAutoref
