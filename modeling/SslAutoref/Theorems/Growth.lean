import SslAutoref.Logic.HandOver
import SslAutoref.Logic.SweepCursor
import SslAutoref.Logic.SweepGrowth
import SslAutoref.Theorems.Load

/-!
# A log that grows

A log is evaluated while it is recorded, or after it was cut off, and then again when more
of it is there. Nothing that was loaded of the first part changes (`tables_grow`). Of the
verdicts on it at most the last one does, a false positive of an autoref event behind all human
events, as long as the evaluation gets through the autoref again, which it does not when another
one that was heard of before has issued an event, or when the sweep has run out of human events
(`verdicts_final`).
-/

namespace SslAutoref.Theorems

open AppendFilter

section

variable (pb : Protobuf) (log more : List UInt8)

/-- What was read stays, whatever comes behind it. -/
theorem exists_logTraffic_append :
    ∃ new, logTraffic pb (log ++ more) = logTraffic pb log ++ new := by
  obtain ⟨packets, hpackets⟩ := Framing.readFrames_prefix_append kSizeWidth_pos log more
  refine ⟨trafficOf pb packets, ?_⟩
  unfold logTraffic
  rw [← hpackets]
  exact List.filterMap_append

end

section

variable (traffic new : List (UInt16 × SSLReferee))

theorem portsOf_grows : portsOf traffic <+: portsOf (traffic ++ new) := by
  unfold portsOf
  rw [List.map_append, run_append]
  exact prefix_run _

theorem recordedOf_grows (port : UInt16) :
    recordedOf traffic port <+: recordedOf (traffic ++ new) port := by
  unfold recordedOf
  rw [messagesOf_append, ← run_exceedsLast, ← run_exceedsLast, run_append]
  exact prefix_run _

theorem eventsOf_grows (port : UInt16) :
    eventsOf traffic port <+: eventsOf (traffic ++ new) port := by
  obtain ⟨commands, hcommands⟩ := recordedOf_grows traffic new port
  unfold eventsOf
  rw [← hcommands]
  exact indexReferee_prefix _ _

end

/-- Every referee keeps its place, and gets commands and events behind those it has. -/
structure Grows (t t' : Tables) : Prop where
  ports : t.refereePorts <+: t'.refereePorts
  map : ∀ p i, t.refereeMap p = some i → t'.refereeMap p = some i
  commands : ∀ (i : Nat) commands, t.refereeCommands[i]? = some commands →
    ∃ new, t'.refereeCommands[i]? = some (commands ++ new)
  events : ∀ (i : Nat) events, t.refereeEvents[i]? = some events →
    ∃ new, t'.refereeEvents[i]? = some (events ++ new)

/-- **Growing tables.** Whatever the log and whatever comes behind it, the tables of the
longer log begin with those of the shorter. -/
theorem tables_grow (pb : Protobuf) (log more : List UInt8) :
    Grows (indexRefereeEvents (loadRefereeCommands pb log {}))
      (indexRefereeEvents (loadRefereeCommands pb (log ++ more) {})) := by
  have h := holds_loadRefereeCommands pb log
  have h' := holds_loadRefereeCommands pb (log ++ more)
  obtain ⟨new, hnew⟩ := exists_logTraffic_append pb log more
  rw [hnew] at h'
  have hports := portsOf_grows (logTraffic pb log) new
  have hget : ∀ {i : Nat} {p : UInt16}, (portsOf (logTraffic pb log))[i]? = some p →
      (portsOf (logTraffic pb log ++ new))[i]? = some p := by
    intro i p hp
    obtain ⟨others, hothers⟩ := hports
    rw [← hothers, List.getElem?_append_left (List.getElem?_eq_some_iff.mp hp).1]
    exact hp
  -- what is kept for every port is kept in its place
  have hgrow : ∀ {β : Type} {f f' : UInt16 → List β}, (∀ p, f p <+: f' p) →
      ∀ (i : Nat) xs, ((portsOf (logTraffic pb log)).map f)[i]? = some xs →
        ∃ others, ((portsOf (logTraffic pb log ++ new)).map f')[i]? = some (xs ++ others) := by
    intro β f f' hf i xs hxs
    rw [List.getElem?_map] at hxs
    obtain ⟨p, hp, rfl⟩ := Option.map_eq_some_iff.mp hxs
    obtain ⟨others, hothers⟩ := hf p
    refine ⟨others, ?_⟩
    rw [List.getElem?_map, hget hp, hothers]
    rfl
  refine ⟨?_, ?_, ?_, ?_⟩
  · show (loadRefereeCommands pb log {}).refereePorts <+:
      (loadRefereeCommands pb (log ++ more) {}).refereePorts
    rw [h.portsEq, h'.portsEq]
    exact hports
  · intro p i hp
    exact (h'.mapEq p i).mpr (hget ((h.mapEq p i).mp hp))
  · show ∀ (i : Nat) commands, (loadRefereeCommands pb log {}).refereeCommands[i]? = _ →
      ∃ new, (loadRefereeCommands pb (log ++ more) {}).refereeCommands[i]? = _
    rw [h.commandsEq, h'.commandsEq]
    exact hgrow (recordedOf_grows (logTraffic pb log) new)
  · rw [h.events_indexRefereeEvents, h'.events_indexRefereeEvents]
    exact hgrow (eventsOf_grows (logTraffic pb log) new)

/-! ## Verdicts -/

/-- What was handed over is handed over again, but for at most one false positive at its
end. -/
def FinalUpToLast (call call' : List PushBack × List EventEvaluation) : Prop :=
  ∃ n, call.1.length ≤ n + 1 ∧ (∀ p ∈ call.1.drop n, p.value = .falsePositive) ∧
    call.1.take n <+: call'.1 ∧ call.2.take n <+: call'.2

/-- The calls for events that go on. -/
theorem finalUpToLast_callOf {human autoref more later : List RefereeEvent}
    {call call' : List PushBack × List EventEvaluation}
    (hcall : callOf human autoref = some call)
    (hcall' : callOf (human ++ more) (autoref ++ later) = some call') :
    FinalUpToLast call call' := by
  obtain ⟨ev, hrun, rfl⟩ := Option.map_eq_some_iff.mp hcall
  obtain ⟨ev', hrun', rfl⟩ := Option.map_eq_some_iff.mp hcall'
  obtain ⟨final, last, rfl, hlast, others, rfl⟩ := sweep_growth hrun hrun'
  refine ⟨final.length, ?_, ?_, ?_, ?_⟩
  · rw [List.length_append]
    rcases hlast with rfl | rfl <;> simp
  · intro p hp
    rw [List.drop_left] at hp
    rcases hlast with rfl | rfl
    · cases hp
    · rw [List.mem_singleton.mp hp]
      rfl
  · rw [List.take_left]
    exact List.prefix_append _ _
  · have hsame : final.map (·.evaluation (human ++ more) (autoref ++ later)) =
        final.map (·.evaluation human autoref) :=
      List.map_congr_left fun p hp =>
        evaluation_append later hrun (List.mem_append_left _ hp)
    dsimp only
    rw [List.map_append, List.map_append, hsame, List.take_left' (List.length_map _)]
    exact List.prefix_append _ _

/-- Ports that were heard of stay in their order. -/
theorem heardBefore_grows {traffic : List (UInt16 × SSLReferee)} {port : UInt16}
    (hheard : port ∈ (portsOf traffic).tail) (new : List (UInt16 × SSLReferee)) :
    port ∈ (portsOf (traffic ++ new)).tail ∧
      heardBefore (traffic ++ new) port = heardBefore traffic port := by
  obtain ⟨ports, hports⟩ := exists_portsOf_eq_cons traffic
  obtain ⟨others, hothers⟩ := portsOf_grows traffic new
  have htail : (portsOf (traffic ++ new)).tail = (portsOf traffic).tail ++ others := by
    rw [← hothers, hports]
    rfl
  obtain ⟨after, hafter⟩ := exists_heardAfter hheard
  have hbefore : ∀ p ∈ heardBefore traffic port, decide (p ≠ port) = true := by
    intro p hp
    unfold heardBefore at hp
    have hne := List.mem_takeWhile_imp hp
    exact hne
  refine ⟨?_, ?_⟩
  · rw [htail]
    exact List.mem_append_left _ hheard
  · have hsplit : (portsOf (traffic ++ new)).tail =
        heardBefore traffic port ++ port :: (after ++ others) := by
      rw [htail, hafter, List.append_assoc]
      rfl
    conv_lhs => unfold heardBefore
    rw [hsplit, List.takeWhile_append_of_pos hbefore, List.takeWhile_cons_of_neg (by simp),
      List.append_nil]

/-- The evaluation of a log gets through an autoref again when more is behind it: those in front
still have no event, and the last human event is still ahead of the sweep at the last event of
the autoref. -/
structure GetsThrough (pb : Protobuf) (log more : List UInt8) (port : UInt16) : Prop where
  quiet : ∀ p ∈ heardBefore (logTraffic pb log) port,
    eventsOf (logTraffic pb (log ++ more)) p = []
  room : Ahead (eventsOf (logTraffic pb (log ++ more)) kRefboxPort)
    (eventsOf (logTraffic pb (log ++ more)) port)
    ((eventsOf (logTraffic pb (log ++ more)) port).length - 1)
    ((eventsOf (logTraffic pb (log ++ more)) kRefboxPort).length - 1)

/-- **Final verdicts.** Of what is handed over for a port when a log is evaluated, nothing but a
false positive at the end changes when more is behind the log, and the port is handed over again
exactly when the evaluation gets through it. -/
theorem verdicts_final {pb : Protobuf} {log : List UInt8} {port : UInt16} {logFile : String}
    {files : Files} {call : List PushBack × List EventEvaluation}
    (h : HandsOver pb logFile log files port call) (more : List UInt8) (logFile' : String)
    (files' : Files) :
    (∀ call', HandsOver pb logFile' (log ++ more) files' port call' → FinalUpToLast call call') ∧
      ((∃ call', HandsOver pb logFile' (log ++ more) files' port call') ↔
        GetsThrough pb log more port) := by
  obtain ⟨new, hnew⟩ := exists_logTraffic_append pb log more
  obtain ⟨hhuman, hgets, hcall⟩ := handsOver_iff.mp h
  obtain ⟨hheard, hbefore⟩ := heardBefore_grows hgets.heard new
  obtain ⟨moreHuman, hmoreHuman⟩ := eventsOf_grows (logTraffic pb log) new kRefboxPort
  obtain ⟨moreAutoref, hmoreAutoref⟩ := eventsOf_grows (logTraffic pb log) new port
  have hhuman' : eventsOf (logTraffic pb (log ++ more)) kRefboxPort ≠ [] := by
    rw [hnew, ← hmoreHuman]
    exact List.append_ne_nil_of_left_ne_nil hhuman _
  refine ⟨?_, ?_⟩
  · intro call' h'
    have hcall' := h'.eq_callFor
    unfold callFor at hcall hcall'
    rw [hnew, ← hmoreHuman, ← hmoreAutoref] at hcall'
    exact finalUpToLast_callOf hcall hcall'
  · have hroom : (∃ call', callFor (logTraffic pb (log ++ more)) port = some call') ↔
        sweep (eventsOf (logTraffic pb (log ++ more)) kRefboxPort)
          (eventsOf (logTraffic pb (log ++ more)) port) ≠ none := by
      unfold callFor callOf
      rw [← Option.isSome_iff_exists, Option.isSome_map, Option.isSome_iff_ne_none]
    rw [sweep_ne_none_iff hhuman'] at hroom
    refine ⟨?_, ?_⟩
    · rintro ⟨call', h'⟩
      obtain ⟨-, hgets', hcall'⟩ := handsOver_iff.mp h'
      have hquiet := hgets'.quiet
      rw [hnew, hbefore] at hquiet
      rw [← hnew] at hquiet
      exact ⟨hquiet, hroom.mp ⟨call', hcall'⟩⟩
    · intro hthrough
      obtain ⟨call', hcall'⟩ := hroom.mpr hthrough.room
      refine ⟨call', handsOver_iff.mpr ⟨hhuman', ⟨?_, ?_⟩, hcall'⟩⟩
      · rw [hnew]
        exact hheard
      · have hquiet := hthrough.quiet
        rw [← hbefore, ← hnew] at hquiet
        exact hquiet

/-- The human referee has a yellow goal when the autoref has a blue one. -/
def firstHalf : List (Nat × SSLReferee) :=
  [issue .stop 1 10000000, issue .goalYellow 2 11000000,
    (10004, ⟨.stop, 1, 10000000⟩), (10004, ⟨.goalBlue, 2, 11000000⟩)]

/-- The blue goal of the human referee comes later. -/
def secondHalf : List (Nat × SSLReferee) :=
  [issue .stop 3 11500000, issue .goalBlue 4 12000000]

theorem halves_traffic :
    logTraffic (sampleProtobuf [] (firstHalf ++ secondHalf)) (sampleLog firstHalf) =
        [(kRefboxPort, ⟨.stop, 1, 10000000⟩), (kRefboxPort, ⟨.goalYellow, 2, 11000000⟩),
          (10004, ⟨.stop, 1, 10000000⟩), (10004, ⟨.goalBlue, 2, 11000000⟩)] ∧
      logTraffic (sampleProtobuf [] (firstHalf ++ secondHalf)) (sampleLog secondHalf) =
        [(kRefboxPort, ⟨.stop, 3, 11500000⟩), (kRefboxPort, ⟨.goalBlue, 4, 12000000⟩)] := by
  rw [logTraffic_sampleLog (by decide), logTraffic_sampleLog (by decide)]
  decide

/-- The false positive at the end of the first half becomes a true positive. -/
theorem verdicts_final_halves :
    ∃ call call',
      HandsOver (sampleProtobuf [] (firstHalf ++ secondHalf)) "match" (sampleLog firstHalf)
          (fun _ => none) 10004 call ∧
        HandsOver (sampleProtobuf [] (firstHalf ++ secondHalf)) "match"
          (sampleLog firstHalf ++ sampleLog secondHalf) (fun _ => none) 10004 call' ∧
        FinalUpToLast call call' ∧
        GetsThrough (sampleProtobuf [] (firstHalf ++ secondHalf)) (sampleLog firstHalf)
          (sampleLog secondHalf) 10004 := by
  obtain ⟨hfirst, hsecond⟩ := halves_traffic
  have hwhole := @logTraffic_append (firstHalf.map wrapperBytes) (by decide)
    (sampleProtobuf [] (firstHalf ++ secondHalf)) (sampleLog secondHalf)
  rw [← logTraffic_sampleLog (by decide), hfirst, hsecond] at hwhole
  have h : HandsOver (sampleProtobuf [] (firstHalf ++ secondHalf)) "match"
      (sampleLog firstHalf) (fun _ => none) 10004 ([.unfounded 0],
        [⟨.unknown, ⟨10000000, 11000000, 2, .goalBlue⟩, {}, false⟩]) := by
    unfold HandsOver evaluateAutorefs
    rw [loadRefereeCommands_eq, hfirst]
    exact ⟨0, rfl, rfl⟩
  have h' : HandsOver (sampleProtobuf [] (firstHalf ++ secondHalf)) "match"
      (sampleLog firstHalf ++ sampleLog secondHalf) (fun _ => none) 10004 ([.paired 0 1],
        [⟨.unknown, ⟨10000000, 11000000, 2, .goalBlue⟩,
          ⟨11500000, 12000000, 4, .goalBlue⟩, false⟩]) := by
    unfold HandsOver evaluateAutorefs
    rw [loadRefereeCommands_eq, sampleLog, hwhole]
    exact ⟨0, rfl, rfl⟩
  obtain ⟨hfinal, hthrough⟩ := verdicts_final h (sampleLog secondHalf) "match" fun _ => none
  exact ⟨_, _, h, h', hfinal _ h', hthrough.mp ⟨_, h'⟩⟩

end SslAutoref.Theorems
