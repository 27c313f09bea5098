import SslAutoref.Logic.PlaybackRun
import SslAutoref.Theorems.Recording

/-!
# Playing a log back to the logger

`playback` sends the records of a log to the addresses they were logged from, and a logger
that listens there writes another log. If it listens to the same streams, each on a port of
its own, and receives all of it in order, then that log has the same data in every stream, and
the evaluator makes the same of every referee it gets to (`replays`). The records of different
streams may be in another order, so it may get to others, and their timestamps are new.
-/

namespace SslAutoref.Theorems

open AppendFilter (leftMaxima)
open Steps

/-- The datagrams that `PlayLogFile` sends, in order. -/
def playedFrom (pb : Protobuf) (log : List UInt8) (pace : Nat → Pace) (clock : Nat) :
    List Datagram :=
  (playLogFile pb log pace clock).filterMap fun p => publishMessage p.message

theorem playedFrom_eq (pb : Protobuf) (log : List UInt8) (pace : Nat → Pace) (clock : Nat) :
    playedFrom pb log pace clock = (logMessages pb log).filterMap publishMessage := by
  have hmessages := map_message_playMessages pace 0 { clock := clock } (logMessages pb log)
  unfold playedFrom playLogFile
  conv_rhs => rw [← hmessages, List.filterMap_map]
  rfl

/-! ## What is sent -/

section Replay

variable {host : String → UInt32} {loggers : List ProtobufLogger}
  {serialize : UDPMessageWrapper → List UInt8} {pb : Protobuf}
  {actions actions' : List (Action (Fin loggers.length) × Nat)}
  {s s' : StreamState (Fin loggers.length)}

/-- Every stream has a port of its own. -/
def SeparatePorts (loggers : List ProtobufLogger) : Prop :=
  Function.Injective fun t => udpPort (loggers.get t).portNumber

/-- A datagram that is published is what the record says. -/
theorem fields_of_publishMessage {message : UDPMessageWrapper} {d : Datagram}
    (h : publishMessage message = some d) :
    d.address = message.address ∧ d.port = message.port ∧ d.data = message.data := by
  unfold publishMessage at h
  split at h
  · obtain rfl := Option.some.inj h
    exact ⟨rfl, rfl, rfl⟩
  · cases h

/-- A record that can be sent is sent to the stream it was logged from, and no other. -/
theorem copyOf_published (hports : SeparatePorts loggers) {r : Record (Fin loggers.length)}
    {d : Datagram} (hlabel : r.message.address = (loggers.get r.thread).ipAddress ∧
      r.message.port = (loggers.get r.thread).portNumber)
    (hpublish : publishMessage r.message = some d) (t : Fin loggers.length) :
    copyOf (loggers.get t) d = if r.thread = t then [r.content] else [] := by
  obtain ⟨haddress, hport⟩ := hlabel
  obtain ⟨-, hdport, hdata⟩ := fields_of_publishMessage hpublish
  unfold copyOf Record.content
  rw [hdport, hdata, haddress, hport]
  by_cases hthread : r.thread = t
  · rw [if_pos (by rw [hthread]), if_pos hthread, hthread]
  · rw [if_neg fun h => hthread (hports h).symm, if_neg hthread]

/-- What reaches a logger of the records of a log is the records of its own stream. -/
theorem copies_of_played (hports : SeparatePorts loggers) (t : Fin loggers.length)
    (records : List (Record (Fin loggers.length)))
    (hlabel : ∀ r ∈ records, r.message.address = (loggers.get r.thread).ipAddress ∧
      r.message.port = (loggers.get r.thread).portNumber)
    (hsent : ∀ r ∈ records, ∃ d, publishMessage r.message = some d) :
    ((records.map (·.message)).filterMap publishMessage).flatMap (copyOf (loggers.get t)) =
      (ofThread t records).map Record.content := by
  induction records with
  | nil => rfl
  | cons r records ih =>
    obtain ⟨d, hd⟩ := hsent r List.mem_cons_self
    have hcopy := copyOf_published hports (hlabel r List.mem_cons_self) hd t
    have hrest := ih (fun r' hr' => hlabel r' (List.mem_cons_of_mem _ hr'))
      (fun r' hr' => hsent r' (List.mem_cons_of_mem _ hr'))
    rw [List.map_cons, List.filterMap_cons, hd]
    dsimp only
    rw [List.flatMap_cons, hcopy, hrest]
    unfold ofThread
    rw [List.filter_cons]
    by_cases hthread : r.thread = t
    · rw [if_pos hthread, if_pos (decide_eq_true hthread)]
      rfl
    · rw [if_neg hthread, if_neg (by simpa using hthread)]
      rfl

/-! ## What is logged of it -/

/-- A run in which every logger receives what reaches it, in the order it was sent, and has
written all of it when the file is closed, or at the end, and all that was written is in the
file. -/
structure LogsInOrder (host : String → UInt32) (loggers : List ProtobufLogger)
    (serialize : UDPMessageWrapper → List UInt8) (datagrams : List Datagram)
    (actions : List (Action (Fin loggers.length) × Nat))
    (s : StreamState (Fin loggers.length)) : Prop where
  run : run (StreamState.step serialize loggers.get) {} actions = some s
  written : s.stream.file = bytesOf s.process.logFile
  received : ∀ t, receivedBy t (beforeClose (processSteps actions)) =
    deliveredTo host loggers (loggers.get t) datagrams
  finished : ∀ t, finishedBy t (beforeClose (processSteps actions)) =
    (receivedBy t (beforeClose (processSteps actions))).length

/-- The two logs have the same data in every stream, and what is made of them is the same. -/
structure Replayed (pb : Protobuf) (log log' : List UInt8) : Prop where
  streams : ∀ address port,
    ((logMessages pb log').filter fun m => m.address = address ∧ m.port = port).map (·.data) =
      ((logMessages pb log).filter fun m => m.address = address ∧ m.port = port).map (·.data)
  commands : ∀ p, recordedCommands (loadRefereeCommands pb log' {}) p =
    recordedCommands (loadRefereeCommands pb log {}) p
  /-- What is handed over of the one is handed over of the other, and nothing else, if the
  evaluator gets to the autoref. -/
  verdicts : ∀ p logFile logFile' files files' call call',
    HandsOver pb logFile log files p call →
      (HandsOver pb logFile' log' files' p call' ↔
        call' = call ∧ GetsTo (logTraffic pb log') p)
  /-- It does if no other one has an event. -/
  only : ∀ p logFile logFile' files files' call,
    (∀ q, q ≠ p → q ≠ kRefboxPort → eventsOf (logTraffic pb log) q = []) →
      HandsOver pb logFile log files p call → HandsOver pb logFile' log' files' p call

/-- The data under the labels that meet a test, if one thread's does, are those of its
records. -/
theorem data_of_test {records : List (Record (Fin loggers.length))}
    (hlabel : ∀ r ∈ records, r.message.address = (loggers.get r.thread).ipAddress ∧
      r.message.port = (loggers.get r.thread).portNumber)
    {test : String → Int32 → Bool} {t : Fin loggers.length}
    (htest : ∀ u, test (loggers.get u).ipAddress (loggers.get u).portNumber = true ↔ u = t) :
    ((records.map (·.message)).filter fun m => test m.address m.port).map (·.data) =
      ((ofThread t records).map Record.content).map (·.2.2) := by
  have hown : records.filter (fun r => test r.message.address r.message.port) =
      ofThread t records := by
    refine List.filter_congr fun r hr => ?_
    obtain ⟨haddress, hport⟩ := hlabel r hr
    rw [haddress, hport, Bool.eq_iff_iff, decide_eq_true_eq]
    exact htest r.thread
  rw [List.filter_map, List.map_map, List.map_map]
  exact congrArg _ hown

/-- There are none if no thread's label meets it. -/
theorem data_of_no_test {records : List (Record (Fin loggers.length))}
    (hlabel : ∀ r ∈ records, r.message.address = (loggers.get r.thread).ipAddress ∧
      r.message.port = (loggers.get r.thread).portNumber)
    {test : String → Int32 → Bool}
    (htest : ∀ u, test (loggers.get u).ipAddress (loggers.get u).portNumber = false) :
    ((records.map (·.message)).filter fun m => test m.address m.port) = [] := by
  refine List.filter_eq_nil_iff.mpr fun m hm => ?_
  obtain ⟨r, hr, rfl⟩ := List.mem_map.mp hm
  obtain ⟨haddress, hport⟩ := hlabel r hr
  rw [haddress, hport, htest]
  exact Bool.false_ne_true

/-- The data under the labels that meet a test, when no two threads' do. -/
theorem same_data {records records' : List (Record (Fin loggers.length))}
    (hlabel : ∀ r ∈ records, r.message.address = (loggers.get r.thread).ipAddress ∧
      r.message.port = (loggers.get r.thread).portNumber)
    (hlabel' : ∀ r ∈ records', r.message.address = (loggers.get r.thread).ipAddress ∧
      r.message.port = (loggers.get r.thread).portNumber)
    (hcontent : ∀ t, (ofThread t records').map Record.content =
      (ofThread t records).map Record.content)
    {test : String → Int32 → Bool}
    (honly : ∀ t u, test (loggers.get t).ipAddress (loggers.get t).portNumber = true →
      test (loggers.get u).ipAddress (loggers.get u).portNumber = true → u = t) :
    ((records'.map (·.message)).filter fun m => test m.address m.port).map (·.data) =
      ((records.map (·.message)).filter fun m => test m.address m.port).map (·.data) := by
  by_cases hsome : ∃ t, test (loggers.get t).ipAddress (loggers.get t).portNumber = true
  · obtain ⟨t, ht⟩ := hsome
    have htest : ∀ u, test (loggers.get u).ipAddress (loggers.get u).portNumber = true ↔
        u = t := by
      intro u
      refine ⟨honly t u ht, ?_⟩
      rintro rfl
      exact ht
    rw [data_of_test hlabel htest, data_of_test hlabel' htest, hcontent t]
  · have htest : ∀ u, test (loggers.get u).ipAddress (loggers.get u).portNumber = false :=
      fun u => Bool.eq_false_iff.mpr fun hu => hsome ⟨u, hu⟩
    rw [data_of_no_test hlabel htest, data_of_no_test hlabel' htest]

/-- Every record of a run can be sent again, when what was received came in datagrams. -/
theorem exists_published (hbound : ∀ l ∈ loggers, udpPort l.portNumber ≠ 0)
    {steps : List (Action (Fin loggers.length))} {process : LoggerState (Fin loggers.length)}
    (hrun : run (LoggerState.step serialize loggers.get) .start steps = some process)
    (hfits : ∀ t, ∀ data ∈ receivedBy t steps, data.length < 2 ^ 16) :
    ∀ r ∈ recordsOf serialize loggers.get .start steps,
      ∃ d, publishMessage r.message = some d := by
  intro r hr
  have hreceived := data_mem_receivedBy hrun hr
  have hne := ne_nil_of_mem_receivedBy hreceived
  have hlen := hfits _ _ hreceived
  have hport : udpPort r.message.port ≠ 0 := by
    rw [(label_of_mem_recordsOf hrun r hr).2]
    exact hbound _ (List.get_mem loggers r.thread)
  exact ⟨_, dif_pos ⟨hne, hlen, hport⟩⟩

/-- What is sent is sent to the streams. -/
theorem mem_loggers_of_played {records : List (Record (Fin loggers.length))}
    (hlabel : ∀ r ∈ records, r.message.address = (loggers.get r.thread).ipAddress ∧
      r.message.port = (loggers.get r.thread).portNumber) :
    ∀ d ∈ (records.map (·.message)).filterMap publishMessage, ⟨d.address, d.port⟩ ∈ loggers := by
  intro d hd
  obtain ⟨m, hm, hpublish⟩ := List.mem_filterMap.mp hd
  obtain ⟨r, hr, rfl⟩ := List.mem_map.mp hm
  obtain ⟨haddress, hport, -⟩ := fields_of_publishMessage hpublish
  rw [haddress, hport, (hlabel r hr).1, (hlabel r hr).2]
  exact List.get_mem loggers r.thread

/-- Two logs with the same data in every stream load and are evaluated alike. -/
theorem replayed_of_same_data (hports : SeparatePorts loggers) {log log' : List UInt8}
    (hsame : ∀ test : String → Int32 → Bool,
      (∀ t u, test (loggers.get t).ipAddress (loggers.get t).portNumber = true →
        test (loggers.get u).ipAddress (loggers.get u).portNumber = true → u = t) →
      ((logMessages pb log').filter fun m => test m.address m.port).map (·.data) =
        ((logMessages pb log).filter fun m => test m.address m.port).map (·.data)) :
    Replayed pb log log' := by
  have hmessages : ∀ p, messagesOf (logTraffic pb log') p = messagesOf (logTraffic pb log) p := by
    intro p
    have hdata := hsame (fun address port => address = kRefereeMulticast ∧ udpPort port = p) (by
      intro t u ht hu
      exact hports ((of_decide_eq_true hu).2.trans (of_decide_eq_true ht).2.symm))
    have hparsed := congrArg (List.map fun data => (pb.parseSSLReferee data).2) hdata
    rw [List.map_map, List.map_map] at hparsed
    rw [messagesOf_logTraffic, messagesOf_logTraffic]
    exact hparsed
  have hrecorded : ∀ p, recordedOf (logTraffic pb log') p = recordedOf (logTraffic pb log) p :=
    fun p => congrArg (leftMaxima counterOf) (hmessages p)
  have hevents : ∀ p, eventsOf (logTraffic pb log') p = eventsOf (logTraffic pb log) p :=
    fun p => congrArg indexReferee (hrecorded p)
  refine ⟨?_, ?_, ?_, ?_⟩
  · intro address port
    refine hsame (fun a q => a = address ∧ q = port) ?_
    intro t u ht hu
    refine hports ?_
    show udpPort _ = udpPort _
    rw [(of_decide_eq_true hu).2, (of_decide_eq_true ht).2]
  · intro p
    rw [recordedCommands_load, recordedCommands_load, hrecorded p]
  · intro p logFile logFile' files files' call call' h
    exact h.iff_of_same (hevents kRefboxPort) (hevents p)
  · intro p logFile logFile' files files' call honly h
    have hheard := (handsOver_iff.mp h).2.1.heard
    rw [mem_tail_portsOf, ← hmessages p, ← mem_tail_portsOf] at hheard
    refine (h.iff_of_same (hevents kRefboxPort) (hevents p)).mpr ⟨rfl, .of_only hheard ?_⟩
    exact fun q hq hrefbox => (hevents q).trans (honly q hq hrefbox)

/-- **Replay.** Whatever way the threads are interleaved in the two runs, and wherever the first
one ends, the second log says of every stream what the first one says. -/
theorem replays {pace : Nat → Pace} {clock : Nat} (hports : SeparatePorts loggers)
    (hbound : ∀ l ∈ loggers, udpPort l.portNumber ≠ 0)
    (hrun : run (StreamState.step serialize loggers.get) {} actions = some s)
    (hfits : ∀ t, ∀ data ∈ receivedBy t (processSteps actions), data.length < 2 ^ 16)
    (hagain : LogsInOrder host loggers serialize
      (playedFrom pb s.stream.file pace clock) actions' s')
    (hparse : ∀ m ∈ serializedIn serialize loggers.get (processSteps actions) ++
      serializedIn serialize loggers.get (processSteps actions'), ParsesBack pb serialize m)
    (hserialize : ∀ m : UDPMessageWrapper, m.data ≠ [] → serialize m ≠ []) :
    Replayed pb s.stream.file s'.stream.file := by
  let records := recordsIn serialize loggers.get (processSteps actions) s.stream.file
  have hprocess := process_run hrun
  have hprocess' := process_run hagain.run
  obtain ⟨s₀, hbefore, -, -⟩ := exists_before_close hprocess
  obtain ⟨s₀', hbefore', -, -⟩ := exists_before_close hprocess'
  have hmessages : logMessages pb s.stream.file = records.map (·.message) :=
    logMessages_take hprocess (fun m hm => hparse m (List.mem_append_left _ hm)) hserialize
      (file_eq_take hrun)
  have hmessages' : logMessages pb s'.stream.file =
      (recordsOf serialize loggers.get .start
        (beforeClose (processSteps actions'))).map (·.message) := by
    have hparse' := fun m hm => hparse m (List.mem_append_right _ hm)
    rw [logMessages_take hprocess' hparse' hserialize (file_eq_take hagain.run),
      hagain.written, recordsIn_of_written hprocess' hparse']
  have hfirst : records <+:
      recordsOf serialize loggers.get .start (beforeClose (processSteps actions)) :=
    prefix_recordsIn _ _
  have hlabel : ∀ r ∈ records, r.message.address = (loggers.get r.thread).ipAddress ∧
      r.message.port = (loggers.get r.thread).portNumber :=
    fun r hr => label_of_mem_recordsOf hbefore r (hfirst.subset hr)
  have hsent : ∀ r ∈ records, ∃ d, publishMessage r.message = some d := by
    have hall := exists_published hbound hbefore fun t data hdata => hfits t data
      (((List.takeWhile_prefix _).flatMap _).subset hdata)
    exact fun r hr => hall r (hfirst.subset hr)
  have hcontent : ∀ t,
      (ofThread t (recordsOf serialize loggers.get .start
        (beforeClose (processSteps actions')))).map Record.content =
      (ofThread t records).map Record.content := by
    intro t
    have hplayed := playedFrom_eq pb s.stream.file pace clock
    rw [hmessages] at hplayed
    rw [content_ofThread hbefore' t, hagain.finished t, List.take_length, hagain.received t,
      hplayed, copies_of_delivered (mem_loggers_of_played hlabel)]
    exact copies_of_played hports t records hlabel hsent
  refine replayed_of_same_data hports fun test honly => ?_
  rw [hmessages, hmessages']
  exact same_data hlabel (label_of_mem_recordsOf hbefore') hcontent honly

end Replay

/-- The STOPs of both referees are logged. -/
def bothStops : List (Action (Fin twoReferees.length) × Nat) :=
  (roundSteps refboxThread stopBytes 100 ++ roundSteps autorefThread stopBytes 101).map (·, 70)

/-- And again, the other way round, until the logger is interrupted. -/
def bothStopsAgain : List (Action (Fin twoReferees.length) × Nat) :=
  (roundSteps autorefThread stopBytes 201 ++ roundSteps refboxThread stopBytes 200 ++
    closeSteps).map (·, 0)

/-- What is serialized in both runs. -/
def stopMessages : List UDPMessageWrapper :=
  [⟨kRefereeMulticast, 10003, 100, stopBytes⟩, ⟨kRefereeMulticast, 10004, 101, stopBytes⟩,
    ⟨kRefereeMulticast, 10004, 201, stopBytes⟩, ⟨kRefereeMulticast, 10003, 200, stopBytes⟩]

theorem parsesBack_stops :
    ∀ m ∈ serializedIn messageBytes twoReferees.get (processSteps bothStops) ++
      serializedIn messageBytes twoReferees.get (processSteps bothStopsAgain),
      ParsesBack (stopProtobuf stopMessages) messageBytes m := by
  have hserialized : serializedIn messageBytes twoReferees.get (processSteps bothStops) ++
      serializedIn messageBytes twoReferees.get (processSteps bothStopsAgain) = stopMessages := rfl
  rw [hserialized]
  unfold ParsesBack
  decide

/-- The records of the first log are sent in their order, and received by their threads. -/
theorem logsInOrder_stops :
    LogsInOrder groupAddress twoReferees messageBytes
      (playedFrom (stopProtobuf stopMessages) (recordedState bothStops).stream.file (fun _ => {}) 0)
      bothStopsAgain (recordedState bothStopsAgain) where
  run := rfl
  written := @file_of_closed _ _ messageBytes twoReferees.get bothStopsAgain _ rfl rfl
  received := by
    have hrun : run (StreamState.step messageBytes twoReferees.get) {} bothStops =
        some (recordedState bothStops) := rfl
    have hparse := fun m hm => parsesBack_stops m (List.mem_append_left _ hm)
    have hwritten : (recordedState bothStops).stream.file =
        bytesOf (recordedState bothStops).process.logFile := rfl
    rw [playedFrom_eq, logMessages_take (process_run hrun) hparse
      (fun m _ => messageBytes_ne_nil m) (file_eq_take hrun), hwritten,
      recordsIn_of_written (process_run hrun) hparse]
    decide
  finished := by decide

/-- The first run is killed when both records are in the file. -/
theorem replays_stops :
    Replayed (stopProtobuf stopMessages) (recordedState bothStops).stream.file
      (recordedState bothStopsAgain).stream.file := by
  refine replays (by unfold SeparatePorts Function.Injective; decide) (by decide) rfl ?_
    logsInOrder_stops parsesBack_stops fun m _ => messageBytes_ne_nil m
  decide

end SslAutoref.Theorems
