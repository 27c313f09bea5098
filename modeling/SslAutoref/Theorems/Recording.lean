import SslAutoref.Logic.HandOver
import SslAutoref.Logic.LogStreamRun
import SslAutoref.Theorems.Streams

/-!
# From the network to the verdicts

The logger and the evaluator meet in the log file. Wherever a run of the logger ends, killed or
interrupted, the evaluator reads the file as the records that are in it in full by then, and
these are what every thread received first. If the file was closed, of all that a thread
received no more than one datagram is missing. For the streams of the refbox and of a referee
with a port of its own that decides what is recorded, and the verdicts (`recording`).
-/

namespace SslAutoref.Theorems

open AppendFilter (leftMaxima)
open Steps

section Run

variable {ι : Type} [DecidableEq ι] {serialize : UDPMessageWrapper → List UInt8}
  {loggers : ι → ProtobufLogger}

section Process

variable {actions : List (Action ι)} {s : LoggerState ι}

/-! ## What is serialized -/

/-- The wrapper an action gives to `SerializeToString`. -/
def stampOut (s : LoggerState ι) : Action ι → List UDPMessageWrapper
  | .thread t (.stamp now) =>
    [{ (s.threads t).messageWrapper with timestamp := now, data := (s.threads t).receiveBuffer }]
  | _ => []

/-- The wrappers that are serialized in a run. -/
def serializedIn (serialize : UDPMessageWrapper → List UInt8) (loggers : ι → ProtobufLogger)
    (actions : List (Action ι)) : List UDPMessageWrapper :=
  outputs (LoggerState.step serialize loggers) stampOut .start actions

/-- A thread that has a message to write has serialized it. -/
theorem message_mem_serializedIn
    (hrun : run (LoggerState.step serialize loggers) .start actions = some s) :
    ∀ t, (s.threads t).pc.hasMessage = true →
      (s.threads t).messageWrapper ∈ serializedIn serialize loggers actions := by
  refine @invariant_run _ _ _ (fun actions s => ∀ t, (s.threads t).pc.hasMessage = true →
    (s.threads t).messageWrapper ∈ serializedIn serialize loggers actions) _ nofun ?_ _ _ hrun
  intro actions s a s' hrun hI hstep t ht
  have hconcat : serializedIn serialize loggers (actions ++ [a]) =
      serializedIn serialize loggers actions ++ stampOut s a := outputs_concat hrun a
  obtain ⟨henabled, rfl⟩ := step_eq_some_iff.mp hstep
  rw [hconcat]
  cases a with
  | sigInt => exact List.mem_append_left _ (hI t ht)
  | main a => exact List.mem_append_left _ (hI t ht)
  | thread u a =>
    by_cases htu : t = u
    · subst htu
      rw [threads_effect_self] at ht ⊢
      rcases hasMessage_step henabled.2.1 ht with ⟨now, rfl⟩ | ⟨hbefore, hsame⟩
      · exact List.mem_append_right _ (List.mem_singleton_self _)
      · rw [hsame]
        exact List.mem_append_left _ (hI t hbefore)
    · rw [threads_effect_of_ne a htu] at ht ⊢
      exact List.mem_append_left _ (hI t ht)

/-- So has the thread of every record. -/
theorem record_mem_serializedIn
    (hrun : run (LoggerState.step serialize loggers) .start actions = some s) :
    ∀ r ∈ recordsOf serialize loggers .start actions,
      r.message ∈ serializedIn serialize loggers actions := by
  refine @invariant_run _ _ _ (fun actions _ => ∀ r ∈ recordsOf serialize loggers .start
    actions, r.message ∈ serializedIn serialize loggers actions) _ nofun ?_ _ _ hrun
  intro actions s a s' hrun hI hstep r hr
  have hconcat : serializedIn serialize loggers (actions ++ [a]) =
      serializedIn serialize loggers actions ++ stampOut s a := outputs_concat hrun a
  rw [hconcat]
  rw [recordsOf_concat hrun, List.mem_append] at hr
  rcases hr with hr | hr
  · exact List.mem_append_left _ (hI r hr)
  · obtain ⟨rfl, hmessage⟩ := eq_of_mem_recordOut hr
    have hpc : (s.threads r.thread).pc = .writingPayload := (step_eq_some_iff.mp hstep).1.2.1
    rw [hmessage]
    exact List.mem_append_left _ (message_mem_serializedIn hrun r.thread (by rw [hpc]; rfl))

/-- What was serialized before the file was closed was serialized. -/
theorem serializedIn_beforeClose
    (hrun : run (LoggerState.step serialize loggers) .start (beforeClose actions) = some s) :
    ∀ m ∈ serializedIn serialize loggers (beforeClose actions),
      m ∈ serializedIn serialize loggers actions := by
  intro m hm
  have hsplit : beforeClose actions ++ actions.dropWhile (fun a => a ≠ .main .fclose) =
      actions := List.takeWhile_append_dropWhile
  have happend : serializedIn serialize loggers actions =
      serializedIn serialize loggers (beforeClose actions) ++
        outputs (LoggerState.step serialize loggers) stampOut s
          (actions.dropWhile fun a => a ≠ .main .fclose) := by
    conv_lhs => rw [← hsplit]
    exact outputs_append hrun _
  rw [happend]
  exact List.mem_append_left _ hm

/-! ## What is read back -/

variable {pb : Protobuf}

/-- What was written while the file is open, in frames. -/
theorem bytesOf_logFile
    (hrun : run (LoggerState.step serialize loggers) .start actions = some s)
    (hopen : s.main.fileOpen = true)
    (hparse : ∀ m ∈ serializedIn serialize loggers actions, ParsesBack pb serialize m) :
    bytesOf s.logFile =
      Framing.encodeFrames kSizeWidth
          ((recordsOf serialize loggers .start actions).map fun r => serialize r.message) ++
        bytesOf (s.pending serialize) := by
  have hblocks : (recordsOf serialize loggers .start actions).map
      (fun r => payloadBlock (serialize r.message)) =
      (recordsOf serialize loggers .start actions).map fun r => serialize r.message :=
    List.map_congr_left fun r hr =>
      payloadBlock_of_lt (hparse _ (record_mem_serializedIn hrun r hr)).1
  rw [logFile_eq hrun hopen, bytesOf, List.flatMap_append]
  show bytesOf _ ++ _ = _
  rw [bytesOf_recordWrites, loggedBytes_eq, List.map_map]
  exact congrArg (fun payloads => Framing.encodeFrames kSizeWidth payloads ++ _) hblocks

/-- What is written of a record that is not finished is not read as one, wherever it ends. -/
theorem readFrame_take_pending
    (hrun : run (LoggerState.step serialize loggers) .start actions = some s)
    (hparse : ∀ m ∈ serializedIn serialize loggers actions, ParsesBack pb serialize m)
    (hserialize : ∀ m : UDPMessageWrapper, m.data ≠ [] → serialize m ≠ []) (n : Nat) :
    Framing.readFrame kSizeWidth ((bytesOf (s.pending serialize)).take n) = none := by
  have hnothing : Framing.readFrame kSizeWidth (([] : List UInt8).take n) = none := by
    rw [List.take_nil]
    exact Framing.readFrame_nil kSizeWidth_pos
  cases hmutex : s.loggingMutex with
  | none =>
    rw [pending_of_free hmutex]
    exact hnothing
  | some t =>
    by_cases hpc : (s.threads t).pc = .writingPayload
    · -- the datagram has data in it, so there is a payload to wait for
      have hlt := (hparse _ (message_mem_serializedIn hrun t (by rw [hpc]; rfl))).1
      have hinHand : (s.threads t).inHand = [(s.threads t).messageWrapper.data] := by
        unfold LoggerThread.inHand
        rw [hpc]
      have hdata : (s.threads t).messageWrapper.data ∈ receivedBy t actions := by
        rw [received_eq hrun t, hinHand]
        exact List.mem_append_right _ (List.mem_singleton_self _)
      have hne := hserialize _ (ne_nil_of_mem_receivedBy hdata)
      have hsize : sizeBlock (serialize (s.threads t).messageWrapper) =
          Framing.sizeBytes kSizeWidth (serialize (s.threads t).messageWrapper).length := by
        rw [sizeBlock, packetSize, UInt32.toNat_ofNat', Nat.mod_eq_of_lt hlt]
      rw [pending_of_writing hmutex hpc]
      show Framing.readFrame kSizeWidth ((sizeBlock _ ++ []).take n) = none
      rw [List.append_nil, hsize]
      exact Framing.readFrame_take_sizeBytes hne hlt n
    · rw [pending_of_not_writing hmutex hpc]
      exact hnothing

/-- The records of a run up to `fclose` that are in a file in full. -/
def recordsIn (serialize : UDPMessageWrapper → List UInt8) (loggers : ι → ProtobufLogger)
    (actions : List (Action ι)) (file : List UInt8) : List (Record ι) :=
  (recordsOf serialize loggers .start (beforeClose actions)).take
    (Framing.framesWithin kSizeWidth file.length
      ((recordsOf serialize loggers .start (beforeClose actions)).map fun r =>
        serialize r.message))

theorem prefix_recordsIn (actions : List (Action ι)) (file : List UInt8) :
    recordsIn serialize loggers actions file <+:
      recordsOf serialize loggers .start (beforeClose actions) := List.take_prefix _ _

/-- A beginning of what was written is read as the records that are in it. -/
theorem logMessages_take
    (hrun : run (LoggerState.step serialize loggers) .start actions = some s)
    (hparse : ∀ m ∈ serializedIn serialize loggers actions, ParsesBack pb serialize m)
    (hserialize : ∀ m : UDPMessageWrapper, m.data ≠ [] → serialize m ≠ [])
    {file : List UInt8} (hfile : file = (bytesOf s.logFile).take file.length) :
    logMessages pb file = (recordsIn serialize loggers actions file).map (·.message) := by
  obtain ⟨s₀, hbefore, hopen, hlog⟩ := exists_before_close hrun
  have hparse₀ : ∀ m ∈ serializedIn serialize loggers (beforeClose actions),
      ParsesBack pb serialize m :=
    fun m hm => hparse m (serializedIn_beforeClose hbefore m hm)
  have hrecord : ∀ r ∈ recordsOf serialize loggers .start (beforeClose actions),
      ParsesBack pb serialize r.message :=
    fun r hr => hparse₀ _ (record_mem_serializedIn hbefore r hr)
  have hfit : ∀ p ∈ (recordsOf serialize loggers .start (beforeClose actions)).map
      (fun r => serialize r.message), p.length < 256 ^ kSizeWidth := by
    intro p hp
    obtain ⟨r, hr, rfl⟩ := List.mem_map.mp hp
    exact (hrecord r hr).1
  have hread := Framing.readFrames_take_append kSizeWidth_pos hfit
    (readFrame_take_pending hbefore hparse₀ hserialize) file.length
  rw [← bytesOf_logFile hbefore hopen hparse₀, ← hlog, ← hfile, ← List.map_take] at hread
  unfold logMessages
  rw [hread, List.map_map]
  refine List.map_congr_left fun r hr => ?_
  exact congrArg Prod.snd (hrecord r ((prefix_recordsIn actions file).subset hr)).2

/-- When all that was written is in the file, so are all records. -/
theorem recordsIn_of_written
    (hrun : run (LoggerState.step serialize loggers) .start actions = some s)
    (hparse : ∀ m ∈ serializedIn serialize loggers actions, ParsesBack pb serialize m) :
    recordsIn serialize loggers actions (bytesOf s.logFile) =
      recordsOf serialize loggers .start (beforeClose actions) := by
  obtain ⟨s₀, hbefore, hopen, hlog⟩ := exists_before_close hrun
  have hbytes := bytesOf_logFile hbefore hopen
    (fun m hm => hparse m (serializedIn_beforeClose hbefore m hm))
  have hall := @Framing.framesWithin_eq_length kSizeWidth (bytesOf s.logFile).length
    ((recordsOf serialize loggers .start (beforeClose actions)).map fun r =>
      serialize r.message) (by rw [hlog, hbytes, List.length_append]; exact Nat.le_add_right _ _)
  unfold recordsIn
  rw [hall, List.length_map, List.take_length]

/-- The data of a thread's records in the file are the first that it received. -/
theorem data_recordsIn
    (hrun : run (LoggerState.step serialize loggers) .start actions = some s)
    (file : List UInt8) (t : ι) :
    (ofThread t (recordsIn serialize loggers actions file)).map (·.message.data) =
      (receivedBy t actions).take
        (ofThread t (recordsIn serialize loggers actions file)).length := by
  obtain ⟨s₀, hbefore, -, -⟩ := exists_before_close hrun
  have hrecords : ofThread t (recordsIn serialize loggers actions file) <+:
      ofThread t (recordsOf serialize loggers .start (beforeClose actions)) :=
    (prefix_recordsIn actions file).filter _
  have hreceived : (ofThread t (recordsOf serialize loggers .start (beforeClose actions))).map
      (·.message.data) <+: receivedBy t (beforeClose actions) := by
    rw [received_eq hbefore t]
    exact List.prefix_append _ _
  have hall : receivedBy t (beforeClose actions) <+: receivedBy t actions :=
    (List.takeWhile_prefix _).flatMap _
  have hfirst := ((hrecords.map (·.message.data)).trans hreceived).trans hall
  have htake := List.prefix_iff_eq_take.mp hfirst
  rwa [List.length_map] at htake

/-- The referee messages of a port, in terms of the wrappers. -/
theorem messagesOf_logTraffic (pb : Protobuf) (log : List UInt8) (p : UInt16) :
    messagesOf (logTraffic pb log) p =
      ((logMessages pb log).filter fun m =>
        m.address = kRefereeMulticast ∧ m.refereePort = p).map fun m =>
          (pb.parseSSLReferee m.data).2 := by
  unfold logTraffic trafficOf logMessages
  induction Framing.readFrames kSizeWidth log with
  | nil => rfl
  | cons packet packets ih =>
    rw [List.filterMap_cons, List.map_cons, List.filter_cons]
    unfold refereeTraffic
    by_cases haddress : (pb.parseUDPMessageWrapper packet).2.address = kRefereeMulticast
    · rw [if_pos haddress]
      dsimp only
      by_cases hport : (pb.parseUDPMessageWrapper packet).2.refereePort = p
      · rw [if_pos (by simp [haddress, hport]), hport, messagesOf_cons_self, List.map_cons]
        exact congrArg _ ih
      · rw [if_neg (by simp [hport]), messagesOf_cons_ne hport]
        exact ih
    · rw [if_neg haddress, if_neg (by simp [haddress])]
      exact ih

/-! ## One stream -/

/-- Thread `t`, and no other, logs the messages of a referee under port `p`. -/
def LogsAlone (loggers : ι → ProtobufLogger) (p : UInt16) (t : ι) : Prop :=
  ∀ u, (loggers u).ipAddress = kRefereeMulticast ∧ udpPort (loggers u).portNumber = p ↔ u = t

/-- The referee messages that thread `t` has received and that are in the file. -/
def loggedBy (pb : Protobuf) (serialize : UDPMessageWrapper → List UInt8)
    (loggers : ι → ProtobufLogger) (actions : List (Action ι)) (file : List UInt8) (t : ι) :
    List SSLReferee :=
  ((receivedBy t actions).take
    (ofThread t (recordsIn serialize loggers actions file)).length).map fun data =>
      (pb.parseSSLReferee data).2

/-- Of the records in the file the ones under a port of one thread are what it has logged. -/
theorem messages_of_alone
    (hrun : run (LoggerState.step serialize loggers) .start actions = some s)
    (file : List UInt8) {p : UInt16} {t : ι} (halone : LogsAlone loggers p t) :
    ((((recordsIn serialize loggers actions file).map (·.message)).filter fun m =>
        m.address = kRefereeMulticast ∧ m.refereePort = p).map fun m =>
          (pb.parseSSLReferee m.data).2) = loggedBy pb serialize loggers actions file t := by
  obtain ⟨s₀, hbefore, -, -⟩ := exists_before_close hrun
  have hown : (recordsIn serialize loggers actions file).filter (fun r =>
      r.message.address = kRefereeMulticast ∧ r.message.refereePort = p) =
      ofThread t (recordsIn serialize loggers actions file) := by
    refine List.filter_congr fun r hr => ?_
    obtain ⟨haddress, hport⟩ :=
      label_of_mem_recordsOf hbefore r ((prefix_recordsIn actions file).subset hr)
    have hiff := halone r.thread
    rw [← haddress, ← hport] at hiff
    exact decide_eq_decide.mpr hiff
  have hdata := congrArg (List.map fun data => (pb.parseSSLReferee data).2)
    (data_recordsIn hrun file t)
  rw [List.map_map] at hdata
  rw [List.filter_map, List.map_map]
  show (((recordsIn serialize loggers actions file).filter _).map _) = _
  exact (congrArg _ hown).trans hdata

end Process

/-- What a run of the logger, wherever it ended, left for the evaluator. -/
structure Recorded (pb : Protobuf) (serialize : UDPMessageWrapper → List UInt8)
    (loggers : ι → ProtobufLogger) (actions : List (Action ι)) (s : StreamState ι) :
    Prop where
  /-- The file is read as the records that are in it. -/
  messages : logMessages pb s.stream.file =
    (recordsIn serialize loggers actions s.stream.file).map (·.message)
  /-- If it was closed, these are the records that were finished before. -/
  closed : s.process.main.fileOpen = false →
    recordsIn serialize loggers actions s.stream.file =
      recordsOf serialize loggers .start (beforeClose actions)
  /-- Then at most one datagram of all that a thread received is not among them. -/
  lost : s.process.main.fileOpen = false → ∀ t, (receivedBy t actions).length ≤
    (ofThread t (recordsIn serialize loggers actions s.stream.file)).length + 1
  /-- What is recorded of a referee is a matter of its own thread. -/
  commands : ∀ p t, LogsAlone loggers p t →
    recordedCommands (loadRefereeCommands pb s.stream.file {}) p =
      leftMaxima counterOf (loggedBy pb serialize loggers actions s.stream.file t)
  /-- And the verdicts on an autoref that the evaluator gets to are one of its thread and the
  refbox's. -/
  verdicts : ∀ p t human, LogsAlone loggers p t → LogsAlone loggers kRefboxPort human →
    ∀ logFile files call, HandsOver pb logFile s.stream.file files p call ↔
      indexReferee (leftMaxima counterOf
          (loggedBy pb serialize loggers actions s.stream.file human)) ≠ [] ∧
        GetsTo (logTraffic pb s.stream.file) p ∧
        callOf
          (indexReferee (leftMaxima counterOf
            (loggedBy pb serialize loggers actions s.stream.file human)))
          (indexReferee (leftMaxima counterOf
            (loggedBy pb serialize loggers actions s.stream.file t))) = some call

/-- **Recording.** Any number of threads may be interleaved in any way, the stream may write
when and as much as it likes, and the run may end anywhere: what the evaluator makes of the
file is what the threads received first, and if the file was closed nearly all of it. -/
theorem recording {actions : List (Action ι × Nat)} {s : StreamState ι} {pb : Protobuf}
    (hrun : run (StreamState.step serialize loggers) {} actions = some s)
    (hparse : ∀ m ∈ serializedIn serialize loggers (processSteps actions),
      ParsesBack pb serialize m)
    (hserialize : ∀ m : UDPMessageWrapper, m.data ≠ [] → serialize m ≠ []) :
    Recorded pb serialize loggers (processSteps actions) s := by
  have hprocess := process_run hrun
  have hmessages := logMessages_take hprocess hparse hserialize (file_eq_take hrun)
  have hcommands : ∀ p t, LogsAlone loggers p t →
      recordedOf (logTraffic pb s.stream.file) p =
        leftMaxima counterOf
          (loggedBy pb serialize loggers (processSteps actions) s.stream.file t) := by
    intro p t halone
    unfold recordedOf
    rw [messagesOf_logTraffic, hmessages, messages_of_alone hprocess s.stream.file halone]
  have hclosed : s.process.main.fileOpen = false →
      recordsIn serialize loggers (processSteps actions) s.stream.file =
        recordsOf serialize loggers .start (beforeClose (processSteps actions)) := by
    intro hclosed
    rw [file_of_closed hrun hclosed]
    exact recordsIn_of_written hprocess hparse
  refine ⟨hmessages, hclosed, ?_, ?_, ?_⟩
  · intro hnot t
    obtain ⟨s₀, hbefore, -, -⟩ := exists_before_close hprocess
    rw [hclosed hnot, length_ofThread hbefore t]
    exact length_receivedBy_le hprocess t
  · intro p t halone
    rw [recordedCommands_load]
    exact hcommands p t halone
  · intro p t human halone hhuman logFile files call
    rw [handsOver_iff]
    unfold callFor eventsOf
    rw [hcommands p t halone, hcommands kRefboxPort human hhuman]

end Run

/-- The refbox and one autoref. -/
def twoReferees : List ProtobufLogger := [⟨kRefereeMulticast, 10003⟩, ⟨kRefereeMulticast, 10004⟩]

/-- Their threads. -/
def refboxThread : Fin twoReferees.length := ⟨0, by decide⟩

def autorefThread : Fin twoReferees.length := ⟨1, by decide⟩

/-- A STOP of each, as it is sent. -/
def stopBytes : List UInt8 := refereeBytes ⟨.stop, 1, 10000000⟩

/-- SIGINT, and what `main` does to the file. -/
def closeSteps : List (Action (Fin twoReferees.length)) :=
  [.sigInt, .main .check, .main .deleteLoggers, .main .fclose]

/-- The refbox's STOP is logged, and the file is closed within the record of the other. -/
def closedWithin : List (Action (Fin twoReferees.length)) :=
  roundSteps refboxThread stopBytes 100 ++ (roundSteps autorefThread stopBytes 101).take 6 ++
    closeSteps ++ [.thread autorefThread .writePayload, .main .exit]

/-- What a run leaves. -/
def recordedState (actions : List (Action (Fin twoReferees.length) × Nat)) :
    StreamState (Fin twoReferees.length) :=
  (run (StreamState.step messageBytes twoReferees.get) {} actions).getD {}

/-- Nothing leaves the buffer before `fclose`. -/
def closedRun : List (Action (Fin twoReferees.length) × Nat) := closedWithin.map (·, 0)

/-- The process is killed before it closes the file, and only some bytes of every write have
left the buffer. -/
def killedRun : List (Action (Fin twoReferees.length) × Nat) := (closedWithin.take 16).map (·, 30)

/-- Both wrappers were serialized. -/
def closedWithinMessages : List UDPMessageWrapper :=
  [⟨kRefereeMulticast, 10003, 100, stopBytes⟩, ⟨kRefereeMulticast, 10004, 101, stopBytes⟩]

/-- The generated parsers, for the bytes of the given wrappers, no bytes, and the STOP. -/
def stopProtobuf (messages : List UDPMessageWrapper) : Protobuf where
  parseUDPMessageWrapper bytes :=
    if bytes = [] then (true, {}) else (messageProtobuf messages).parseUDPMessageWrapper bytes
  parseSSLReferee := (sampleProtobuf [] [issue .stop 1 10000000]).parseSSLReferee

theorem messageBytes_ne_nil (m : UDPMessageWrapper) : messageBytes m ≠ [] := nofun

theorem parsesBack_closedWithin :
    ∀ m ∈ closedWithinMessages, ParsesBack (stopProtobuf closedWithinMessages) messageBytes m := by
  unfold ParsesBack
  decide

/-- One STOP is in the file when it is closed, and the other lost. When the process is killed
there may be none. -/
theorem recording_closedWithin :
    Recorded (stopProtobuf closedWithinMessages) messageBytes twoReferees.get
        (processSteps closedRun) (recordedState closedRun) ∧
      Recorded (stopProtobuf closedWithinMessages) messageBytes twoReferees.get
        (processSteps killedRun) (recordedState killedRun) := by
  refine ⟨recording rfl ?_ fun m _ => messageBytes_ne_nil m,
    recording rfl ?_ fun m _ => messageBytes_ne_nil m⟩
  · have hserialized : serializedIn messageBytes twoReferees.get (processSteps closedRun) =
        closedWithinMessages := rfl
    rw [hserialized]
    exact parsesBack_closedWithin
  · have hserialized : serializedIn messageBytes twoReferees.get (processSteps killedRun) =
        closedWithinMessages := rfl
    rw [hserialized]
    exact parsesBack_closedWithin

end SslAutoref.Theorems
