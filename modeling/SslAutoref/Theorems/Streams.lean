import SslAutoref.Lib.Fanout
import SslAutoref.Logic.LoggerRun
import SslAutoref.Model.Network
import SslAutoref.Theorems.Load

/-!
# Streams and their labels

A logger labels every datagram it receives with its own address and port. Its socket
is bound to the port alone, and gets the datagrams of every group that any socket has
joined. So a datagram is logged once for each stream on its port, under the label of
each (`contents_perm`), and once under its own exactly when no other stream is on that
port (`logged_once_iff`).
-/

namespace SslAutoref.Theorems

open Steps

/-! ## What is delivered -/

section

variable {host : String → UInt32} {loggers : List ProtobufLogger}

/-- A datagram of a configured stream reaches the loggers on its port. -/
theorem deliversTo_iff {d : Datagram} (hsent : ⟨d.address, d.port⟩ ∈ loggers)
    (logger : ProtobufLogger) :
    deliversTo (loggers.map (·.client host)) (host d.address) (udpPort d.port)
        (logger.client host) = true ↔
      udpPort logger.portNumber = udpPort d.port := by
  have hjoined : ((loggers.map (·.client host)).any fun other =>
      other.groups.contains (host d.address)) = true := by
    refine List.any_eq_true.mpr ⟨_, List.mem_map_of_mem hsent, ?_⟩
    exact List.contains_iff_mem.mpr (List.mem_singleton.mpr rfl)
  have hport : (logger.client host).port = some (udpPort d.port) ↔
      udpPort logger.portNumber = udpPort d.port := by
    show (if logger.portNumber ≠ 0 then some (udpPort logger.portNumber) else none) = _ ↔ _
    by_cases hzero : logger.portNumber = 0
    · -- port zero is not bound, and no datagram is sent to it
      rw [hzero, if_neg (fun h => h rfl)]
      exact ⟨nofun, fun h => absurd h.symm d.udpPort_ne_zero⟩
    · rw [if_pos hzero]
      exact Option.some_inj
  unfold deliversTo
  rw [hjoined, Bool.and_true, decide_eq_true_eq]
  exact hport

/-- What is logged of a datagram: one copy for each stream on its port. -/
def copies (loggers : List ProtobufLogger) (d : Datagram) :
    List (String × Int32 × List UInt8) :=
  (loggers.filter fun l => udpPort l.portNumber = udpPort d.port).map fun l =>
    (l.ipAddress, l.portNumber, d.data)

/-- The copy one logger makes, if it is on the port. -/
def copyOf (l : ProtobufLogger) (d : Datagram) : List (String × Int32 × List UInt8) :=
  if udpPort l.portNumber = udpPort d.port then [(l.ipAddress, l.portNumber, d.data)] else []

theorem copies_eq (loggers : List ProtobufLogger) (d : Datagram) :
    copies loggers d = loggers.flatMap fun l => copyOf l d :=
  Fanout.map_filter_eq_flatMap _ _ _

/-- What a logger makes of the datagrams that reach it. -/
theorem copies_of_delivered {datagrams : List Datagram} {logger : ProtobufLogger}
    (hsent : ∀ d ∈ datagrams, ⟨d.address, d.port⟩ ∈ loggers) :
    ((deliveredTo host loggers logger datagrams).map fun data =>
        (logger.ipAddress, logger.portNumber, data)) =
      datagrams.flatMap (copyOf logger) := by
  have hfilter : datagrams.filter (fun d =>
      deliversTo (loggers.map (·.client host)) (host d.address) (udpPort d.port)
        (logger.client host)) =
      datagrams.filter fun d => udpPort logger.portNumber = udpPort d.port := by
    refine List.filter_congr fun d hd => ?_
    rw [Bool.eq_iff_iff, decide_eq_true_eq]
    exact deliversTo_iff (hsent d hd) logger
  rw [deliveredTo, hfilter, List.map_map]
  exact Fanout.map_filter_eq_flatMap _ _ _

end

/-! ## What is logged -/

section

variable {host : String → UInt32} {loggers : List ProtobufLogger}
  {serialize : UDPMessageWrapper → List UInt8} {datagrams : List Datagram}
  {actions : List (Action (Fin loggers.length))} {s : LoggerState (Fin loggers.length)}

/-- A run in which every logger receives what reaches it, and has written all of it, while
the file is open. -/
structure LogsAll (host : String → UInt32) (loggers : List ProtobufLogger)
    (serialize : UDPMessageWrapper → List UInt8) (datagrams : List Datagram)
    (actions : List (Action (Fin loggers.length))) (s : LoggerState (Fin loggers.length)) :
    Prop where
  run : run (LoggerState.step serialize loggers.get) .start actions = some s
  fileOpen : s.main.fileOpen = true
  received : ∀ t, (receivedBy t actions).Perm
    (deliveredTo host loggers (loggers.get t) datagrams)
  finished : ∀ t, finishedBy t actions = (receivedBy t actions).length

/-- **What the records say**: one copy of every datagram for each stream on its port. -/
theorem contents_perm (h : LogsAll host loggers serialize datagrams actions s)
    (hsent : ∀ d ∈ datagrams, ⟨d.address, d.port⟩ ∈ loggers) :
    ((recordsOf serialize loggers.get .start actions).map Record.content).Perm
      (datagrams.flatMap (copies loggers)) := by
  let records := recordsOf serialize loggers.get .start actions
  -- the records, thread by thread
  have hthreads : ((List.finRange loggers.length).flatMap fun t =>
      (ofThread t records).map Record.content).Perm (records.map Record.content) := by
    have hparts := @Fanout.perm_parts _ _ _ _ (List.nodup_finRange loggers.length)
      Record.thread records fun r _ => List.mem_finRange r.thread
    have hmap := List.Perm.map Record.content hparts
    rwa [List.map_flatMap] at hmap
  -- those of one thread are the datagrams on its port
  have hthread : ∀ t, ((ofThread t records).map Record.content).Perm
      (datagrams.flatMap (copyOf (loggers.get t))) := by
    intro t
    have hcontent := content_ofThread h.run t
    rw [h.finished t, List.take_length] at hcontent
    rw [hcontent, ← copies_of_delivered hsent]
    exact (h.received t).map _
  have hswap := Fanout.perm_swap (List.finRange loggers.length) datagrams fun t d =>
    copyOf (loggers.get t) d
  have hcopies : (datagrams.flatMap fun d =>
      (List.finRange loggers.length).flatMap fun t => copyOf (loggers.get t) d) =
      datagrams.flatMap (copies loggers) := by
    refine List.flatMap_congr fun d _ => ?_
    have hget := List.flatMap_map loggers.get (fun l => copyOf l d)
      (List.finRange loggers.length)
    rw [← hget, List.map_get_finRange, copies_eq]
  rw [hcopies] at hswap
  exact (hthreads.symm.trans (List.Perm.flatMap_left _ fun t _ => hthread t)).trans hswap

/-! ## What is read back -/

variable {pb : Protobuf}

/-- The generated code parses what it serialized, and a record fits the size. -/
def ParsesBack (pb : Protobuf) (serialize : UDPMessageWrapper → List UInt8)
    (m : UDPMessageWrapper) : Prop :=
  (serialize m).length < 2 ^ 32 ∧ pb.parseUDPMessageWrapper (serialize m) = (true, m)

/-- The wrappers of the records parse back when all of a list of messages do. -/
theorem parsesBack_of_messages {messages : List UDPMessageWrapper}
    (hmessages : (recordsOf serialize loggers.get .start actions).map (·.message) = messages)
    (hall : ∀ m ∈ messages, ParsesBack pb serialize m) :
    ∀ r ∈ recordsOf serialize loggers.get .start actions, ParsesBack pb serialize r.message := by
  intro r hr
  refine hall r.message ?_
  rw [← hmessages]
  exact List.mem_map_of_mem hr

/-- When all is written no thread is between its two writes. -/
theorem LogsAll.pending_eq_nil (h : LogsAll host loggers serialize datagrams actions s) :
    s.pending serialize = [] := by
  refine pending_of_none_writing fun t hpc => ?_
  have hlen := length_receivedBy h.run t
  have hinHand : (s.threads t).inHand.length = 1 := by
    unfold LoggerThread.inHand
    rw [hpc]
    rfl
  have hfinished := h.finished t
  omega

/-- The messages of what was written are the wrappers. -/
theorem logMessages_of_logsAll (h : LogsAll host loggers serialize datagrams actions s)
    (hparse : ∀ r ∈ recordsOf serialize loggers.get .start actions,
      ParsesBack pb serialize r.message) :
    logMessages pb (bytesOf s.logFile) =
      (recordsOf serialize loggers.get .start actions).map (·.message) := by
  have hbytes : bytesOf s.logFile = Framing.encodeFrames kSizeWidth
      ((recordsOf serialize loggers.get .start actions).map fun r => serialize r.message) := by
    rw [logFile_eq h.run h.fileOpen, h.pending_eq_nil, List.append_nil, bytesOf_recordWrites,
      loggedBytes_eq, List.map_map]
    refine congrArg _ (List.map_congr_left fun r hr => ?_)
    exact payloadBlock_of_lt (hparse r hr).1
  have hfit : ∀ p ∈ (recordsOf serialize loggers.get .start actions).map
      (fun r => serialize r.message), p.length < 256 ^ kSizeWidth := by
    intro p hp
    obtain ⟨r, hr, rfl⟩ := List.mem_map.mp hp
    exact (hparse r hr).1
  unfold logMessages
  rw [hbytes, Framing.readFrames_encodeFrames_self kSizeWidth_pos hfit, List.map_map]
  refine List.map_congr_left fun r hr => ?_
  exact congrArg Prod.snd (hparse r hr).2

/-- Every datagram is written as one record, which says where it was sent to. -/
def LoggedOnce (pb : Protobuf) (s : LoggerState (Fin loggers.length))
    (datagrams : List Datagram) : Prop :=
  ((logMessages pb (bytesOf s.logFile)).map fun m => (m.address, m.port, m.data)).Perm
    (datagrams.map Datagram.content)

/-- No datagram is sent to a port that is shared with another stream. -/
def OwnPorts (loggers : List ProtobufLogger) (datagrams : List Datagram) : Prop :=
  ∀ d ∈ datagrams, ∀ l ∈ loggers, udpPort l.portNumber = udpPort d.port →
    l = ⟨d.address, d.port⟩

/-- There is one copy exactly when there is one stream on the port. -/
theorem copies_eq_singleton_iff (hnodup : loggers.Nodup) {d : Datagram}
    (hsent : ⟨d.address, d.port⟩ ∈ loggers) :
    copies loggers d = [d.content] ↔
      ∀ l ∈ loggers, udpPort l.portNumber = udpPort d.port → l = ⟨d.address, d.port⟩ := by
  refine ⟨?_, ?_⟩
  · -- another stream on the port would give a copy with its own label
    intro hone l hl hport
    have hmem : (l.ipAddress, l.portNumber, d.data) ∈ copies loggers d :=
      List.mem_map_of_mem (List.mem_filter.mpr ⟨hl, decide_eq_true hport⟩)
    rw [hone, List.mem_singleton] at hmem
    obtain ⟨haddress, hrest⟩ := Prod.mk.inj hmem
    obtain ⟨hnumber, -⟩ := Prod.mk.inj hrest
    show ProtobufLogger.mk l.ipAddress l.portNumber = _
    rw [haddress, hnumber]
  · intro hown
    have hcopy : ∀ l ∈ loggers, copyOf l d =
        if (⟨d.address, d.port⟩ : ProtobufLogger) = l then [d.content] else [] := by
      intro l hl
      unfold copyOf
      by_cases hport : udpPort l.portNumber = udpPort d.port
      · rw [if_pos hport, hown l hl hport, if_pos rfl]
        rfl
      · have hne : (⟨d.address, d.port⟩ : ProtobufLogger) ≠ l := by
          rintro rfl
          exact hport rfl
        rw [if_neg hport, if_neg hne]
    rw [copies_eq, List.flatMap_congr hcopy]
    exact Fanout.flatMap_ite_eq hnodup hsent d.content

/-- **Labels.** In a run that logs all that is delivered, whatever the streams and the
datagrams, every datagram gives one record under the stream it was sent to exactly when
no datagram is sent to a port that two streams share. -/
theorem logged_once_iff (hnodup : loggers.Nodup)
    (hsent : ∀ d ∈ datagrams, ⟨d.address, d.port⟩ ∈ loggers)
    (h : LogsAll host loggers serialize datagrams actions s)
    (hparse : ∀ r ∈ recordsOf serialize loggers.get .start actions,
      ParsesBack pb serialize r.message) :
    LoggedOnce pb s datagrams ↔ OwnPorts loggers datagrams := by
  have hrecords : ((logMessages pb (bytesOf s.logFile)).map fun m =>
      (m.address, m.port, m.data)).Perm (datagrams.flatMap (copies loggers)) := by
    rw [logMessages_of_logsAll h hparse, List.map_map]
    exact contents_perm h hsent
  have hown : ∀ d ∈ datagrams, d.content ∈ copies loggers d := by
    intro d hd
    have hmem : (⟨d.address, d.port⟩ : ProtobufLogger) ∈
        loggers.filter fun l => udpPort l.portNumber = udpPort d.port :=
      List.mem_filter.mpr ⟨hsent d hd, decide_eq_true rfl⟩
    exact List.mem_map_of_mem hmem
  have hperm : LoggedOnce pb s datagrams ↔
      (datagrams.flatMap (copies loggers)).Perm (datagrams.map Datagram.content) :=
    ⟨hrecords.symm.trans, hrecords.trans⟩
  rw [hperm, Fanout.flatMap_perm_map_iff hown]
  refine ⟨?_, ?_⟩
  · intro hone d hd
    exact (copies_eq_singleton_iff hnodup (hsent d hd)).mp (hone d hd)
  · intro hports d hd
    exact (copies_eq_singleton_iff hnodup (hsent d hd)).mpr (hports d hd)

end

/-! ## The streams of the README -/

/-- A `UDPMessageWrapper` in protobuf's wire format, its port not negative. -/
def messageBytes (m : UDPMessageWrapper) : List UInt8 :=
  0x0a :: varint m.address.utf8ByteSize ++ m.address.toUTF8.data.toList ++
    0x10 :: varint m.port.toInt.toNat ++ 0x18 :: varint m.timestamp.toNat ++
    0x22 :: varint m.data.length ++ m.data

/-- The generated parsers, for the bytes of the given wrappers. -/
def messageProtobuf (messages : List UDPMessageWrapper) : Protobuf where
  parseUDPMessageWrapper bytes :=
    match messages.find? fun m => messageBytes m = bytes with
    | some m => (true, m)
    | none => (false, {})
  parseSSLReferee _ := (false, {})

/-- The addresses of the groups. -/
def groupAddress (address : String) : UInt32 :=
  if address = "224.5.23.1" then 0xe0051701
  else if address = "224.5.23.2" then 0xe0051702
  else 0xe0051703

/-- One round of the loop of a logger thread, from the opening of its socket. -/
def roundSteps {n : Nat} (t : Fin n) (data : List UInt8) (now : UInt64) :
    List (Action (Fin n)) :=
  [.thread t (.openSocket true), .thread t .check, .thread t (.receive data),
    .thread t (.stamp now), .thread t .lock, .thread t .writeSize, .thread t .writePayload,
    .thread t .unlock]

/-- `./bin/logger 224.5.23.1:10030 224.5.23.3:10030`: the streams it logs by default, and
two groups on one port. -/
def readmeStreams : List ProtobufLogger :=
  [⟨kVisionMulticast, kVisionPort⟩, ⟨kRefereeMulticast, 10003⟩,
    ⟨"224.5.23.1", 10030⟩, ⟨"224.5.23.3", 10030⟩]

/-- A packet of remote control. -/
def remoteControl : Datagram :=
  ⟨"224.5.23.3", 10030, [1], by decide, by decide, by decide⟩

/-- Both loggers on the port receive it. -/
def readmeSteps : List (Action (Fin readmeStreams.length)) :=
  roundSteps ⟨2, by decide⟩ [1] 100 ++ roundSteps ⟨3, by decide⟩ [1] 101

def readmeState : LoggerState (Fin readmeStreams.length) :=
  (run (LoggerState.step messageBytes readmeStreams.get) .start readmeSteps).getD .start

theorem logsAll_readme :
    LogsAll groupAddress readmeStreams messageBytes [remoteControl] readmeSteps readmeState where
  run := rfl
  fileOpen := rfl
  received := by
    have heq : ∀ t, receivedBy t readmeSteps =
        deliveredTo groupAddress readmeStreams (readmeStreams.get t) [remoteControl] := by
      decide
    intro t
    rw [heq t]
  finished := by decide

/-- The two records of it. -/
def readmeMessages : List UDPMessageWrapper :=
  [⟨"224.5.23.1", 10030, 100, [1]⟩, ⟨"224.5.23.3", 10030, 101, [1]⟩]

theorem recordsOf_readme :
    (recordsOf messageBytes readmeStreams.get .start readmeSteps).map (·.message) =
      readmeMessages := rfl

theorem parsesBack_readme :
    ∀ r ∈ recordsOf messageBytes readmeStreams.get .start readmeSteps,
      ParsesBack (messageProtobuf readmeMessages) messageBytes r.message :=
  parsesBack_of_messages recordsOf_readme (by unfold ParsesBack; decide)

/-- One datagram gives two records, under both labels. -/
theorem logged_twice :
    ¬ ∀ (host : String → UInt32) (loggers : List ProtobufLogger)
      (serialize : UDPMessageWrapper → List UInt8) (pb : Protobuf)
      (datagrams : List Datagram) (actions : List (Action (Fin loggers.length)))
      (s : LoggerState (Fin loggers.length)),
      loggers.Nodup → (∀ d ∈ datagrams, ⟨d.address, d.port⟩ ∈ loggers) →
      LogsAll host loggers serialize datagrams actions s →
      (∀ r ∈ recordsOf serialize loggers.get .start actions,
        ParsesBack pb serialize r.message) →
      LoggedOnce pb s datagrams := by
  intro h
  have honce := h groupAddress readmeStreams messageBytes (messageProtobuf readmeMessages)
    [remoteControl] readmeSteps readmeState (by decide) (by decide) logsAll_readme
    parsesBack_readme
  have hmessages := logMessages_of_logsAll logsAll_readme parsesBack_readme
  rw [recordsOf_readme] at hmessages
  have hlen := honce.length_eq
  rw [hmessages] at hlen
  cases hlen

/-- `./bin/logger`: no two streams on one port. -/
def defaultStreams : List ProtobufLogger :=
  [⟨kVisionMulticast, kVisionPort⟩, ⟨kRefereeMulticast, 10003⟩]

/-- A packet of each stream. -/
def defaultDatagrams : List Datagram :=
  [⟨kRefereeMulticast, 10003, [7], by decide, by decide, by decide⟩,
    ⟨kVisionMulticast, kVisionPort, [8], by decide, by decide, by decide⟩]

def defaultSteps : List (Action (Fin defaultStreams.length)) :=
  roundSteps ⟨0, by decide⟩ [8] 100 ++ roundSteps ⟨1, by decide⟩ [7] 101

def defaultState : LoggerState (Fin defaultStreams.length) :=
  (run (LoggerState.step messageBytes defaultStreams.get) .start defaultSteps).getD .start

def defaultMessages : List UDPMessageWrapper :=
  [⟨kVisionMulticast, kVisionPort, 100, [8]⟩, ⟨kRefereeMulticast, 10003, 101, [7]⟩]

theorem logsAll_default :
    LogsAll groupAddress defaultStreams messageBytes defaultDatagrams defaultSteps
      defaultState where
  run := rfl
  fileOpen := rfl
  received := by
    have heq : ∀ t, receivedBy t defaultSteps =
        deliveredTo groupAddress defaultStreams (defaultStreams.get t) defaultDatagrams := by
      decide
    intro t
    rw [heq t]
  finished := by decide

theorem parsesBack_default :
    ∀ r ∈ recordsOf messageBytes defaultStreams.get .start defaultSteps,
      ParsesBack (messageProtobuf defaultMessages) messageBytes r.message :=
  parsesBack_of_messages rfl (by unfold ParsesBack; decide)

/-- Both datagrams are logged once, under their own labels. -/
theorem logged_once_default :
    LoggedOnce (messageProtobuf defaultMessages) defaultState defaultDatagrams ↔
      OwnPorts defaultStreams defaultDatagrams :=
  logged_once_iff (by decide) (by decide) logsAll_default parsesBack_default

end SslAutoref.Theorems
