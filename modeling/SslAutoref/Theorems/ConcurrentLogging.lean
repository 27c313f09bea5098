import SslAutoref.Logic.LoggerRun

/-!
# Concurrent logging

Any number of threads append records to one file, each in two writes under the
mutex. Whatever the order of their steps, no record is torn, lost, doubled or put
out of its thread's order (`log_intact`). The time in a record is read before the
mutex is taken, so records of different threads can be out of order, but only those
that were stamped before the other was written (`time_order`).
-/

namespace SslAutoref.Theorems

open Steps

section

variable {ι : Type} [DecidableEq ι] {serialize : UDPMessageWrapper → List UInt8}
  {loggers : ι → ProtobufLogger} {actions : List (Action ι)} {s : LoggerState ι}

/-! ## Records -/

/-- What was written to the file in some actions. -/
structure LogIntact (serialize : UDPMessageWrapper → List UInt8)
    (loggers : ι → ProtobufLogger) (actions : List (Action ι)) (s : LoggerState ι) : Prop where
  /-- While the mutex is free the file is made of both writes of every finished record. -/
  whole : s.loggingMutex = none →
    s.logFile =
      (recordsOf serialize loggers .start actions).flatMap (recordWrites serialize)
  /-- The bytes of these are a sequence of frames. -/
  framed : s.loggingMutex = none →
    bytesOf s.logFile = Framing.encodeFrames kSizeWidth
      ((recordsOf serialize loggers .start actions).map fun r =>
        payloadBlock (serialize r.message))
  /-- While a thread holds the mutex, at most one write of its own is behind them. -/
  held : ∀ t, s.loggingMutex = some t →
    ∃ writes, s.logFile =
        (recordsOf serialize loggers .start actions).flatMap (recordWrites serialize) ++
          writes ∧
      writes.length ≤ 1 ∧ ∀ w ∈ writes, w.thread = t
  /-- The records of a thread are the datagrams it received and finished, in order and
  once each, under its own label. -/
  ordered : ∀ t,
    (ofThread t (recordsOf serialize loggers .start actions)).map Record.content =
      ((receivedBy t actions).take (finishedBy t actions)).map fun data =>
        ((loggers t).ipAddress, (loggers t).portNumber, data)
  /-- A thread that has nothing in hand has finished all it received. -/
  complete : ∀ t, (s.threads t).inHand = [] →
    finishedBy t actions = (receivedBy t actions).length

/-- **No record is torn, lost, doubled or reordered**, until the file is closed. -/
theorem log_intact
    (hrun : run (LoggerState.step serialize loggers) .start actions = some s)
    (hopen : s.main.fileOpen = true) : LogIntact serialize loggers actions s := by
  have hfile := logFile_eq hrun hopen
  have hwhole : s.loggingMutex = none → s.logFile =
      (recordsOf serialize loggers .start actions).flatMap (recordWrites serialize) := by
    intro hfree
    rw [hfile, pending_of_free hfree, List.append_nil]
  refine ⟨hwhole, ?_, ?_, ?_, ?_⟩
  · intro hfree
    rw [hwhole hfree, bytesOf_recordWrites, loggedBytes_eq, List.map_map]
    rfl
  · intro t hheld
    refine ⟨s.pending serialize, hfile, ?_⟩
    by_cases hpc : (s.threads t).pc = .writingPayload
    · rw [pending_of_writing hheld hpc]
      refine ⟨Nat.le_refl 1, ?_⟩
      intro w hw
      obtain rfl := List.mem_singleton.mp hw
      rfl
    · rw [pending_of_not_writing hheld hpc]
      exact ⟨Nat.zero_le 1, nofun⟩
  · exact content_ofThread hrun
  · intro t hnone
    rw [length_receivedBy hrun t, hnone]
    rfl

/-! ## Time -/

/-- The readings of the clock, in order. -/
def clockReadings (actions : List (Action ι)) : List UInt64 :=
  actions.filterMap fun
    | .thread _ (.stamp now) => some now
    | _ => none

omit [DecidableEq ι] in
theorem clockReadings_append (as bs : List (Action ι)) :
    clockReadings (as ++ bs) = clockReadings as ++ clockReadings bs :=
  List.filterMap_append

/-- The message of thread `t` is one it has had since state `s₁`. -/
def SinceThen (s₁ : LoggerState ι) (t : ι) (message : UDPMessageWrapper) : Prop :=
  (s₁.threads t).pc.hasMessage = true ∧ message = (s₁.threads t).messageWrapper

/-- A message that waits to be written is stamped with a reading of the run, unless it
was there when the run began. -/
theorem timestamp_of_message {s₁ : LoggerState ι}
    (hrun : run (LoggerState.step serialize loggers) s₁ actions = some s) (t : ι)
    (ht : (s.threads t).pc.hasMessage = true) :
    (s.threads t).messageWrapper.timestamp ∈ clockReadings actions ∨
      SinceThen s₁ t (s.threads t).messageWrapper := by
  revert ht
  refine @invariant_run _ _ _ (fun actions s => (s.threads t).pc.hasMessage = true →
    (s.threads t).messageWrapper.timestamp ∈ clockReadings actions ∨
      SinceThen s₁ t (s.threads t).messageWrapper) _ (fun ht => .inr ⟨ht, rfl⟩) ?_ _ _ hrun
  intro actions s a s' hrun hI hstep
  obtain ⟨henabled, rfl⟩ := step_eq_some_iff.mp hstep
  -- the clock readings only grow
  have hmono : (s.threads t).pc.hasMessage = true →
      (s.threads t).messageWrapper.timestamp ∈ clockReadings (actions ++ [a]) ∨
        SinceThen s₁ t (s.threads t).messageWrapper := by
    intro ht
    rw [clockReadings_append]
    exact (hI ht).imp_left (List.mem_append_left _)
  cases a with
  | sigInt => exact hmono
  | main a => exact hmono
  | thread u a =>
    by_cases hut : t = u
    · subst hut
      rw [threads_effect_self]
      have hpc : (s.threads t).pc = a.pc := henabled.2.1
      intro ht
      rcases hasMessage_step hpc ht with ⟨now, rfl⟩ | ⟨hhad, hsame⟩
      · refine .inl ?_
        rw [clockReadings_append]
        exact List.mem_append_right _ (List.mem_singleton.mpr rfl)
      · rw [hsame]
        exact hmono hhad
    · rw [threads_effect_of_ne a hut]
      exact hmono

theorem timestamp_of_record {s₁ : LoggerState ι}
    (hrun : run (LoggerState.step serialize loggers) s₁ actions = some s) :
    ∀ r ∈ recordsOf serialize loggers s₁ actions,
      r.message.timestamp ∈ clockReadings actions ∨ SinceThen s₁ r.thread r.message := by
  refine @invariant_run _ _ _ (fun actions _ => ∀ r ∈ recordsOf serialize loggers s₁ actions,
    r.message.timestamp ∈ clockReadings actions ∨ SinceThen s₁ r.thread r.message) _
    nofun ?_ _ _ hrun
  intro actions s a s' hrun hI hstep r hr
  rw [recordsOf_concat hrun, List.mem_append] at hr
  have hmono : r.message.timestamp ∈ clockReadings actions ∨ SinceThen s₁ r.thread r.message →
      r.message.timestamp ∈ clockReadings (actions ++ [a]) ∨
        SinceThen s₁ r.thread r.message := by
    rw [clockReadings_append]
    exact Or.imp_left (List.mem_append_left _)
  rcases hr with hr | hr
  · exact hmono (hI r hr)
  · obtain ⟨rfl, hmessage⟩ := eq_of_mem_recordOut hr
    obtain ⟨henabled, -⟩ := step_eq_some_iff.mp hstep
    have hpc : (s.threads r.thread).pc = .writingPayload := henabled.2.1
    rw [hmessage] at hmono ⊢
    exact hmono (timestamp_of_message hrun r.thread (by rw [hpc]; rfl))

/-- From the start every timestamp is a reading. -/
theorem timestamp_mem_clockReadings
    (hrun : run (LoggerState.step serialize loggers) .start actions = some s) :
    ∀ r ∈ recordsOf serialize loggers .start actions,
      r.message.timestamp ∈ clockReadings actions := by
  intro r hr
  refine (timestamp_of_record hrun r hr).resolve_right ?_
  intro h
  exact absurd h.1 Bool.false_ne_true

/-- The timestamps of one thread do not decrease, up to the message it has to write. -/
theorem thread_order
    (hrun : run (LoggerState.step serialize loggers) .start actions = some s)
    (hclock : (clockReadings actions).Pairwise (· ≤ ·)) (t : ι) :
    (ofThread t (recordsOf serialize loggers .start actions)).Pairwise
        (fun r r' => r.message.timestamp ≤ r'.message.timestamp) ∧
      ((s.threads t).pc.hasMessage = true →
        ∀ r ∈ ofThread t (recordsOf serialize loggers .start actions),
          r.message.timestamp ≤ (s.threads t).messageWrapper.timestamp) := by
  revert hclock
  refine @invariant_run _ _ _ (fun actions s => (clockReadings actions).Pairwise (· ≤ ·) →
    (ofThread t (recordsOf serialize loggers .start actions)).Pairwise
        (fun r r' => r.message.timestamp ≤ r'.message.timestamp) ∧
      ((s.threads t).pc.hasMessage = true →
        ∀ r ∈ ofThread t (recordsOf serialize loggers .start actions),
          r.message.timestamp ≤ (s.threads t).messageWrapper.timestamp)) _
    (fun _ => ⟨.nil, fun _ => nofun⟩) ?_ _ _ hrun
  intro actions s a s' hrun hI hstep hclock
  obtain ⟨henabled, rfl⟩ := step_eq_some_iff.mp hstep
  rw [clockReadings_append, List.pairwise_append] at hclock
  obtain ⟨hbefore, -, hlast⟩ := hclock
  obtain ⟨hsorted, hmessage⟩ := hI hbefore
  rw [recordsOf_concat hrun, ofThread_append]
  cases a with
  | sigInt => exact (List.append_nil (ofThread t _)).symm ▸ ⟨hsorted, hmessage⟩
  | main a => exact (List.append_nil (ofThread t _)).symm ▸ ⟨hsorted, hmessage⟩
  | thread u a =>
    by_cases hut : t = u
    · subst hut
      have hpc : (s.threads t).pc = a.pc := henabled.2.1
      rw [threads_effect_self, ofThread_recordOut_self]
      by_cases hwrite : a = .writePayload
      · -- the message that waited becomes the last record
        subst hwrite
        rw [hpc] at hmessage
        refine ⟨List.pairwise_append.mpr ⟨hsorted, List.pairwise_singleton _ _, ?_⟩, nofun⟩
        intro r hr r' hr'
        obtain rfl := List.mem_singleton.mp hr'
        exact hmessage rfl r hr
      · have hout : recordOut s (.thread t a) = [] := by
          cases a with
          | writePayload => exact absurd rfl hwrite
          | _ => rfl
        rw [hout, List.append_nil]
        refine ⟨hsorted, ?_⟩
        intro ht r hr
        rcases hasMessage_step hpc ht with ⟨now, rfl⟩ | ⟨hhad, hsame⟩
        · -- a new reading is no earlier than all before it
          have hmem := timestamp_mem_clockReadings hrun r (List.mem_filter.mp hr).1
          exact hlast _ hmem now (List.mem_singleton.mpr rfl)
        · rw [hsame]
          exact hmessage hhad r hr
    · rw [threads_effect_of_ne a hut, ofThread_recordOut_of_ne s a hut, List.append_nil]
      exact ⟨hsorted, hmessage⟩

/-- How the times in the file are ordered. -/
structure TimeOrder (serialize : UDPMessageWrapper → List UInt8)
    (loggers : ι → ProtobufLogger) (actions : List (Action ι)) (s : LoggerState ι) : Prop where
  /-- The file holds the records in the order in which they were finished. -/
  file : s.main.fileOpen = true →
    s.logFile =
      (recordsOf serialize loggers .start actions).flatMap (recordWrites serialize) ++
        s.pending serialize
  /-- The records of one thread are in time order. -/
  thread : ∀ t,
    (ofThread t (recordsOf serialize loggers .start actions)).Pairwise
      fun r r' => r.message.timestamp ≤ r'.message.timestamp
  /-- A record is no older than one that is in the file when it is stamped: one that is
  older was stamped before, and waited to be written. -/
  later : ∀ before after s₁, actions = before ++ after →
    run (LoggerState.step serialize loggers) .start before = some s₁ →
    recordsOf serialize loggers .start actions =
        recordsOf serialize loggers .start before ++ recordsOf serialize loggers s₁ after ∧
      ∀ r ∈ recordsOf serialize loggers .start before,
        ∀ r' ∈ recordsOf serialize loggers s₁ after,
          r.message.timestamp ≤ r'.message.timestamp ∨ SinceThen s₁ r'.thread r'.message

/-- **The order of time in the log**, when the readings of the clock never decrease. -/
theorem time_order
    (hrun : run (LoggerState.step serialize loggers) .start actions = some s)
    (hclock : (clockReadings actions).Pairwise (· ≤ ·)) :
    TimeOrder serialize loggers actions s := by
  refine ⟨logFile_eq hrun, fun t => (thread_order hrun hclock t).1, ?_⟩
  -- the later records carry later readings, or were stamped when `before` ended
  rintro before after s₁ rfl hbefore
  have hafter : run (LoggerState.step serialize loggers) s₁ after = some s := by
    rwa [run_append_of_some hbefore] at hrun
  refine ⟨outputs_append hbefore after, ?_⟩
  intro r hr r' hr'
  rw [clockReadings_append, List.pairwise_append] at hclock
  rcases timestamp_of_record hafter r' hr' with hnew | hold
  · exact .inl (hclock.2.2 _ (timestamp_mem_clockReadings hbefore r hr) _ hnew)
  · exact .inr hold

end

/-! ## Two threads -/

/-- The thread of the refbox, and that of an autoref. -/
def twoLoggers : Bool → ProtobufLogger
  | true => ⟨"224.5.23.1", 10003⟩
  | false => ⟨"224.5.23.1", 10030⟩

/-- A thread up to its clock reading. -/
def stampSteps (t : Bool) (data : List UInt8) (now : UInt64) : List (Action Bool) :=
  [.thread t (.openSocket true), .thread t .check, .thread t (.receive data),
    .thread t (.stamp now)]

/-- And from there until it has released the mutex. -/
def writeSteps (t : Bool) : List (Action Bool) :=
  [.thread t .lock, .thread t .writeSize, .thread t .writePayload, .thread t .unlock]

/-- One thread is stamped before the other and written after it. -/
def overtaken : List (Action Bool) :=
  stampSteps false [5] 100 ++ stampSteps true [6] 200 ++ writeSteps true ++ writeSteps false

/-- The state a run of two threads ends in, when only the data are serialized. -/
def twoThreads (actions : List (Action Bool)) : LoggerState Bool :=
  (run (LoggerState.step (·.data) twoLoggers) .start actions).getD .start

theorem run_overtaken :
    run (LoggerState.step (·.data) twoLoggers) .start overtaken =
      some (twoThreads overtaken) := rfl

/-- Both records are whole, and under the labels of their threads. -/
theorem log_intact_overtaken :
    LogIntact (·.data) twoLoggers overtaken (twoThreads overtaken) :=
  log_intact run_overtaken rfl

/-- The record that is stamped first comes last. -/
theorem log_out_of_order :
    ¬ ∀ (ι : Type) [DecidableEq ι] (serialize : UDPMessageWrapper → List UInt8)
      (loggers : ι → ProtobufLogger) (actions : List (Action ι)) (s : LoggerState ι),
      run (LoggerState.step serialize loggers) .start actions = some s →
      (clockReadings actions).Pairwise (· ≤ ·) →
      ((recordsOf serialize loggers .start actions).map (·.message.timestamp)).Pairwise
        (· ≤ ·) := by
  intro h
  have hsorted := h Bool (·.data) twoLoggers overtaken _ run_overtaken (by decide)
  have htimes : (recordsOf (·.data) twoLoggers .start overtaken).map (·.message.timestamp) =
      [200, 100] := rfl
  rw [htimes] at hsorted
  exact absurd hsorted (by decide)

/-- The run has the order it can have. -/
theorem time_order_overtaken :
    TimeOrder (·.data) twoLoggers overtaken (twoThreads overtaken) :=
  time_order run_overtaken (by decide)

end SslAutoref.Theorems
