import SslAutoref.Lib.Mutex
import SslAutoref.Model.Logger

/-!
# Runs of the logger

What the logger threads and the file are like in every state a run reaches, whatever
the order of the steps:

* the mutex is held by the one thread that writes (`MutexHeld`),
* every thread's wrapper carries its own label and is what its buffer serializes
  (`LoggerThread.Ready`),
* what a thread received is what it has written and what it has in hand
  (`received_eq`), and
* until `fclose` the file is the records that were finished, and at most the size of
  one more (`logFile_eq`).

A step of one thread leaves the others alone, so each fact is proved from what the
step does to the locals of its own thread.
-/

namespace SslAutoref

open Steps

/-! ## What the threads share -/

section

variable {ι : Type} {serialize : UDPMessageWrapper → List UInt8} {s : LoggerState ι}

@[simp] theorem run_fwrite (s : LoggerState ι) (t : ι) (bytes : List UInt8) :
    (s.fwrite t bytes).run = s.run := by
  unfold LoggerState.fwrite
  split <;> rfl

@[simp] theorem main_fwrite (s : LoggerState ι) (t : ι) (bytes : List UInt8) :
    (s.fwrite t bytes).main = s.main := by
  unfold LoggerState.fwrite
  split <;> rfl

@[simp] theorem loggingMutex_fwrite (s : LoggerState ι) (t : ι) (bytes : List UInt8) :
    (s.fwrite t bytes).loggingMutex = s.loggingMutex := by
  unfold LoggerState.fwrite
  split <;> rfl

@[simp] theorem run_share (s : LoggerState ι) (t : ι) (a : ThreadAction) :
    (s.share t a).run = s.run := by
  cases a <;> simp [LoggerState.share]

@[simp] theorem main_share (s : LoggerState ι) (t : ι) (a : ThreadAction) :
    (s.share t a).main = s.main := by
  cases a <;> simp [LoggerState.share]

/-- Only the lock and the unlock touch the mutex. -/
theorem loggingMutex_share {a : ThreadAction} (hlock : a ≠ .lock) (hunlock : a ≠ .unlock)
    (s : LoggerState ι) (t : ι) : (s.share t a).loggingMutex = s.loggingMutex := by
  cases a with
  | lock => exact absurd rfl hlock
  | unlock => exact absurd rfl hunlock
  | writeSize => exact loggingMutex_fwrite s t _
  | writePayload => exact loggingMutex_fwrite s t _
  | _ => rfl

theorem fwrite_of_open {t : ι} {bytes : List UInt8} (h : s.main.fileOpen = true) :
    s.fwrite t bytes = { s with logFile := s.logFile ++ [⟨t, bytes⟩] } :=
  if_pos h

/-- The places at which a thread holds the mutex. -/
def Pc.holdsMutex : Pc → Bool
  | .writingSize | .writingPayload | .unlocking => true
  | _ => false

/-- The mutex is held by the thread that is at such a place, and by no other. -/
def MutexHeld (s : LoggerState ι) : Prop :=
  Mutex.Held Pc.holdsMutex s.loggingMutex fun t => (s.threads t).pc

theorem MutexHeld.eq_some_iff (h : MutexHeld s) (t : ι) :
    s.loggingMutex = some t ↔ (s.threads t).pc.holdsMutex = true := h t

theorem mutexHeld_start : MutexHeld (.start : LoggerState ι) := Mutex.held_of_free fun _ => rfl

/-- The size that is written of a record whose payload is not. -/
def LoggerState.pending (serialize : UDPMessageWrapper → List UInt8) (s : LoggerState ι) :
    List (Write ι) :=
  match s.loggingMutex with
  | none => []
  | some t =>
    if (s.threads t).pc = .writingPayload then
      [⟨t, sizeBlock (serialize (s.threads t).messageWrapper)⟩]
    else []

theorem pending_of_not_writing {t : ι} (hmutex : s.loggingMutex = some t)
    (hpc : (s.threads t).pc ≠ .writingPayload) : s.pending serialize = [] := by
  unfold LoggerState.pending
  rw [hmutex]
  exact if_neg hpc

theorem pending_of_writing {t : ι} (hmutex : s.loggingMutex = some t)
    (hpc : (s.threads t).pc = .writingPayload) :
    s.pending serialize = [⟨t, sizeBlock (serialize (s.threads t).messageWrapper)⟩] := by
  unfold LoggerState.pending
  rw [hmutex]
  exact if_pos hpc

theorem pending_of_free (hmutex : s.loggingMutex = none) : s.pending serialize = [] := by
  unfold LoggerState.pending
  rw [hmutex]

/-- Nothing is pending when no thread is between its two writes. -/
theorem pending_of_none_writing (h : ∀ t, (s.threads t).pc ≠ .writingPayload) :
    s.pending serialize = [] := by
  cases hmutex : s.loggingMutex with
  | none => exact pending_of_free hmutex
  | some t => exact pending_of_not_writing hmutex (h t)

end

/-! ## Histories -/

/-- A record, with the thread that wrote it and the wrapper it was serialized from. -/
structure Record (ι : Type) where
  thread : ι
  message : UDPMessageWrapper
  deriving DecidableEq

/-- What a record says of a datagram: the label and the data. -/
def Record.content {ι : Type} (r : Record ι) : String × Int32 × List UInt8 :=
  (r.message.address, r.message.port, r.message.data)

section

variable {ι : Type} (serialize : UDPMessageWrapper → List UInt8)
  (loggers : ι → ProtobufLogger)

/-- The two writes of a record. -/
def recordWrites (r : Record ι) : List (Write ι) :=
  [⟨r.thread, sizeBlock (serialize r.message)⟩,
    ⟨r.thread, payloadBlock (serialize r.message)⟩]

/-- The bytes of a list of writes. -/
def bytesOf (writes : List (Write ι)) : List UInt8 := writes.flatMap (·.bytes)

theorem bytesOf_recordWrites (records : List (Record ι)) :
    bytesOf (records.flatMap (recordWrites serialize)) =
      loggedBytes (records.map fun r => serialize r.message) := by
  induction records with
  | nil => rfl
  | cons r rs ih =>
    have hcons : bytesOf ((r :: rs).flatMap (recordWrites serialize)) =
        sizeBlock (serialize r.message) ++ (payloadBlock (serialize r.message) ++
          bytesOf (rs.flatMap (recordWrites serialize))) := rfl
    rw [hcons, ih, ← List.append_assoc]
    rfl

/-- The record an action finishes. -/
def recordOut (s : LoggerState ι) : Action ι → List (Record ι)
  | .thread t .writePayload => [⟨t, (s.threads t).messageWrapper⟩]
  | _ => []

/-- A record is finished by the payload write of its thread. -/
theorem eq_of_mem_recordOut {s : LoggerState ι} {a : Action ι} {r : Record ι}
    (h : r ∈ recordOut s a) :
    a = .thread r.thread .writePayload ∧ r.message = (s.threads r.thread).messageWrapper := by
  cases a with
  | sigInt => cases h
  | main a => cases h
  | thread t a =>
    cases a with
    | writePayload =>
      obtain rfl := List.mem_singleton.mp h
      exact ⟨rfl, rfl⟩
    | _ => cases h

/-- The data an action receives: nothing when the datagram is empty. -/
def ThreadAction.received : ThreadAction → List (List UInt8)
  | .receive datagram => if recv datagram = [] then [] else [recv datagram]
  | _ => []

variable [DecidableEq ι]

/-- The records that are finished in a run, in order. -/
def recordsOf (s : LoggerState ι) (actions : List (Action ι)) : List (Record ι) :=
  outputs (LoggerState.step serialize loggers) recordOut s actions

/-- The non-empty datagrams a thread has received. -/
def receivedBy (t : ι) (actions : List (Action ι)) : List (List UInt8) :=
  actions.flatMap fun
    | .thread u a => if u = t then a.received else []
    | _ => []

/-- How many records a thread has finished writing. -/
def finishedBy (t : ι) (actions : List (Action ι)) : Nat :=
  actions.countP fun a => a = .thread t .writePayload

/-- The records of one thread. -/
def ofThread (t : ι) (records : List (Record ι)) : List (Record ι) :=
  records.filter fun r => r.thread = t

theorem ofThread_append (t : ι) (rs rs' : List (Record ι)) :
    ofThread t (rs ++ rs') = ofThread t rs ++ ofThread t rs' :=
  List.filter_append _ _

/-! ## One step -/

variable {serialize loggers}

theorem recordsOf_concat {s₀ s : LoggerState ι} {actions : List (Action ι)}
    (hrun : run (LoggerState.step serialize loggers) s₀ actions = some s) (a : Action ι) :
    recordsOf serialize loggers s₀ (actions ++ [a]) =
      recordsOf serialize loggers s₀ actions ++ recordOut s a :=
  outputs_concat hrun a

theorem step_eq_some_iff {s s' : LoggerState ι} {a : Action ι} :
    s.step serialize loggers a = some s' ↔
      s.Enabled a ∧ s' = s.effect serialize loggers a := by
  unfold LoggerState.step
  split
  · rename_i henabled
    exact ⟨fun h => ⟨henabled, (Option.some.inj h).symm⟩, fun h => h.2 ▸ rfl⟩
  · rename_i hnot
    exact ⟨nofun, fun h => absurd h.1 hnot⟩

/-- A step leaves the locals of the other threads alone. -/
theorem threads_effect_of_ne {s : LoggerState ι} {t u : ι} (a : ThreadAction) (h : u ≠ t) :
    (s.effect serialize loggers (.thread t a)).threads u = s.threads u :=
  Function.update_of_ne h _ _

theorem threads_effect_self (s : LoggerState ι) (t : ι) (a : ThreadAction) :
    (s.effect serialize loggers (.thread t a)).threads t =
      (s.threads t).step serialize (loggers t) s.run a :=
  Function.update_self _ _ _

/-- What another thread finishes is no record of this one. -/
theorem ofThread_recordOut_of_ne {t u : ι} (s : LoggerState ι) (a : ThreadAction) (h : t ≠ u) :
    ofThread t (recordOut s (.thread u a)) = [] := by
  cases a with
  | writePayload => simp [ofThread, recordOut, Ne.symm h]
  | _ => rfl

theorem ofThread_recordOut_self (s : LoggerState ι) (t : ι) (a : ThreadAction) :
    ofThread t (recordOut s (.thread t a)) = recordOut s (.thread t a) := by
  cases a with
  | writePayload => simp [ofThread, recordOut]
  | _ => rfl

/-! ## The mutex -/

/-- After any other step a thread holds the mutex if it did before. -/
theorem holdsMutex_step {logger : ProtobufLogger} {run : Bool} {th : LoggerThread}
    {a : ThreadAction} (hpc : th.pc = a.pc) (hlock : a ≠ .lock) (hunlock : a ≠ .unlock) :
    (th.step serialize logger run a).pc.holdsMutex = th.pc.holdsMutex := by
  rw [hpc]
  cases a with
  | openSocket ok => cases ok <;> rfl
  | check => cases run <;> rfl
  | receive d =>
    rw [LoggerThread.step]
    split <;> rfl
  | lock => exact absurd rfl hlock
  | unlock => exact absurd rfl hunlock
  | _ => rfl

/-- The threads lock and unlock the mutex as they get to the places at which they hold it, and
leave them. -/
theorem guards_step :
    Mutex.Guards Pc.holdsMutex (LoggerState.step serialize loggers) LoggerState.loggingMutex
      (fun (s : LoggerState ι) t => (s.threads t).pc) := by
  intro s a s' h
  obtain ⟨henabled, rfl⟩ := step_eq_some_iff.mp h
  cases a with
  | sigInt => exact .inl ⟨rfl, rfl⟩
  | main a => exact .inl ⟨rfl, rfl⟩
  | thread t a =>
    obtain ⟨-, hpc, hfree⟩ := henabled
    refine .inr ⟨t, ((s.threads t).step serialize (loggers t) s.run a).pc, ?_, ?_⟩
    · funext u
      dsimp only
      by_cases hut : u = t
      · subst hut
        rw [threads_effect_self, Function.update_self]
      · rw [threads_effect_of_ne a hut, Function.update_of_ne hut]
    · show Mutex.Does t s.loggingMutex (s.threads t).pc.holdsMutex _ (s.share t a).loggingMutex
      by_cases hlock : a = .lock
      · subst hlock
        exact .lock (hfree rfl) rfl
      by_cases hunlock : a = .unlock
      · subst hunlock
        exact .unlock (by rw [hpc]; rfl) rfl
      rw [loggingMutex_share hlock hunlock]
      exact .leave (holdsMutex_step hpc hlock hunlock)

theorem mutexHeld_step {s s' : LoggerState ι} {a : Action ι} (hI : MutexHeld s)
    (h : s.step serialize loggers a = some s') : MutexHeld s' :=
  guards_step.step hI h

/-! ## The locals -/

/-- The places at which a thread has a message to write. -/
def Pc.hasMessage : Pc → Bool
  | .locking | .writingSize | .writingPayload => true
  | _ => false

/-- The places in the loop. -/
def Pc.inLoop : Pc → Bool
  | .opening | .done => false
  | _ => true

/-- The wrapper carries the label of the logger, and the write buffer is what the
wrapper serializes to. -/
structure LoggerThread.Ready (serialize : UDPMessageWrapper → List UInt8)
    (logger : ProtobufLogger) (th : LoggerThread) : Prop where
  label : th.pc.inLoop = true →
    th.messageWrapper.address = logger.ipAddress ∧ th.messageWrapper.port = logger.portNumber
  buffer : th.pc.hasMessage = true → th.writeBuffer = serialize th.messageWrapper

theorem LoggerThread.Ready.step {logger : ProtobufLogger} {th : LoggerThread}
    (h : th.Ready serialize logger) (run : Bool) {a : ThreadAction} (hpc : th.pc = a.pc) :
    (th.step serialize logger run a).Ready serialize logger := by
  have hlabel := h.label
  have hbuffer := h.buffer
  rw [hpc] at hlabel hbuffer
  cases a with
  | openSocket ok =>
    cases ok with
    | true => exact ⟨fun _ => ⟨rfl, rfl⟩, nofun⟩
    | false => exact ⟨nofun, nofun⟩
  | check => cases run <;> exact ⟨fun _ => hlabel rfl, nofun⟩
  | receive d =>
    rw [LoggerThread.step]
    split <;> exact ⟨fun _ => hlabel rfl, nofun⟩
  | stamp now => exact ⟨fun _ => hlabel rfl, fun _ => rfl⟩
  | lock => exact ⟨fun _ => hlabel rfl, fun _ => hbuffer rfl⟩
  | writeSize => exact ⟨fun _ => hlabel rfl, fun _ => hbuffer rfl⟩
  | writePayload => exact ⟨fun _ => hlabel rfl, nofun⟩
  | unlock => exact ⟨fun _ => hlabel rfl, nofun⟩

/-- A thread has a message after a step when the step makes it, or it had it before. -/
theorem hasMessage_step {logger : ProtobufLogger} {run : Bool} {th : LoggerThread}
    {a : ThreadAction} (hpc : th.pc = a.pc)
    (h : (th.step serialize logger run a).pc.hasMessage = true) :
    (∃ now, a = .stamp now) ∨
      th.pc.hasMessage = true ∧
        (th.step serialize logger run a).messageWrapper = th.messageWrapper := by
  rw [hpc]
  cases a with
  | stamp now => exact .inl ⟨now, rfl⟩
  | lock => exact .inr ⟨rfl, rfl⟩
  | writeSize => exact .inr ⟨rfl, rfl⟩
  | openSocket ok => cases ok <;> cases h
  | check => cases run <;> cases h
  | receive d =>
    rw [LoggerThread.step] at h
    split at h <;> cases h
  | writePayload => cases h
  | unlock => cases h

/-- The data a thread has received and not written yet. -/
def LoggerThread.inHand (th : LoggerThread) : List (List UInt8) :=
  match th.pc with
  | .stamping => [th.receiveBuffer]
  | .locking | .writingSize | .writingPayload => [th.messageWrapper.data]
  | _ => []

/-- The data an action writes. -/
def ThreadAction.written (th : LoggerThread) : ThreadAction → List (List UInt8)
  | .writePayload => [th.messageWrapper.data]
  | _ => []

/-- A step neither loses nor invents data. -/
theorem inHand_append_received (logger : ProtobufLogger) (run : Bool) {th : LoggerThread}
    {a : ThreadAction} (hpc : th.pc = a.pc) :
    th.inHand ++ a.received = a.written th ++ (th.step serialize logger run a).inHand := by
  unfold LoggerThread.inHand
  rw [hpc]
  cases a with
  | openSocket ok => cases ok <;> rfl
  | check => cases run <;> rfl
  | receive d =>
    rw [ThreadAction.received, LoggerThread.step]
    by_cases hd : recv d = []
    · rw [if_pos hd, if_pos hd]
      rfl
    · rw [if_neg hd, if_neg hd]
      rfl
  | stamp now => rfl
  | lock => rfl
  | writeSize => rfl
  | writePayload => rfl
  | unlock => rfl

/-! ## Every run -/

variable {actions : List (Action ι)} {s : LoggerState ι}

theorem mutexHeld_run
    (hrun : run (LoggerState.step serialize loggers) .start actions = some s) :
    MutexHeld s :=
  guards_step.run mutexHeld_start hrun

/-- What a step preserves of the locals of the thread that takes it, it preserves of
the locals of all. -/
theorem forall_threads_step {P : ι → LoggerThread → Prop} {s' : LoggerState ι}
    {a : Action ι} (hP : ∀ t, P t (s.threads t))
    (h : s.step serialize loggers a = some s')
    (hstep : ∀ t a, (s.threads t).pc = a.pc →
      P t ((s.threads t).step serialize (loggers t) s.run a)) :
    ∀ t, P t (s'.threads t) := by
  obtain ⟨henabled, rfl⟩ := step_eq_some_iff.mp h
  intro u
  cases a with
  | sigInt => exact hP u
  | main a => exact hP u
  | thread t a =>
    by_cases hut : u = t
    · subst hut
      rw [threads_effect_self]
      exact hstep u a henabled.2.1
    · rw [threads_effect_of_ne a hut]
      exact hP u

theorem ready_run
    (hrun : run (LoggerState.step serialize loggers) .start actions = some s) :
    ∀ t, (s.threads t).Ready serialize (loggers t) :=
  @invariant_run _ _ _ (fun _ s => ∀ t, (s.threads t).Ready serialize (loggers t)) _
    (fun _ => ⟨fun h => absurd h Bool.false_ne_true, fun h => absurd h Bool.false_ne_true⟩)
    (fun _ s _ _ _ hI h => forall_threads_step hI h fun t _ hpc => (hI t).step s.run hpc)
    _ _ hrun

/-- The records of a run carry the labels of their threads. -/
theorem label_of_mem_recordsOf
    (hrun : run (LoggerState.step serialize loggers) .start actions = some s) :
    ∀ r ∈ recordsOf serialize loggers .start actions,
      r.message.address = (loggers r.thread).ipAddress ∧
        r.message.port = (loggers r.thread).portNumber := by
  refine @invariant_run _ _ _ (fun actions _ => ∀ r ∈ recordsOf serialize loggers .start
    actions, r.message.address = (loggers r.thread).ipAddress ∧
      r.message.port = (loggers r.thread).portNumber) _ nofun ?_ _ _ hrun
  intro actions s a s' hrun hI hstep r hr
  rw [recordsOf_concat hrun, List.mem_append] at hr
  rcases hr with hr | hr
  · exact hI r hr
  · obtain ⟨rfl, hmessage⟩ := eq_of_mem_recordOut hr
    obtain ⟨henabled, -⟩ := step_eq_some_iff.mp hstep
    have hpc : (s.threads r.thread).pc = .writingPayload := henabled.2.1
    rw [hmessage]
    exact (ready_run hrun r.thread).label (by rw [hpc]; rfl)

/-- What a thread has received is what it has written, in order and once each, and
what it has in hand. -/
theorem received_eq
    (hrun : run (LoggerState.step serialize loggers) .start actions = some s) (t : ι) :
    receivedBy t actions =
      (ofThread t (recordsOf serialize loggers .start actions)).map (·.message.data) ++
        (s.threads t).inHand := by
  refine @invariant_run _ _ _ (fun actions s => receivedBy t actions =
    (ofThread t (recordsOf serialize loggers .start actions)).map (·.message.data) ++
      (s.threads t).inHand) _ rfl ?_ _ _ hrun
  intro actions s a s' hrun hI hstep
  obtain ⟨henabled, rfl⟩ := step_eq_some_iff.mp hstep
  have hreceived : receivedBy t (actions ++ [a]) = receivedBy t actions ++ receivedBy t [a] :=
    List.flatMap_append
  rw [hreceived, hI, recordsOf_concat hrun, ofThread_append, List.map_append,
    List.append_assoc, List.append_assoc]
  refine congrArg _ ?_
  cases a with
  | sigInt => exact List.append_nil _
  | main a => exact List.append_nil _
  | thread u a =>
    by_cases hut : t = u
    · subst hut
      rw [threads_effect_self]
      have hown : receivedBy t [Action.thread t a] = a.received := by
        simp [receivedBy]
      have hwritten : (recordOut s (.thread t a)).map (·.message.data) =
          a.written (s.threads t) := by
        cases a <;> rfl
      rw [hown, ofThread_recordOut_self, hwritten]
      exact inHand_append_received (loggers t) s.run henabled.2.1
    · rw [threads_effect_of_ne a hut]
      have hother : receivedBy t [Action.thread u a] = [] := by
        simp [receivedBy, Ne.symm hut]
      rw [hother, ofThread_recordOut_of_ne s a hut, List.append_nil]
      rfl

/-- A thread has as many records as it has finished. -/
theorem length_ofThread
    (hrun : run (LoggerState.step serialize loggers) .start actions = some s) (t : ι) :
    (ofThread t (recordsOf serialize loggers .start actions)).length =
      finishedBy t actions := by
  refine @invariant_run _ _ _ (fun actions _ =>
    (ofThread t (recordsOf serialize loggers .start actions)).length =
      finishedBy t actions) _ rfl ?_ _ _ hrun
  intro actions s a s' hrun hI hstep
  have hout : (ofThread t (recordOut s a)).length = finishedBy t [a] := by
    cases a with
    | sigInt => rfl
    | main a => rfl
    | thread u a =>
      cases a with
      | writePayload =>
        by_cases hut : u = t <;> simp [ofThread, recordOut, finishedBy, hut]
      | _ => simp [ofThread, recordOut, finishedBy]
  rw [recordsOf_concat hrun, ofThread_append, List.length_append, hout]
  unfold finishedBy
  rw [List.countP_append]
  exact congrArg (· + _) hI

/-- A thread has finished what it has received, but for what it has in hand. -/
theorem length_receivedBy
    (hrun : run (LoggerState.step serialize loggers) .start actions = some s) (t : ι) :
    (receivedBy t actions).length = finishedBy t actions + (s.threads t).inHand.length := by
  rw [received_eq hrun t, List.length_append, List.length_map, length_ofThread hrun t]

/-- The records of a thread are what it has received and finished, under its label. -/
theorem content_ofThread
    (hrun : run (LoggerState.step serialize loggers) .start actions = some s) (t : ι) :
    (ofThread t (recordsOf serialize loggers .start actions)).map Record.content =
      ((receivedBy t actions).take (finishedBy t actions)).map fun data =>
        ((loggers t).ipAddress, (loggers t).portNumber, data) := by
  have hlabel : (ofThread t (recordsOf serialize loggers .start actions)).map
      Record.content =
      (ofThread t (recordsOf serialize loggers .start actions)).map fun r =>
        ((loggers t).ipAddress, (loggers t).portNumber, r.message.data) := by
    refine List.map_congr_left fun r hr => ?_
    obtain ⟨hmem, hthread⟩ := List.mem_filter.mp hr
    obtain rfl := of_decide_eq_true hthread
    obtain ⟨haddress, hport⟩ := label_of_mem_recordsOf hrun r hmem
    rw [Record.content, haddress, hport]
  have hlen := length_ofThread hrun t
  rw [hlabel, received_eq hrun t, ← hlen, List.take_left' (List.length_map _), List.map_map]
  rfl

/-- What is received has data in it. -/
theorem ne_nil_of_mem_receivedBy {t : ι} {data : List UInt8}
    (h : data ∈ receivedBy t actions) : data ≠ [] := by
  obtain ⟨a, -, ha⟩ := List.mem_flatMap.mp h
  cases a with
  | sigInt => cases ha
  | main a => cases ha
  | thread u a =>
    dsimp only at ha
    split at ha
    · cases a with
      | receive datagram =>
        unfold ThreadAction.received at ha
        dsimp only at ha
        split at ha
        · cases ha
        · rename_i hne
          rwa [List.mem_singleton.mp ha]
      | _ => cases ha
    · cases ha

/-- What is logged was received by the thread that logged it. -/
theorem data_mem_receivedBy
    (hrun : run (LoggerState.step serialize loggers) .start actions = some s) {r : Record ι}
    (hr : r ∈ recordsOf serialize loggers .start actions) :
    r.message.data ∈ receivedBy r.thread actions := by
  rw [received_eq hrun r.thread]
  refine List.mem_append_left _ (List.mem_map_of_mem ?_)
  exact List.mem_filter.mpr ⟨hr, decide_eq_true rfl⟩

/-! ## After SIGINT -/

/-- `run_` is never set again. -/
theorem run_step_false {s' : LoggerState ι} {a : Action ι} (hfalse : s.run = false)
    (h : s.step serialize loggers a = some s') : s'.run = false := by
  obtain ⟨-, rfl⟩ := step_eq_some_iff.mp h
  cases a with
  | sigInt => rfl
  | main a => exact hfalse
  | thread t a => exact (run_share s t a).trans hfalse

/-- `main` goes on when it has seen that. -/
theorem run_eq_false_of_not_waiting
    (hrun : run (LoggerState.step serialize loggers) .start actions = some s)
    (hmain : s.main ≠ .waiting) : s.run = false := by
  revert hmain
  refine @invariant_run _ _ _ (fun _ s => s.main ≠ .waiting → s.run = false) _
    (fun h => absurd rfl h) ?_ _ _ hrun
  intro _ s a s' _ hI hstep hmain
  obtain ⟨henabled, rfl⟩ := step_eq_some_iff.mp hstep
  cases a with
  | sigInt => rfl
  | thread t a =>
    have hbefore : s.main ≠ .waiting := by
      rintro h
      exact hmain ((main_share s t a).trans h)
    exact (run_share s t a).trans (hI hbefore)
  | main a =>
    show s.run = false
    have hpc : s.main = a.pc := henabled
    by_cases hwaiting : s.main = .waiting
    · -- the check of the flag leads on only when it is false
      have hcheck : a = .check := by
        rw [hpc] at hwaiting
        cases a <;> first | rfl | cases hwaiting
      subst hcheck
      by_contra htrue
      exact hmain (if_pos (Bool.eq_true_of_not_eq_false htrue))
    · exact hI hwaiting

/-- A step of thread `t` that is counted. -/
def isStepOf (t : ι) (counted : ThreadAction → Bool) : Action ι → Bool
  | .thread u a => u = t && counted a
  | _ => false

/-- What holds of a rank of the locals of thread `t` at its own steps holds in a run. -/
theorem countP_thread_le {s' : LoggerState ι} {t : ι} {rank : Pc → Nat}
    {counted : ThreadAction → Bool}
    (hrank : ∀ (th : LoggerThread) (a : ThreadAction), th.pc = a.pc →
      (if counted a = true then 1 else 0) +
        rank (th.step serialize (loggers t) false a).pc ≤ rank th.pc)
    (hfalse : s.run = false)
    (hrun : run (LoggerState.step serialize loggers) s actions = some s') :
    actions.countP (isStepOf t counted) + rank (s'.threads t).pc ≤ rank (s.threads t).pc := by
  refine @countP_add_le _ _ _ (fun s : LoggerState ι => s.run = false) _
    (fun s : LoggerState ι => rank (s.threads t).pc)
    (fun _ _ _ hfalse h => run_step_false hfalse h) ?_ _ _ _ hfalse hrun
  intro s a s' hfalse h
  obtain ⟨henabled, rfl⟩ := step_eq_some_iff.mp h
  cases a with
  | sigInt => simp [LoggerState.effect, isStepOf]
  | main a => simp [LoggerState.effect, isStepOf]
  | thread u a =>
    by_cases hut : u = t
    · subst hut
      have hown := hrank (s.threads u) a henabled.2.1
      rw [threads_effect_self, hfalse]
      simpa [isStepOf] using hown
    · rw [threads_effect_of_ne a (Ne.symm hut)]
      simp [isStepOf, hut]

/-! ## The file -/

/-- A thread that does not hold the mutex changes nothing about the thread that does. -/
theorem pending_effect {t : ι} {a : ThreadAction} (hnot : s.loggingMutex ≠ some t)
    (hmutex : (s.effect serialize loggers (.thread t a)).loggingMutex = s.loggingMutex) :
    (s.effect serialize loggers (.thread t a)).pending serialize = s.pending serialize := by
  cases hheld : s.loggingMutex with
  | none => rw [pending_of_free hheld, pending_of_free (hmutex.trans hheld)]
  | some u =>
    have hut : u ≠ t := fun h => hnot (h ▸ hheld)
    unfold LoggerState.pending
    rw [hmutex, hheld]
    dsimp only
    rw [threads_effect_of_ne a hut]

/-- A step adds to the file what it finishes, and keeps the size of a record that is
being written behind that. -/
theorem logFile_step {records : List (Record ι)} {s' : LoggerState ι} {a : Action ι}
    (hmutex : MutexHeld s) (hready : ∀ t, (s.threads t).Ready serialize (loggers t))
    (hI : s.main.fileOpen = true →
      s.logFile = records.flatMap (recordWrites serialize) ++ s.pending serialize)
    (hstep : s.step serialize loggers a = some s') (hopen : s'.main.fileOpen = true) :
    s'.logFile = (records ++ recordOut s a).flatMap (recordWrites serialize) ++
      s'.pending serialize := by
  obtain ⟨henabled, rfl⟩ := step_eq_some_iff.mp hstep
  rw [List.flatMap_append]
  cases a with
  | sigInt =>
    show s.logFile = _ ++ [] ++ s.pending serialize
    rw [List.append_nil]
    exact hI hopen
  | main a =>
    have hbefore : s.main.fileOpen = true := by
      rw [show s.main = a.pc from henabled]
      cases a with
      | exit => cases hopen
      | _ => rfl
    show s.logFile = _ ++ [] ++ s.pending serialize
    rw [List.append_nil]
    exact hI hbefore
  | thread t a =>
    obtain ⟨-, hpc, hfree⟩ := henabled
    have hbefore : s.main.fileOpen = true := by
      have hmain : (s.effect serialize loggers (.thread t a)).main = s.main := main_share s t a
      rwa [hmain] at hopen
    have hfile := hI hbefore
    have ht := hmutex.eq_some_iff t
    rw [hpc] at ht
    cases a with
    | lock =>
      -- the mutex was free, so nothing was pending, and nothing is written yet
      have hafter : (s.effect serialize loggers (.thread t .lock)).pending serialize = [] :=
        pending_of_not_writing rfl (by rw [threads_effect_self]; nofun)
      rw [hafter]
      rw [pending_of_free (hfree rfl)] at hfile
      show s.logFile = _ ++ [] ++ []
      rw [List.append_nil]
      exact hfile
    | writeSize =>
      -- the size is pending from here on
      have hheld : s.loggingMutex = some t := ht.mpr rfl
      have hbuffer := (hready t).buffer (by rw [hpc]; rfl)
      have hheld' : (s.effect serialize loggers (.thread t .writeSize)).loggingMutex =
          some t := (loggingMutex_fwrite s t _).trans hheld
      have hafter : (s.effect serialize loggers (.thread t .writeSize)).pending serialize =
          [⟨t, sizeBlock (serialize (s.threads t).messageWrapper)⟩] := by
        rw [pending_of_writing hheld' (by rw [threads_effect_self]; rfl), threads_effect_self]
        rfl
      rw [hafter]
      rw [pending_of_not_writing hheld (by rw [hpc]; nofun), List.append_nil] at hfile
      show (s.fwrite t _).logFile = _ ++ [] ++ _
      rw [fwrite_of_open hbefore, hfile, hbuffer, List.append_nil]
    | writePayload =>
      -- the pending size and the payload make the record that is finished
      have hheld : s.loggingMutex = some t := ht.mpr rfl
      have hbuffer := (hready t).buffer (by rw [hpc]; rfl)
      have hheld' : (s.effect serialize loggers (.thread t .writePayload)).loggingMutex =
          some t := (loggingMutex_fwrite s t _).trans hheld
      have hafter : (s.effect serialize loggers (.thread t .writePayload)).pending serialize =
          [] :=
        pending_of_not_writing hheld' (by rw [threads_effect_self]; nofun)
      rw [hafter]
      rw [pending_of_writing hheld hpc] at hfile
      show (s.fwrite t _).logFile = _
      rw [fwrite_of_open hbefore, hfile, hbuffer, List.append_nil, List.append_assoc]
      rfl
    | unlock =>
      have hafter : (s.effect serialize loggers (.thread t .unlock)).pending serialize = [] :=
        pending_of_free rfl
      rw [hafter]
      rw [pending_of_not_writing (ht.mpr rfl) (by rw [hpc]; nofun)] at hfile
      show s.logFile = _ ++ [] ++ []
      rw [List.append_nil]
      exact hfile
    | _ =>
      -- the thread does not hold the mutex, so the pending size is another's
      rw [pending_effect (fun h => absurd (ht.mp h) Bool.false_ne_true) rfl]
      show s.logFile = _ ++ [] ++ _
      rw [List.append_nil]
      exact hfile

/-- **The file.** Until `fclose` it is the records that were finished, and the size of
the one that is being written. -/
theorem logFile_eq
    (hrun : run (LoggerState.step serialize loggers) .start actions = some s)
    (hopen : s.main.fileOpen = true) :
    s.logFile =
      (recordsOf serialize loggers .start actions).flatMap (recordWrites serialize) ++
        s.pending serialize := by
  revert hopen
  refine @invariant_run _ _ _ (fun actions s => s.main.fileOpen = true → s.logFile =
    (recordsOf serialize loggers .start actions).flatMap (recordWrites serialize) ++
      s.pending serialize) _ (fun _ => rfl) ?_ _ _ hrun
  intro actions s a s' hrun hI hstep hopen
  rw [recordsOf_concat hrun]
  exact logFile_step (mutexHeld_run hrun) (ready_run hrun) hI hstep hopen

end

end SslAutoref
