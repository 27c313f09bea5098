import SslAutoref.Logic.LoggerRun

/-!
# Shutdown

`main` closes the log file as soon as it sees that `run_` is false. It does not wait
for the logger threads, whose destructors do nothing, so a thread that has looked at
`run_` before writes to a closed file, or leaves a record in two halves. The log is
well closed in the runs in which every thread is outside the receive branch when the
file is closed, and in no others can that be relied on (`well_closed`).
-/

namespace SslAutoref.Theorems

open Steps

section

variable {ι : Type}

/-- Nothing is written after `fclose`, and what `fclose` found is a sequence of complete
records. -/
structure WellClosed (s : LoggerState ι) : Prop where
  late : s.lateWrites = []
  complete : s.main.fileOpen = false →
    ∃ payloads : List (List UInt8), (∀ p ∈ payloads, p.length < 2 ^ 32) ∧
      bytesOf s.logFile = Framing.encodeFrames kSizeWidth payloads

/-- The places from which a thread does not get to write without looking at `run_`. -/
def Pc.quiet : Pc → Bool
  | .opening | .checking | .unlocking | .done => true
  | _ => false

/-- Every thread is at such a place. -/
def Quiet (s : LoggerState ι) : Prop := ∀ t, Pc.quiet (s.threads t).pc = true

/-- The file is closed only while every thread is. -/
def ClosesQuietly (s : LoggerState ι) (a : Action ι) : Prop := a = .main .fclose → Quiet s

/-! ## Runs that close quietly -/

theorem share_of_open {s : LoggerState ι} (hopen : s.main.fileOpen = true) (t : ι)
    (a : ThreadAction) : (s.share t a).lateWrites = s.lateWrites := by
  cases a with
  | writeSize =>
    show (s.fwrite t _).lateWrites = _
    rw [fwrite_of_open hopen]
  | writePayload =>
    show (s.fwrite t _).lateWrites = _
    rw [fwrite_of_open hopen]
  | _ => rfl

/-- A step from a quiet place writes nothing, and with `run_` false it leads to one. -/
theorem share_of_quiet {a : ThreadAction} (ha : Pc.quiet a.pc = true) (s : LoggerState ι)
    (t : ι) :
    (s.share t a).logFile = s.logFile ∧ (s.share t a).lateWrites = s.lateWrites := by
  cases a with
  | writeSize => cases ha
  | writePayload => cases ha
  | _ => exact ⟨rfl, rfl⟩

theorem quiet_step {serialize : UDPMessageWrapper → List UInt8} {logger : ProtobufLogger}
    {th : LoggerThread} {a : ThreadAction} (ha : Pc.quiet a.pc = true) :
    Pc.quiet (th.step serialize logger false a).pc = true := by
  cases a with
  | openSocket ok => cases ok <;> rfl
  | check => rfl
  | unlock => rfl
  | _ => cases ha

/-- What holds of the states of a run that closes quietly. -/
structure Closing (s : LoggerState ι) : Prop where
  stopped : s.main ≠ .waiting → s.run = false
  quiet : s.main.fileOpen = false → Quiet s
  closed : WellClosed s

/-- A step that leaves the file open. -/
theorem closing_of_open {s : LoggerState ι} (hopen : s.main.fileOpen = true)
    (hstopped : s.main ≠ .waiting → s.run = false) (hlate : s.lateWrites = []) :
    Closing s := by
  have hnot : s.main.fileOpen ≠ false := by
    rw [hopen]
    exact nofun
  exact ⟨hstopped, fun h => absurd h hnot, hlate, fun h => absurd h hnot⟩

theorem fwrite_of_closed {s : LoggerState ι} {t : ι} {bytes : List UInt8}
    (h : s.main.fileOpen = false) :
    s.fwrite t bytes = { s with lateWrites := s.lateWrites ++ [⟨t, bytes⟩] } :=
  if_neg (by rw [h]; exact Bool.false_ne_true)

variable [DecidableEq ι] {serialize : UDPMessageWrapper → List UInt8}
  {loggers : ι → ProtobufLogger} {actions : List (Action ι)} {s : LoggerState ι}

/-- Without a thread between its two writes the file is complete. -/
theorem complete_of_quiet
    (hrun : run (LoggerState.step serialize loggers) .start actions = some s)
    (hopen : s.main.fileOpen = true) (hquiet : Quiet s) :
    ∃ payloads : List (List UInt8), (∀ p ∈ payloads, p.length < 2 ^ 32) ∧
      bytesOf s.logFile = Framing.encodeFrames kSizeWidth payloads := by
  have hpending : s.pending serialize = [] := by
    refine pending_of_none_writing fun t hpc => ?_
    have ht := hquiet t
    rw [hpc] at ht
    cases ht
  refine ⟨(recordsOf serialize loggers .start actions).map fun r =>
    payloadBlock (serialize r.message), ?_, ?_⟩
  · intro p hp
    obtain ⟨r, -, rfl⟩ := List.mem_map.mp hp
    exact length_payloadBlock_lt _
  · rw [logFile_eq hrun hopen, hpending, List.append_nil, bytesOf_recordWrites,
      loggedBytes_eq, List.map_map]
    rfl

theorem closing_step {s' : LoggerState ι} {a : Action ι}
    (hrun : run (LoggerState.step serialize loggers) .start actions = some s)
    (hI : Closing s) (hC : ClosesQuietly s a)
    (hstep : s.step serialize loggers a = some s') : Closing s' := by
  obtain ⟨henabled, rfl⟩ := step_eq_some_iff.mp hstep
  cases a with
  | sigInt => exact ⟨fun _ => rfl, hI.quiet, hI.closed.late, hI.closed.complete⟩
  | main a =>
    have hmain : s.main = a.pc := henabled
    have hstopped := hI.stopped
    rw [hmain] at hstopped
    cases a with
    | check =>
      have hmain' : (s.effect serialize loggers (.main .check)).main =
          if s.run then .waiting else .deleting := rfl
      refine closing_of_open ?_ ?_ hI.closed.late
      · rw [hmain']
        split <;> rfl
      · rw [hmain']
        show _ → s.run = false
        cases s.run with
        | true => exact fun h => absurd rfl h
        | false => exact fun _ => rfl
    | deleteLoggers =>
      exact closing_of_open rfl (fun _ => hstopped nofun) hI.closed.late
    | fclose =>
      -- the only step that closes the file, and it is a quiet one
      have hquiet : Quiet s := hC rfl
      have hcomplete := complete_of_quiet hrun (by rw [hmain]; rfl) hquiet
      exact ⟨fun _ => hstopped nofun, fun _ => hquiet, hI.closed.late, fun _ => hcomplete⟩
    | exit =>
      have hclosed : s.main.fileOpen = false := by rw [hmain]; rfl
      exact ⟨fun _ => hstopped nofun, fun _ => hI.quiet hclosed, hI.closed.late,
        fun _ => hI.closed.complete hclosed⟩
  | thread t a =>
    obtain ⟨-, hpc, -⟩ := henabled
    have hmain : (s.effect serialize loggers (.thread t a)).main = s.main := main_share s t a
    have hrunning : (s.effect serialize loggers (.thread t a)).run = s.run := run_share s t a
    have hstopped : (s.effect serialize loggers (.thread t a)).main ≠ .waiting →
        (s.effect serialize loggers (.thread t a)).run = false := by
      rw [hmain, hrunning]
      exact hI.stopped
    cases hfile : s.main.fileOpen with
    | true =>
      refine closing_of_open (hmain ▸ hfile) hstopped ?_
      exact (share_of_open hfile t a).trans hI.closed.late
    | false =>
      -- the file is closed and `run_` is false, so quiet places lead to quiet places
      have hquiet := hI.quiet hfile
      have ha : Pc.quiet a.pc = true := hpc ▸ hquiet t
      have hfalse : s.run = false := hI.stopped (by rintro h; rw [h] at hfile; cases hfile)
      obtain ⟨hlog, hlate⟩ := share_of_quiet ha s t
      refine ⟨hstopped, fun _ u => ?_, hlate.trans hI.closed.late, fun _ => ?_⟩
      · by_cases hut : u = t
        · subst hut
          rw [threads_effect_self, hfalse]
          exact quiet_step ha
        · rw [threads_effect_of_ne a hut]
          exact hquiet u
      · show ∃ payloads : List (List UInt8), _ ∧ bytesOf (s.share t a).logFile = _
        rw [hlog]
        exact hI.closed.complete hfile

theorem closing_run
    (hrun : run (LoggerState.step serialize loggers) .start actions = some s)
    (hquiet : Along (LoggerState.step serialize loggers) ClosesQuietly .start actions) :
    Closing s :=
  @invariant_along _ _ _ ClosesQuietly (fun _ => Closing) _
    (closing_of_open rfl (fun h => absurd rfl h) rfl)
    (fun _ _ _ _ hrun hI hC hstep => closing_step hrun hI hC hstep) _ _ hrun hquiet

/-! ## Runs that do not -/

/-- Some run from here writes to the closed file. -/
def WritesLate (serialize : UDPMessageWrapper → List UInt8) (loggers : ι → ProtobufLogger)
    (s : LoggerState ι) : Prop :=
  ∃ later s', run (LoggerState.step serialize loggers) s later = some s' ∧ s'.lateWrites ≠ []

theorem WritesLate.of_step {a : Action ι} (henabled : s.Enabled a)
    (h : WritesLate serialize loggers (s.effect serialize loggers a)) :
    WritesLate serialize loggers s := by
  obtain ⟨later, s', hrun, hlate⟩ := h
  refine ⟨a :: later, s', ?_, hlate⟩
  rw [run, step_eq_some_iff.mpr ⟨henabled, rfl⟩]
  exact hrun

/-- A thread that is at one of its writes makes it. -/
theorem writesLate_of_writing (hmain : s.main = .returning) {t : ι}
    (hpc : (s.threads t).pc = .writingSize ∨ (s.threads t).pc = .writingPayload) :
    WritesLate serialize loggers s := by
  have hclosed : s.main.fileOpen = false := by rw [hmain]; rfl
  have halive : s.main ≠ .exited := by rw [hmain]; nofun
  have hdone : ∀ s' : LoggerState ι, s'.lateWrites ≠ [] → WritesLate serialize loggers s' :=
    fun s' hlate => ⟨[], s', rfl, hlate⟩
  rcases hpc with hpc | hpc
  · have henabled : s.Enabled (.thread t .writeSize) := ⟨halive, hpc, nofun⟩
    refine WritesLate.of_step henabled (hdone _ ?_)
    show (s.fwrite t _).lateWrites ≠ []
    rw [fwrite_of_closed hclosed]
    exact List.append_ne_nil_of_right_ne_nil _ nofun
  · have henabled : s.Enabled (.thread t .writePayload) := ⟨halive, hpc, nofun⟩
    refine WritesLate.of_step henabled (hdone _ ?_)
    show (s.fwrite t _).lateWrites ≠ []
    rw [fwrite_of_closed hclosed]
    exact List.append_ne_nil_of_right_ne_nil _ nofun

/-- A thread that waits for a free mutex takes it and writes. -/
theorem writesLate_of_locking_free (hmain : s.main = .returning)
    (hfree : s.loggingMutex = none) {t : ι} (hpc : (s.threads t).pc = .locking) :
    WritesLate serialize loggers s := by
  have henabled : s.Enabled (.thread t .lock) := ⟨by rw [hmain]; nofun, hpc, fun _ => hfree⟩
  refine WritesLate.of_step henabled ?_
  refine @writesLate_of_writing _ _ _ _ _ hmain t (.inl ?_)
  rw [threads_effect_self]
  rfl

/-- When the mutex is taken, the thread that holds it writes, or releases it. -/
theorem writesLate_of_locking (hmain : s.main = .returning) (hmutex : MutexHeld s) {t : ι}
    (hpc : (s.threads t).pc = .locking) : WritesLate serialize loggers s := by
  cases hheld : s.loggingMutex with
  | none => exact writesLate_of_locking_free hmain hheld hpc
  | some u =>
    have hholds := (hmutex.eq_some_iff u).mp hheld
    cases hu : (s.threads u).pc with
    | writingSize => exact writesLate_of_writing hmain (.inl hu)
    | writingPayload => exact writesLate_of_writing hmain (.inr hu)
    | unlocking =>
      -- it releases the mutex, and the thread that waits takes it
      have henabled : s.Enabled (.thread u .unlock) := ⟨by rw [hmain]; nofun, hu, nofun⟩
      have htu : t ≠ u := by
        rintro rfl
        rw [hpc] at hu
        cases hu
      refine WritesLate.of_step henabled ?_
      refine @writesLate_of_locking_free _ _ _ _ _ hmain rfl t ?_
      rw [threads_effect_of_ne _ htu]
      exact hpc
    | _ =>
      rw [hu] at hholds
      cases hholds

/-- A step of a thread that leads to such a state. -/
theorem writesLate_of_thread (hmain : s.main = .returning) (hmutex : MutexHeld s) {t : ι}
    {a : ThreadAction} (hpc : (s.threads t).pc = a.pc) (hlock : a ≠ .lock)
    (hnext : ∀ s' : LoggerState ι, s'.main = .returning → MutexHeld s' →
      (s'.threads t).pc = ((s.threads t).step serialize (loggers t) s.run a).pc →
      WritesLate serialize loggers s') :
    WritesLate serialize loggers s := by
  have henabled : s.Enabled (.thread t a) :=
    ⟨by rw [hmain]; nofun, hpc, fun h => absurd h hlock⟩
  have hmutex' : MutexHeld (s.effect serialize loggers (.thread t a)) :=
    mutexHeld_step hmutex (step_eq_some_iff.mpr ⟨henabled, rfl⟩)
  refine WritesLate.of_step henabled (hnext _ ?_ hmutex' ?_)
  · exact (main_share s t a).trans hmain
  · rw [threads_effect_self]

theorem writesLate_of_stamping (hmain : s.main = .returning) (hmutex : MutexHeld s) {t : ι}
    (hpc : (s.threads t).pc = .stamping) : WritesLate serialize loggers s := by
  have hstamp : (s.threads t).pc = (ThreadAction.stamp 0).pc := hpc
  refine writesLate_of_thread hmain hmutex hstamp nofun ?_
  intro s' hmain' hmutex' hpc'
  exact writesLate_of_locking hmain' hmutex' hpc'

/-- A thread that waits for a datagram can receive one. -/
theorem writesLate_of_receiving (hmain : s.main = .returning) (hmutex : MutexHeld s) {t : ι}
    (hpc : (s.threads t).pc = .receiving) : WritesLate serialize loggers s := by
  have hreceive : (s.threads t).pc = (ThreadAction.receive [0]).pc := hpc
  refine writesLate_of_thread hmain hmutex hreceive nofun ?_
  intro s' hmain' hmutex' hpc'
  exact writesLate_of_stamping hmain' hmutex' hpc'

theorem writesLate_of_not_quiet (hmain : s.main = .returning) (hmutex : MutexHeld s)
    (hnot : ¬ Quiet s) : WritesLate serialize loggers s := by
  obtain ⟨t, ht⟩ := not_forall.mp hnot
  cases hpc : (s.threads t).pc with
  | receiving => exact writesLate_of_receiving hmain hmutex hpc
  | stamping => exact writesLate_of_stamping hmain hmutex hpc
  | locking => exact writesLate_of_locking hmain hmutex hpc
  | writingSize => exact writesLate_of_writing hmain (.inl hpc)
  | writingPayload => exact writesLate_of_writing hmain (.inr hpc)
  | _ =>
    rw [hpc] at ht
    exact absurd rfl ht

/-- **Shutdown.** In every state of a run that closes the file only while all threads
are quiet, the log is well closed. From any other state in which the file is about to
be closed a run goes on that writes to the closed file. -/
theorem well_closed
    (hrun : run (LoggerState.step serialize loggers) .start actions = some s) :
    (Along (LoggerState.step serialize loggers) ClosesQuietly .start actions → WellClosed s) ∧
      (s.main = .closing → ¬ Quiet s →
        ∃ later s', run (LoggerState.step serialize loggers) .start
            (actions ++ .main .fclose :: later) = some s' ∧ ¬ WellClosed s') := by
  refine ⟨fun hquiet => (closing_run hrun hquiet).closed, ?_⟩
  intro hmain hnot
  have hclose : s.step serialize loggers (.main .fclose) =
      some (s.effect serialize loggers (.main .fclose)) := step_eq_some_iff.mpr ⟨hmain, rfl⟩
  have hmutex := mutexHeld_step (mutexHeld_run hrun) hclose
  obtain ⟨later, s', hlater, hlate⟩ :=
    @writesLate_of_not_quiet _ _ serialize loggers _ rfl hmutex hnot
  refine ⟨later, s', ?_, fun hwell => hlate hwell.late⟩
  rw [run_append_of_some hrun, run, hclose]
  exact hlater

end

/-! ## One thread -/

/-- The steps of the only thread up to its place between two writes. -/
def halfRecord : List (Action Unit) :=
  [.thread () (.openSocket true), .thread () .check, .thread () (.receive [5]),
    .thread () (.stamp 100), .thread () .lock, .thread () .writeSize]

/-- `main` closes the file there, and the payload follows. -/
def closedBetween : List (Action Unit) :=
  halfRecord ++
    [.sigInt, .main .check, .main .deleteLoggers, .main .fclose, .thread () .writePayload]

/-- The thread finishes the record and leaves the loop. -/
def finished : List (Action Unit) :=
  halfRecord ++
    [.thread () .writePayload, .thread () .unlock, .sigInt, .thread () .check, .main .check,
      .main .deleteLoggers]

/-- The state a run of the refbox's thread ends in, when only the data are serialized. -/
def oneThread (actions : List (Action Unit)) : LoggerState Unit :=
  (run (LoggerState.step (·.data) fun _ => ⟨"224.5.23.1", 10003⟩) .start actions).getD .start

/-- Half a record is closed, and the other half written late. -/
theorem writes_after_close :
    ¬ ∀ (ι : Type) [DecidableEq ι] (serialize : UDPMessageWrapper → List UInt8)
      (loggers : ι → ProtobufLogger) (actions : List (Action ι)) (s : LoggerState ι),
      run (LoggerState.step serialize loggers) .start actions = some s → WellClosed s := by
  intro h
  have hwell := h Unit (·.data) (fun _ => ⟨"224.5.23.1", 10003⟩) closedBetween
    (oneThread closedBetween) rfl
  have hlate : (oneThread closedBetween).lateWrites = [⟨(), [5]⟩] := rfl
  exact absurd (hlate.symm.trans hwell.late) nofun

theorem along_finished :
    Along (LoggerState.step (·.data) fun _ => ⟨"224.5.23.1", 10003⟩) ClosesQuietly .start
      (finished ++ [.main .fclose, .main .exit]) := by
  have hrun : run (LoggerState.step (·.data) fun _ => ⟨"224.5.23.1", 10003⟩) .start finished =
      some (oneThread finished) := rfl
  refine (along_append hrun).mpr ⟨?_, ?_⟩
  · have hnone : ∀ a ∈ finished, a ≠ .main .fclose := by decide
    exact along_of_forall (fun a ha _ hclose => absurd hclose (hnone a ha)) _
  · exact ⟨fun _ _ => rfl, fun _ _ => ⟨nofun, fun _ _ => trivial⟩⟩

/-- The log is well closed when the thread was out of the loop. -/
theorem well_closed_finished :
    WellClosed (oneThread (finished ++ [.main .fclose, .main .exit])) :=
  (@well_closed _ _ (·.data) (fun _ => ⟨"224.5.23.1", 10003⟩) _ _ rfl).1 along_finished

end SslAutoref.Theorems
