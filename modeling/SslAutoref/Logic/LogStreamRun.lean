import Mathlib.Data.List.TakeWhile
import SslAutoref.Logic.LoggerRun
import SslAutoref.Model.LogStream

/-!
# What becomes of the log file

The run of a logger up to `fclose`, and what comes after it:

* nothing is written to the log behind `fclose` (`exists_before_close`), and no thread receives
  more than one datagram that is not in a record by then (`length_receivedBy_le`);
* the file has a beginning of what `fwrite` was called with, and all of it once it is closed
  (`file_eq_take`, `file_of_closed`).
-/

namespace SslAutoref

open Steps

section

variable {ι : Type} [DecidableEq ι] {serialize : UDPMessageWrapper → List UInt8}
  {loggers : ι → ProtobufLogger} {actions : List (Action ι)} {s : LoggerState ι}

/-! ## Until the file is closed -/

/-- What happens before `fclose`. -/
def beforeClose (actions : List (Action ι)) : List (Action ι) :=
  actions.takeWhile fun a => a ≠ .main .fclose

/-- Without `fclose` the file is open. -/
theorem fileOpen_of_not_closed
    (hrun : run (LoggerState.step serialize loggers) .start actions = some s)
    (hnot : ∀ a ∈ actions, a ≠ .main .fclose) : s.main.fileOpen = true := by
  revert hnot
  refine @invariant_run _ _ _ (fun actions s => (∀ a ∈ actions, a ≠ .main .fclose) →
    s.main.fileOpen = true) _ (fun _ => rfl) ?_ _ _ hrun
  intro actions s a s' _ hI hstep hnot
  have hopen := hI fun b hb => hnot b (List.mem_append_left _ hb)
  obtain ⟨henabled, rfl⟩ := step_eq_some_iff.mp hstep
  cases a with
  | sigInt => exact hopen
  | thread t a =>
    show (s.share t a).main.fileOpen = true
    rw [main_share]
    exact hopen
  | main a =>
    have hpc : s.main = a.pc := henabled
    cases a with
    | check =>
      show (if s.run then MainPc.waiting else MainPc.deleting).fileOpen = true
      split <;> rfl
    | deleteLoggers => rfl
    | fclose => exact absurd rfl (hnot _ (List.mem_append_right _ (List.mem_singleton_self _)))
    | exit =>
      rw [hpc] at hopen
      cases hopen

/-- Once it is closed it stays so, and nothing is added to it. -/
theorem closed_step {s' : LoggerState ι} {a : Action ι} (hclosed : s.main.fileOpen = false)
    (hstep : s.step serialize loggers a = some s') :
    s'.main.fileOpen = false ∧ s'.logFile = s.logFile := by
  obtain ⟨henabled, rfl⟩ := step_eq_some_iff.mp hstep
  cases a with
  | sigInt => exact ⟨hclosed, rfl⟩
  | thread t a =>
    have hwrite : ∀ bytes, (s.fwrite t bytes).logFile = s.logFile := by
      intro bytes
      unfold LoggerState.fwrite
      rw [hclosed]
      rfl
    refine ⟨?_, ?_⟩
    · show (s.share t a).main.fileOpen = false
      rw [main_share]
      exact hclosed
    · show (s.share t a).logFile = s.logFile
      cases a with
      | writeSize => exact hwrite _
      | writePayload => exact hwrite _
      | _ => rfl
  | main a =>
    have hpc : s.main = a.pc := henabled
    refine ⟨?_, rfl⟩
    cases a with
    | exit => rfl
    | fclose => rfl
    | _ =>
      rw [hpc] at hclosed
      cases hclosed

theorem logFile_of_closed {s₁ : LoggerState ι} (hclosed : s₁.main.fileOpen = false)
    (hrun : run (LoggerState.step serialize loggers) s₁ actions = some s) :
    s.logFile = s₁.logFile := by
  refine (@invariant_run _ _ _ (fun _ s => s.main.fileOpen = false ∧
    s.logFile = s₁.logFile) _ ⟨hclosed, rfl⟩ ?_ _ _ hrun).2
  intro _ s a s' _ hI hstep
  obtain ⟨hopen, hfile⟩ := closed_step hI.1 hstep
  exact ⟨hopen, hfile.trans hI.2⟩

/-- What comes behind the steps before `fclose` begins with it. -/
theorem eq_fclose_of_dropWhile {a : Action ι} {later : List (Action ι)}
    (hrest : actions.dropWhile (fun a => a ≠ .main .fclose) = a :: later) :
    a = .main .fclose := by
  have hhead := List.head?_dropWhile_not (fun a => decide (a ≠ Action.main .fclose)) actions
  rw [hrest] at hhead
  simpa using hhead

/-- A run either ends before `fclose`, or goes on from the state it is called in. -/
theorem run_beforeClose
    (hrun : run (LoggerState.step serialize loggers) .start actions = some s) :
    ∃ s₀, run (LoggerState.step serialize loggers) .start (beforeClose actions) = some s₀ ∧
      (actions = beforeClose actions ∧ s = s₀ ∨
        ∃ later, actions = beforeClose actions ++ .main .fclose :: later ∧ s₀.main = .closing ∧
          run (LoggerState.step serialize loggers)
            (s₀.effect serialize loggers (.main .fclose)) later = some s) := by
  have hsplit : beforeClose actions ++ actions.dropWhile (fun a => a ≠ .main .fclose) =
      actions := List.takeWhile_append_dropWhile
  rw [← hsplit, run_append] at hrun
  obtain ⟨s₀, hbefore, hafter⟩ := Option.bind_eq_some_iff.mp hrun
  refine ⟨s₀, hbefore, ?_⟩
  cases hrest : actions.dropWhile (fun a => a ≠ .main .fclose) with
  | nil =>
    rw [hrest] at hafter hsplit
    rw [List.append_nil] at hsplit
    exact .inl ⟨hsplit.symm, (Option.some.inj hafter).symm⟩
  | cons a later =>
    have hfclose : a = .main .fclose := eq_fclose_of_dropWhile hrest
    subst hfclose
    rw [hrest, run] at hafter
    obtain ⟨s₁, hstep, hlater⟩ := Option.bind_eq_some_iff.mp hafter
    obtain ⟨henabled, rfl⟩ := step_eq_some_iff.mp hstep
    rw [hrest] at hsplit
    exact .inr ⟨later, hsplit.symm, henabled, hlater⟩

/-- The file a run leaves is the one it had when it was closed, if it was. -/
theorem exists_before_close
    (hrun : run (LoggerState.step serialize loggers) .start actions = some s) :
    ∃ s₀, run (LoggerState.step serialize loggers) .start (beforeClose actions) = some s₀ ∧
      s₀.main.fileOpen = true ∧ s.logFile = s₀.logFile := by
  obtain ⟨s₀, hbefore, hafter⟩ := run_beforeClose hrun
  have hopen : s₀.main.fileOpen = true := by
    refine fileOpen_of_not_closed hbefore fun a ha => ?_
    have hne := List.mem_takeWhile_imp ha
    simpa using hne
  refine ⟨s₀, hbefore, hopen, ?_⟩
  rcases hafter with ⟨-, rfl⟩ | ⟨later, -, -, hlater⟩
  · rfl
  · have hfile := logFile_of_closed rfl hlater
    exact hfile

/-! ## What is received behind that -/

/-- What a thread may still receive once `run_` is false. -/
def Pc.receptionsLeft (pc : Pc) : Nat := if pc = .receiving then 1 else 0

/-- Whether a step receives something. -/
def ThreadAction.receives (a : ThreadAction) : Bool := !a.received.isEmpty

theorem receptionsLeft_step (logger : ProtobufLogger) {th : LoggerThread} {a : ThreadAction}
    (hpc : th.pc = a.pc) :
    (if a.receives = true then 1 else 0) +
        (th.step serialize logger false a).pc.receptionsLeft ≤ th.pc.receptionsLeft := by
  rw [hpc]
  cases a with
  | openSocket ok => cases ok <;> exact Nat.le_refl 0
  | receive d =>
    by_cases hd : recv d = []
    · simp [LoggerThread.step, ThreadAction.pc, ThreadAction.receives, ThreadAction.received,
        Pc.receptionsLeft, hd]
    · simp [LoggerThread.step, ThreadAction.pc, ThreadAction.receives, ThreadAction.received,
        Pc.receptionsLeft, hd]
  | _ => exact Nat.le_refl 0

theorem length_receivedBy_eq_countP (t : ι) (actions : List (Action ι)) :
    (receivedBy t actions).length = actions.countP (isStepOf t ThreadAction.receives) := by
  induction actions with
  | nil => rfl
  | cons a actions ih =>
    have hcons : receivedBy t (a :: actions) = receivedBy t [a] ++ receivedBy t actions := by
      unfold receivedBy
      rw [List.flatMap_cons, List.flatMap_cons, List.flatMap_nil, List.append_nil]
    have hfirst : (receivedBy t [a]).length =
        if isStepOf t ThreadAction.receives a = true then 1 else 0 := by
      cases a with
      | sigInt => rfl
      | main a => rfl
      | thread u a =>
        by_cases hut : u = t
        · subst hut
          cases a with
          | receive d =>
            by_cases hd : recv d = [] <;>
              simp [receivedBy, isStepOf, ThreadAction.receives, ThreadAction.received, hd]
          | _ => simp [receivedBy, isStepOf, ThreadAction.receives, ThreadAction.received]
        · simp [receivedBy, isStepOf, hut]
    rw [hcons, List.length_append, ih, hfirst, List.countP_cons, Nat.add_comm]

/-- **What is lost.** Of all that a thread receives in a run at most one datagram is not in a
record when the file is closed. -/
theorem length_receivedBy_le
    (hrun : run (LoggerState.step serialize loggers) .start actions = some s) (t : ι) :
    (receivedBy t actions).length ≤ finishedBy t (beforeClose actions) + 1 := by
  obtain ⟨s₀, hbefore, hafter⟩ := run_beforeClose hrun
  have hlength := length_receivedBy hbefore t
  -- a thread that waits for a datagram has none in hand
  have hhand : (s₀.threads t).inHand.length + (s₀.threads t).pc.receptionsLeft ≤ 1 := by
    unfold LoggerThread.inHand Pc.receptionsLeft
    cases (s₀.threads t).pc <;> simp
  rcases hafter with ⟨hall, -⟩ | ⟨later, hall, hmain, hlater⟩
  · rw [← hall] at hlength ⊢
    omega
  · have hreceived : receivedBy t actions =
        receivedBy t (beforeClose actions) ++ receivedBy t later := by
      conv_lhs => rw [hall]
      exact List.flatMap_append
    have hrunning : s₀.run = false := run_eq_false_of_not_waiting hbefore (by rw [hmain]; nofun)
    have hfalse : (s₀.effect serialize loggers (.main .fclose)).run = false := hrunning
    have hle := @countP_thread_le _ serialize loggers _ later _ s t Pc.receptionsLeft
      ThreadAction.receives (fun th a hpc => receptionsLeft_step (loggers t) hpc) hfalse hlater
    have hsame : ((s₀.effect serialize loggers (.main .fclose)).threads t).pc =
        (s₀.threads t).pc := rfl
    rw [hsame] at hle
    rw [hreceived, List.length_append, length_receivedBy_eq_countP t later]
    omega

end

/-! ## The stream -/

/-- The steps of the process in a run. -/
def processSteps {ι : Type} (actions : List (Action ι × Nat)) : List (Action ι) :=
  actions.map Prod.fst

section

variable {ι : Type} [DecidableEq ι] {serialize : UDPMessageWrapper → List UInt8}
  {loggers : ι → ProtobufLogger} {actions : List (Action ι × Nat)} {s s' : StreamState ι}

theorem process_step {a : Action ι × Nat} (h : s.step serialize loggers a = some s') :
    s.process.step serialize loggers a.1 = some s'.process := by
  obtain ⟨process, hprocess, rfl⟩ := Option.map_eq_some_iff.mp h
  exact hprocess

/-- The process does not see the stream. -/
theorem process_run (hrun : run (StreamState.step serialize loggers) {} actions = some s) :
    run (LoggerState.step serialize loggers) .start (processSteps actions) = some s.process := by
  have hsimulates := @run_simulates _ _ (StreamState.step serialize loggers) _ _
    (LoggerState.step serialize loggers) StreamState.process (fun _ a => [a.1])
    (fun s a s' h => (run_singleton _ _).trans (process_step h)) _ _ _ hrun
  rwa [outputs_eq_map hrun] at hsimulates

/-- What the stream has got, and what of it is in the file. -/
structure Streamed (s : StreamState ι) : Prop where
  contents : s.process.main.fileOpen = true → s.stream.contents = bytesOf s.process.logFile
  closed : s.process.main.fileOpen = false → s.stream.file = bytesOf s.process.logFile

omit [DecidableEq ι] in
/-- A call of `fwrite` adds to the log what it adds to the stream. -/
theorem bytesOf_fwrite {s : LoggerState ι} (hopen : s.main.fileOpen = true) (t : ι)
    (bytes : List UInt8) : bytesOf (s.fwrite t bytes).logFile = bytesOf s.logFile ++ bytes := by
  rw [fwrite_of_open hopen]
  unfold bytesOf
  rw [List.flatMap_append]
  simp

omit [DecidableEq ι] in
/-- A step that leaves the file open. -/
theorem streamed_of_open {s : StreamState ι} (hopen : s.process.main.fileOpen = true)
    (hcontents : s.stream.contents = bytesOf s.process.logFile) : Streamed s := by
  refine ⟨fun _ => hcontents, fun hclosed => ?_⟩
  rw [hopen] at hclosed
  cases hclosed

theorem streamed_step {a : Action ι × Nat} (h : Streamed s)
    (hstep : s.step serialize loggers a = some s') : Streamed s' := by
  obtain ⟨a, moved⟩ := a
  obtain ⟨process, hprocess, rfl⟩ := Option.map_eq_some_iff.mp hstep
  cases hopen : s.process.main.fileOpen with
  | false =>
    -- the file stays closed, and as it is
    obtain ⟨hclosed, hfile⟩ := closed_step hopen hprocess
    refine ⟨fun hnot => ?_, fun _ => ?_⟩
    · dsimp only at hnot
      rw [hclosed] at hnot
      cases hnot
    · show s.stream.file = _
      rw [hfile]
      exact h.closed hopen
  | true =>
    have hcontents := h.contents hopen
    obtain ⟨henabled, rfl⟩ := step_eq_some_iff.mp hprocess
    rw [if_pos rfl]
    cases a with
    | sigInt => exact streamed_of_open hopen hcontents
    | thread t a =>
      refine streamed_of_open ?_ ?_
      · show (s.process.share t a).main.fileOpen = true
        rw [main_share]
        exact hopen
      · show _ = bytesOf (s.process.share t a).logFile
        cases a with
        | writeSize =>
          show (s.stream.put _ moved).contents = bytesOf (s.process.fwrite t _).logFile
          rw [Buffered.contents_put, bytesOf_fwrite hopen, hcontents]
        | writePayload =>
          show (s.stream.put _ moved).contents = bytesOf (s.process.fwrite t _).logFile
          rw [Buffered.contents_put, bytesOf_fwrite hopen, hcontents]
        | _ => exact hcontents
    | main a =>
      have hpc : s.process.main = a.pc := henabled
      cases a with
      | check =>
        refine streamed_of_open ?_ hcontents
        show (if s.process.run then MainPc.waiting else MainPc.deleting).fileOpen = true
        split <;> rfl
      | deleteLoggers => exact streamed_of_open rfl hcontents
      | fclose =>
        refine ⟨nofun, fun _ => ?_⟩
        show s.stream.close.file = bytesOf s.process.logFile
        rw [Buffered.file_close, hcontents]
      | exit =>
        rw [hpc] at hopen
        cases hopen

/-- **The stream** has what was written to the log, in every run. -/
theorem streamed_run (hrun : run (StreamState.step serialize loggers) {} actions = some s) :
    Streamed s :=
  @invariant_run _ _ _ (fun _ => Streamed) _ (streamed_of_open rfl rfl)
    (fun _ _ _ _ _ h hstep => streamed_step h hstep) _ _ hrun

theorem file_of_closed (hrun : run (StreamState.step serialize loggers) {} actions = some s)
    (hclosed : s.process.main.fileOpen = false) : s.stream.file = bytesOf s.process.logFile :=
  (streamed_run hrun).closed hclosed

/-- The file is a beginning of what was written. -/
theorem file_eq_take (hrun : run (StreamState.step serialize loggers) {} actions = some s) :
    s.stream.file = (bytesOf s.process.logFile).take s.stream.file.length := by
  have hstreamed := streamed_run hrun
  cases hopen : s.process.main.fileOpen with
  | false => rw [hstreamed.closed hopen, List.take_length]
  | true =>
    rw [← hstreamed.contents hopen]
    exact List.prefix_iff_eq_take.mp (Buffered.prefix_contents s.stream)

end

end SslAutoref
