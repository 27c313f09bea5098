import SslAutoref.Theorems.ConcurrentLogging

/-!
# How the logger winds down

After SIGINT every party has a few steps left: a thread no more than seven, and one record at
most, and `main` four to the end of the process. No thread ever waits for the mutex in vain,
so the only thing that a thread can be kept by is the next datagram (`winds_down`). This is
what `main` would wait for if the destructor of a logger joined its thread.
-/

namespace SslAutoref.Theorems

open Steps

section

variable {ι : Type} {serialize : UDPMessageWrapper → List UInt8}

/-! ## What is left to do -/

/-- The steps that a thread has left once `run_` is false. -/
def Pc.stepsLeft : Pc → Nat
  | .receiving => 7
  | .stamping => 6
  | .locking => 5
  | .writingSize => 4
  | .writingPayload => 3
  | .opening | .unlocking => 2
  | .checking => 1
  | .done => 0

/-- The records that it may still write. -/
def Pc.recordsLeft : Pc → Nat
  | .receiving | .stamping | .locking | .writingSize | .writingPayload => 1
  | _ => 0

/-- The steps that `main` has left. -/
def MainPc.stepsLeft : MainPc → Nat
  | .waiting => 4
  | .deleting => 3
  | .closing => 2
  | .returning => 1
  | .exited => 0

theorem stepsLeft_step (logger : ProtobufLogger) {th : LoggerThread} {a : ThreadAction}
    (hpc : th.pc = a.pc) :
    1 + Pc.stepsLeft (th.step serialize logger false a).pc ≤ Pc.stepsLeft th.pc := by
  rw [hpc]
  cases a with
  | openSocket ok => cases ok <;> simp [LoggerThread.step, ThreadAction.pc, Pc.stepsLeft]
  | receive d =>
    by_cases hd : recv d = []
    · simp [LoggerThread.step, ThreadAction.pc, Pc.stepsLeft, hd]
    · simp [LoggerThread.step, ThreadAction.pc, Pc.stepsLeft, hd]
  | _ => simp [LoggerThread.step, ThreadAction.pc, Pc.stepsLeft]

theorem recordsLeft_step (logger : ProtobufLogger) {th : LoggerThread} {a : ThreadAction}
    (hpc : th.pc = a.pc) :
    (if a = .writePayload then 1 else 0) +
        Pc.recordsLeft (th.step serialize logger false a).pc ≤ Pc.recordsLeft th.pc := by
  rw [hpc]
  cases a with
  | openSocket ok => cases ok <;> simp [LoggerThread.step, ThreadAction.pc, Pc.recordsLeft]
  | receive d =>
    by_cases hd : recv d = []
    · simp [LoggerThread.step, ThreadAction.pc, Pc.recordsLeft, hd]
    · simp [LoggerThread.step, ThreadAction.pc, Pc.recordsLeft, hd]
  | _ => simp [LoggerThread.step, ThreadAction.pc, Pc.recordsLeft]

theorem stepsLeft_main (a : MainAction) :
    1 + MainPc.stepsLeft (MainPc.step false a) ≤ MainPc.stepsLeft a.pc := by
  cases a <;> simp [MainPc.step, MainAction.pc, MainPc.stepsLeft]

/-- There is a step for every place in `LoggerThread`. -/
theorem exists_action {pc : Pc} (h : pc ≠ .done) : ∃ a : ThreadAction, a.pc = pc := by
  cases pc with
  | opening => exact ⟨.openSocket true, rfl⟩
  | checking => exact ⟨.check, rfl⟩
  | receiving => exact ⟨.receive [], rfl⟩
  | stamping => exact ⟨.stamp 0, rfl⟩
  | locking => exact ⟨.lock, rfl⟩
  | writingSize => exact ⟨.writeSize, rfl⟩
  | writingPayload => exact ⟨.writePayload, rfl⟩
  | unlocking => exact ⟨.unlock, rfl⟩
  | done => exact absurd rfl h

/-- When only datagrams could make a thread take a step, no thread waits for anything
else. -/
theorem done_or_receiving {s : LoggerState ι} (hmutex : MutexHeld s) (halive : s.main ≠ .exited)
    (hblocked : ∀ t a, s.Enabled (.thread t a) → a.pc = .receiving) (t : ι) :
    (s.threads t).pc = .done ∨ (s.threads t).pc = .receiving := by
  by_contra hnot
  obtain ⟨hdone, hreceiving⟩ := not_or.mp hnot
  -- a thread that could take a step other than the lock would take it
  have hstep : ∀ u, (s.threads u).pc ≠ .done → (s.threads u).pc ≠ .receiving →
      (s.threads u).pc = .locking := by
    intro u hdone hreceiving
    obtain ⟨a, ha⟩ := exists_action hdone
    by_contra hlocking
    have henabled : s.Enabled (.thread u a) := by
      refine ⟨halive, ha.symm, ?_⟩
      rintro rfl
      exact absurd ha.symm hlocking
    exact hreceiving (ha.symm.trans (hblocked u a henabled))
  have hlocking := hstep t hdone hreceiving
  cases hheld : s.loggingMutex with
  | none =>
    have henabled : s.Enabled (.thread t .lock) := ⟨halive, hlocking, fun _ => hheld⟩
    exact absurd (hblocked t .lock henabled) nofun
  | some u =>
    have hholds := (hmutex.eq_some_iff u).mp hheld
    have hu := hstep u (by rintro hpc; rw [hpc] at hholds; cases hholds)
      (by rintro hpc; rw [hpc] at hholds; cases hholds)
    rw [hu] at hholds
    cases hholds

/-! ## Counting down -/

variable [DecidableEq ι] {loggers : ι → ProtobufLogger} {actions later : List (Action ι)}
  {s s' : LoggerState ι}

/-- A step of `main`. -/
def isStepOfMain : Action ι → Bool
  | .main _ => true
  | _ => false

theorem countP_main_le (hfalse : s.run = false)
    (hrun : run (LoggerState.step serialize loggers) s later = some s') :
    later.countP isStepOfMain + MainPc.stepsLeft s'.main ≤ MainPc.stepsLeft s.main := by
  refine @countP_add_le _ _ _ (fun s : LoggerState ι => s.run = false) _
    (fun s : LoggerState ι => MainPc.stepsLeft s.main)
    (fun _ _ _ hfalse h => run_step_false hfalse h) ?_ _ _ _ hfalse hrun
  intro s a s' hfalse h
  obtain ⟨henabled, rfl⟩ := step_eq_some_iff.mp h
  cases a with
  | sigInt => simp [LoggerState.effect, isStepOfMain]
  | thread t a => simp [LoggerState.effect, isStepOfMain]
  | main a =>
    have hpc : s.main = a.pc := henabled
    have hown := stepsLeft_main a
    show (if isStepOfMain (.main a : Action ι) = true then 1 else 0) +
      MainPc.stepsLeft (MainPc.step s.run a) ≤ _
    rw [hfalse, hpc]
    exact hown

/-! ## Waiting for the mutex -/

/-- Thread `t` waits for the mutex. -/
def Waits (t : ι) (s : LoggerState ι) : Prop :=
  s.main ≠ .exited ∧ (s.threads t).pc = .locking

/-- It goes on to wait when others take a step. -/
theorem Waits.effect {t u : ι} (h : Waits t s) (hut : u ≠ t) (a : ThreadAction) :
    Waits t (s.effect serialize loggers (.thread u a)) := by
  refine ⟨?_, ?_⟩
  · rw [show (s.effect serialize loggers (.thread u a)).main = s.main from main_share s u a]
    exact h.1
  · rw [threads_effect_of_ne a (Ne.symm hut)]
    exact h.2

/-- The mutex can be freed for thread `t` by `n` steps of others. -/
def FreesWithin (serialize : UDPMessageWrapper → List UInt8) (loggers : ι → ProtobufLogger)
    (t : ι) (n : Nat) (s : LoggerState ι) : Prop :=
  ∃ more s', more.length ≤ n ∧ run (LoggerState.step serialize loggers) s more = some s' ∧
    s'.loggingMutex = none ∧ Waits t s' ∧ finishedBy t more = 0

/-- The thread that holds it takes a step. -/
theorem FreesWithin.of_step {t u : ι} {n : Nat} {a : ThreadAction} (hut : u ≠ t)
    (henabled : s.Enabled (.thread u a))
    (h : FreesWithin serialize loggers t n (s.effect serialize loggers (.thread u a))) :
    FreesWithin serialize loggers t (n + 1) s := by
  obtain ⟨more, s', hlen, hrun, hfree, hwaits, hfinished⟩ := h
  refine ⟨.thread u a :: more, s', Nat.succ_le_succ hlen, ?_, hfree, hwaits, ?_⟩
  · rw [run, step_eq_some_iff.mpr ⟨henabled, rfl⟩]
    exact hrun
  · unfold finishedBy at hfinished ⊢
    rw [List.countP_cons_of_neg (by simp [hut]), hfinished]

section

variable {t u : ι}

theorem freesWithin_of_unlocking (n : Nat) (hwaits : Waits t s) (hut : u ≠ t)
    (hu : (s.threads u).pc = .unlocking) : FreesWithin serialize loggers t (n + 1) s := by
  have henabled : s.Enabled (.thread u .unlock) := ⟨hwaits.1, hu, nofun⟩
  refine FreesWithin.of_step hut henabled ?_
  exact ⟨[], _, Nat.zero_le n, rfl, rfl, hwaits.effect hut _, rfl⟩

theorem freesWithin_of_writingPayload (n : Nat) (hwaits : Waits t s) (hut : u ≠ t)
    (hu : (s.threads u).pc = .writingPayload) : FreesWithin serialize loggers t (n + 2) s := by
  have henabled : s.Enabled (.thread u .writePayload) := ⟨hwaits.1, hu, nofun⟩
  refine FreesWithin.of_step hut henabled ?_
  refine freesWithin_of_unlocking n (hwaits.effect hut _) hut ?_
  rw [threads_effect_self]
  rfl

theorem freesWithin_of_writingSize (n : Nat) (hwaits : Waits t s) (hut : u ≠ t)
    (hu : (s.threads u).pc = .writingSize) : FreesWithin serialize loggers t (n + 3) s := by
  have henabled : s.Enabled (.thread u .writeSize) := ⟨hwaits.1, hu, nofun⟩
  refine FreesWithin.of_step hut henabled ?_
  refine freesWithin_of_writingPayload n (hwaits.effect hut _) hut ?_
  rw [threads_effect_self]
  rfl

/-- **The mutex.** The thread that holds it has three steps to go at most. -/
theorem freesWithin_three (hmutex : MutexHeld s) (hwaits : Waits t s) :
    FreesWithin serialize loggers t 3 s := by
  cases hheld : s.loggingMutex with
  | none => exact ⟨[], s, Nat.zero_le 3, rfl, hheld, hwaits, rfl⟩
  | some u =>
    have hholds := (hmutex.eq_some_iff u).mp hheld
    have hut : u ≠ t := by
      rintro rfl
      rw [hwaits.2] at hholds
      cases hholds
    cases hu : (s.threads u).pc with
    | unlocking => exact freesWithin_of_unlocking 2 hwaits hut hu
    | writingPayload => exact freesWithin_of_writingPayload 1 hwaits hut hu
    | writingSize => exact freesWithin_of_writingSize 0 hwaits hut hu
    | _ =>
      rw [hu] at hholds
      cases hholds

end

/-- A thread that finds the mutex free writes its record. -/
theorem writes_of_free {t : ι} (hfree : s.loggingMutex = none) (hwaits : Waits t s) :
    ∃ s', run (LoggerState.step serialize loggers) s
      [.thread t .lock, .thread t .writeSize, .thread t .writePayload] = some s' := by
  let s₁ := s.effect serialize loggers (.thread t .lock)
  let s₂ := s₁.effect serialize loggers (.thread t .writeSize)
  have hlock : s.step serialize loggers (.thread t .lock) = some s₁ :=
    step_eq_some_iff.mpr ⟨⟨hwaits.1, hwaits.2, fun _ => hfree⟩, rfl⟩
  have hpc₁ : (s₁.threads t).pc = .writingSize := by
    rw [threads_effect_self]
    rfl
  have halive₁ : s₁.main ≠ .exited := hwaits.1
  have hsize : s₁.step serialize loggers (.thread t .writeSize) = some s₂ :=
    step_eq_some_iff.mpr ⟨⟨halive₁, hpc₁, nofun⟩, rfl⟩
  have hpc₂ : (s₂.threads t).pc = .writingPayload := by
    rw [threads_effect_self]
    rfl
  have halive₂ : s₂.main ≠ .exited := by
    rw [show s₂.main = s₁.main from main_share s₁ t _]
    exact halive₁
  have hpayload : s₂.step serialize loggers (.thread t .writePayload) =
      some (s₂.effect serialize loggers (.thread t .writePayload)) :=
    step_eq_some_iff.mpr ⟨⟨halive₂, hpc₂, nofun⟩, rfl⟩
  refine ⟨s₂.effect serialize loggers (.thread t .writePayload), ?_⟩
  rw [run, hlock, Option.bind_some, run, hsize, Option.bind_some, run, hpayload]
  rfl

/-! ## The end -/

/-- What the parties have left to do after SIGINT, and what they can wait for. -/
structure WindsDown (serialize : UDPMessageWrapper → List UInt8) (loggers : ι → ProtobufLogger)
    (later : List (Action ι)) (s' : LoggerState ι) : Prop where
  threadSteps : ∀ t, later.countP (isStepOf t fun _ => true) ≤ 7
  records : ∀ t, finishedBy t later ≤ 1
  mainSteps : later.countP isStepOfMain ≤ 4
  /-- While no datagram comes, the threads get to where they wait for one, or to the end. -/
  blocked : s'.main ≠ .exited →
    (∀ t a, s'.Enabled (.thread t a) → a.pc = .receiving) →
      ∀ t, (s'.threads t).pc = .done ∨ (s'.threads t).pc = .receiving
  /-- A record that waits for the mutex can be written in six steps. -/
  waits : s'.main ≠ .exited → ∀ t, (s'.threads t).pc = .locking →
    ∃ more s'', more.length ≤ 6 ∧
      run (LoggerState.step serialize loggers) s' more = some s'' ∧ finishedBy t more = 1

/-- **Winding down.** In every run there is an end to what happens after SIGINT, for any
number of threads and in whatever order they take their steps. -/
theorem winds_down (hrun : run (LoggerState.step serialize loggers) .start actions = some s)
    (hfalse : s.run = false)
    (hlater : run (LoggerState.step serialize loggers) s later = some s') :
    WindsDown serialize loggers later s' := by
  have hmutex : MutexHeld s' :=
    mutexHeld_run ((run_append_of_some hrun later).trans hlater)
  refine ⟨?_, ?_, ?_, ?_, ?_⟩
  · intro t
    have hle := @countP_thread_le _ serialize loggers _ later s s' t Pc.stepsLeft
      (fun _ => true) (fun th a hpc => stepsLeft_step (loggers t) hpc) hfalse hlater
    have hseven : Pc.stepsLeft (s.threads t).pc ≤ 7 := by
      cases (s.threads t).pc <;> simp [Pc.stepsLeft]
    omega
  · intro t
    have hle := @countP_thread_le _ serialize loggers _ later s s' t Pc.recordsLeft
      (fun a => a = .writePayload)
      (fun th a hpc => by simpa using recordsLeft_step (loggers t) hpc) hfalse hlater
    have hone : Pc.recordsLeft (s.threads t).pc ≤ 1 := by
      cases (s.threads t).pc <;> simp [Pc.recordsLeft]
    have hcount : finishedBy t later =
        later.countP (isStepOf t fun a => a = .writePayload) := by
      refine List.countP_congr fun a _ => ?_
      cases a <;> simp [isStepOf]
    omega
  · have hle := countP_main_le hfalse hlater
    have hfour : MainPc.stepsLeft s.main ≤ 4 := by
      cases s.main <;> simp [MainPc.stepsLeft]
    omega
  · exact fun halive hblocked t => done_or_receiving hmutex halive hblocked t
  · intro halive t hpc
    obtain ⟨more, s₁, hlen, hmore, hfree, hwaits, hfinished⟩ :=
      @freesWithin_three _ serialize _ loggers s' t hmutex ⟨halive, hpc⟩
    obtain ⟨s₂, hwrites⟩ := @writes_of_free _ serialize _ loggers s₁ t hfree hwaits
    refine ⟨more ++ [.thread t .lock, .thread t .writeSize, .thread t .writePayload], s₂, ?_,
      (run_append_of_some hmore _).trans hwrites, ?_⟩
    · rw [List.length_append]
      exact Nat.add_le_add hlen (Nat.le_refl 3)
    · unfold finishedBy at hfinished ⊢
      rw [List.countP_append, hfinished]
      simp

end

/-- One thread is between its two writes, and the other waits for the mutex. -/
def interrupted : List (Action Bool) :=
  stampSteps true [6] 100 ++ stampSteps false [5] 101 ++ (writeSteps true).take 2 ++ [.sigInt]

/-- The first one comes to its end. -/
def lastSteps : List (Action Bool) :=
  (writeSteps true).drop 2 ++ [.thread true .check, .main .check]

theorem winds_down_interrupted :
    WindsDown (·.data) twoLoggers lastSteps (twoThreads (interrupted ++ lastSteps)) :=
  @winds_down _ _ _ _ interrupted lastSteps (twoThreads interrupted) _ rfl rfl rfl

end SslAutoref.Theorems
