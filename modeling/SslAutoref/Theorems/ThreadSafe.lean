import SslAutoref.Lib.Mutex
import SslAutoref.Model.ThreadSafe

/-!
# The lock flag of `ThreadSafe`

`SetUnlock` and `Unlock` clear `locked_` after they have unlocked the mutex, so another
thread may have set it in between. As long as no `GetLock` sets the flag in that window, it is
set for every thread that keeps the mutex; from any state in which one is about to, a run
goes on to a failed `DCHECK(locked_)` (`flag_agrees`).
-/

namespace SslAutoref.ThreadSafe

open Steps

variable {ι T : Type} {s s' : State ι T}

/-- Every thread between `GetLock` and the call that unlocks has the flag set, and no check
of it has failed. -/
structure FlagAgrees (s : State ι T) : Prop where
  held : ∀ t seen, s.threads t = .holding seen → s.locked = true
  checks : s.failed = false

/-! ## The invariant -/

/-- The places at which a thread holds the mutex. -/
def Pc.holdsMutex : Pc T → Bool
  | .idle | .clearing => false
  | _ => true

/-- The places between setting the flag and unlocking. -/
def Pc.flagged : Pc T → Bool
  | .holding _ | .writing _ | .releasing => true
  | _ => false

theorem holdsMutex_of_flagged {pc : Pc T} (h : pc.flagged = true) : pc.holdsMutex = true := by
  revert h
  cases pc <;> simp [Pc.flagged, Pc.holdsMutex]

/-- The mutex is held by the thread that is at such a place, and there is none when it is
free. -/
def MutexHeld (s : State ι T) : Prop := Mutex.Held Pc.holdsMutex s.mutex s.threads

theorem mutexHeld_start (value : T) : MutexHeld (State.start value : State ι T) :=
  Mutex.held_of_free fun _ => rfl

/-- No two threads are between setting the flag and unlocking. -/
theorem eq_of_flagged (hI : MutexHeld s) {t u : ι} (ht : (s.threads t).flagged = true)
    (hu : (s.threads u).flagged = true) : t = u :=
  hI.eq_of_holds (holdsMutex_of_flagged ht) (holdsMutex_of_flagged hu)

/-- The flag is set only while no thread is between its unlock and its clearing of the
flag. -/
def SetsFlagAlone (s : State ι T) (a : ι × Action T) : Prop :=
  a.2 = .setLocked → ∀ u, s.threads u ≠ .clearing

/-- What such runs keep: while a thread is between setting the flag and unlocking, the flag
is set and no thread is about to clear it. -/
structure FlagInv (s : State ι T) : Prop where
  mutex : MutexHeld s
  flagged : ∀ t, (s.threads t).flagged = true →
    s.locked = true ∧ ∀ u, s.threads u ≠ .clearing
  checks : s.failed = false

theorem FlagInv.agrees (hI : FlagInv s) : FlagAgrees s where
  held t _ ht := (hI.flagged t (by rw [ht]; rfl)).1
  checks := hI.checks

theorem flagInv_start (value : T) : FlagInv (State.start value : State ι T) where
  mutex := mutexHeld_start value
  flagged t h := by simp [State.start, Pc.flagged] at h
  checks := rfl

/-! ## One step -/

@[simp] theorem mutex_store (s : State ι T) (t : ι) : (s.store t).mutex = s.mutex := by
  unfold State.store
  split <;> rfl

@[simp] theorem locked_store (s : State ι T) (t : ι) : (s.store t).locked = s.locked := by
  unfold State.store
  split <;> rfl

@[simp] theorem failed_store (s : State ι T) (t : ι) : (s.store t).failed = s.failed := by
  unfold State.store
  split <;> rfl

section Next

variable {current : T} {pc pc' : Pc T} {a : Action T}

/-- A step that locks leads to where the mutex is held, one that unlocks away from there, and
the others stay. -/
theorem holdsMutex_next (h : pc.next current a = some pc') :
    (a.locks = true → pc'.holdsMutex = true) ∧
      (a.unlocks = true → pc.holdsMutex = true ∧ pc'.holdsMutex = false) ∧
      (a.locks = false → a.unlocks = false → pc'.holdsMutex = pc.holdsMutex) := by
  revert h
  fun_cases Pc.next current pc a
  all_goals
    intro h
    cases h
  all_goals simp [Pc.holdsMutex, Action.locks, Action.unlocks]

theorem flagged_of_next (h : pc.next current a = some pc') (hpc : pc'.flagged = true) :
    pc.flagged = true ∨ a = .setLocked := by
  revert h hpc
  fun_cases Pc.next current pc a
  all_goals
    intro h
    cases h
  all_goals simp [Pc.flagged]

theorem eq_unlock_of_next (h : pc.next current a = some .clearing) : a = .unlock := by
  revert h
  fun_cases Pc.next current pc a
  all_goals simp

theorem next_unlock (h : pc.next current .unlock = some pc') : pc = .releasing ∧ pc' = .clearing := by
  cases pc <;> simp_all [Pc.next]

theorem next_clearLocked (h : pc.next current .clearLocked = some pc') :
    pc = .clearing ∧ pc' = .idle := by
  cases pc <;> simp_all [Pc.next]

theorem exists_holding_of_check (h : pc.next current a = some pc')
    (hcheck : a = .check ∨ ∃ value, a = .checkSet value) : ∃ seen, pc = .holding seen := by
  rcases hcheck with rfl | ⟨value, rfl⟩
  · cases pc <;> simp_all [Pc.next]
  · cases pc <;> simp_all [Pc.next]

end Next

variable [DecidableEq ι]

theorem step_eq_some_iff {a : ι × Action T} :
    s.step a = some s' ↔
      (a.2.locks = true → s.mutex = none) ∧
        ∃ pc, (s.threads a.1).next s.value a.2 = some pc ∧
          { s.share a.1 a.2 with threads := Function.update s.threads a.1 pc } = s' := by
  unfold State.step
  split
  · rename_i h
    refine ⟨nofun, ?_⟩
    rintro ⟨hfree, -⟩
    rw [hfree h.1] at h
    exact absurd h.2 (by simp)
  · rename_i h
    rw [Option.map_eq_some_iff]
    refine ⟨?_, fun hnext => hnext.2⟩
    intro hnext
    refine ⟨fun hlocks => ?_, hnext⟩
    simpa [hlocks] using h

/-- Only the steps that lock and unlock the mutex touch it. -/
theorem mutex_share (s : State ι T) (t : ι) (a : Action T) :
    (s.share t a).mutex =
      if a.locks then some t else if a.unlocks then none else s.mutex := by
  cases a <;> simp [State.share, Action.locks, Action.unlocks]

/-- Only the steps that set and clear the flag touch it. -/
theorem locked_share (s : State ι T) (t : ι) {a : Action T} (hset : a ≠ .setLocked)
    (hclear : a ≠ .clearLocked) : (s.share t a).locked = s.locked := by
  cases a with
  | setLocked => exact absurd rfl hset
  | clearLocked => exact absurd rfl hclear
  | _ => simp [State.share]

/-- The threads lock and unlock the mutex as they get to the places at which they hold it, and
leave them. -/
theorem guards_step :
    Mutex.Guards Pc.holdsMutex (@State.step ι T _) State.mutex State.threads := by
  intro s a s' h
  obtain ⟨t, a⟩ := a
  obtain ⟨hfree, pc, hnext, rfl⟩ := step_eq_some_iff.mp h
  obtain ⟨hlocks, hunlocks, hstays⟩ := holdsMutex_next hnext
  refine .inr ⟨t, pc, rfl, ?_⟩
  show Mutex.Does t s.mutex _ _ (s.share t a).mutex
  rw [mutex_share]
  by_cases hlock : a.locks = true
  · rw [if_pos hlock]
    exact .lock (hfree hlock) (hlocks hlock)
  rw [if_neg hlock]
  by_cases hunlock : a.unlocks = true
  · rw [if_pos hunlock]
    exact .unlock (hunlocks hunlock).1 (hunlocks hunlock).2
  · rw [if_neg hunlock]
    exact .leave (hstays (Bool.eq_false_iff.mpr hlock) (Bool.eq_false_iff.mpr hunlock))

theorem mutexHeld_run {value : T} {actions : List (ι × Action T)}
    (hrun : run State.step (State.start value) actions = some s) : MutexHeld s :=
  guards_step.run (mutexHeld_start value) hrun

/-! ## Runs that set the flag alone -/

/-- A check finds the flag set. -/
theorem failed_step {a : ι × Action T} (hI : FlagInv s) (h : s.step a = some s') :
    s'.failed = false := by
  obtain ⟨t, a⟩ := a
  obtain ⟨-, pc, hnext, rfl⟩ := step_eq_some_iff.mp h
  have hflag : ∀ seen, s.threads t = .holding seen → s.locked = true := hI.agrees.held t
  show (s.share t a).failed = false
  cases a with
  | check =>
    obtain ⟨seen, hheld⟩ := exists_holding_of_check hnext (.inl rfl)
    simp [State.share, hI.checks, hflag seen hheld]
  | checkSet value =>
    obtain ⟨seen, hheld⟩ := exists_holding_of_check hnext (.inr ⟨value, rfl⟩)
    simp [State.share, hI.checks, hflag seen hheld]
  | _ => simpa [State.share] using hI.checks

/-- A thread with the flag set, when one moves to where it is not, is another one. -/
theorem flagged_of_update {t u : ι} {pc : Pc T} (hpc : pc.flagged = false)
    (hu : (Function.update s.threads t pc u).flagged = true) :
    u ≠ t ∧ (s.threads u).flagged = true := by
  by_cases hut : u = t
  · subst hut
    simp [hpc] at hu
  · simpa [Function.update_of_ne hut, hut] using hu

theorem flagInv_step {a : ι × Action T} (hI : FlagInv s) (hC : SetsFlagAlone s a)
    (h : s.step a = some s') : FlagInv s' := by
  have hmutex : MutexHeld s' := guards_step.step hI.mutex h
  have hchecks := failed_step hI h
  refine ⟨hmutex, ?_, hchecks⟩
  obtain ⟨t, a⟩ := a
  obtain ⟨-, pc, hnext, rfl⟩ := step_eq_some_iff.mp h
  by_cases hunlock : a = .unlock
  · -- the thread that unlocks was the only one with the flag set
    subst hunlock
    obtain ⟨hpc, rfl⟩ := next_unlock hnext
    intro u hu
    obtain ⟨hut, hbefore⟩ := flagged_of_update rfl hu
    exact absurd (eq_of_flagged hI.mutex hbefore (by rw [hpc]; rfl)) hut
  by_cases hclear : a = .clearLocked
  · -- no thread had the flag set, as this one was about to clear it
    subst hclear
    obtain ⟨hpc, rfl⟩ := next_clearLocked hnext
    intro u hu
    obtain ⟨-, hbefore⟩ := flagged_of_update rfl hu
    exact absurd hpc ((hI.flagged u hbefore).2 t)
  -- no other step makes a thread clear the flag
  have hpc : pc ≠ .clearing := by
    rintro rfl
    exact hunlock (eq_unlock_of_next hnext)
  have hothers : (∀ u, s.threads u ≠ .clearing) →
      ∀ u, Function.update s.threads t pc u ≠ .clearing := by
    intro hnone u
    by_cases hut : u = t
    · subst hut
      simpa using hpc
    · simpa [Function.update_of_ne hut] using hnone u
  by_cases hset : a = .setLocked
  · subst hset
    exact fun u _ => ⟨rfl, hothers (hC rfl)⟩
  · intro u hu
    have hbefore : (s.threads u).flagged = true := by
      by_cases hut : u = t
      · subst hut
        simp only [Function.update_self] at hu
        exact (flagged_of_next hnext hu).resolve_right hset
      · simpa [Function.update_of_ne hut] using hu
    obtain ⟨hlocked, hnone⟩ := hI.flagged u hbefore
    exact ⟨(locked_share s t hset hclear).trans hlocked, hothers hnone⟩

/-- **Runs that set the flag alone** keep the flag, by induction over the steps. -/
theorem flagInv_run {value : T} {actions : List (ι × Action T)}
    (hrun : run State.step (State.start value) actions = some s)
    (halone : Along State.step SetsFlagAlone (State.start value) actions) : FlagInv s :=
  @invariant_along _ _ _ SetsFlagAlone (fun _ => FlagInv) _ (flagInv_start value)
    (fun _ _ _ _ _ hI hC hstep => flagInv_step hI hC hstep) _ _ hrun halone

/-! ## Runs that do not -/

/-- When the flag is set while another thread is about to clear it, it clears it, and the
next check fails. -/
theorem fails_of_clearing {t u : ι} (ht : s.threads t = .flagging)
    (hu : s.threads u = .clearing) :
    ∃ s', run State.step s [(t, .setLocked), (u, .clearLocked), (t, .check)] = some s' ∧
      s'.failed = true := by
  have hut : u ≠ t := by
    rintro rfl
    rw [hu] at ht
    cases ht
  simp [run, State.step, State.share, Action.locks, Pc.next, ht, hu, hut, Ne.symm hut]

/-- **The flag.** In every state of a run that never sets the flag while another thread is
about to clear it, whatever the threads do and in whatever order, the flag agrees with the
mutex. From any other state in which the flag is about to be set a run goes on to one where
it does not. -/
theorem flag_agrees (value : T) (actions : List (ι × Action T))
    (hrun : run State.step (State.start value) actions = some s) :
    (Along State.step SetsFlagAlone (State.start value) actions → FlagAgrees s) ∧
      ∀ t, s.threads t = .flagging → ¬ SetsFlagAlone s (t, .setLocked) →
        ∃ later s', run State.step (State.start value) (actions ++ (t, .setLocked) :: later) =
          some s' ∧ ¬ FlagAgrees s' := by
  refine ⟨fun halone => (flagInv_run hrun halone).agrees, ?_⟩
  intro t ht hnot
  obtain ⟨u, hu⟩ : ∃ u, s.threads u = .clearing := by
    by_contra hnone
    exact hnot fun _ u hu => hnone ⟨u, hu⟩
  obtain ⟨s', hlater, hfailed⟩ := fails_of_clearing ht hu
  refine ⟨_, s', (run_append_of_some hrun _).trans hlater, ?_⟩
  intro h
  rw [h.checks] at hfailed
  cases hfailed

/-! ## Two threads -/

/-- One thread updates the value and clears the flag before the other sets it. -/
def turns : List (Bool × Action Nat) :=
  [(true, .lock), (true, .setLocked), (true, .checkSet 7), (true, .write), (true, .unlock),
    (false, .lock), (true, .clearLocked), (false, .setLocked), (false, .check)]

/-- The other sets it in between. -/
def overtaken : List (Bool × Action Nat) :=
  [(true, .lock), (true, .setLocked), (true, .checkSet 7), (true, .write), (true, .unlock),
    (false, .lock), (false, .setLocked), (true, .clearLocked)]

/-- The state two threads end in. -/
def twoThreads (actions : List (Bool × Action Nat)) : State Bool Nat :=
  (run State.step (State.start 0) actions).getD (State.start 0)

theorem along_turns : Along State.step SetsFlagAlone (State.start 0) turns := by
  simp [turns, Along, SetsFlagAlone, State.step, State.start, State.share, State.store,
    Action.locks, Pc.next]

theorem flag_agrees_turns : FlagAgrees (twoThreads turns) :=
  (flag_agrees 0 turns rfl).1 along_turns

/-- The other thread holds the mutex without the flag. -/
theorem flag_is_cleared_late :
    ¬ ∀ (ι T : Type) [DecidableEq ι] (value : T) (actions : List (ι × Action T))
      (s : State ι T), run State.step (State.start value) actions = some s → FlagAgrees s := by
  intro h
  have hagrees := h Bool Nat 0 overtaken (twoThreads overtaken) rfl
  have hheld : (twoThreads overtaken).threads false = .holding 7 := rfl
  have hclear : (twoThreads overtaken).locked = false := rfl
  rw [hagrees.held false 7 hheld] at hclear
  cases hclear

end SslAutoref.ThreadSafe
