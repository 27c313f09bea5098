import SslAutoref.Theorems.ThreadSafe

/-!
# The value of `ThreadSafe`

The slip with the flag costs checks, and no update. From `GetLock` to the call that unlocks
a thread has the value for itself, so in every run, also one in which the flag goes wrong, the
value is what the updates make of it that were written, one after the other, and what a
thread gets is what some first ones of them made (`updates_serialized`).
-/

namespace SslAutoref.ThreadSafe

open Steps

variable {ι T : Type} {s s' : State ι T}

/-! ## Updates -/

/-- Thread `t` writes what `f t` makes of the value that it has seen, as `GetLock` gave it or as
it has written it since. -/
def Computes (f : ι → T → T) (s : State ι T) (a : ι × Action T) : Prop :=
  ∀ seen value, s.threads a.1 = .holding seen → a.2 = .modify value ∨ a.2 = .checkSet value →
    value = f a.1 seen

/-- The update that a step performs. -/
def updateOut (f : ι → T → T) (s : State ι T) : ι × Action T → List (T → T)
  | (t, .modify _) | (t, .write) => [f t]
  | (t, .set) =>
    match s.threads t with
    | .setting rvalue => [fun _ => rvalue]
    | _ => []
  | _ => []

/-- What a list of updates makes of a value, the first one first. -/
def applyAll (updates : List (T → T)) (value : T) : T :=
  updates.foldl (fun value update => update value) value

theorem applyAll_append (first second : List (T → T)) (value : T) :
    applyAll (first ++ second) value = applyAll second (applyAll first value) :=
  List.foldl_append

/-! ## One step -/

section Next

variable {current : T} {pc pc' : Pc T} {a : Action T}

/-- The steps of the others while a thread holds the mutex. -/
theorem eq_clearLocked_of_not_held (h : pc.next current a = some pc') (hlocks : a.locks = false)
    (hpc : pc.holdsMutex = false) : a = .clearLocked := by
  revert h hlocks hpc
  fun_cases Pc.next current pc a
  all_goals simp [Pc.holdsMutex, Action.locks]

/-- A thread has seen the value, or has written what it has then seen. -/
theorem seen_of_next {seen : T} (h : pc.next current a = some (.holding seen)) :
    pc = .flagging ∧ a = .setLocked ∧ seen = current ∨
      ∃ before, pc = .holding before ∧ a = .modify seen := by
  revert h
  fun_cases Pc.next current pc a
  all_goals
    intro h
    cases h
  · exact .inl ⟨rfl, rfl, rfl⟩
  · exact .inr ⟨_, rfl, rfl⟩

theorem exists_holding_of_writing {value : T} (h : pc.next current a = some (.writing value)) :
    (∃ seen, pc = .holding seen) ∧ a = .checkSet value := by
  revert h
  fun_cases Pc.next current pc a
  all_goals simp

theorem exists_holding_of_modify {value : T} (h : pc.next current (.modify value) = some pc') :
    ∃ seen, pc = .holding seen := by
  cases pc <;> simp_all [Pc.next]

theorem exists_writing_of_write (h : pc.next current .write = some pc') :
    ∃ value, pc = .writing value := by
  cases pc <;> simp_all [Pc.next]

theorem exists_setting_of_set (h : pc.next current .set = some pc') :
    ∃ value, pc = .setting value := by
  cases pc <;> simp_all [Pc.next]

end Next

variable [DecidableEq ι]

/-- While a thread holds the mutex, all that another can do is to clear the flag. -/
theorem eq_clearLocked_of_step (hI : MutexHeld s) {t u : ι} {a : Action T}
    (ht : (s.threads t).holdsMutex = true) (hne : u ≠ t) (h : s.step (u, a) = some s') :
    a = .clearLocked := by
  obtain ⟨hfree, pc, hnext, -⟩ := step_eq_some_iff.mp h
  have hheld := (hI t).mpr ht
  have hlocks : a.locks = false := by
    refine Bool.eq_false_iff.mpr fun hlocks => ?_
    rw [hfree hlocks] at hheld
    cases hheld
  have hu : (s.threads u).holdsMutex = false :=
    Bool.eq_false_iff.mpr fun hu => hne (hI.eq_of_holds hu ht)
  exact eq_clearLocked_of_not_held hnext hlocks hu

/-- What a thread has seen of the value is the value as it still is, and what it is about to
write it has made of that. -/
structure Current (f : ι → T → T) (s : State ι T) : Prop where
  seen : ∀ t seen, s.threads t = .holding seen → seen = s.value
  writing : ∀ t value, s.threads t = .writing value → value = f t s.value

/-- **One step** performs its update on the value. -/
theorem value_step {f : ι → T → T} {a : ι × Action T} (hcurrent : Current f s)
    (hC : Computes f s a) (h : s.step a = some s') :
    s'.value = applyAll (updateOut f s a) s.value := by
  obtain ⟨t, a⟩ := a
  obtain ⟨-, pc, hnext, rfl⟩ := step_eq_some_iff.mp h
  show (s.share t a).value = _
  cases a with
  | modify value =>
    obtain ⟨seen, hpc⟩ := exists_holding_of_modify hnext
    obtain rfl := hcurrent.seen t seen hpc
    exact hC _ value hpc (.inl rfl)
  | write =>
    obtain ⟨value, hpc⟩ := exists_writing_of_write hnext
    show (s.store t).value = f t s.value
    unfold State.store
    simp only [hpc]
    exact hcurrent.writing t value hpc
  | set =>
    obtain ⟨value, hpc⟩ := exists_setting_of_set hnext
    simp [State.share, State.store, updateOut, applyAll, hpc]
  | _ => rfl

/-- No other thread comes between what a thread has seen and what it writes. -/
theorem current_step {f : ι → T → T} {a : ι × Action T} (hmutex : MutexHeld s)
    (hcurrent : Current f s) (hC : Computes f s a) (h : s.step a = some s') :
    Current f s' := by
  obtain ⟨t, a⟩ := a
  have hothers := fun u hu hne => @eq_clearLocked_of_step _ _ s s' _ hmutex u t a hu hne h
  obtain ⟨-, pc, hnext, rfl⟩ := step_eq_some_iff.mp h
  refine ⟨?_, ?_⟩
  · intro u seen hu
    by_cases hut : u = t
    · subst hut
      simp only [Function.update_self] at hu
      subst hu
      rcases seen_of_next hnext with ⟨-, rfl, rfl⟩ | ⟨before, -, rfl⟩
      · rfl
      · rfl
    · -- it holds the mutex, so the step of the other leaves the value
      simp only [Function.update_of_ne hut] at hu
      obtain rfl := hothers u (by rw [hu]; rfl) (Ne.symm hut)
      exact hcurrent.seen u seen hu
  · intro u value hu
    by_cases hut : u = t
    · -- it has just computed what it will write
      subst hut
      simp only [Function.update_self] at hu
      subst hu
      obtain ⟨⟨seen, hpc⟩, rfl⟩ := exists_holding_of_writing hnext
      obtain rfl := hcurrent.seen u seen hpc
      exact hC _ value hpc (.inr rfl)
    · simp only [Function.update_of_ne hut] at hu
      obtain rfl := hothers u (by rw [hu]; rfl) (Ne.symm hut)
      exact hcurrent.writing u value hu

/-- What a step adds to the copies is the value. -/
theorem copies_step {a : ι × Action T} (h : s.step a = some s') (u : ι) :
    s'.copies u = s.copies u ∨ s'.copies u = some s.value := by
  obtain ⟨t, a⟩ := a
  obtain ⟨-, pc, -, rfl⟩ := step_eq_some_iff.mp h
  show (s.share t a).copies u = _ ∨ (s.share t a).copies u = _
  have hstore : (s.store t).copies = s.copies := by
    unfold State.store
    split <;> rfl
  cases a with
  | get =>
    by_cases hut : u = t
    · subst hut
      exact .inr (Function.update_self _ _ _)
    · exact .inl (Function.update_of_ne hut _ _)
  | write => exact .inl (congrFun hstore u)
  | set => exact .inl (congrFun hstore u)
  | _ => exact .inl rfl

/-! ## Every run -/

/-- The updates that are performed in a run, in order. -/
def updatesOf (f : ι → T → T) (value : T) (actions : List (ι × Action T)) : List (T → T) :=
  outputs State.step (updateOut f) (State.start value) actions

/-- The calls take effect one after the other. -/
structure Serialized (f : ι → T → T) (value : T) (actions : List (ι × Action T))
    (s : State ι T) : Prop where
  /-- No update is lost, and none performed twice. -/
  value_eq : s.value = applyAll (updatesOf f value actions) value
  /-- What a thread gets is no mixture. -/
  copies_eq : ∀ t copy, s.copies t = some copy →
    ∃ first, first <+: updatesOf f value actions ∧ copy = applyAll first value
  /-- A thread that has locked is alone with the value. -/
  exclusive : ∀ t, (s.threads t).holdsMutex = true → ∀ u a s', u ≠ t →
    s.step (u, a) = some s' → a = .clearLocked

/-- **Updates.** Whatever every thread makes of the value, in every run from the start the
calls of all threads take effect one after the other. -/
theorem updates_serialized {f : ι → T → T} {value : T} {actions : List (ι × Action T)}
    (hrun : run State.step (State.start value) actions = some s)
    (hcomputes : Along State.step (Computes f) (State.start value) actions) :
    Serialized f value actions s := by
  have hinvariant : Current f s ∧ s.value = applyAll (updatesOf f value actions) value ∧
      ∀ t copy, s.copies t = some copy →
        ∃ first, first <+: updatesOf f value actions ∧ copy = applyAll first value := by
    refine @invariant_along _ _ _ (Computes f) (fun actions s => Current f s ∧
      s.value = applyAll (updatesOf f value actions) value ∧
        ∀ t copy, s.copies t = some copy →
          ∃ first, first <+: updatesOf f value actions ∧ copy = applyAll first value) _
      ⟨⟨by simp [State.start], by simp [State.start]⟩, rfl, by simp [State.start]⟩ ?_ _ _ hrun
      hcomputes
    intro actions s a s' hbefore hI hC hstep
    obtain ⟨hcurrent, hvalue, hcopies⟩ := hI
    have hconcat : updatesOf f value (actions ++ [a]) =
        updatesOf f value actions ++ updateOut f s a := outputs_concat hbefore a
    rw [hconcat]
    refine ⟨current_step (mutexHeld_run hbefore) hcurrent hC hstep, ?_, ?_⟩
    · rw [value_step hcurrent hC hstep, applyAll_append, ← hvalue]
    · intro t copy hcopy
      rcases copies_step hstep t with hsame | hvalued
      · obtain ⟨first, hfirst, heq⟩ := hcopies t copy (hsame.symm.trans hcopy)
        exact ⟨first, hfirst.trans (List.prefix_append _ _), heq⟩
      · rw [hvalued] at hcopy
        rw [← Option.some.inj hcopy]
        exact ⟨_, List.prefix_append _ _, hvalue⟩
  obtain ⟨-, hvalue, hcopies⟩ := hinvariant
  exact ⟨hvalue, hcopies, fun t ht u a s' hne hstep =>
    eq_clearLocked_of_step (mutexHeld_run hrun) ht hne hstep⟩

/-- Two threads count, and the flag is cleared late. -/
def counting : List (Bool × Action Nat) :=
  [(true, .lock), (true, .setLocked), (true, .checkSet 1), (true, .write), (true, .unlock),
    (false, .lock), (false, .setLocked), (true, .clearLocked), (false, .modify 2),
    (false, .checkSet 3), (false, .write), (false, .unlock), (true, .lockGet), (true, .get)]

/-- Three increments are written, and three are counted. -/
theorem updates_serialized_counting :
    Serialized (fun _ count => count + 1) 0 counting (twoThreads counting) := by
  refine updates_serialized rfl ?_
  simp [counting, Along, Computes, State.step, State.start, State.share, State.store,
    Action.locks, Pc.next]

end SslAutoref.ThreadSafe
