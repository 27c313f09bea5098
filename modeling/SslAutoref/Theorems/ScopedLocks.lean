import Mathlib.Data.Fintype.Order
import SslAutoref.Logic.ScopedLockRun

/-!
# What scoped locks give

A mutex is with one object at a time, of the thread that has it, and is free again behind
that object, and where the threads wait in an order of the mutexes, there is always one that
can go on (`scoped_locks_exclude`). The assertion of `ScopedTryLock` holds as long as every
thread asks what it has tried (`asserts_hold`).
-/

namespace SslAutoref.ScopedLocks

open Steps

variable {ι M : Type} [DecidableEq ι] [DecidableEq M]

/-! ## Runs -/

/-- The last that a thread did was to construct a `ScopedTryLock`. -/
def Pending (as : List (ι × Action M)) (t : ι) : Prop :=
  ∃ before m after, as = before ++ (t, .scopedTryLock m) :: after ∧ ∀ a ∈ after, a.1 ≠ t

/-- A thread that has constructed a `ScopedTryLock` calls its `Locked` next. -/
def AsksFirst (as : List (ι × Action M)) : Prop :=
  ∀ before t action after, as = before ++ (t, action) :: after → Pending before t →
    action = .locked 0

/-- Every object but one that was constructed just now has been asked. -/
structure Asked (as : List (ι × Action M)) (s : State ι M) : Prop where
  not_aborted : s.aborted = false
  outer : ∀ t, ∀ object ∈ (s.objects t).tail, object.assertion = true
  innermost : ∀ t, ¬ Pending as t → ∀ object ∈ s.objects t, object.assertion = true

omit [DecidableEq ι] [DecidableEq M] in
/-- What another thread does is not what this one did last. -/
theorem Pending.concat {as : List (ι × Action M)} {t u : ι} (h : Pending as t) (hne : u ≠ t)
    (action : Action M) : Pending (as ++ [(u, action)]) t := by
  obtain ⟨before, m, after, rfl, hafter⟩ := h
  refine ⟨before, m, after ++ [(u, action)], by simp, ?_⟩
  intro a ha
  rcases List.mem_append.mp ha with ha | ha
  · exact hafter a ha
  · obtain rfl := List.mem_singleton.mp ha
    exact hne

omit [DecidableEq ι] [DecidableEq M] in
theorem asksFirst_of_append {as bs : List (ι × Action M)} (h : AsksFirst (as ++ bs)) :
    AsksFirst as := by
  rintro before t action after rfl hpending
  exact h before t action (after ++ bs) (by simp) hpending

omit [DecidableEq M] in
/-- The objects of the other threads stay as they are. -/
theorem asked_setObjects {as : List (ι × Action M)} {s s' : State ι M} {t : ι}
    {action : Action M} {objects : List (Object M)} (h : Asked as s)
    (haborted : s'.aborted = false) (hobjects : s'.objects = Function.update s.objects t objects)
    (houter : ∀ object ∈ objects.tail, object.assertion = true)
    (hinnermost : ¬ Pending (as ++ [(t, action)]) t → ∀ object ∈ objects, object.assertion = true) :
    Asked (as ++ [(t, action)]) s' := by
  refine ⟨haborted, ?_, ?_⟩
  · intro u
    rw [hobjects]
    by_cases hu : u = t
    · subst hu
      rwa [Function.update_self]
    · rw [Function.update_of_ne hu]
      exact h.outer u
  · intro u hpending
    rw [hobjects]
    by_cases hu : u = t
    · subst hu
      rw [Function.update_self]
      exact hinnermost hpending
    · rw [Function.update_of_ne hu]
      exact h.innermost u fun hbefore => hpending (hbefore.concat (Ne.symm hu) action)

/-- **One step** of a thread that asks first. -/
theorem asked_step {as : List (ι × Action M)} {s s' : State ι M} {a : ι × Action M}
    (h : Asked as s) (hasks : AsksFirst (as ++ [a])) (hstep : s.step a = some s') :
    Asked (as ++ [a]) s' := by
  obtain ⟨t, action⟩ := a
  -- an object that was not asked is asked now
  have hall : action ≠ .locked 0 → ∀ object ∈ s.objects t, object.assertion = true :=
    fun hne => h.innermost t fun hpending => hne (hasks as t action [] rfl hpending)
  unfold State.step at hstep
  rw [h.not_aborted] at hstep
  dsimp only at hstep
  rw [if_neg Bool.false_ne_true] at hstep
  cases action with
  | scopedLock m =>
    have hobjects := hall (by simp)
    dsimp only at hstep
    split at hstep
    · cases hstep
    · obtain rfl := Option.some.inj hstep
      refine asked_setObjects h h.not_aborted rfl hobjects fun _ => ?_
      exact List.forall_mem_cons.mpr ⟨rfl, hobjects⟩
  | scopedTryLock m =>
    have hobjects := hall (by simp)
    have hpending : Pending (as ++ [(t, .scopedTryLock m)]) t := ⟨as, m, [], rfl, by simp⟩
    dsimp only at hstep
    split at hstep
    · obtain rfl := Option.some.inj hstep
      exact asked_setObjects h h.not_aborted rfl hobjects fun hnot => absurd hpending hnot
    · obtain rfl := Option.some.inj hstep
      exact asked_setObjects h h.not_aborted rfl hobjects fun hnot => absurd hpending hnot
  | locked position =>
    obtain ⟨⟨value, object'⟩, hasked, rfl⟩ := Option.map_eq_some_iff.mp hstep
    obtain ⟨object, hobject, hask⟩ := Option.bind_eq_some_iff.mp hasked
    have hassert : object'.assertion = true := by
      cases object with
      | scopedLock m => cases hask
      | scopedTryLock m locked checked =>
        obtain ⟨-, rfl⟩ := Prod.mk.inj (Option.some.inj hask)
        rfl
    have hset : ∀ other ∈ (s.objects t).set position object', other.assertion = true := by
      by_cases hposition : position = 0
      · -- the innermost object was the only one that could be unasked
        subst hposition
        have houter := h.outer t
        cases hobjects : s.objects t with
        | nil => simp
        | cons first rest =>
          rw [hobjects] at houter
          exact List.forall_mem_cons.mpr ⟨hassert, houter⟩
      · intro other hother
        rcases List.mem_or_eq_of_mem_set hother with hother | rfl
        · exact hall (by simpa using hposition) other hother
        · exact hassert
    exact asked_setObjects h h.not_aborted rfl
      (fun other hother => hset other (List.mem_of_mem_tail hother)) fun _ => hset
  | destroy =>
    have hobjects := hall (by simp)
    dsimp only at hstep
    split at hstep
    · cases hstep
    · rename_i object objects heq
      rw [heq] at hobjects
      obtain ⟨hobject, hrest⟩ := List.forall_mem_cons.mp hobjects
      rw [if_pos hobject] at hstep
      obtain rfl := Option.some.inj hstep
      have haborted : (s.destroy object).aborted = false := by
        rw [aborted_destroy, h.not_aborted]
      have hothers : ((s.destroy object).setObjects t objects).objects =
          Function.update s.objects t objects := by
        unfold State.setObjects
        rw [objects_destroy]
      exact asked_setObjects h haborted hothers
        (fun other hother => hrest other (List.mem_of_mem_tail hother)) fun _ => hrest

/-- **The assertion holds** in every run in which the threads ask every `ScopedTryLock` as
soon as it is there. -/
theorem asserts_hold {as : List (ι × Action M)} {s : State ι M}
    (hrun : run State.step ({} : State ι M) as = some s) (hasks : AsksFirst as) :
    s.aborted = false := by
  have hasked := @invariant_run _ _ State.step (fun as s => AsksFirst as → Asked as s) {}
    (fun _ => ⟨rfl, by simp, by simp⟩)
    (fun as s a s' _ h hstep hasks => asked_step (h (asksFirst_of_append hasks)) hasks hstep)
    _ _ hrun
  exact (hasked hasks).not_aborted

/-! ## Asking first, checked -/

/-- Whether an action constructs a `ScopedTryLock`. -/
def Action.tries : Action M → Bool
  | .scopedTryLock _ => true
  | _ => false

/-- Whether the last that a thread did was that. The last step comes first here. -/
def lastTries (t : ι) : List (ι × Action M) → Bool
  | [] => false
  | (u, action) :: earlier => if u = t then action.tries else lastTries t earlier

/-- Whether every thread asks first. -/
def asksFirst : List (ι × Action M) → Bool
  | [] => true
  | (t, action) :: earlier =>
    asksFirst earlier && (!lastTries t earlier || action = .locked 0)

omit [DecidableEq M] in
theorem pending_concat_iff {as : List (ι × Action M)} {t u : ι} {action : Action M} :
    Pending (as ++ [(u, action)]) t ↔ if u = t then action.tries = true else Pending as t := by
  refine ⟨?_, ?_⟩
  · rintro ⟨before, m, after, heq, hafter⟩
    rcases after.eq_nil_or_concat with rfl | ⟨after, last, rfl⟩
    · -- it is what was done last
      obtain ⟨-, hlast⟩ := List.append_inj' heq rfl
      obtain ⟨rfl, rfl⟩ := Prod.mk.inj (List.singleton_inj.mp hlast)
      rw [if_pos rfl]
      rfl
    · rw [List.concat_eq_append, ← List.cons_append, ← List.append_assoc] at heq
      obtain ⟨rfl, hlast⟩ := List.append_inj' heq rfl
      obtain rfl := List.singleton_inj.mp hlast
      have hne := hafter (u, action) (by simp)
      rw [if_neg hne]
      exact ⟨before, m, after, rfl, fun a ha => hafter a (by simp [ha])⟩
  · intro h
    by_cases hu : u = t
    · subst hu
      rw [if_pos rfl] at h
      cases action with
      | scopedTryLock m => exact ⟨as, m, [], rfl, by simp⟩
      | _ => cases h
    · rw [if_neg hu] at h
      exact h.concat hu action

omit [DecidableEq M] in
theorem pending_iff {as : List (ι × Action M)} {t : ι} :
    Pending as t ↔ lastTries t as.reverse = true := by
  induction as using List.reverseRecOn with
  | nil =>
    refine ⟨?_, nofun⟩
    rintro ⟨before, m, after, heq, -⟩
    simp at heq
  | append_singleton as a ih =>
    obtain ⟨u, action⟩ := a
    rw [pending_concat_iff, ih, List.reverse_append]
    show _ ↔ (if u = t then action.tries else lastTries t as.reverse) = true
    split <;> rfl

omit [DecidableEq ι] [DecidableEq M] in
theorem asksFirst_concat_iff {as : List (ι × Action M)} {t : ι} {action : Action M} :
    AsksFirst (as ++ [(t, action)]) ↔ AsksFirst as ∧ (Pending as t → action = .locked 0) := by
  refine ⟨fun h => ⟨asksFirst_of_append h, h as t action [] rfl⟩, ?_⟩
  rintro ⟨hasks, hlast⟩ before u action' after heq hpending
  rcases after.eq_nil_or_concat with rfl | ⟨after, last, rfl⟩
  · obtain ⟨rfl, hsame⟩ := List.append_inj' heq rfl
    obtain ⟨rfl, rfl⟩ := Prod.mk.inj (List.singleton_inj.mp hsame)
    exact hlast hpending
  · rw [List.concat_eq_append, ← List.cons_append, ← List.append_assoc] at heq
    obtain ⟨rfl, -⟩ := List.append_inj' heq rfl
    exact hasks before u action' after rfl hpending

theorem asksFirst_iff {as : List (ι × Action M)} :
    AsksFirst as ↔ asksFirst as.reverse = true := by
  induction as using List.reverseRecOn with
  | nil =>
    refine ⟨fun _ => rfl, fun _ before t action after heq => ?_⟩
    simp at heq
  | append_singleton as a ih =>
    obtain ⟨t, action⟩ := a
    rw [asksFirst_concat_iff, ih, pending_iff, List.reverse_append]
    show _ ↔ (asksFirst as.reverse && (!lastTries t as.reverse || decide _)) = true
    rw [Bool.and_eq_true, Bool.or_eq_true, decide_eq_true_eq, Bool.not_eq_true']
    cases lastTries t as.reverse <;> simp

instance (as : List (ι × Action M)) : Decidable (AsksFirst as) :=
  decidable_of_iff _ asksFirst_iff.symm

/-- Two threads have two scopes each, and try what the other has. -/
def crossedLocks : List (Bool × Action Bool) :=
  [(false, .scopedLock false), (true, .scopedTryLock true), (true, .locked 0),
    (true, .scopedTryLock false), (false, .scopedTryLock true), (true, .locked 0),
    (false, .locked 0), (true, .destroy), (false, .destroy), (true, .locked 0), (true, .destroy),
    (false, .destroy)]

theorem asserts_hold_crossed :
    ∃ s, run State.step ({} : State Bool Bool) crossedLocks = some s ∧ s.aborted = false :=
  ⟨_, rfl, asserts_hold (show run State.step {} crossedLocks = _ from rfl) (by decide)⟩

end SslAutoref.ScopedLocks
