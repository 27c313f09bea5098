import SslAutoref.Lib.Owners
import SslAutoref.Model.ScopedLocks

/-!
# Scoped locks as owners

The objects of all threads, each named by its thread and its depth, own a mutex each, or
none. Every step is one of such owners (`owners_step`): a constructor takes a free mutex or
nothing, a destructor lets it go, and `Locked` does not touch it.
-/

namespace SslAutoref.ScopedLocks

open Steps

variable {ι M : Type}

/-! ## Objects and what they have -/

/-- The mutex that an object has locked. -/
def Object.held : Object M → Option M
  | .scopedLock mutex => some mutex
  | .scopedTryLock mutex locked _ => if locked = true then some mutex else none

/-- The mutex that an object has locked, if there is one at this depth of the stack of a
thread. The outermost object has depth zero. -/
def State.heldAt (s : State ι M) (owner : ι × Nat) : Option M :=
  ((s.objects owner.1).map Object.held).reverse[owner.2]?.join

/-- A state seen as objects that own mutexes. -/
def State.owners (s : State ι M) : Owners.State (ι × Nat) M where
  taken m := (s.mutex m).isSome
  others _ := false
  held := s.heldAt

/-- A step seen so. -/
def ownersActs (s : State ι M) : ι × Action M → List (Owners.Action (ι × Nat) M)
  | (t, .scopedLock m) => [.take (t, (s.objects t).length) (some m)]
  | (t, .scopedTryLock m) =>
    [.take (t, (s.objects t).length) (if (s.mutex m).isSome = true then none else some m)]
  | (_, .locked _) => []
  | (t, .destroy) =>
    match s.objects t with
    | [] => []
    | object :: objects => if object.assertion = true then [.drop (t, objects.length)] else []

theorem heldAt_length (s : State ι M) (t : ι) : s.heldAt (t, (s.objects t).length) = none := by
  unfold State.heldAt
  simp

theorem heldAt_top {s : State ι M} {t : ι} {object : Object M} {objects : List (Object M)}
    (h : s.objects t = object :: objects) : s.heldAt (t, objects.length) = object.held := by
  unfold State.heldAt
  simp [h]

section Stack

variable [DecidableEq ι]

/-- An object on the top of the stack leaves the others where they are. -/
theorem heldAt_push (s : State ι M) (t : ι) (object : Object M) :
    (s.setObjects t (object :: s.objects t)).heldAt =
      Function.update s.heldAt (t, (s.objects t).length) object.held := by
  funext owner
  obtain ⟨u, depth⟩ := owner
  unfold State.heldAt State.setObjects
  by_cases hu : u = t
  · subst hu
    rcases Nat.lt_trichotomy depth (s.objects u).length with hlt | rfl | hgt
    · rw [Function.update_of_ne (by simp [Nat.ne_of_lt hlt])]
      simp [List.getElem?_append_left, hlt]
    · simp
    · rw [Function.update_of_ne (by simp [Nat.ne_of_gt hgt])]
      simp only [Function.update_self]
      rw [List.getElem?_eq_none (by simp; omega), List.getElem?_eq_none (by simp; omega)]
  · simp [Function.update_of_ne, hu]

/-- And so does the destructor of that object. -/
theorem heldAt_pop {s : State ι M} {t : ι} {object : Object M} {objects : List (Object M)}
    (h : s.objects t = object :: objects) :
    (s.setObjects t objects).heldAt = Function.update s.heldAt (t, objects.length) none := by
  have hobjects : (s.setObjects t objects).objects t = objects := by
    show Function.update s.objects t objects t = objects
    rw [Function.update_self]
  have hpush := heldAt_push (s.setObjects t objects) t object
  have hagain : (s.setObjects t objects).setObjects t (object :: objects) = s := by
    unfold State.setObjects
    rw [Function.update_idem, ← h, Function.update_eq_self]
  have hnone := heldAt_length (s.setObjects t objects) t
  rw [hobjects] at hpush hnone
  rw [hagain] at hpush
  rw [hpush, Function.update_idem, ← hnone, Function.update_eq_self]

/-- `Locked` changes nothing that an object has. -/
theorem heldAt_locked {s : State ι M} {t : ι} {position : Nat} {object object' : Object M}
    {value : Bool} (h : (s.objects t)[position]? = some object)
    (hask : object.askLocked = some (value, object')) :
    (s.setObjects t ((s.objects t).set position object')).heldAt = s.heldAt := by
  have hheld : object'.held = object.held := by
    cases object with
    | scopedLock m => cases hask
    | scopedTryLock m locked checked =>
      obtain ⟨-, rfl⟩ := Prod.mk.inj (Option.some.inj hask)
      rfl
  have hsame : ((s.objects t).set position object').map Object.held =
      (s.objects t).map Object.held := by
    obtain ⟨hlt, rfl⟩ := List.getElem?_eq_some_iff.mp h
    have hlt' : position < ((s.objects t).map Object.held).length := by simpa using hlt
    have hget : object'.held = ((s.objects t).map Object.held)[position] := by
      rw [hheld, List.getElem_map]
    rw [List.map_set, hget, List.set_getElem_self]
  funext owner
  obtain ⟨u, depth⟩ := owner
  unfold State.heldAt State.setObjects
  by_cases hu : u = t
  · subst hu
    simp only [Function.update_self, hsame]
  · simp [Function.update_of_ne, hu]

end Stack

/-! ## Steps -/

variable [DecidableEq ι] [DecidableEq M]

/-- The mutex is locked behind an object on the top of the stack. -/
theorem owners_lock (s : State ι M) (t : ι) (m : M) (object : Object M)
    (hheld : object.held = some m) :
    ((s.lock t m).setObjects t (object :: s.objects t)).owners =
      s.owners.acquire (t, (s.objects t).length) m := by
  refine Owners.State.ext ?_ rfl ?_
  · funext m'
    show (Function.update s.mutex m (some t) m').isSome =
      Function.update s.owners.taken m true m'
    rw [Function.update_apply, Function.update_apply, apply_ite Option.isSome]
    rfl
  · have hpush := heldAt_push (s.lock t m) t object
    rw [hheld] at hpush
    exact hpush

theorem release_length (s : State ι M) (t : ι) :
    s.owners.release (t, (s.objects t).length) = s.owners := by
  have hnone : s.owners.held (t, (s.objects t).length) = none := heldAt_length s t
  unfold Owners.State.release
  rw [hnone]

/-- A constructor that locks. -/
theorem run_take (s : State ι M) (t : ι) {m : M} (hfree : ¬ (s.mutex m).isSome = true)
    {object : Object M} (hheld : object.held = some m) :
    run Owners.State.step s.owners [.take (t, (s.objects t).length) (some m)] =
      some ((s.lock t m).setObjects t (object :: s.objects t)).owners := by
  rw [run_singleton, Owners.State.step, release_length, owners_lock s t m object hheld]
  exact if_neg hfree

omit [DecidableEq ι] in
/-- The destructor unlocks what the object has locked. -/
theorem destroy_eq (s : State ι M) (object : Object M) :
    s.destroy object = match object.held with
      | none => s
      | some m => s.unlock m := by
  cases object with
  | scopedLock m => rfl
  | scopedTryLock m locked checked => cases locked <;> rfl

omit [DecidableEq ι] in
theorem objects_destroy (s : State ι M) (object : Object M) :
    (s.destroy object).objects = s.objects := by
  rw [destroy_eq]
  cases object.held <;> rfl

omit [DecidableEq ι] in
theorem aborted_destroy (s : State ι M) (object : Object M) :
    (s.destroy object).aborted = s.aborted := by
  rw [destroy_eq]
  cases object.held <;> rfl

/-- A destructor. -/
theorem run_drop {s : State ι M} {t : ι} {object : Object M} {objects : List (Object M)}
    (h : s.objects t = object :: objects) :
    run Owners.State.step s.owners [.drop (t, objects.length)] =
      some ((s.destroy object).setObjects t objects).owners := by
  have htop : s.owners.held (t, objects.length) = object.held := heldAt_top h
  rw [run_singleton, Owners.State.step, destroy_eq]
  unfold Owners.State.release
  rw [htop]
  refine congrArg some ?_
  cases hheld : object.held with
  | none =>
    refine Owners.State.ext rfl rfl ?_
    have hpop := heldAt_pop h
    rw [hheld] at htop
    have hkept : Function.update s.heldAt (t, objects.length) none = s.heldAt := by
      rw [← htop]
      exact Function.update_eq_self _ _
    exact (hpop.trans hkept).symm
  | some m =>
    refine Owners.State.ext ?_ rfl ?_
    · funext m'
      show Function.update s.owners.taken m false m' =
        (Function.update s.mutex m none m').isSome
      rw [Function.update_apply, Function.update_apply, apply_ite Option.isSome]
      rfl
    · have hunlock : (s.unlock m).objects t = object :: objects := h
      exact (heldAt_pop hunlock).symm

/-- What a step can do: an object enters that locks a mutex, or one that does not; none of
the objects changes what it has; the innermost object leaves. -/
theorem step_cases {s s' : State ι M} {t : ι} {action : Action M}
    (h : s.step (t, action) = some s') :
    (∃ m object, ¬ (s.mutex m).isSome = true ∧ object.held = some m ∧
      ownersActs s (t, action) = [.take (t, (s.objects t).length) (some m)] ∧
      s' = (s.lock t m).setObjects t (object :: s.objects t)) ∨
    (∃ object, object.held = none ∧
      ownersActs s (t, action) = [.take (t, (s.objects t).length) none] ∧
      s' = s.setObjects t (object :: s.objects t)) ∨
    (ownersActs s (t, action) = [] ∧ s'.mutex = s.mutex ∧ s'.heldAt = s.heldAt) ∨
    (∃ object objects, s.objects t = object :: objects ∧
      ownersActs s (t, action) = [.drop (t, objects.length)] ∧
      s' = (s.destroy object).setObjects t objects) := by
  unfold State.step at h
  dsimp only at h
  split at h
  · cases h
  · cases action with
    | scopedLock m =>
      dsimp only at h
      split at h
      · cases h
      · rename_i hfree
        exact .inl ⟨m, .scopedLock m, hfree, rfl, rfl, (Option.some.inj h).symm⟩
    | scopedTryLock m =>
      dsimp only [ownersActs] at h ⊢
      split at h
      · rename_i htaken
        rw [if_pos htaken]
        exact .inr (.inl ⟨.scopedTryLock m false false, rfl, rfl, (Option.some.inj h).symm⟩)
      · rename_i hfree
        rw [if_neg hfree]
        exact .inl ⟨m, .scopedTryLock m true false, hfree, rfl, rfl, (Option.some.inj h).symm⟩
    | locked position =>
      obtain ⟨⟨value, object'⟩, hasked, rfl⟩ := Option.map_eq_some_iff.mp h
      obtain ⟨object, hobject, hask⟩ := Option.bind_eq_some_iff.mp hasked
      exact .inr (.inr (.inl ⟨rfl, rfl, heldAt_locked hobject hask⟩))
    | destroy =>
      dsimp only at h
      split at h
      · cases h
      · rename_i object objects hobjects
        simp only [ownersActs, hobjects]
        split at h
        · rename_i hassert
          rw [if_pos hassert]
          exact .inr (.inr (.inr ⟨object, objects, rfl, rfl, (Option.some.inj h).symm⟩))
        · rename_i hassert
          obtain rfl := Option.some.inj h
          rw [if_neg hassert]
          exact .inr (.inr (.inl ⟨rfl, rfl, rfl⟩))

omit [DecidableEq M] in
/-- An object that has locked nothing changes nothing. -/
theorem heldAt_push_none (s : State ι M) (t : ι) {object : Object M} (hheld : object.held = none) :
    (s.setObjects t (object :: s.objects t)).heldAt = s.heldAt := by
  rw [heldAt_push, hheld, ← heldAt_length s t, Function.update_eq_self]

/-- **One step** is one of objects that own mutexes. -/
theorem owners_step {s s' : State ι M} {a : ι × Action M} (h : s.step a = some s') :
    run Owners.State.step s.owners (ownersActs s a) = some s'.owners := by
  obtain ⟨t, action⟩ := a
  rcases step_cases h with ⟨m, object, hfree, hheld, hacts, rfl⟩ | ⟨object, hheld, hacts, rfl⟩ |
    ⟨hacts, hmutex, hsame⟩ | ⟨object, objects, hobjects, hacts, rfl⟩
  · rw [hacts]
    exact run_take s t hfree hheld
  · rw [hacts, run_singleton, Owners.State.step, release_length]
    exact congrArg some (Owners.State.ext rfl rfl (heldAt_push_none s t hheld).symm)
  · rw [hacts]
    refine congrArg some (Owners.State.ext ?_ rfl hsame.symm)
    funext m
    show (s.mutex m).isSome = (s'.mutex m).isSome
    rw [hmutex]
  · rw [hacts]
    exact run_drop hobjects

end SslAutoref.ScopedLocks
