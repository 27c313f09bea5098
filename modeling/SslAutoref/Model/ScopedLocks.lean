import Mathlib.Logic.Function.Basic
import SslAutoref.Lib.Steps

/-!
# Scoped locks

`ScopedLock` and `ScopedTryLock` of `pthread_utils.cpp`: threads of any number enter and
leave nested scopes with a lock each, on any number of mutexes. The objects of a thread are
a stack, the innermost first, as their destructors run in the reverse order. Every call of
a constructor, of `Locked` or of a destructor is one step, and the threads take theirs in
any order.
-/

namespace SslAutoref.ScopedLocks

/-- An object of one of the two classes, with what is in it. -/
inductive Object (M : Type)
  | scopedLock (mutex : M)
  | scopedTryLock (mutex : M) (locked checked : Bool)
  deriving DecidableEq

/-- The constructors, `Locked` of the object at a position of the stack, and the destructor
of the innermost object. -/
inductive Action (M : Type)
  | scopedLock (mutex : M)
  | scopedTryLock (mutex : M)
  | locked (position : Nat)
  | destroy
  deriving DecidableEq

/-- Who has the mutexes, what the threads are in, and whether an assertion failed, which
ends the process. -/
structure State (ι M : Type) where
  mutex : M → Option ι := fun _ => none
  objects : ι → List (Object M) := fun _ => []
  aborted : Bool := false

variable {ι M : Type} [DecidableEq ι] [DecidableEq M]

/-- `ScopedTryLock::Locked`: what it returns, and what is in the object then. There is none
in `ScopedLock`. -/
def Object.askLocked : Object M → Option (Bool × Object M)
  | .scopedLock _ => none
  | .scopedTryLock mutex locked _ => some (locked, .scopedTryLock mutex locked true)

/-- `pthread_mutex_unlock`. -/
def State.unlock (s : State ι M) (m : M) : State ι M :=
  { s with mutex := Function.update s.mutex m none }

/-- `pthread_mutex_lock` by thread `t`, when it returns. -/
def State.lock (s : State ι M) (t : ι) (m : M) : State ι M :=
  { s with mutex := Function.update s.mutex m (some t) }

/-- The objects of a thread change. -/
def State.setObjects (s : State ι M) (t : ι) (objects : List (Object M)) : State ι M :=
  { s with objects := Function.update s.objects t objects }

/-- The destructor of an object, when its assertion holds. -/
def State.destroy (s : State ι M) : Object M → State ι M
  | .scopedLock mutex => s.unlock mutex
  | .scopedTryLock mutex locked _ => if locked = true then s.unlock mutex else s

/-- `assert(checked_)`. -/
def Object.assertion : Object M → Bool
  | .scopedLock _ => true
  | .scopedTryLock _ _ checked => checked

/-- One step of a thread. `pthread_mutex_lock` waits for the mutex, also when the thread
itself has it; `pthread_mutex_trylock` does not. -/
def State.step (s : State ι M) (a : ι × Action M) : Option (State ι M) :=
  let (t, action) := a
  if s.aborted = true then none
  else
    match action with
    | .scopedLock m =>
      if (s.mutex m).isSome = true then none
      else some ((s.lock t m).setObjects t (.scopedLock m :: s.objects t))
    | .scopedTryLock m =>
      if (s.mutex m).isSome = true then
        some (s.setObjects t (.scopedTryLock m false false :: s.objects t))
      else
        some ((s.lock t m).setObjects t (.scopedTryLock m true false :: s.objects t))
    | .locked position =>
      ((s.objects t)[position]?.bind Object.askLocked).map fun (_, object) =>
        s.setObjects t ((s.objects t).set position object)
    | .destroy =>
      match s.objects t with
      | [] => none
      | object :: objects =>
        if object.assertion = true then some ((s.destroy object).setObjects t objects)
        else some { s with aborted := true }

end SslAutoref.ScopedLocks
