import Mathlib.Logic.Function.Basic
import SslAutoref.Lib.Steps

/-!
# A value behind a mutex

`ThreadSafe` and `ScopedLock` of `pthread_utils.h` and `pthread_utils.cpp`: threads of any
number set and get a value of any type, each under the mutex, or keep the mutex from
`GetLock` to `SetUnlock` or `Unlock`. Every read and write of what they share is one step,
and the threads take theirs in any order.
-/

namespace SslAutoref.ThreadSafe

/-- Where a thread is: in none of the calls, in `GetLock`, between it and the call that
unlocks, in `SetUnlock` or `Unlock`, or in `Set` or `Get`. Behind `GetLock` it has `seen` the
value as the reference gave it, or as it has written it through the reference since. -/
inductive Pc (T : Type)
  | idle
  | flagging
  | holding (seen : T)
  | writing (value : T)
  | releasing
  | clearing
  | setting (rvalue : T)
  | getting
  | leaving
  deriving DecidableEq

/-- The steps, in the order of the source: those of `GetLock`, a write through the
reference it returns, those of `SetUnlock` and `Unlock`, of `Set` and of `Get`, and the
destructor of `ScopedLock`. -/
inductive Action (T : Type)
  | lock
  | setLocked
  | modify (value : T)
  | checkSet (value : T)
  | check
  | write
  | unlock
  | clearLocked
  | lockSet (rvalue : T)
  | set
  | lockGet
  | get
  | leave
  deriving DecidableEq

/-- The object, and where the threads are. A failed `DCHECK(locked_)` is recorded; `copies`
has what every thread got last. -/
structure State (ι T : Type) where
  value : T
  mutex : Option ι := none
  locked : Bool := false
  failed : Bool := false
  threads : ι → Pc T := fun _ => .idle
  copies : ι → Option T := fun _ => none

/-- The object as its constructor leaves it. -/
def State.start {ι T : Type} (value : T) : State ι T := { value := value }

variable {ι T : Type} [DecidableEq ι]

/-- Where a step leads, if it can be taken here. `current` is the value that `GetLock` returns
a reference to. -/
def Pc.next (current : T) : Pc T → Action T → Option (Pc T)
  | .idle, .lock => some .flagging
  | .idle, .lockSet rvalue => some (.setting rvalue)
  | .idle, .lockGet => some .getting
  | .flagging, .setLocked => some (.holding current)
  | .holding _, .modify value => some (.holding value)
  | .holding _, .checkSet value => some (.writing value)
  | .holding _, .check => some .releasing
  | .writing _, .write => some .releasing
  | .releasing, .unlock => some .clearing
  | .clearing, .clearLocked => some .idle
  | .setting _, .set => some .leaving
  | .getting, .get => some .leaving
  | .leaving, .leave => some .idle
  | _, _ => none

/-- The steps that lock the mutex, and so wait for it. -/
def Action.locks : Action T → Bool
  | .lock | .lockSet _ | .lockGet => true
  | _ => false

/-- The steps that unlock it. -/
def Action.unlocks : Action T → Bool
  | .unlock | .leave => true
  | _ => false

/-- `value_` gets the argument of the call that thread `t` is in. -/
def State.store (s : State ι T) (t : ι) : State ι T :=
  match s.threads t with
  | .writing value => { s with value := value }
  | .setting rvalue => { s with value := rvalue }
  | _ => s

/-- What a step of thread `t` does to the object. -/
def State.share (s : State ι T) (t : ι) : Action T → State ι T
  | .lock | .lockSet _ | .lockGet => { s with mutex := some t }
  | .setLocked => { s with locked := true }
  | .modify value => { s with value := value }
  | .checkSet _ | .check => { s with failed := s.failed || !s.locked }
  | .write | .set => s.store t
  | .unlock | .leave => { s with mutex := none }
  | .clearLocked => { s with locked := false }
  | .get => { s with copies := Function.update s.copies t (some s.value) }

/-- One step of a thread. -/
def State.step (s : State ι T) (a : ι × Action T) : Option (State ι T) :=
  if a.2.locks ∧ s.mutex.isSome then none
  else
    ((s.threads a.1).next s.value a.2).map fun pc =>
      { s.share a.1 a.2 with threads := Function.update s.threads a.1 pc }

end SslAutoref.ThreadSafe
