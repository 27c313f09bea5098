import Mathlib.Logic.Function.Basic
import SslAutoref.Lib.Steps

/-!
# A mutex among threads

Threads of any number, each at a place in its code, and a mutex that is held at some of the
places. In a program whose threads get to such a place only by locking the mutex while it is
free, and leave those places only by unlocking it (`Guards`), the mutex is in every run with
the one thread that is at such a place (`Guards.run`), and there are never two
(`Held.eq_of_holds`).
-/

namespace Mutex

variable {ι P σ α : Type} {holds : P → Bool}

section Places

variable {mutex mutex' : Option ι} {places : ι → P}

/-- The mutex is held by the thread that is at a place for it, and by no other. -/
def Held (holds : P → Bool) (mutex : Option ι) (places : ι → P) : Prop :=
  ∀ t, mutex = some t ↔ holds (places t) = true

theorem held_of_free (h : ∀ t, holds (places t) = false) : Held holds none places := by
  intro t
  rw [h t]
  exact ⟨nofun, nofun⟩

/-- No two threads are at such places. -/
theorem Held.eq_of_holds (h : Held holds mutex places) {t u : ι}
    (ht : holds (places t) = true) (hu : holds (places u) = true) : t = u :=
  Option.some.inj (((h t).mpr ht).symm.trans ((h u).mpr hu))

/-- What a step of thread `t` does to the mutex, when the places before and behind the step
are those of a holder or not. -/
inductive Does (t : ι) (mutex : Option ι) (before after : Bool) : Option ι → Prop
  | lock (hfree : mutex = none) (hafter : after = true) : Does t mutex before after (some t)
  | unlock (hbefore : before = true) (hafter : after = false) : Does t mutex before after none
  | leave (hsame : after = before) : Does t mutex before after mutex

/-- **One step** of a thread. -/
theorem Held.step [DecidableEq ι] (h : Held holds mutex places) {t : ι} {p : P}
    (hdoes : Does t mutex (holds (places t)) (holds p) mutex') :
    Held holds mutex' (Function.update places t p) := by
  intro u
  have ht := h t
  have hu := h u
  by_cases hut : u = t
  · subst hut
    rw [Function.update_self]
    cases hdoes with
    | lock hfree hafter => simp [hafter]
    | unlock hbefore hafter => simp [hafter]
    | leave hsame => rw [hsame, hu]
  · rw [Function.update_of_ne hut]
    cases hdoes with
    | lock hfree hafter =>
      -- the mutex was free, so no other thread holds it
      rw [hfree] at hu
      simp [← hu, Ne.symm hut]
    | unlock hbefore hafter =>
      -- the mutex was this thread's, so no other thread holds it
      rw [ht.mpr hbefore] at hu
      simp [← hu, Ne.symm hut]
    | leave hsame => exact hu

end Places

/-- Every step leaves the mutex and the places alone, or is one of a thread that locks and
unlocks as it should. -/
def Guards [DecidableEq ι] (holds : P → Bool) (next : σ → α → Option σ) (mutex : σ → Option ι)
    (places : σ → ι → P) : Prop :=
  ∀ s a s', next s a = some s' →
    mutex s' = mutex s ∧ places s' = places s ∨
      ∃ t p, places s' = Function.update (places s) t p ∧
        Does t (mutex s) (holds (places s t)) (holds p) (mutex s')

section Runs

variable [DecidableEq ι] {next : σ → α → Option σ} {mutex : σ → Option ι} {places : σ → ι → P}

theorem Guards.step (hguards : Guards holds next mutex places) {s s' : σ} {a : α}
    (h : Held holds (mutex s) (places s)) (hstep : next s a = some s') :
    Held holds (mutex s') (places s') := by
  rcases hguards s a s' hstep with ⟨hmutex, hplaces⟩ | ⟨t, p, hplaces, hdoes⟩
  · rwa [hmutex, hplaces]
  · rw [hplaces]
    exact h.step hdoes

/-- **Every run** keeps the mutex with the thread that is at a place for it. -/
theorem Guards.run (hguards : Guards holds next mutex places) {s₀ s : σ} {as : List α}
    (hstart : Held holds (mutex s₀) (places s₀)) (hrun : Steps.run next s₀ as = some s) :
    Held holds (mutex s) (places s) :=
  @Steps.invariant_run _ _ next (fun _ s => Held holds (mutex s) (places s)) s₀ hstart
    (fun _ _ _ _ _ h hstep => hguards.step h hstep) _ _ hrun

end Runs

end Mutex
