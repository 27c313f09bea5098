import Mathlib.Data.List.Induction

/-!
# Runs of a guarded step function

A system of several parties that act in any order: a step function gives the
next state for every action that can be taken in a state. A run is a list of
actions, each taken where the one before it led.

What holds of a state and of the actions that led there is proved from one step
(`invariant_run`), if need be for the runs whose steps all meet a condition
(`invariant_along`). What a run gives out, action by action, is `outputs`; it
adds up over the parts of a run (`outputs_append`). When every step of a system is a run of
a more abstract one, every run is (`run_simulates`).
-/

namespace Steps

variable {σ α β : Type} {step : σ → α → Option σ}

/-- The state that some actions lead to, when each of them can be taken. -/
def run (step : σ → α → Option σ) (s : σ) : List α → Option σ
  | [] => some s
  | a :: as => (step s a).bind fun s' => run step s' as

/-- What a run gives out: for every action what `out` says of it, in the state it
is taken in. -/
def outputs (step : σ → α → Option σ) (out : σ → α → List β) (s : σ) : List α → List β
  | [] => []
  | a :: as =>
    out s a ++
      match step s a with
      | none => []
      | some s' => outputs step out s' as

/-- Every action of a run meets a condition, in the state it is taken in. -/
def Along (step : σ → α → Option σ) (C : σ → α → Prop) (s : σ) : List α → Prop
  | [] => True
  | a :: as => C s a ∧ ∀ s', step s a = some s' → Along step C s' as

/-! ## One action more -/

theorem run_append (s : σ) (as bs : List α) :
    run step s (as ++ bs) = (run step s as).bind fun s' => run step s' bs := by
  induction as generalizing s with
  | nil => rfl
  | cons a as ih =>
    rw [List.cons_append, run, run]
    cases step s a with
    | none => rfl
    | some s' => exact ih s'

theorem run_singleton (s : σ) (a : α) : run step s [a] = step s a := by
  show ((step s a).bind fun s' => some s') = step s a
  cases step s a <;> rfl

theorem run_concat (s : σ) (as : List α) (a : α) :
    run step s (as ++ [a]) = (run step s as).bind fun s' => step s' a := by
  rw [run_append]
  simp only [run_singleton]

theorem run_append_of_some {s s' : σ} {as : List α} (h : run step s as = some s')
    (bs : List α) : run step s (as ++ bs) = run step s' bs := by
  rw [run_append, h]
  rfl

theorem outputs_append {out : σ → α → List β} {s s' : σ} {as : List α}
    (h : run step s as = some s') (bs : List α) :
    outputs step out s (as ++ bs) = outputs step out s as ++ outputs step out s' bs := by
  induction as generalizing s with
  | nil =>
    obtain rfl : s = s' := Option.some.inj h
    rfl
  | cons a as ih =>
    rw [run] at h
    obtain ⟨s₁, hstep, hrun⟩ := Option.bind_eq_some_iff.mp h
    rw [List.cons_append, outputs, outputs, hstep]
    dsimp only
    rw [ih hrun, List.append_assoc]

theorem outputs_singleton (out : σ → α → List β) (s : σ) (a : α) :
    outputs step out s [a] = out s a := by
  rw [outputs]
  cases step s a <;> exact List.append_nil _

theorem outputs_concat {out : σ → α → List β} {s s' : σ} {as : List α}
    (h : run step s as = some s') (a : α) :
    outputs step out s (as ++ [a]) = outputs step out s as ++ out s' a := by
  rw [outputs_append h, outputs_singleton]

/-- When every step gives an output that depends on its action alone, so does every run. -/
theorem outputs_eq_map {out : α → β} {s s' : σ} {as : List α} (h : run step s as = some s') :
    outputs step (fun _ a => [out a]) s as = as.map out := by
  induction as generalizing s with
  | nil => rfl
  | cons a as ih =>
    obtain ⟨s₁, hstep, hrest⟩ := Option.bind_eq_some_iff.mp h
    rw [outputs, hstep, List.map_cons]
    exact congrArg (out a :: ·) (ih hrest)

theorem along_append {C : σ → α → Prop} {s s' : σ} {as bs : List α}
    (h : run step s as = some s') :
    Along step C s (as ++ bs) ↔ Along step C s as ∧ Along step C s' bs := by
  induction as generalizing s with
  | nil =>
    obtain rfl : s = s' := Option.some.inj h
    exact (true_and _).to_iff.symm
  | cons a as ih =>
    rw [run] at h
    obtain ⟨s₁, hstep, hrun⟩ := Option.bind_eq_some_iff.mp h
    have hnext : ∀ P : σ → Prop, (∀ s₂, step s a = some s₂ → P s₂) ↔ P s₁ := by
      intro P
      rw [hstep]
      exact ⟨fun h => h s₁ rfl, fun hP s₂ h₂ => Option.some.inj h₂ ▸ hP⟩
    rw [List.cons_append, Along, Along, hnext, hnext, ih hrun, and_assoc]

/-! ## Invariants -/

/-- **The rule of invariants**, for the runs whose steps all meet a condition. The
invariant speaks of the actions that led to a state as well. -/
theorem invariant_along {C : σ → α → Prop} {I : List α → σ → Prop} {s₀ : σ}
    (hstart : I [] s₀)
    (hstep : ∀ as s a s', run step s₀ as = some s → I as s → C s a →
      step s a = some s' → I (as ++ [a]) s')
    {as : List α} {s : σ} (hrun : run step s₀ as = some s)
    (halong : Along step C s₀ as) : I as s := by
  induction as using List.reverseRecOn generalizing s with
  | nil =>
    obtain rfl : s₀ = s := Option.some.inj hrun
    exact hstart
  | append_singleton as a ih =>
    rw [run_concat] at hrun
    obtain ⟨s₁, hbefore, hlast⟩ := Option.bind_eq_some_iff.mp hrun
    obtain ⟨halong₁, hC, -⟩ := (along_append hbefore).mp halong
    exact hstep as s₁ a s hbefore (ih hbefore halong₁) hC hlast

/-- A condition that some actions meet in every state. -/
theorem along_of_forall {C : σ → α → Prop} {as : List α} (h : ∀ a ∈ as, ∀ s, C s a) (s : σ) :
    Along step C s as := by
  induction as generalizing s with
  | nil => trivial
  | cons a as ih =>
    refine ⟨h a List.mem_cons_self s, ?_⟩
    intro s' _
    exact ih (fun b hb => h b (List.mem_cons_of_mem _ hb)) s'

/-- The rule of invariants, for every run. -/
theorem invariant_run {I : List α → σ → Prop} {s₀ : σ} (hstart : I [] s₀)
    (hstep : ∀ as s a s', run step s₀ as = some s → I as s →
      step s a = some s' → I (as ++ [a]) s')
    {as : List α} {s : σ} (hrun : run step s₀ as = some s) : I as s :=
  @invariant_along _ _ _ (fun _ _ => True) _ _ hstart
    (fun as s a s' hrun hI _ => hstep as s a s' hrun hI) _ _ hrun
    (along_of_forall (fun _ _ _ => trivial) s₀)

/-! ## Countdowns -/

/-- **The rule of countdowns.** When every step keeps `I`, adds nothing to `rank`, and takes
one off it if it is counted, the counted steps of a run are no more than what it takes off. -/
theorem countP_add_le {I : σ → Prop} {counted : α → Bool} {rank : σ → Nat}
    (hI : ∀ s a s', I s → step s a = some s' → I s')
    (hrank : ∀ s a s', I s → step s a = some s' →
      (if counted a = true then 1 else 0) + rank s' ≤ rank s)
    {s s' : σ} {as : List α} (hs : I s) (hrun : run step s as = some s') :
    as.countP counted + rank s' ≤ rank s := by
  refine (@invariant_run _ _ _ (fun as s' => I s' ∧ as.countP counted + rank s' ≤ rank s) _
    ⟨hs, by simp⟩ ?_ _ _ hrun).2
  intro as s₁ a s₂ _ hbefore hstep
  obtain ⟨hs₁, hle⟩ := hbefore
  have hlast := hrank s₁ a s₂ hs₁ hstep
  refine ⟨hI s₁ a s₂ hs₁ hstep, ?_⟩
  rw [List.countP_append, List.countP_singleton]
  omega

/-! ## Simulation -/

/-- **The rule of simulation.** When every step is, seen through `abs`, a run of another
system, every run is one: of all its actions, one after the other. -/
theorem run_simulates {τ γ : Type} {step' : τ → γ → Option τ} {abs : σ → τ}
    {act : σ → α → List γ}
    (hstep : ∀ s a s', step s a = some s' → run step' (abs s) (act s a) = some (abs s'))
    {s s' : σ} {as : List α} (h : run step s as = some s') :
    run step' (abs s) (outputs step act s as) = some (abs s') := by
  induction as generalizing s with
  | nil =>
    obtain rfl : s = s' := Option.some.inj h
    rfl
  | cons a as ih =>
    rw [run] at h
    obtain ⟨s₁, hfirst, hrest⟩ := Option.bind_eq_some_iff.mp h
    rw [outputs, hfirst]
    dsimp only
    rw [run_append_of_some (hstep s a s₁ hfirst), ih hrest]

end Steps
