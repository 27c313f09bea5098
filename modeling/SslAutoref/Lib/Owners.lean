import Mathlib.Logic.Function.Basic
import SslAutoref.Lib.Steps

/-!
# Owners of resources

Objects that own a resource each, or none: a handle that the system hands out, a lock. An
object acquires its resource from the system, which gives only what nobody has, or takes
over one that the rest of the program has; what it had before it releases. The system keeps
no more than the set of the resources that are taken, so that it would not notice a release
of what another object owns.

In every run from a state without objects, each resource that is taken has one owner, an
object or the rest of the program (`sole_run`), so an object that releases a resource has it
for itself (`Sole.owned_of_held`), and nothing stays taken behind the last object
(`Sole.taken_eq`).

A program whose objects have more in them is a `Table`, and each of its steps is one of
owners (`Table.run_drop`, `Table.run_take`).
-/

namespace Owners

/-- What is taken, what the objects have, and what the rest of the program has. -/
@[ext]
structure State (O R : Type) where
  taken : R → Bool
  others : R → Bool
  held : O → Option R

/-- An object releases what it has and gets what the system gives it, if anything; it
releases what it has; it takes over what the rest of the program had; the rest of the
program gets and releases something. -/
inductive Action (O R : Type)
  | take (o : O) (r : Option R)
  | drop (o : O)
  | adopt (o : O) (r : R)
  | takeOther (r : R)
  | dropOther (r : R)

variable {O R : Type} [DecidableEq O] [DecidableEq R]

/-- The state without objects, where the rest of the program has some resources. -/
def State.start (O : Type) {R : Type} (others : R → Bool) : State O R where
  taken := others
  others := others
  held := fun _ => none

/-- The object's resource is given back to the system. -/
def State.release (s : State O R) (o : O) : State O R :=
  match s.held o with
  | none => s
  | some r => { s with
      taken := Function.update s.taken r false
      held := Function.update s.held o none }

/-- The object gets a resource. -/
def State.acquire (s : State O R) (o : O) (r : R) : State O R :=
  { s with
    taken := Function.update s.taken r true
    held := Function.update s.held o (some r) }

/-- One step. The system gives nothing that is taken; the rest of the program releases only
what it has. -/
def State.step (s : State O R) : Action O R → Option (State O R)
  | .take o none => some (s.release o)
  | .take o (some r) =>
    if (s.release o).taken r = true then none else some ((s.release o).acquire o r)
  | .drop o => some (s.release o)
  | .adopt o r =>
    if s.held o = none ∧ s.others r = true then
      some { s with
        others := Function.update s.others r false
        held := Function.update s.held o (some r) }
    else none
  | .takeOther r =>
    if s.taken r = true then none
    else some { s with
      taken := Function.update s.taken r true
      others := Function.update s.others r true }
  | .dropOther r =>
    if s.others r = true then
      some { s with
        taken := Function.update s.taken r false
        others := Function.update s.others r false }
    else none

/-! ## One owner -/

/-- Who has each resource: nobody, the rest of the program, or an object. -/
structure OwnedBy (s : State O R) (owner : R → Option (Option O)) : Prop where
  taken : ∀ r, s.taken r = (owner r).isSome
  others : ∀ r, s.others r = true ↔ owner r = some none
  held : ∀ o r, s.held o = some r ↔ owner r = some (some o)

/-- What is taken has one owner, and what has an owner is taken. -/
def Sole (s : State O R) : Prop := ∃ owner, OwnedBy s owner

omit [DecidableEq O] [DecidableEq R] in
theorem sole_start (others : R → Bool) : Sole (State.start O others) := by
  refine ⟨fun r => if others r = true then some none else none, ?_, ?_, ?_⟩
  · intro r
    cases hr : others r <;> simp [State.start, hr]
  · intro r
    cases hr : others r <;> simp [State.start, hr]
  · intro o r
    simp [State.start]

omit [DecidableEq O] [DecidableEq R] in
/-- What an object has is taken, and nobody else has it. -/
theorem Sole.owned_of_held {s : State O R} (h : Sole s) {o : O} {r : R} (ho : s.held o = some r) :
    s.taken r = true ∧ s.others r = false ∧ ∀ o', s.held o' = some r → o' = o := by
  obtain ⟨owner, howned⟩ := h
  have howner := (howned.held o r).mp ho
  refine ⟨?_, ?_, ?_⟩
  · rw [howned.taken, howner]
    rfl
  · refine Bool.eq_false_iff.mpr fun hothers => ?_
    rw [(howned.others r).mp hothers] at howner
    cases howner
  · intro o' ho'
    rw [(howned.held o' r).mp ho'] at howner
    exact Option.some.inj (Option.some.inj howner)

omit [DecidableEq O] [DecidableEq R] in
/-- What is taken is the rest of the program's, or an object's. -/
theorem Sole.exists_owner {s : State O R} (h : Sole s) {r : R} (hr : s.taken r = true) :
    s.others r = true ∨ ∃ o, s.held o = some r := by
  obtain ⟨owner, howned⟩ := h
  rw [howned.taken] at hr
  obtain ⟨who, hwho⟩ := Option.isSome_iff_exists.mp hr
  cases who with
  | none => exact .inl ((howned.others r).mpr hwho)
  | some o => exact .inr ⟨o, (howned.held o r).mpr hwho⟩

omit [DecidableEq O] [DecidableEq R] in
/-- Behind the last object only the rest of the program has something. -/
theorem Sole.taken_eq {s : State O R} (h : Sole s) (hnone : ∀ o, s.held o = none) :
    s.taken = s.others := by
  obtain ⟨owner, howned⟩ := id h
  funext r
  rw [Bool.eq_iff_iff]
  refine ⟨fun hr => ?_, fun hr => ?_⟩
  · rcases h.exists_owner hr with hothers | ⟨o, ho⟩
    · exact hothers
    · rw [hnone o] at ho
      cases ho
  · rw [howned.taken, (howned.others r).mp hr]
    rfl

/-! ## One step -/

omit [DecidableEq O] in
/-- A resource gets another owner, or none, and the others keep theirs. -/
theorem OwnedBy.set {s s' : State O R} {owner : R → Option (Option O)} (h : OwnedBy s owner)
    (r : R) (who : Option (Option O))
    (htaken : ∀ r', s'.taken r' = if r' = r then who.isSome else s.taken r')
    (hothers : ∀ r', s'.others r' = true ↔ if r' = r then who = some none else s.others r' = true)
    (hheld : ∀ o r', s'.held o = some r' ↔
      if r' = r then who = some (some o) else s.held o = some r') :
    OwnedBy s' (Function.update owner r who) := by
  refine ⟨?_, ?_, ?_⟩
  · intro r'
    rw [htaken, Function.update_apply, apply_ite Option.isSome, h.taken]
  · intro r'
    rw [hothers, Function.update_apply]
    split
    · rfl
    · exact h.others r'
  · intro o r'
    rw [hheld, Function.update_apply]
    split
    · rfl
    · exact h.held o r'

/-- The resource that is released was the object's alone. -/
theorem Sole.release {s : State O R} (h : Sole s) (o : O) : Sole (s.release o) := by
  unfold State.release
  cases ho : s.held o with
  | none => exact h
  | some r =>
    obtain ⟨-, hothers, hsole⟩ := h.owned_of_held ho
    obtain ⟨owner, howned⟩ := h
    refine ⟨_, howned.set r none ?_ ?_ ?_⟩
    · exact fun r' => Function.update_apply s.taken r false r'
    · intro r'
      by_cases hr : r' = r
      · simp [hr, hothers]
      · simp [hr]
    · intro o' r'
      by_cases hr : r' = r
      · -- nobody has it now
        subst hr
        by_cases ho' : o' = o
        · simp [ho']
        · simpa [ho'] using fun hheld => ho' (hsole o' hheld)
      · by_cases ho' : o' = o
        · subst ho'
          simpa [hr, ho] using fun heq => hr heq.symm
        · simp [ho', hr]

theorem State.held_release (s : State O R) (o : O) : (s.release o).held o = none := by
  unfold State.release
  cases ho : s.held o with
  | none => exact ho
  | some r => exact Function.update_self o none s.held

/-- An object without a resource gets one that no object has. -/
theorem held_update_iff {held : O → Option R} {o : O} {r : R} (hnone : held o = none)
    (hfree : ∀ o', held o' ≠ some r) (o' : O) (r' : R) :
    Function.update held o (some r) o' = some r' ↔
      if r' = r then some (some o) = some (some o') else held o' = some r' := by
  by_cases ho' : o' = o
  · subst ho'
    by_cases hr : r' = r
    · simp [hr]
    · simpa [hr, hnone] using fun heq => hr heq.symm
  · by_cases hr : r' = r
    · subst hr
      simpa [ho', hfree o'] using fun heq => ho' heq.symm
    · simp [ho', hr]

omit [DecidableEq O] [DecidableEq R] in
theorem Sole.held_ne_of_free {s : State O R} (h : Sole s) {r : R} (hfree : ¬ s.taken r = true)
    (o : O) : s.held o ≠ some r :=
  fun ho => hfree (h.owned_of_held ho).1

omit [DecidableEq O] [DecidableEq R] in
theorem Sole.held_ne_of_others {s : State O R} (h : Sole s) {r : R} (hr : s.others r = true)
    (o : O) : s.held o ≠ some r := by
  intro ho
  rw [(h.owned_of_held ho).2.1] at hr
  cases hr

/-- What the system gives had no owner. -/
theorem Sole.acquire {s : State O R} (h : Sole s) {o : O} {r : R} (hfree : ¬ s.taken r = true)
    (hnone : s.held o = none) : Sole (s.acquire o r) := by
  have hheld := h.held_ne_of_free hfree
  obtain ⟨owner, howned⟩ := h
  have hothers : s.others r ≠ true := by
    intro hr
    rw [howned.taken, (howned.others r).mp hr] at hfree
    exact hfree rfl
  refine ⟨_, howned.set r (some (some o)) ?_ ?_ ?_⟩
  · exact fun r' => Function.update_apply s.taken r true r'
  · intro r'
    by_cases hr : r' = r
    · simpa [State.acquire, hr] using hothers
    · simp [State.acquire, hr]
  · exact held_update_iff hnone hheld

/-- What is taken over was the rest of the program's. -/
theorem Sole.adopt {s : State O R} (h : Sole s) {o : O} {r : R} (hnone : s.held o = none)
    (hr : s.others r = true) :
    Sole { s with
      others := Function.update s.others r false
      held := Function.update s.held o (some r) } := by
  have hheld := h.held_ne_of_others hr
  obtain ⟨owner, howned⟩ := h
  refine ⟨_, howned.set r (some (some o)) ?_ ?_ ?_⟩
  · intro r'
    by_cases heq : r' = r
    · simp [heq, howned.taken, (howned.others r).mp hr]
    · simp [heq]
  · intro r'
    by_cases heq : r' = r <;> simp [heq]
  · exact held_update_iff hnone hheld

omit [DecidableEq O] in
/-- The rest of the program gets or releases what no object has. -/
theorem Sole.setOthers {s : State O R} (h : Sole s) {r : R} (hheld : ∀ o, s.held o ≠ some r)
    (value : Bool) :
    Sole { s with
      taken := Function.update s.taken r value
      others := Function.update s.others r value } := by
  obtain ⟨owner, howned⟩ := h
  refine ⟨_, howned.set r (if value = true then some none else none) ?_ ?_ ?_⟩
  · intro r'
    by_cases heq : r' = r
    · cases value <;> simp [heq]
    · simp [heq]
  · intro r'
    by_cases heq : r' = r
    · cases value <;> simp [heq]
    · simp [heq]
  · intro o' r'
    by_cases heq : r' = r
    · cases value <;> simp [heq, hheld]
    · simp [heq]

/-- **One step** keeps the owners apart. -/
theorem sole_step {s s' : State O R} {a : Action O R} (h : Sole s) (hstep : s.step a = some s') :
    Sole s' := by
  cases a with
  | take o r =>
    cases r with
    | none =>
      obtain rfl := Option.some.inj hstep
      exact h.release o
    | some r =>
      rw [State.step] at hstep
      split at hstep
      · cases hstep
      · rename_i hfree
        obtain rfl := Option.some.inj hstep
        exact (h.release o).acquire hfree (s.held_release o)
  | drop o =>
    obtain rfl := Option.some.inj hstep
    exact h.release o
  | adopt o r =>
    rw [State.step] at hstep
    split at hstep
    · rename_i hguard
      obtain rfl := Option.some.inj hstep
      exact h.adopt hguard.1 hguard.2
    · cases hstep
  | takeOther r =>
    rw [State.step] at hstep
    split at hstep
    · cases hstep
    · rename_i hfree
      obtain rfl := Option.some.inj hstep
      exact h.setOthers (h.held_ne_of_free hfree) true
  | dropOther r =>
    rw [State.step] at hstep
    split at hstep
    · rename_i hr
      obtain rfl := Option.some.inj hstep
      exact h.setOthers (h.held_ne_of_others hr) false
    · cases hstep

/-- **Every run** keeps the owners apart. -/
theorem sole_run {s s' : State O R} {as : List (Action O R)} (h : Sole s)
    (hrun : Steps.run State.step s as = some s') : Sole s' :=
  @Steps.invariant_run _ _ State.step (fun _ s => Sole s) s h
    (fun _ _ _ _ _ h hstep => sole_step h hstep) _ _ hrun

/-! ## Tables of objects -/

/-- Objects with more to them than a resource: what is taken, what the rest of the program
has, and the objects that there are. -/
structure Table (O R X : Type) where
  taken : R → Bool
  others : R → Bool
  objects : O → Option X := fun _ => none

section Table

variable {X : Type} {holds : X → Option R}

/-- The resources that the objects hold. -/
def Table.owners (holds : X → Option R) (t : Table O R X) : State O R where
  taken := t.taken
  others := t.others
  held o := (t.objects o).bind holds

/-- An object is constructed, changed or destroyed. -/
def Table.set (t : Table O R X) (o : O) (x : Option X) : Table O R X :=
  { t with objects := Function.update t.objects o x }

/-- A resource, if there is one, is given back to the system. -/
def Table.release (t : Table O R X) : Option R → Table O R X
  | none => t
  | some r => { t with taken := Function.update t.taken r false }

/-- The system gives a resource, if it does. -/
def Table.acquire (t : Table O R X) : Option R → Table O R X
  | none => t
  | some r => { t with taken := Function.update t.taken r true }

/-- The rest of the program gets a resource. -/
def Table.takeOther (t : Table O R X) (r : R) : Option (Table O R X) :=
  if t.taken r = true then none
  else some { t with
    taken := Function.update t.taken r true
    others := Function.update t.others r true }

/-- It gives one back. -/
def Table.dropOther (t : Table O R X) (r : R) : Option (Table O R X) :=
  if t.others r = true then
    some { t with
      taken := Function.update t.taken r false
      others := Function.update t.others r false }
  else none

/-- An object takes over what the rest of the program had. -/
def Table.adopt (t : Table O R X) (r : R) : Option (Table O R X) :=
  if t.others r = true then some { t with others := Function.update t.others r false } else none

omit [DecidableEq R] in
theorem Table.held_set (t : Table O R X) (o : O) (x : Option X) :
    ((t.set o x).owners holds).held =
      Function.update (t.owners holds).held o (x.bind holds) := by
  funext o'
  unfold Table.owners Table.set
  by_cases ho : o' = o
  · subst ho
    simp
  · simp [ho]

omit [DecidableEq R] in
/-- An object that keeps what it holds. -/
theorem Table.owners_set_same {t : Table O R X} {o : O} {x : Option X}
    (h : x.bind holds = (t.objects o).bind holds) : (t.set o x).owners holds = t.owners holds := by
  refine State.ext rfl rfl ?_
  rw [Table.held_set, h]
  exact Function.update_eq_self o _

/-- Such a step is none of the owners'. -/
theorem Table.run_same {t : Table O R X} {o : O} {x : Option X}
    (h : x.bind holds = (t.objects o).bind holds) :
    Steps.run State.step (t.owners holds) [] = some ((t.set o x).owners holds) :=
  congrArg some (Table.owners_set_same h).symm

/-- An object gives back what it holds, and holds nothing. -/
theorem Table.run_drop {t : Table O R X} {o : O} {x : X} (ho : t.objects o = some x)
    {y : Option X} (hy : y.bind holds = none) :
    Steps.run State.step (t.owners holds) [.drop o] =
      some (((t.release (holds x)).set o y).owners holds) := by
  have hheld : (t.owners holds).held o = holds x := by
    show (t.objects o).bind holds = holds x
    rw [ho]
    rfl
  rw [Steps.run_singleton, State.step]
  refine congrArg some ?_
  unfold State.release
  rw [hheld]
  cases hx : holds x with
  | none =>
    refine (Table.owners_set_same ?_).symm
    show y.bind holds = (t.objects o).bind holds
    rw [hy, ho]
    exact hx.symm
  | some r =>
    refine State.ext rfl rfl ?_
    rw [Table.held_set, hy]
    rfl

/-- An object that holds nothing gets what the system gives. -/
theorem Table.run_take {t : Table O R X} {o : O} (ho : (t.objects o).bind holds = none)
    {r : Option R} (hfree : ∀ r', r = some r' → ¬ t.taken r' = true) {x : X}
    (hx : holds x = r) :
    Steps.run State.step (t.owners holds) [.take o r] =
      some (((t.acquire r).set o (some x)).owners holds) := by
  have hrelease : (t.owners holds).release o = t.owners holds := by
    have hheld : (t.owners holds).held o = none := ho
    unfold State.release
    rw [hheld]
  rw [Steps.run_singleton]
  cases r with
  | none =>
    rw [State.step, hrelease]
    refine congrArg some (Table.owners_set_same ?_).symm
    show holds x = (t.objects o).bind holds
    rw [ho, hx]
  | some r =>
    rw [State.step, hrelease]
    refine (if_neg (hfree r rfl)).trans (congrArg some (State.ext rfl rfl ?_))
    rw [Table.held_set]
    show Function.update (t.owners holds).held o (some r) =
      Function.update (t.owners holds).held o (holds x)
    rw [hx]

omit [DecidableEq O] in
theorem Table.objects_takeOther {t t' : Table O R X} {r : R} (h : t.takeOther r = some t') :
    t'.objects = t.objects := by
  unfold Table.takeOther at h
  split at h
  · cases h
  · rw [← Option.some.inj h]

omit [DecidableEq O] in
theorem Table.objects_dropOther {t t' : Table O R X} {r : R} (h : t.dropOther r = some t') :
    t'.objects = t.objects := by
  unfold Table.dropOther at h
  split at h
  · rw [← Option.some.inj h]
  · cases h

theorem Table.run_adopt {t t' : Table O R X} {o : O} (ho : (t.objects o).bind holds = none) {r : R}
    (hadopt : t.adopt r = some t') {x : X} (hx : holds x = some r) :
    Steps.run State.step (t.owners holds) [.adopt o r] =
      some ((t'.set o (some x)).owners holds) := by
  unfold Table.adopt at hadopt
  split at hadopt
  · rename_i hothers
    obtain rfl := Option.some.inj hadopt
    rw [Steps.run_singleton, State.step]
    refine (if_pos ⟨ho, hothers⟩).trans (congrArg some (State.ext rfl rfl ?_))
    rw [Table.held_set]
    show Function.update (t.owners holds).held o (some r) =
      Function.update (t.owners holds).held o (holds x)
    rw [hx]
  · cases hadopt

theorem Table.run_takeOther {t t' : Table O R X} {r : R} (h : t.takeOther r = some t') :
    Steps.run State.step (t.owners holds) [.takeOther r] = some (t'.owners holds) := by
  unfold Table.takeOther at h
  split at h
  · cases h
  · rename_i hfree
    obtain rfl := Option.some.inj h
    rw [Steps.run_singleton]
    exact if_neg hfree

theorem Table.run_dropOther {t t' : Table O R X} {r : R} (h : t.dropOther r = some t') :
    Steps.run State.step (t.owners holds) [.dropOther r] = some (t'.owners holds) := by
  unfold Table.dropOther at h
  split at h
  · rename_i hothers
    obtain rfl := Option.some.inj h
    rw [Steps.run_singleton]
    exact if_pos hothers
  · cases h

end Table

end Owners
