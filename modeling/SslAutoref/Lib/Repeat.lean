import Mathlib.Data.List.Basic

/-!
# Reading until it fails

A reader takes one item off an input and leaves the rest, or fails. Reading on until it
fails ends when every item makes the input smaller, and is the same whatever the fuel
(`upTo_eq_all`): the loop goes on with the rest of the input (`all_eq`), and what is shown
of an input from its rest holds of every input (`Shrinks.induct`). When a longer input
begins with the same items, what is read of it goes on from what is read of its start
(`all_prefix_append`).
-/

namespace Repeat

variable {α β : Type}

/-- Read at most `fuel` items. -/
def upTo (read : α → Option (β × α)) : Nat → α → List β
  | 0, _ => []
  | fuel + 1, input =>
    match read input with
    | none => []
    | some (x, rest) => x :: upTo read fuel rest

/-- Read until it fails. The size of the input is fuel enough. -/
def all (size : α → Nat) (read : α → Option (β × α)) (input : α) : List β :=
  upTo read (size input) input

/-- Every item that is read makes the input smaller. -/
def Shrinks (size : α → Nat) (read : α → Option (β × α)) : Prop :=
  ∀ input x rest, read input = some (x, rest) → size rest < size input

variable {size : α → Nat} {read : α → Option (β × α)}

/-- Nothing is read from an input of size zero. -/
theorem Shrinks.read_eq_none (h : Shrinks size read) {input : α} (hzero : size input = 0) :
    read input = none := by
  cases hread : read input with
  | none => rfl
  | some item =>
    obtain ⟨x, rest⟩ := item
    have hlt := h input x rest hread
    omega

/-- **Induction over what is read**: for an input of which nothing is read, and for one
whose rest is done. -/
theorem Shrinks.induct (h : Shrinks size read) {P : α → Prop}
    (fails : ∀ input, read input = none → P input)
    (reads : ∀ input x rest, read input = some (x, rest) → P rest → P input) (input : α) :
    P input := by
  induction hn : size input using Nat.strongRecOn generalizing input with
  | ind n ih =>
    cases hread : read input with
    | none => exact fails input hread
    | some item =>
      obtain ⟨x, rest⟩ := item
      have hlt := h input x rest hread
      exact reads input x rest hread (ih (size rest) (by omega) rest rfl)

theorem upTo_eq_all (h : Shrinks size read) {fuel : Nat} {input : α}
    (hfuel : size input ≤ fuel) : upTo read fuel input = all size read input := by
  -- any two amounts of fuel that suffice, by induction on one of them
  suffices ∀ n input, size input ≤ n → ∀ fuel, size input ≤ fuel →
      upTo read fuel input = upTo read n input by
    exact this _ _ (Nat.le_refl _) _ hfuel
  intro n
  induction n with
  | zero =>
    intro input hn fuel _
    have hnone := h.read_eq_none (Nat.le_zero.mp hn)
    cases fuel with
    | zero => rfl
    | succ fuel => rw [upTo, upTo, hnone]
  | succ n ih =>
    intro input hn fuel hfuel
    cases fuel with
    | zero =>
      have hnone := h.read_eq_none (Nat.le_zero.mp hfuel)
      rw [upTo, upTo, hnone]
    | succ fuel =>
      rw [upTo, upTo]
      cases hread : read input with
      | none => rfl
      | some item =>
        obtain ⟨x, rest⟩ := item
        have hlt := h input x rest hread
        dsimp only
        rw [ih rest (by omega) fuel (by omega)]

/-- The loop of a reader, one item at a time. -/
theorem all_eq (h : Shrinks size read) (input : α) :
    all size read input =
      match read input with
      | none => []
      | some (x, rest) => x :: all size read rest := by
  rw [← upTo_eq_all h (Nat.le_succ (size input)), upTo]
  cases hread : read input with
  | none => rfl
  | some item =>
    obtain ⟨x, rest⟩ := item
    have hlt := h input x rest hread
    dsimp only
    rw [upTo_eq_all h (Nat.le_of_lt hlt)]

/-- What holds of every item that can be read holds of all that are. -/
theorem forall_mem_all (h : Shrinks size read) {P : β → Prop}
    (hread : ∀ input x rest, read input = some (x, rest) → P x) (input : α) :
    ∀ x ∈ all size read input, P x := by
  induction input using h.induct with
  | fails input hnone =>
    intro x hx
    rw [all_eq h, hnone] at hx
    cases hx
  | reads input first rest hfirst ih =>
    intro x hx
    rw [all_eq h, hfirst] at hx
    rcases List.mem_cons.mp hx with rfl | hx
    · exact hread input x rest hfirst
    · exact ih x hx

/-! ## Longer inputs -/

/-- An item that is read off an input is read off every input that goes on from there. -/
def Extends {α β : Type} (read : List α → Option (β × List α)) : Prop :=
  ∀ input x rest, read input = some (x, rest) →
    ∀ more, read (input ++ more) = some (x, rest ++ more)

/-- **A longer input** gives the items of its start, and then others. -/
theorem all_prefix_append {α β : Type} {read : List α → Option (β × List α)}
    (h : Shrinks List.length read) (hmore : Extends read) (input more : List α) :
    all List.length read input <+: all List.length read (input ++ more) := by
  induction input using h.induct with
  | fails input hnone =>
    rw [all_eq h input, hnone]
    exact List.nil_prefix
  | reads input x rest hread ih =>
    rw [all_eq h input, hread, all_eq h (input ++ more), hmore input x rest hread more]
    exact List.cons_prefix_cons.mpr ⟨rfl, ih⟩

end Repeat
