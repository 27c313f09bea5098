import Mathlib.Data.List.Nodup
import Mathlib.Data.List.Perm.Basic

/-!
# Copies of items

Items that are each handed to several receivers: the lists of copies, by item and by
receiver, and when the copies are the items once each. Everything is up to the order,
which the receivers decide among themselves.
-/

namespace Fanout

variable {α β γ κ : Type}

/-- Two loops, one inside the other, can change places. -/
theorem perm_swap (xs : List α) (ys : List β) (f : α → β → List γ) :
    (xs.flatMap fun x => ys.flatMap fun y => f x y).Perm
      (ys.flatMap fun y => xs.flatMap fun x => f x y) := by
  induction xs with
  | nil =>
    have hnone : (ys.flatMap fun _ => ([] : List γ)) = [] :=
      List.flatMap_eq_nil_iff.mpr fun _ _ => rfl
    show List.Perm [] (ys.flatMap fun _ => [])
    rw [hnone]
  | cons x xs ih =>
    have hsplit := List.flatMap_append_perm ys (f x) fun y => xs.flatMap fun x => f x y
    exact (ih.append_left _).trans hsplit

/-- What an item gives to the keys it belongs to: itself, once. -/
theorem flatMap_ite_eq [DecidableEq κ] {keys : List κ} (hnodup : keys.Nodup) {k : κ}
    (hk : k ∈ keys) (x : α) : (keys.flatMap fun k' => if k = k' then [x] else []) = [x] := by
  induction keys with
  | nil => cases hk
  | cons k' keys ih =>
    obtain ⟨hnot, hrest⟩ := List.nodup_cons.mp hnodup
    rw [List.flatMap_cons]
    by_cases hkk' : k = k'
    · -- the key does not come again
      subst hkk'
      have hnone : (keys.flatMap fun k' => if k = k' then [x] else []) = [] := by
        refine List.flatMap_eq_nil_iff.mpr fun k' hk' => if_neg ?_
        rintro rfl
        exact hnot hk'
      rw [if_pos rfl, hnone]
      rfl
    · rw [if_neg hkk']
      exact ih hrest ((List.mem_cons.mp hk).resolve_left hkk')

theorem map_filter_eq_flatMap (p : α → Prop) [DecidablePred p] (f : α → β) (xs : List α) :
    (xs.filter fun x => p x).map f = xs.flatMap fun x => if p x then [f x] else [] := by
  induction xs with
  | nil => rfl
  | cons x xs ih =>
    rw [List.flatMap_cons, ← ih]
    by_cases hp : p x
    · rw [if_pos hp, List.filter_cons_of_pos (by simpa using hp)]
      rfl
    · rw [if_neg hp, List.filter_cons_of_neg (by simpa using hp)]
      rfl

/-- A list is made of its parts, one for each key. -/
theorem perm_parts [DecidableEq κ] {keys : List κ} (hnodup : keys.Nodup) (key : α → κ)
    {xs : List α} (hkey : ∀ x ∈ xs, key x ∈ keys) :
    (keys.flatMap fun k => xs.filter fun x => key x = k).Perm xs := by
  have hparts : (keys.flatMap fun k => xs.filter fun x => key x = k) =
      keys.flatMap fun k => xs.flatMap fun x => if key x = k then [x] else [] := by
    refine List.flatMap_congr fun k _ => ?_
    have hpart := map_filter_eq_flatMap (fun x => key x = k) id xs
    rwa [List.map_id] at hpart
  have hitems : (xs.flatMap fun x => keys.flatMap fun k => if key x = k then [x] else []) =
      xs.flatMap fun x => [x] :=
    List.flatMap_congr fun x hx => flatMap_ite_eq hnodup (hkey x hx) x
  have hswap := perm_swap keys xs fun k x => if key x = k then [x] else []
  rw [hitems, List.flatMap_singleton'] at hswap
  rw [hparts]
  exact hswap

/-! ## One copy each -/

theorem length_le_flatMap {f : α → List β} {xs : List α} (h : ∀ x ∈ xs, f x ≠ []) :
    xs.length ≤ (xs.flatMap f).length := by
  induction xs with
  | nil => exact Nat.le_refl 0
  | cons x xs ih =>
    have hx := List.length_pos_iff.mpr (h x List.mem_cons_self)
    have hrest := ih fun y hy => h y (List.mem_cons_of_mem _ hy)
    rw [List.flatMap_cons, List.length_append, List.length_cons]
    omega

/-- As many copies as items, and one of each at least, is one of each. -/
theorem length_eq_one_of_flatMap {f : α → List β} {xs : List α} (h : ∀ x ∈ xs, f x ≠ [])
    (hlen : (xs.flatMap f).length = xs.length) : ∀ x ∈ xs, (f x).length = 1 := by
  induction xs with
  | nil => exact nofun
  | cons x xs ih =>
    have hx := List.length_pos_iff.mpr (h x List.mem_cons_self)
    have hnone : ∀ y ∈ xs, f y ≠ [] := fun y hy => h y (List.mem_cons_of_mem _ hy)
    have hrest := length_le_flatMap hnone
    rw [List.flatMap_cons, List.length_append, List.length_cons] at hlen
    intro y hy
    rcases List.mem_cons.mp hy with rfl | hy
    · omega
    · exact ih hnone (by omega) y hy

/-- **One copy each.** The copies are the items, when each has a copy of its own, exactly
when no item has another. -/
theorem flatMap_perm_map_iff {f : α → List β} {g : α → β} {xs : List α}
    (h : ∀ x ∈ xs, g x ∈ f x) :
    (xs.flatMap f).Perm (xs.map g) ↔ ∀ x ∈ xs, f x = [g x] := by
  refine ⟨?_, ?_⟩
  · -- the lengths leave each item one copy, which is its own
    intro hperm x hx
    have hnone : ∀ y ∈ xs, f y ≠ [] := fun y hy => List.ne_nil_of_mem (h y hy)
    have hlen : (xs.flatMap f).length = xs.length := by
      rw [hperm.length_eq, List.length_map]
    obtain ⟨y, hy⟩ := List.length_eq_one_iff.mp (length_eq_one_of_flatMap hnone hlen x hx)
    have hown := h x hx
    rw [hy] at hown ⊢
    rw [List.mem_singleton.mp hown]
  · intro hone
    rw [List.flatMap_congr hone]
    have hmap : (xs.flatMap fun x => [g x]) = xs.map g := (List.map_eq_flatMap).symm
    rw [hmap]

end Fanout
