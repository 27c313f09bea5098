import Mathlib.Data.List.Forall2
import Mathlib.Data.List.Infix

/-!
# Greedy one-pass scans

A scan reads a list of *items* once while it serves a list of *requests*: each
request starts at the cursor, stops at the first item that `stops` it, and
leaves the cursor just past that item. A request nothing stops leaves the
cursor at the end of the items.

The cursor is a fold, but what it means does not need one: as long as it is
inside the list, the cursor has not passed position `i` exactly when the
requests embed, in order, into the items before `i`, each onto an item that
stops it (`cursor_le_iff`). The greedy choice is the earliest embedding.
-/

namespace GreedyScan

variable {α β : Type*} (stops : α → β → Bool)

/-- The first position from `k` on whose item stops the request; the length of
the list when there is none. -/
def stopAt (items : List β) (k : Nat) (a : α) : Nat :=
  k + (items.drop k).findIdx (stops a)

/-- Where the cursor is left by a request that starts at `k`. -/
def advance (items : List β) (k : Nat) (a : α) : Nat :=
  min (stopAt stops items k a + 1) items.length

/-- The cursor after a list of requests, started at `k`. -/
def cursor (items : List β) (k : Nat) (requests : List α) : Nat :=
  requests.foldl (advance stops items) k

variable {stops} {items : List β} {k : Nat} {a : α}

@[simp] theorem cursor_nil : cursor stops items k [] = k := rfl

@[simp] theorem cursor_cons (as : List α) :
    cursor stops items k (a :: as) =
      cursor stops items (advance stops items k a) as := rfl

theorem cursor_concat (as : List α) :
    cursor stops items k (as ++ [a]) =
      advance stops items (cursor stops items k as) a := by
  simp [cursor]

/-! ## One request -/

theorem le_stopAt : k ≤ stopAt stops items k a := Nat.le_add_right _ _

/-- The item a request stops at does stop it. -/
theorem stops_stopAt {h : β} (hget : items[stopAt stops items k a]? = some h) :
    stops a h = true := by
  have hdrop : (items.drop k)[(items.drop k).findIdx (stops a)]? = some h := by
    rw [List.getElem?_drop]
    exact hget
  obtain ⟨hlt, rfl⟩ := List.getElem?_eq_some_iff.mp hdrop
  exact List.findIdx_getElem

/-- No item the request goes past stops it. -/
theorem not_stops_of_lt_stopAt {i : Nat} {h : β} (hki : k ≤ i)
    (hi : i < stopAt stops items k a) (hget : items[i]? = some h) :
    stops a h = false := by
  have hlt : i - k < (items.drop k).findIdx (stops a) := by
    unfold stopAt at hi
    omega
  have hdrop : (items.drop k)[i - k]? = some h := by
    rw [List.getElem?_drop, Nat.add_sub_cancel' hki]
    exact hget
  obtain ⟨hlen, rfl⟩ := List.getElem?_eq_some_iff.mp hdrop
  simpa using List.not_of_lt_findIdx hlt

/-- A position is reached when an item at or before it stops the request. -/
theorem stopAt_le_of_stops {i : Nat} {h : β} (hki : k ≤ i)
    (hget : items[i]? = some h) (hstop : stops a h = true) :
    stopAt stops items k a ≤ i := by
  by_contra hlt
  have := not_stops_of_lt_stopAt hki (Nat.lt_of_not_le hlt) hget
  rw [hstop] at this
  cases this

/-- The stop is the first item that stops the request. -/
theorem stopAt_eq_of_first {q : Nat} {h : β} (hkq : k ≤ q) (hget : items[q]? = some h)
    (hstop : stops a h = true)
    (hpass : ∀ i h', k ≤ i → i < q → items[i]? = some h' → stops a h' = false) :
    stopAt stops items k a = q := by
  refine Nat.le_antisymm (stopAt_le_of_stops hkq hget hstop) ?_
  by_contra hlt
  obtain ⟨hq, -⟩ := List.getElem?_eq_some_iff.mp hget
  have hget' : items[stopAt stops items k a]? = some items[stopAt stops items k a] :=
    List.getElem?_eq_getElem (by omega)
  have hfalse := hpass _ _ le_stopAt (Nat.lt_of_not_le hlt) hget'
  rw [stops_stopAt hget'] at hfalse
  cases hfalse

/-- A request no item stops goes past all of them. -/
theorem length_le_stopAt
    (hpass : ∀ i h', k ≤ i → items[i]? = some h' → stops a h' = false) :
    items.length ≤ stopAt stops items k a := by
  by_contra hlt
  have hget' : items[stopAt stops items k a]? = some items[stopAt stops items k a] :=
    List.getElem?_eq_getElem (Nat.lt_of_not_le hlt)
  have hfalse := hpass _ _ le_stopAt hget'
  rw [stops_stopAt hget'] at hfalse
  cases hfalse

/-- A request whose first item stops it stops there. -/
theorem stopAt_eq_self {h : β} (hget : items[k]? = some h)
    (hstop : stops a h = true) : stopAt stops items k a = k :=
  Nat.le_antisymm (stopAt_le_of_stops (Nat.le_refl k) hget hstop) le_stopAt

/-- A request goes past an item that does not stop it. -/
theorem stopAt_succ {h : β} (hget : items[k]? = some h)
    (hpass : stops a h = false) :
    stopAt stops items k a = stopAt stops items (k + 1) a := by
  obtain ⟨hlt, rfl⟩ := List.getElem?_eq_some_iff.mp hget
  unfold stopAt
  rw [List.drop_eq_getElem_cons hlt, List.findIdx_cons, hpass]
  simp only [cond_false]
  omega

/-- Past the end there is nothing to stop at. -/
theorem stopAt_length : stopAt stops items items.length a = items.length := by
  simp [stopAt]

theorem le_advance (hk : k ≤ items.length) : k ≤ advance stops items k a := by
  have hstop : k ≤ stopAt stops items k a := le_stopAt
  unfold advance
  omega

theorem advance_le_length : advance stops items k a ≤ items.length :=
  Nat.min_le_right _ _

theorem advance_of_stopAt_lt (h : stopAt stops items k a < items.length) :
    advance stops items k a = stopAt stops items k a + 1 := by
  unfold advance
  omega

/-! ## Other items -/

/-- Requests and items that are renamed stop where they did. -/
theorem stopAt_map {α' β' : Type*} {stops' : α' → β' → Bool} (a' : α') (g : β → β')
    (h : ∀ b ∈ items, stops' a' (g b) = stops a b) :
    stopAt stops' (items.map g) k a' = stopAt stops items k a := by
  have hfind : ∀ bs : List β, (∀ b ∈ bs, stops' a' (g b) = stops a b) →
      (bs.map g).findIdx (stops' a') = bs.findIdx (stops a) := by
    intro bs hbs
    induction bs with
    | nil => rfl
    | cons b bs ih =>
      rw [List.map_cons, List.findIdx_cons, List.findIdx_cons, hbs b List.mem_cons_self,
        ih fun b' hb' => hbs b' (List.mem_cons_of_mem _ hb')]
  unfold stopAt
  rw [← List.map_drop, hfind _ fun b hb => h b (List.mem_of_mem_drop hb)]

theorem advance_map {α' β' : Type*} {stops' : α' → β' → Bool} (a' : α') (g : β → β')
    (h : ∀ b ∈ items, stops' a' (g b) = stops a b) :
    advance stops' (items.map g) k a' = advance stops items k a := by
  unfold advance
  rw [stopAt_map a' g h, List.length_map]

/-! ## More items -/

section More

variable {more : List β}

theorem stopAt_le_length (hk : k ≤ items.length) : stopAt stops items k a ≤ items.length := by
  have hle : (items.drop k).findIdx (stops a) ≤ (items.drop k).length :=
    List.findIdx_le_length
  rw [List.length_drop] at hle
  unfold stopAt
  omega

/-- A request that stops at an item stops there whatever follows the items. -/
theorem stopAt_append_of_lt (h : stopAt stops items k a < items.length) :
    stopAt stops (items ++ more) k a = stopAt stops items k a := by
  have hget := List.getElem?_eq_getElem h
  refine stopAt_eq_of_first le_stopAt ?_ (stops_stopAt hget) ?_
  · rw [List.getElem?_append_left h]
    exact hget
  · intro i h' hki hi hget'
    rw [List.getElem?_append_left (Nat.lt_trans hi h)] at hget'
    exact not_stops_of_lt_stopAt hki hi hget'

theorem advance_append_of_lt (h : stopAt stops items k a < items.length) :
    advance stops (items ++ more) k a = advance stops items k a := by
  have happend := @stopAt_append_of_lt _ _ stops items k a more h
  rw [advance_of_stopAt_lt h, advance_of_stopAt_lt (by rw [happend, List.length_append]; omega),
    happend]

/-- A request that goes past the items can only stop at one that follows them. -/
theorem length_le_stopAt_append (h : items.length ≤ stopAt stops items k a) :
    items.length ≤ stopAt stops (items ++ more) k a := by
  by_contra hnot
  have hlt := Nat.lt_of_not_le hnot
  have hget : (items ++ more)[stopAt stops (items ++ more) k a]? =
      some items[stopAt stops (items ++ more) k a] := by
    rw [List.getElem?_append_left hlt]
    exact List.getElem?_eq_getElem hlt
  have hle := stopAt_le_of_stops le_stopAt (List.getElem?_eq_getElem hlt) (stops_stopAt hget)
  omega

end More

/-! ## A list of requests -/

theorem cursor_le_length (hk : k ≤ items.length) (as : List α) :
    cursor stops items k as ≤ items.length := by
  induction as generalizing k with
  | nil => exact hk
  | cons a as ih => exact ih advance_le_length

theorem le_cursor (hk : k ≤ items.length) (as : List α) :
    k ≤ cursor stops items k as := by
  induction as generalizing k with
  | nil => exact Nat.le_refl k
  | cons a as ih => exact Nat.le_trans (le_advance hk) (ih advance_le_length)

theorem cursor_append (as bs : List α) :
    cursor stops items k (as ++ bs) =
      cursor stops items (cursor stops items k as) bs := by
  simp [cursor]

/-- The cursor only moves forward. -/
theorem cursor_take_mono (hk : k ≤ items.length) (as : List α) {i j : Nat}
    (hij : i ≤ j) :
    cursor stops items k (as.take i) ≤ cursor stops items k (as.take j) := by
  obtain ⟨d, rfl⟩ := Nat.exists_eq_add_of_le hij
  rw [List.take_add, cursor_append]
  exact le_cursor (cursor_le_length hk _) _

/-- The cursor one request later. -/
theorem cursor_take_succ {as : List α} {j : Nat} (hget : as[j]? = some a) :
    cursor stops items k (as.take (j + 1)) =
      advance stops items (cursor stops items k (as.take j)) a := by
  rw [List.take_add_one, hget]
  exact cursor_concat _

/-! ## The cursor as an embedding -/

/-- A list ending in `a` embeds into a stretch of items exactly when its front
embeds before some item that relates to `a`. -/
theorem sublistForall₂_concat_iff {R : α → β → Prop} {as : List α} {i : Nat} :
    List.SublistForall₂ R (as ++ [a]) (items.take i) ↔
      ∃ q b, q < i ∧ items[q]? = some b ∧ R a b ∧
        List.SublistForall₂ R as (items.take q) := by
  refine ⟨?_, ?_⟩
  · intro h
    obtain ⟨l, hall, hsub⟩ := List.sublistForall₂_iff.mp h
    -- split the matched items into the front's and the last one
    have hfront : List.Forall₂ R as (l.take as.length) := by
      simpa using List.forall₂_take as.length hall
    have hlast : List.Forall₂ R [a] (l.drop as.length) := by
      simpa using List.forall₂_drop as.length hall
    obtain ⟨b, rest, hR, hrest, hdrop⟩ := List.forall₂_cons_left_iff.mp hlast
    obtain rfl := List.forall₂_nil_left_iff.mp hrest
    rw [← List.take_append_drop as.length l, hdrop] at hsub
    obtain ⟨before, after, hsplit, hbefore, hafter⟩ := List.append_sublist_iff.mp hsub
    obtain ⟨gap, tail, rfl⟩ :=
      List.append_of_mem (List.singleton_sublist.mp hafter)
    have hitems : items = (before ++ gap) ++ b :: (tail ++ items.drop i) := by
      conv_lhs => rw [← List.take_append_drop i items, hsplit]
      simp
    refine ⟨(before ++ gap).length, b, ?_, ?_, hR, ?_⟩
    · have hlen := congrArg List.length hsplit
      simp only [List.length_take, List.length_append, List.length_cons] at hlen ⊢
      omega
    · rw [hitems, List.getElem?_append_right (Nat.le_refl _)]
      simp
    · rw [hitems, List.take_left]
      exact List.sublistForall₂_iff.mpr
        ⟨_, hfront, hbefore.trans (List.sublist_append_left _ _)⟩
  · rintro ⟨q, b, hqi, hget, hR, h⟩
    obtain ⟨l, hall, hsub⟩ := List.sublistForall₂_iff.mp h
    refine List.sublistForall₂_iff.mpr ⟨l ++ [b], List.rel_append hall (.cons hR .nil), ?_⟩
    have hstep : items.take q ++ [b] = items.take (q + 1) := by
      rw [List.take_add_one, hget]
      rfl
    have hshort : List.Sublist (items.take (q + 1)) (items.take i) :=
      (List.take_prefix_take_left hqi).sublist
    exact ((hsub.append_right [b]).trans (by rw [hstep])).trans hshort

/-- **The greedy cursor is the earliest embedding.** Inside the list, the
cursor has not passed `i` exactly when the requests embed in order into the
items before `i`. -/
theorem cursor_le_iff {i : Nat} (hi : i < items.length) (as : List α) :
    cursor stops items 0 as ≤ i ↔
      List.SublistForall₂ (fun a h => stops a h = true) as (items.take i) := by
  induction as using List.reverseRecOn generalizing i with
  | nil => exact ⟨fun _ => .nil, fun _ => Nat.zero_le i⟩
  | append_singleton as a ih =>
    rw [cursor_concat, sublistForall₂_concat_iff]
    refine ⟨?_, ?_⟩
    · intro hle
      -- the stop is inside the list, and it is the item the last request takes
      have hstop : stopAt stops items (cursor stops items 0 as) a < i := by
        unfold advance at hle
        omega
      have hlen : stopAt stops items (cursor stops items 0 as) a < items.length := by
        omega
      refine ⟨_, _, hstop, List.getElem?_eq_getElem hlen,
        stops_stopAt (List.getElem?_eq_getElem hlen), ?_⟩
      exact (ih hlen).mp le_stopAt
    · rintro ⟨q, b, hqi, hget, hR, hemb⟩
      have hq : q < items.length := by omega
      have hcur : cursor stops items 0 as ≤ q := (ih hq).mpr hemb
      have hstop := stopAt_le_of_stops hcur hget hR
      unfold advance
      omega

end GreedyScan
