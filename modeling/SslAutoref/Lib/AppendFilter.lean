import Mathlib.Data.List.Infix
import Mathlib.Order.Lattice

/-!
# Append-only filters

A filter reads a stream and keeps some of its elements, in order; whether an
element is kept depends on what was kept so far. It is *stable* when an element
that was kept, or refused, is refused from then on. Stable filters forget
repeats, and an element can be dropped from their input without a trace exactly
when it was refused or when its own next occurrence takes its place
(`run_cons_eq_iff`).

Two instances: keeping the first occurrence of every element (`unseen`), and
keeping the elements whose key exceeds the last kept one (`exceedsLast`). The
second compares with one element only and still keeps exactly the strict
left-to-right maxima (`run_exceedsLast`).
-/

namespace AppendFilter

variable {α : Type*} (keep : List α → α → Bool)

/-- Offer one element to the filter. -/
def push (kept : List α) (x : α) : List α :=
  if keep kept x then kept ++ [x] else kept

/-- Offer a whole stream. -/
def run (kept xs : List α) : List α := xs.foldl (push keep) kept

/-- What was kept or refused once is refused ever after. -/
structure Stable : Prop where
  self : ∀ kept x, keep (kept ++ [x]) x = false
  mono : ∀ kept x y, keep kept x = true → keep kept y = false →
    keep (kept ++ [x]) y = false

variable {keep} {kept : List α} {x : α}

theorem push_of_keep (h : keep kept x = true) : push keep kept x = kept ++ [x] :=
  if_pos h

theorem push_of_refuse (h : keep kept x = false) : push keep kept x = kept :=
  if_neg (by simp [h])

@[simp] theorem run_nil : run keep kept [] = kept := rfl

@[simp] theorem run_cons (xs : List α) :
    run keep kept (x :: xs) = run keep (push keep kept x) xs := rfl

theorem run_append (xs ys : List α) :
    run keep kept (xs ++ ys) = run keep (run keep kept xs) ys :=
  List.foldl_append

theorem run_concat (xs : List α) :
    run keep kept (xs ++ [x]) = push keep (run keep kept xs) x :=
  run_append xs [x]

theorem prefix_push : kept <+: push keep kept x := by
  unfold push
  split
  · exact List.prefix_append _ _
  · exact List.prefix_rfl

/-- The filter only ever appends. -/
theorem prefix_run (xs : List α) : kept <+: run keep kept xs := by
  induction xs generalizing kept with
  | nil => exact List.prefix_rfl
  | cons x xs ih => exact prefix_push.trans ih

/-! ## Stable filters -/

theorem Stable.push_refuses (hs : Stable keep) {y : α}
    (h : keep kept y = false) : keep (push keep kept x) y = false := by
  cases hx : keep kept x with
  | true => rw [push_of_keep hx]; exact hs.mono kept x y hx h
  | false => rw [push_of_refuse hx]; exact h

theorem Stable.push_refuses_self (hs : Stable keep) :
    keep (push keep kept x) x = false := by
  cases hx : keep kept x with
  | true => rw [push_of_keep hx]; exact hs.self kept x
  | false => rw [push_of_refuse hx]; exact hx

theorem Stable.run_refuses (hs : Stable keep) {y : α}
    (h : keep kept y = false) (xs : List α) : keep (run keep kept xs) y = false := by
  induction xs generalizing kept with
  | nil => exact h
  | cons x xs ih => exact ih (hs.push_refuses h)

/-- A repeat is refused. -/
theorem Stable.run_refuses_mem (hs : Stable keep) {xs : List α} (hx : x ∈ xs) :
    keep (run keep kept xs) x = false := by
  obtain ⟨front, back, rfl⟩ := List.append_of_mem hx
  rw [run_append, run_cons]
  exact hs.run_refuses hs.push_refuses_self back

/-- Inserting a repeat changes nothing. -/
theorem Stable.run_insert_repeat (hs : Stable keep) {front : List α}
    (hx : x ∈ front) (back : List α) :
    run keep kept (front ++ x :: back) = run keep kept (front ++ back) := by
  rw [run_append, run_append, run_cons, push_of_refuse (hs.run_refuses_mem hx)]

/-- Any number of copies in a row count once. -/
theorem Stable.run_replicate (hs : Stable keep) (n : Nat) :
    run keep kept (List.replicate (n + 1) x) = push keep kept x := by
  induction n with
  | zero => rfl
  | succ n ih =>
    rw [List.replicate_succ', run_concat, ih, push_of_refuse hs.push_refuses_self]

/-- A stream in which every element is repeated is filtered like the stream
without the repeats. -/
theorem Stable.run_repeats (hs : Stable keep) {xs : List α} {reps : List Nat}
    (hlen : reps.length = xs.length) (hpos : ∀ r ∈ reps, 0 < r) :
    run keep kept (List.zipWith List.replicate reps xs).flatten =
      run keep kept xs := by
  induction xs generalizing kept reps with
  | nil => simp
  | cons x xs ih =>
    cases reps with
    | nil => simp at hlen
    | cons r reps =>
      obtain ⟨n, rfl⟩ : ∃ n, r = n + 1 :=
        Nat.exists_eq_succ_of_ne_zero (Nat.pos_iff_ne_zero.mp (hpos r (by simp)))
      rw [List.zipWith_cons_cons, List.flatten_cons, run_append, hs.run_replicate]
      exact ih (by simpa using hlen) fun r' hr' => hpos r' (List.mem_cons_of_mem _ hr')

/-- **Dropping an element.** A stable filter gives the same result without `x`
exactly when `x` was refused, or when `x` comes again before anything else
would have been kept. -/
theorem Stable.run_cons_eq_iff (hs : Stable keep) (xs : List α) :
    run keep kept (x :: xs) = run keep kept xs ↔
      keep kept x = false ∨
        ∃ front back, xs = front ++ x :: back ∧ ∀ z ∈ front, keep kept z = false := by
  cases hx : keep kept x with
  | false => simp [push_of_refuse hx]
  | true =>
    simp only [run_cons, push_of_keep hx, Bool.true_eq_false, false_or]
    induction xs with
    | nil => simp
    | cons y ys ih =>
      cases hy : keep kept y with
      | true =>
        rw [run_cons, run_cons, push_of_keep hy]
        refine ⟨?_, ?_⟩
        · intro heq
          -- both results begin with what was kept; the next element is x, and y
          have hxpre : kept ++ [x] <+: run keep (push keep (kept ++ [x]) y) ys :=
            prefix_push.trans (prefix_run ys)
          have hypre : kept ++ [y] <+: run keep (push keep (kept ++ [x]) y) ys := by
            rw [heq]
            exact prefix_run ys
          have hxy : kept ++ [x] = kept ++ [y] :=
            (List.prefix_of_prefix_length_le hxpre hypre (by simp)).eq_of_length (by simp)
          obtain rfl : x = y := by simpa using hxy
          exact ⟨[], ys, rfl, by simp⟩
        · rintro ⟨front, back, hsplit, hfront⟩
          cases front with
          | nil =>
            obtain ⟨rfl, -⟩ := List.cons_eq_cons.mp hsplit
            rw [push_of_refuse (hs.self kept y)]
          | cons z front =>
            obtain ⟨rfl, -⟩ := List.cons_eq_cons.mp hsplit
            have := hfront y List.mem_cons_self
            rw [hy] at this
            cases this
      | false =>
        rw [run_cons, run_cons, push_of_refuse hy,
          push_of_refuse (hs.mono kept x y hx hy), ih]
        refine ⟨?_, ?_⟩
        · rintro ⟨front, back, rfl, hfront⟩
          refine ⟨y :: front, back, rfl, ?_⟩
          rintro z (_ | ⟨_, hz⟩)
          · exact hy
          · exact hfront z hz
        · rintro ⟨front, back, hsplit, hfront⟩
          cases front with
          | nil =>
            obtain ⟨rfl, -⟩ := List.cons_eq_cons.mp hsplit
            rw [hx] at hy
            cases hy
          | cons z front =>
            obtain ⟨rfl, rfl⟩ := List.cons_eq_cons.mp hsplit
            exact ⟨front, back, rfl, fun w hw => hfront w (List.mem_cons_of_mem _ hw)⟩

/-! ## First occurrences -/

section Unseen

variable [DecidableEq α]

/-- Keep an element that was not kept before. -/
def unseen (kept : List α) (x : α) : Bool := decide (x ∉ kept)

theorem unseen_stable : Stable (unseen (α := α)) where
  self kept x := by simp [unseen]
  mono kept x y _ hy := by simp_all [unseen]

theorem mem_run_unseen {xs : List α} {y : α} :
    y ∈ run unseen kept xs ↔ y ∈ kept ∨ y ∈ xs := by
  induction xs generalizing kept with
  | nil => simp
  | cons x xs ih =>
    rw [run_cons, ih, push]
    by_cases hx : x ∈ kept
    · simp only [unseen, hx, not_true_eq_false, decide_false, Bool.false_eq_true,
        if_false, List.mem_cons]
      refine ⟨?_, ?_⟩
      · rintro (h | h)
        · exact .inl h
        · exact .inr (.inr h)
      · rintro (h | rfl | h)
        · exact .inl h
        · exact .inl hx
        · exact .inr h
    · simp [unseen, hx, or_assoc]

theorem nodup_run_unseen (h : kept.Nodup) (xs : List α) :
    (run unseen kept xs).Nodup := by
  induction xs generalizing kept with
  | nil => exact h
  | cons x xs ih =>
    rw [run_cons]
    refine ih ?_
    by_cases hx : x ∈ kept
    · rw [push_of_refuse (by simpa [unseen] using hx)]
      exact h
    · rw [push_of_keep (by simpa [unseen] using hx)]
      exact List.nodup_append.mpr ⟨h, by simp, by
        rintro a ha b hb rfl
        exact hx (List.mem_singleton.mp hb ▸ ha)⟩

end Unseen

/-! ## Strict left-to-right maxima -/

section LeftMaxima

variable {β : Type*} [LinearOrder β] (key : α → β)

/-- The elements, in order, whose key exceeds the key of every earlier one. -/
def leftMaxima (xs : List α) : List α :=
  (xs.zipIdx.filter fun p : α × Nat =>
    decide (∀ y ∈ xs.take p.2, key y < key p.1)).map Prod.fst

/-- Keep an element whose key exceeds that of the last one kept. -/
def exceedsLast (kept : List α) (x : α) : Bool :=
  decide (∀ z ∈ kept.getLast?, key z < key x)

variable {key}

@[simp] theorem leftMaxima_nil : leftMaxima key [] = [] := rfl

theorem leftMaxima_concat (xs : List α) :
    leftMaxima key (xs ++ [x]) =
      leftMaxima key xs ++ (if ∀ y ∈ xs, key y < key x then [x] else []) := by
  have hfront : ∀ p ∈ xs.zipIdx, (xs ++ [x]).take p.2 = xs.take p.2 := by
    intro p hp
    have := List.snd_lt_of_mem_zipIdx hp
    exact List.take_append_of_le_length (by omega)
  simp only [leftMaxima, List.zipIdx_append, List.filter_append, List.map_append]
  congr 1
  · refine congrArg _ (List.filter_congr fun p hp => ?_)
    rw [hfront p hp]
  · have hlast : (xs ++ [x]).take xs.length = xs := List.take_left
    simp only [List.zipIdx_singleton, Nat.zero_add, List.filter_singleton, hlast,
      cond_eq_ite, decide_eq_true_eq]
    split <;> rfl

theorem exceedsLast_stable : Stable (exceedsLast key) where
  self kept x := by simp [exceedsLast]
  mono kept x y hx hy := by
    simp only [exceedsLast, decide_eq_true_eq, decide_eq_false_iff_not, not_forall,
      not_lt, List.getLast?_append, List.getLast?_singleton] at *
    obtain ⟨z, hz, hle⟩ := hy
    exact ⟨x, by simp, hle.trans (hx z hz).le⟩

/-- The last left-to-right maximum dominates the whole list. -/
theorem exceedsLast_leftMaxima_iff (xs : List α) :
    exceedsLast key (leftMaxima key xs) x = true ↔ ∀ y ∈ xs, key y < key x := by
  simp only [exceedsLast, decide_eq_true_eq]
  induction xs using List.reverseRecOn generalizing x with
  | nil => simp
  | append_singleton xs y ih =>
    rw [leftMaxima_concat]
    by_cases h : ∀ z ∈ xs, key z < key y
    · rw [if_pos h]
      simp only [List.getLast?_append, List.getLast?_singleton, Option.some_or,
        Option.mem_def, Option.some.injEq, forall_eq', List.mem_append,
        List.mem_singleton]
      refine ⟨?_, ?_⟩
      · rintro hyx z (hz | rfl)
        · exact (h z hz).trans hyx
        · exact hyx
      · intro hall
        exact hall y (.inr rfl)
    · rw [if_neg h, List.append_nil, ih]
      obtain ⟨w, hw, hle⟩ : ∃ w ∈ xs, key y ≤ key w := by simpa using h
      refine ⟨?_, ?_⟩
      · rintro hall z hz
        rcases List.mem_append.mp hz with hz | hz
        · exact hall z hz
        · rw [List.mem_singleton.mp hz]
          exact hle.trans_lt (hall w hw)
      · exact fun hall z hz => hall z (List.mem_append_left _ hz)

/-- **Comparing with the last kept element keeps the left-to-right maxima.** -/
theorem run_exceedsLast (xs : List α) :
    run (exceedsLast key) [] xs = leftMaxima key xs := by
  induction xs using List.reverseRecOn with
  | nil => rfl
  | append_singleton xs x ih =>
    rw [run_concat, ih, leftMaxima_concat, push]
    simp only [exceedsLast_leftMaxima_iff]
    split <;> simp

theorem pairwise_leftMaxima (xs : List α) :
    (leftMaxima key xs).Pairwise (key · < key ·) := by
  induction xs using List.reverseRecOn with
  | nil => exact .nil
  | append_singleton xs x ih =>
    rw [leftMaxima_concat]
    by_cases h : ∀ y ∈ xs, key y < key x
    · rw [if_pos h]
      refine List.pairwise_append.mpr ⟨ih, List.pairwise_singleton _ _, ?_⟩
      intro y hy z hz
      obtain ⟨p, hp, rfl⟩ := List.mem_map.mp hy
      rw [List.mem_singleton.mp hz]
      exact h p.1 (List.fst_mem_of_mem_zipIdx (List.mem_of_mem_filter hp))
    · rw [if_neg h, List.append_nil]
      exact ih

/-- Nothing is lost exactly when the keys increase strictly. -/
theorem leftMaxima_eq_self_iff {xs : List α} :
    leftMaxima key xs = xs ↔ xs.Pairwise (key · < key ·) := by
  refine ⟨?_, ?_⟩
  · intro h
    rw [← h]
    exact pairwise_leftMaxima xs
  · intro h
    induction xs using List.reverseRecOn with
    | nil => rfl
    | append_singleton xs x ih =>
      obtain ⟨hxs, -, hx⟩ := List.pairwise_append.mp h
      rw [leftMaxima_concat, ih hxs, if_pos fun y hy => hx y hy x List.mem_cons_self]

end LeftMaxima

end AppendFilter
