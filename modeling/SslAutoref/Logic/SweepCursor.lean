import SslAutoref.Logic.SweepRun

/-!
# The cursor over a run

Facts about the cursor that hold for any two lists of events:

* it only moves forward, so each human position is passed at one autoref event
  (`passedAt_unique`), and a position not ahead of the cursor was passed at some
  earlier event (`exists_passedAt`);
* `Ahead` says where it is without running the sweep: the autoref events so
  far embed in order into the human events before the position, each onto an
  event that stops it (`ahead_iff`);
* the human positions of the entries increase along the run.
-/

namespace SslAutoref

open GreedyScan

variable {human autoref : List RefereeEvent}

@[simp] theorem cursorAt_zero : cursorAt human autoref 0 = 0 := by
  simp [cursorAt]

theorem cursorAt_succ {j : Nat} {a : RefereeEvent} (hj : autoref[j]? = some a) :
    cursorAt human autoref (j + 1) =
      advance stopsAt human (cursorAt human autoref j) a :=
  cursor_take_succ hj

theorem cursorAt_mono {j j' : Nat} (h : j ≤ j') :
    cursorAt human autoref j ≤ cursorAt human autoref j' :=
  cursor_take_mono (Nat.zero_le _) _ h

theorem cursorAt_le_stopFor (j : Nat) (a : RefereeEvent) :
    cursorAt human autoref j ≤ stopFor human autoref j a := le_stopAt

/-- While the next cursor is inside the list it is just past the stop. -/
theorem cursorAt_succ_of_lt {j : Nat} {a : RefereeEvent} (hj : autoref[j]? = some a)
    (hlt : stopFor human autoref j a < human.length) :
    cursorAt human autoref (j + 1) = stopFor human autoref j a + 1 := by
  rw [cursorAt_succ hj]
  exact advance_of_stopAt_lt hlt

/-- A position below the next cursor is not past the stop. -/
theorem le_stopFor_of_lt_cursorAt {j i : Nat} {a : RefereeEvent}
    (hj : autoref[j]? = some a) (hi : i < cursorAt human autoref (j + 1)) :
    i ≤ stopFor human autoref j a := by
  rw [cursorAt_succ hj] at hi
  unfold advance at hi
  unfold stopFor
  omega

/-- The stop is below the next cursor when it is inside the list. -/
theorem stopFor_lt_cursorAt {j : Nat} {a h : RefereeEvent} (hj : autoref[j]? = some a)
    (hget : human[stopFor human autoref j a]? = some h) :
    stopFor human autoref j a < cursorAt human autoref (j + 1) := by
  obtain ⟨hlt, -⟩ := List.getElem?_eq_some_iff.mp hget
  rw [cursorAt_succ_of_lt hj hlt]
  exact Nat.lt_succ_self _

/-! ## Where a position is passed -/

/-- The cursor passes position `i` while it serves autoref event `j`. -/
def PassedAt (human autoref : List RefereeEvent) (j i : Nat) : Prop :=
  cursorAt human autoref j ≤ i ∧ i < cursorAt human autoref (j + 1)

theorem passedAt_unique {i j j' : Nat} (h : PassedAt human autoref j i)
    (h' : PassedAt human autoref j' i) : j = j' := by
  rcases Nat.lt_trichotomy j j' with hlt | heq | hlt
  · have hmono : cursorAt human autoref (j + 1) ≤ cursorAt human autoref j' :=
      cursorAt_mono hlt
    have hi : i < cursorAt human autoref (j + 1) := h.2
    have hi' : cursorAt human autoref j' ≤ i := h'.1
    omega
  · exact heq
  · have hmono : cursorAt human autoref (j' + 1) ≤ cursorAt human autoref j :=
      cursorAt_mono hlt
    have hi : cursorAt human autoref j ≤ i := h.1
    have hi' : i < cursorAt human autoref (j' + 1) := h'.2
    omega

/-- What is behind the cursor was passed on the way. -/
theorem exists_passedAt {i j : Nat} (h : i < cursorAt human autoref j) :
    ∃ j' < j, PassedAt human autoref j' i := by
  induction j with
  | zero => simp at h
  | succ j ih =>
    by_cases hj : i < cursorAt human autoref j
    · obtain ⟨j', hlt, hp⟩ := ih hj
      exact ⟨j', Nat.lt_succ_of_lt hlt, hp⟩
    · exact ⟨j, Nat.lt_succ_self j, Nat.le_of_not_lt hj, h⟩

/-- The stop of an event is passed at that event. -/
theorem passedAt_stopFor {j : Nat} {a h : RefereeEvent} (hj : autoref[j]? = some a)
    (hget : human[stopFor human autoref j a]? = some h) :
    PassedAt human autoref j (stopFor human autoref j a) :=
  ⟨cursorAt_le_stopFor j a, stopFor_lt_cursorAt hj hget⟩

/-- A passed human event that stops the autoref event is where it stops. -/
theorem PassedAt.eq_stopFor {i j : Nat} {a h : RefereeEvent}
    (hp : PassedAt human autoref j i) (hj : autoref[j]? = some a)
    (hget : human[i]? = some h) (hs : stopsAt a h = true) :
    i = stopFor human autoref j a :=
  Nat.le_antisymm (le_stopFor_of_lt_cursorAt hj hp.2)
    (stopAt_le_of_stops hp.1 hget hs)

/-! ## The cursor without the run -/

/-- Position `i` is still ahead of the sweep at autoref event `j`: the autoref
events before `j` embed in order into the human events before `i`, each onto
one that stops its inner loop. -/
def Ahead (human autoref : List RefereeEvent) (j i : Nat) : Prop :=
  List.SublistForall₂ (fun a h => stopsAt a h = true) (autoref.take j) (human.take i)

theorem ahead_iff {j i : Nat} (hi : i < human.length) :
    Ahead human autoref j i ↔ cursorAt human autoref j ≤ i :=
  (cursor_le_iff hi _).symm

/-- The sweep stays inside the human events when the last of them is still ahead at the last
autoref event. -/
theorem sweep_ne_none_iff (hne : human ≠ []) :
    sweep human autoref ≠ none ↔ Ahead human autoref (autoref.length - 1) (human.length - 1) := by
  have hlen : 0 < human.length := List.length_pos_iff.mpr hne
  have hdefined : sweep human autoref ≠ none ↔
      ∀ j < autoref.length, cursorAt human autoref j < human.length := by
    rw [sweep_eq]
    split
    · rename_i h
      exact ⟨fun _ => h, fun _ => Option.some_ne_none _⟩
    · rename_i h
      exact ⟨fun hnone => absurd rfl hnone, fun hall => absurd hall h⟩
  rw [hdefined, ahead_iff (by omega)]
  refine ⟨?_, ?_⟩
  · intro hall
    by_cases hzero : autoref.length = 0
    · rw [hzero]
      simp
    · have := hall (autoref.length - 1) (by omega)
      omega
  · intro hle j hj
    have hmono : cursorAt human autoref j ≤
        cursorAt human autoref (autoref.length - 1) := cursorAt_mono (by omega)
    omega

theorem passedAt_iff_ahead {j i : Nat} (hi : i < human.length) :
    PassedAt human autoref j i ↔
      Ahead human autoref j i ∧ ¬ Ahead human autoref (j + 1) i := by
  rw [ahead_iff hi, ahead_iff hi, Nat.not_le]
  rfl

/-! ## Positions of the entries -/

/-- The human events the entries are about. -/
def humanPositions (ev : List PushBack) : List Nat := ev.filterMap (·.humanref)

theorem humanPositions_append (ev ev' : List PushBack) :
    humanPositions (ev ++ ev') = humanPositions ev ++ humanPositions ev' :=
  List.filterMap_append

@[simp] theorem humanPositions_paired (j i : Nat) :
    humanPositions [.paired j i] = [i] := rfl

@[simp] theorem humanPositions_unfounded (j : Nat) :
    humanPositions [.unfounded j] = [] := rfl

theorem mem_humanPositions_eventPushes {j k i : Nat} {a : RefereeEvent} :
    i ∈ humanPositions (eventPushes human j k a) ↔
      ∃ h, human[i]? = some h ∧
        ((k ≤ i ∧ i < stopAt stopsAt human k a ∧ before h a kHumanToAutoDelay = true) ∨
          (i = stopAt stopsAt human k a ∧ pairs a h = true)) := by
  rw [eventPushes, humanPositions_append, List.mem_append]
  have hmiss : i ∈ humanPositions (missedBetween human a k (stopAt stopsAt human k a)) ↔
      ∃ h, human[i]? = some h ∧ k ≤ i ∧ i < stopAt stopsAt human k a ∧
        before h a kHumanToAutoDelay = true := by
    simp only [humanPositions, List.mem_filterMap, mem_missedBetween_iff]
    refine ⟨?_, ?_⟩
    · intro hmem
      obtain ⟨p, ⟨i', h, rfl, hget, hk, hq, hb⟩, hi⟩ := hmem
      obtain rfl : i' = i := by simpa [PushBack.missed] using hi
      exact ⟨h, hget, hk, hq, hb⟩
    · intro hmem
      obtain ⟨h, hget, hk, hq, hb⟩ := hmem
      exact ⟨.missed i, ⟨i, h, rfl, hget, hk, hq, hb⟩, rfl⟩
  have hverdict : i ∈ humanPositions [verdict human j a (stopAt stopsAt human k a)] ↔
      ∃ h, human[i]? = some h ∧ i = stopAt stopsAt human k a ∧ pairs a h = true := by
    rcases verdict_cases human j a (stopAt stopsAt human k a) with
      ⟨h, hget, hp, hv⟩ | ⟨hnone, hv⟩
    · rw [hv, humanPositions_paired, List.mem_singleton]
      refine ⟨?_, ?_⟩
      · intro hi
        subst hi
        exact ⟨h, hget, rfl, hp⟩
      · intro hi
        obtain ⟨_, _, hi, _⟩ := hi
        exact hi
    · rw [hv, humanPositions_unfounded]
      simp only [List.not_mem_nil, false_iff, not_exists, not_and]
      intro h hget hi hp
      subst hi
      rw [hnone h hget] at hp
      cases hp
  rw [hmiss, hverdict]
  refine ⟨?_, ?_⟩
  · intro hmem
    rcases hmem with ⟨h, hget, hm⟩ | ⟨h, hget, hv⟩
    · exact ⟨h, hget, .inl hm⟩
    · exact ⟨h, hget, .inr hv⟩
  · intro hmem
    obtain ⟨h, hget, hm | hv⟩ := hmem
    · exact .inl ⟨h, hget, hm⟩
    · exact .inr ⟨h, hget, hv⟩

/-- The entries of one event are about the positions the cursor moves over. -/
theorem eventPushes_position_bounds {j k i : Nat} {a : RefereeEvent}
    (h : i ∈ humanPositions (eventPushes human j k a)) :
    k ≤ i ∧ i < advance stopsAt human k a := by
  obtain ⟨h, hget, hm | ⟨rfl, _⟩⟩ := mem_humanPositions_eventPushes.mp h
  · obtain ⟨hlt, -⟩ := List.getElem?_eq_some_iff.mp hget
    unfold advance
    omega
  · obtain ⟨hlt, -⟩ := List.getElem?_eq_some_iff.mp hget
    rw [advance_of_stopAt_lt hlt]
    exact ⟨le_stopAt, Nat.lt_succ_self _⟩

theorem eventPushes_position_sorted (human : List RefereeEvent) (j k : Nat)
    (a : RefereeEvent) :
    (humanPositions (eventPushes human j k a)).Pairwise (· < ·) := by
  have hmiss : humanPositions (missedBetween human a k (stopAt stopsAt human k a)) =
      (List.range' k (stopAt stopsAt human k a - k)).filter fun i =>
        (human[i]?).any (before · a kHumanToAutoDelay) := by
    unfold humanPositions missedBetween
    rw [List.filterMap_map]
    exact List.filterMap_some
  rw [eventPushes, humanPositions_append, hmiss]
  refine List.pairwise_append.mpr
    ⟨List.Pairwise.filter _ List.pairwise_lt_range', ?_, ?_⟩
  · rcases verdict_cases human j a (stopAt stopsAt human k a) with
      ⟨_, _, _, hv⟩ | ⟨_, hv⟩
    · rw [hv]
      exact List.pairwise_singleton _ _
    · rw [hv]
      exact List.Pairwise.nil
  · intro i hi i' hi'
    have hki : k ≤ stopAt stopsAt human k a := le_stopAt
    have hlt := (List.mem_range'_1.mp (List.mem_of_mem_filter hi)).2
    rcases verdict_cases human j a (stopAt stopsAt human k a) with
      ⟨_, _, _, hv⟩ | ⟨_, hv⟩
    · rw [hv, humanPositions_paired] at hi'
      rw [List.mem_singleton.mp hi']
      omega
    · rw [hv, humanPositions_unfounded] at hi'
      exact absurd hi' List.not_mem_nil

/-- From cursor `k` on, the human positions start at `k` and increase. -/
theorem pushesFrom_positions (as : List RefereeEvent) :
    ∀ (j k : Nat), k ≤ human.length →
      (∀ i ∈ humanPositions (pushesFrom human j k as), k ≤ i) ∧
      (humanPositions (pushesFrom human j k as)).Pairwise (· < ·) := by
  induction as with
  | nil =>
    intro j k _
    exact ⟨fun i hi => absurd hi List.not_mem_nil, List.Pairwise.nil⟩
  | cons a as ih =>
    intro j k hk
    obtain ⟨hge, hsorted⟩ := ih (j + 1) (advance stopsAt human k a) advance_le_length
    rw [pushesFrom, humanPositions_append]
    refine ⟨?_, List.pairwise_append.mpr
      ⟨eventPushes_position_sorted human j k a, hsorted, ?_⟩⟩
    · intro i hi
      rcases List.mem_append.mp hi with hi | hi
      · exact (eventPushes_position_bounds hi).1
      · exact Nat.le_trans (le_advance hk) (hge i hi)
    · intro i hi i' hi'
      have hlt := (eventPushes_position_bounds hi).2
      have hle := hge i' hi'
      omega

end SslAutoref
