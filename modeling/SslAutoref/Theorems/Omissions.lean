import SslAutoref.Theorems.SweepMatching

/-!
# An autoref that only misses events

An autoref whose events each pair with a human event, in the order of these, all earlier
human events being over by then, has its score worked out exactly: every event of it is a
true positive, with that human event, every human event in front of the last of these is
otherwise a false negative, and there are no false positives (`omissions_exact`).
-/

namespace SslAutoref.Theorems

open GreedyScan

/-- The autoref event is about human event `i`: they pair, and the human events in front of
that one are over before it. -/
structure IsAbout (human : List RefereeEvent) (a : RefereeEvent) (i : Nat) : Prop where
  pairs_at : ∃ h, human[i]? = some h ∧ pairs a h = true
  earlier_before : ∀ h ∈ human.take i, before h a kHumanToAutoDelay = true

/-- The entries for autoref events from `j` on, which are about the human events at the given
positions, from human event `k` on. -/
def omissionEntries : Nat → Nat → List Nat → List PushBack
  | _, _, [] => []
  | j, k, i :: positions =>
    (List.range' k (i - k)).map .missed ++
      .paired j i :: omissionEntries (j + 1) (i + 1) positions

/-! ## One event -/

section

variable {human : List RefereeEvent} {a : RefereeEvent} {k i : Nat}

theorem IsAbout.lt_length (h : IsAbout human a i) : i < human.length := by
  obtain ⟨e, he, -⟩ := h.pairs_at
  exact (List.getElem?_eq_some_iff.mp he).1

theorem IsAbout.before_of_lt (h : IsAbout human a i) {i' : Nat} {e : RefereeEvent} (hlt : i' < i)
    (he : human[i']? = some e) : before e a kHumanToAutoDelay = true := by
  refine h.earlier_before e (List.mem_of_getElem? (i := i') ?_)
  rw [List.getElem?_take_of_lt hlt, he]

/-- The inner loop goes to the human event that the autoref event is about. -/
theorem IsAbout.stopAt_eq (h : IsAbout human a i) (hk : k ≤ i) :
    stopAt stopsAt human k a = i := by
  obtain ⟨e, he, hpair⟩ := h.pairs_at
  refine stopAt_eq_of_first hk he (stopsAt_of_pairs hpair) ?_
  intro i' e' _ hlt he'
  exact not_stopsAt_of_before (h.before_of_lt hlt he')

theorem IsAbout.advance_eq (h : IsAbout human a i) (hk : k ≤ i) :
    advance stopsAt human k a = i + 1 := by
  rw [advance_of_stopAt_lt (by rw [h.stopAt_eq hk]; exact h.lt_length), h.stopAt_eq hk]

/-- It misses all those that it goes past, and then pairs. -/
theorem IsAbout.eventPushes_eq (h : IsAbout human a i) (hk : k ≤ i) (j : Nat) :
    eventPushes human j k a = (List.range' k (i - k)).map .missed ++ [.paired j i] := by
  obtain ⟨e, he, hpair⟩ := h.pairs_at
  have hverdict : verdict human j a i = .paired j i := by
    unfold verdict
    rw [if_pos]
    simp [he, hpair]
  have hmissed : missedBetween human a k i = (List.range' k (i - k)).map .missed := by
    unfold missedBetween
    congr 1
    refine List.filter_eq_self.mpr fun i' hi' => ?_
    obtain ⟨hle, hlt⟩ := List.mem_range'_1.mp hi'
    have hlt' : i' < i := by omega
    have hget := List.getElem?_eq_getElem (Nat.lt_trans hlt' h.lt_length)
    rw [hget]
    exact h.before_of_lt hlt' hget
  unfold eventPushes
  rw [h.stopAt_eq hk, hverdict, hmissed]

end

/-! ## All events -/

section

variable {human autoref : List RefereeEvent} {positions : List Nat}

/-- The cursor stays in front of the human event that the next autoref event is about. -/
theorem cursor_lt_of_isAbout (h : List.Forall₂ (IsAbout human) autoref positions) :
    ∀ k, (∀ i ∈ positions, k ≤ i) → positions.Pairwise (· < ·) →
      ∀ j < autoref.length, cursor stopsAt human k (autoref.take j) < human.length := by
  induction h with
  | nil => exact fun _ _ _ j hj => absurd hj (Nat.not_lt_zero j)
  | @cons a i autoref positions hfirst _ ih =>
    intro k hk hsorted j hj
    obtain ⟨hlater, hsorted'⟩ := List.pairwise_cons.mp hsorted
    have hki := hk i List.mem_cons_self
    cases j with
    | zero => exact Nat.lt_of_le_of_lt hki hfirst.lt_length
    | succ j =>
      rw [List.take_succ_cons, cursor_cons, hfirst.advance_eq hki]
      exact ih (i + 1) hlater hsorted' j (Nat.lt_of_succ_lt_succ hj)

/-- **The entries**, by induction over the autoref events. -/
theorem pushesFrom_of_isAbout (h : List.Forall₂ (IsAbout human) autoref positions) :
    ∀ j k, (∀ i ∈ positions, k ≤ i) → positions.Pairwise (· < ·) →
      pushesFrom human j k autoref = omissionEntries j k positions := by
  induction h with
  | nil => exact fun _ _ _ _ => rfl
  | @cons a i autoref positions hfirst _ ih =>
    intro j k hk hsorted
    obtain ⟨hlater, hsorted'⟩ := List.pairwise_cons.mp hsorted
    have hki := hk i List.mem_cons_self
    rw [pushesFrom, hfirst.eventPushes_eq hki, hfirst.advance_eq hki,
      ih (j + 1) (i + 1) hlater hsorted', omissionEntries, List.append_assoc]
    rfl

/-! ## What is counted -/

/-- How many entries have a verdict. -/
def countOf (value : Evaluation) (ev : List PushBack) : Nat := ev.countP (·.value == value)

theorem countOf_append (value : Evaluation) (ev ev' : List PushBack) :
    countOf value (ev ++ ev') = countOf value ev + countOf value ev' := List.countP_append

theorem countOf_missed (value : Evaluation) (ks : List Nat) :
    countOf value (ks.map .missed) = if value = .falseNegative then ks.length else 0 := by
  unfold countOf
  rw [List.countP_map]
  cases value <;> simp [PushBack.missed, Function.comp_def]

theorem countOf_paired (value : Evaluation) (j i : Nat) :
    countOf value [.paired j i] = if value = .truePositive then 1 else 0 := by
  cases value <;> rfl

/-- One event more. -/
theorem countOf_omissionEntries_cons (value : Evaluation) (j k i : Nat) (positions : List Nat) :
    countOf value (omissionEntries j k (i :: positions)) =
      (if value = .falseNegative then i - k else 0) + (if value = .truePositive then 1 else 0) +
        countOf value (omissionEntries (j + 1) (i + 1) positions) := by
  show countOf value (_ ++ ([PushBack.paired j i] ++ _)) = _
  rw [countOf_append, countOf_append, countOf_missed, countOf_paired, List.length_range',
    Nat.add_assoc]

theorem truePositives_omissionEntries (positions : List Nat) :
    ∀ j k, countOf .truePositive (omissionEntries j k positions) = positions.length := by
  induction positions with
  | nil => exact fun _ _ => rfl
  | cons i positions ih =>
    intro j k
    rw [countOf_omissionEntries_cons, ih, List.length_cons]
    simp [Nat.add_comm]

theorem falsePositives_omissionEntries (positions : List Nat) :
    ∀ j k, countOf .falsePositive (omissionEntries j k positions) = 0 := by
  induction positions with
  | nil => exact fun _ _ => rfl
  | cons i positions ih =>
    intro j k
    rw [countOf_omissionEntries_cons, ih]
    simp

/-- The human events up to the last one that is reported are reported or missed. -/
theorem falseNegatives_omissionEntries (positions : List Nat) :
    ∀ j k last, (∀ i ∈ positions, k ≤ i) → positions.Pairwise (· < ·) →
      positions.getLast? = some last →
      k + (countOf .falseNegative (omissionEntries j k positions) + positions.length) =
        last + 1 := by
  induction positions with
  | nil =>
    intro j k last _ _ hlast
    simp at hlast
  | cons i positions ih =>
    intro j k last hk hsorted hlast
    obtain ⟨hlater, hsorted'⟩ := List.pairwise_cons.mp hsorted
    have hki := hk i List.mem_cons_self
    rw [countOf_omissionEntries_cons, List.length_cons]
    cases positions with
    | nil =>
      obtain rfl : i = last := by simpa using hlast
      have hnone : countOf .falseNegative (omissionEntries (j + 1) (i + 1) []) = 0 := rfl
      rw [hnone, List.length_nil]
      simp only [if_true, reduceCtorEq, if_false]
      omega
    | cons i' positions =>
      rw [List.getLast?_cons_cons] at hlast
      have hrest := ih (j + 1) (i + 1) last hlater hsorted' hlast
      simp only [if_true, reduceCtorEq, if_false]
      omega

/-! ## The score -/

/-- The run of the sweep, what it pushes, and the counts: every autoref event is a true
positive, and the human events up to the last of theirs that are not are false negatives. -/
structure OmissionsExact (human autoref : List RefereeEvent) (positions : List Nat)
    (ev : List PushBack) : Prop where
  run : sweep human autoref = some ev
  entries : ev = omissionEntries 0 0 positions
  truePositives : countOf .truePositive ev = autoref.length
  falsePositives : countOf .falsePositive ev = 0
  falseNegatives : ∀ last, positions.getLast? = some last →
    countOf .falseNegative ev + autoref.length = last + 1

/-- **An autoref that only misses events.** Whatever its events are about, in the order of the
human events. -/
theorem omissions_exact (habout : List.Forall₂ (IsAbout human) autoref positions)
    (hsorted : positions.Pairwise (· < ·)) :
    ∃ ev, OmissionsExact human autoref positions ev := by
  have hzero : ∀ i ∈ positions, 0 ≤ i := fun i _ => Nat.zero_le i
  refine ⟨omissionEntries 0 0 positions, ?_, rfl, ?_, ?_, ?_⟩
  · refine sweep_eq_some_iff.mpr ⟨cursor_lt_of_isAbout habout 0 hzero hsorted, ?_⟩
    exact (pushesFrom_of_isAbout habout 0 0 hzero hsorted).symm
  · rw [truePositives_omissionEntries, habout.length_eq]
  · exact falsePositives_omissionEntries positions 0 0
  · intro last hlast
    have hcount := falseNegatives_omissionEntries positions 0 0 last hzero hsorted hlast
    rw [habout.length_eq]
    omega

end

/-- The second and the last of three goals. -/
theorem omissions_exact_threeGoals :
    ∃ ev, OmissionsExact [goalAt 10 11, goalAt 20 21, goalAt 30 31]
      [goalAt 20 22, goalAt 29 30] [1, 2] ev :=
  omissions_exact
    (.cons ⟨⟨_, rfl, by decide⟩, by decide⟩ (.cons ⟨⟨_, rfl, by decide⟩, by decide⟩ .nil))
    (by decide)

end SslAutoref.Theorems
