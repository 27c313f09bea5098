import Mathlib.Data.List.Range
import SslAutoref.Lib.GreedyScan
import SslAutoref.Model.Sweep

/-!
# What one run of the sweep pushes

The inner loop for an autoref event `a` goes past human events until one
`stops` it: an event that pairs with `a`, or one that `a` is too early for. So
the cursor of the sweep is the cursor of a greedy scan, and the entries of a
run can be written down from the cursor alone (`eventPushes`, `pushesFrom`):

* **one event** — `sweepEvent_eq`, by induction on the human events left;
* **the whole run** — `sweep_eq`, by induction over the autoref events: the
  sweep is defined exactly when the cursor is inside the list at every event;
* **membership** — `missed_mem_iff`, `paired_mem_iff`, `unfounded_mem_iff` say
  for each kind of entry when it is pushed.
-/

namespace SslAutoref

open GreedyScan

/-- Human event `h` ends the inner loop for autoref event `a`: either `a` is
over too long before `h`, or the two overlap and carry the same command. -/
def stopsAt (a h : RefereeEvent) : Bool :=
  !before h a kHumanToAutoDelay &&
    (before a h kAutoToHumanDelay || h.command == a.command)

/-- The two events overlap and carry the same command. -/
def pairs (a h : RefereeEvent) : Bool :=
  overlaps h a kAutoToHumanDelay && h.command == a.command

theorem pairs_iff {a h : RefereeEvent} :
    pairs a h = true ↔
      overlaps h a kAutoToHumanDelay = true ∧ h.command = a.command := by
  simp [pairs]

theorem stopsAt_of_pairs {a h : RefereeEvent} (hp : pairs a h = true) :
    stopsAt a h = true := by
  simp only [pairs, overlaps, Bool.and_eq_true, Bool.not_eq_true'] at hp
  simp only [stopsAt, kHumanToAutoDelay, Bool.and_eq_true, Bool.not_eq_true',
    Bool.or_eq_true]
  exact ⟨hp.1.1, .inr hp.2⟩

/-- A stop is a pair unless the autoref event is over too early. -/
theorem pairs_of_stopsAt {a h : RefereeEvent} (hs : stopsAt a h = true)
    (hb : before a h kAutoToHumanDelay = false) : pairs a h = true := by
  simp only [stopsAt, kHumanToAutoDelay, Bool.and_eq_true, Bool.not_eq_true',
    Bool.or_eq_true, hb, Bool.false_eq_true, false_or] at hs
  simp only [pairs, overlaps, Bool.and_eq_true, Bool.not_eq_true']
  exact ⟨⟨hs.1, hb⟩, hs.2⟩

theorem not_before_of_stopsAt {a h : RefereeEvent} (hs : stopsAt a h = true) :
    before h a kHumanToAutoDelay = false := by
  simp only [stopsAt, Bool.and_eq_true, Bool.not_eq_true'] at hs
  exact hs.1

theorem not_stopsAt_of_before {a h : RefereeEvent}
    (hb : before h a kHumanToAutoDelay = true) : stopsAt a h = false := by
  simp [stopsAt, hb]

/-! ## The entries of one autoref event -/

/-- The misses pushed while the cursor moves from `k` to `q`. -/
def missedBetween (human : List RefereeEvent) (a : RefereeEvent) (k q : Nat) :
    List PushBack :=
  ((List.range' k (q - k)).filter fun i =>
    (human[i]?).any (before · a kHumanToAutoDelay)).map .missed

/-- The entry autoref event `j` ends with when its inner loop stops at `q`. -/
def verdict (human : List RefereeEvent) (j : Nat) (a : RefereeEvent) (q : Nat) :
    PushBack :=
  if (human[q]?).any (pairs a) then .paired j q else .unfounded j

/-- Everything pushed for autoref event `j` from cursor `k` on. -/
def eventPushes (human : List RefereeEvent) (j k : Nat) (a : RefereeEvent) :
    List PushBack :=
  missedBetween human a k (stopAt stopsAt human k a) ++
    [verdict human j a (stopAt stopsAt human k a)]

/-- Everything pushed for a list of autoref events, the first being event `j`. -/
def pushesFrom (human : List RefereeEvent) :
    Nat → Nat → List RefereeEvent → List PushBack
  | _, _, [] => []
  | j, k, a :: as =>
    eventPushes human j k a ++ pushesFrom human (j + 1) (advance stopsAt human k a) as

theorem missedBetween_self (human : List RefereeEvent) (a : RefereeEvent) (k : Nat) :
    missedBetween human a k k = [] := by
  simp [missedBetween]

theorem missedBetween_cons {human : List RefereeEvent} {a h : RefereeEvent}
    {k q : Nat} (hkq : k < q) (hget : human[k]? = some h) :
    missedBetween human a k q =
      (if before h a kHumanToAutoDelay then [.missed k] else []) ++
        missedBetween human a (k + 1) q := by
  have hlen : q - k = (q - (k + 1)) + 1 := by omega
  unfold missedBetween
  rw [hlen, List.range'_succ, List.filter_cons]
  simp only [hget, Option.any_some]
  split <;> simp

/-! ## One round of the inner loop

The three things a round can do, by what the human event under the cursor is to
the autoref event. -/

/-- The locals of a loop body that has neither matched nor evaluated yet. -/
private def searching (k : Nat) (ev : List PushBack) : ScanState :=
  { k := k, evaluations := ev }

/-- The round goes past the human event, pushing a miss if it is over. -/
private theorem scanBody_pass {human : List RefereeEvent} {k j : Nat}
    {a h : RefereeEvent} (hget : human[k]? = some h) (hs : stopsAt a h = false)
    (ev : List PushBack) :
    scanBody human j a (searching k ev) =
      some (searching (k + 1)
        (ev ++ if before h a kHumanToAutoDelay then [.missed k] else [])) := by
  unfold scanBody searching
  cases hmiss : before h a kHumanToAutoDelay with
  | true => simp [hget, hmiss]
  | false =>
    simp only [stopsAt, hmiss, Bool.not_false, Bool.true_and, Bool.or_eq_false_iff] at hs
    simp [hget, hmiss, hs.1, hs.2]

/-- The round finds the autoref event over too early, and reports it. -/
private theorem scanBody_early {human : List RefereeEvent} {k j : Nat}
    {a h : RefereeEvent} (hget : human[k]? = some h) (hs : stopsAt a h = true)
    (hb : before a h kAutoToHumanDelay = true) (ev : List PushBack) :
    scanBody human j a (searching k ev) =
      some { k := k + 1, evaluations := ev ++ [.unfounded j], evaluated := true } := by
  simp [scanBody, searching, hget, not_before_of_stopsAt hs, hb]

/-- The round finds a pair, and leaves the cursor on it. -/
private theorem scanBody_pair {human : List RefereeEvent} {k j : Nat}
    {a h : RefereeEvent} (hget : human[k]? = some h) (hp : pairs a h = true)
    (ev : List PushBack) :
    scanBody human j a (searching k ev) =
      some { k := k, evaluations := ev, matchFound := true } := by
  have hmiss := not_before_of_stopsAt (stopsAt_of_pairs hp)
  obtain ⟨hover, hcmd⟩ := pairs_iff.mp hp
  have hearly : before a h kAutoToHumanDelay = false := by
    simp only [overlaps, Bool.and_eq_true, Bool.not_eq_true'] at hover
    exact hover.2
  simp [scanBody, searching, hget, hmiss, hearly, hcmd]

/-! ## One autoref event -/

/-- The rest of the body of the outer loop, after the inner loop. -/
private def finishEvent (human : List RefereeEvent) (j : Nat) (s : ScanState) :
    Option SweepState :=
  if s.matchFound then
    match human[s.k]? with
    | none => none
    | some _ => some { k := s.k + 1, evaluations := s.evaluations ++ [.paired j s.k] }
  else if !s.evaluated then
    some { k := s.k, evaluations := s.evaluations ++ [.unfounded j] }
  else some s.toSweepState

private theorem sweepEvent_eq_bind (human : List RefereeEvent) (k : Nat)
    (ev : List PushBack) (a : RefereeEvent) (j : Nat) :
    sweepEvent human { k := k, evaluations := ev } (a, j) =
      (scan human j a (searching k ev)).bind (finishEvent human j) := by
  show _ = (scan human j a { k := k, evaluations := ev }).bind (finishEvent human j)
  unfold sweepEvent
  cases scan human j a { k := k, evaluations := ev } <;> rfl

/-- The inner loop from an event it stops at. -/
private theorem scan_stop {human : List RefereeEvent} {k j : Nat} {a h : RefereeEvent}
    (hget : human[k]? = some h) (hs : stopsAt a h = true) (ev : List PushBack) :
    (scan human j a (searching k ev)).bind (finishEvent human j) =
      some { k := k + 1, evaluations := ev ++ [verdict human j a k] } := by
  rw [scan_eq]
  cases hb : before a h kAutoToHumanDelay with
  | true =>
    have hnot : pairs a h = false := by simp [pairs, overlaps, hb]
    rw [scanBody_early hget hs hb]
    simp [ScanState.continues, finishEvent, verdict, hget, hnot]
  | false =>
    have hp : pairs a h = true := pairs_of_stopsAt hs hb
    rw [scanBody_pair hget hp]
    simp [ScanState.continues, finishEvent, verdict, hget, hp]

/-- The inner loop from an event it goes past: it starts over one event later,
or has run out of human events. -/
private theorem scan_pass {human : List RefereeEvent} {k j : Nat} {a h : RefereeEvent}
    (hget : human[k]? = some h) (hs : stopsAt a h = false) (ev : List PushBack) :
    scan human j a (searching k ev) =
      if k + 1 < human.length then
        scan human j a (searching (k + 1)
          (ev ++ if before h a kHumanToAutoDelay then [.missed k] else []))
      else
        some (searching (k + 1)
          (ev ++ if before h a kHumanToAutoDelay then [.missed k] else [])) := by
  rw [scan_eq, scanBody_pass hget hs]
  by_cases hmore : k + 1 < human.length
  · simp [ScanState.continues, searching, hmore]
  · simp [ScanState.continues, searching, hmore]

/-- **One event.** Inside the list, the body of the outer loop pushes
`eventPushes` and leaves the cursor where the greedy scan leaves it. -/
theorem sweepEvent_eq {human : List RefereeEvent} {k : Nat} (hk : k < human.length)
    (ev : List PushBack) (a : RefereeEvent) (j : Nat) :
    sweepEvent human { k := k, evaluations := ev } (a, j) =
      some { k := advance stopsAt human k a
             evaluations := ev ++ eventPushes human j k a } := by
  rw [sweepEvent_eq_bind]
  -- induction on the number of human events from the cursor on
  induction hn : human.length - k generalizing k ev with
  | zero => omega
  | succ n ih =>
    have hget : human[k]? = some human[k] := List.getElem?_eq_getElem hk
    cases hs : stopsAt a human[k] with
    | true =>
      have hstop : stopAt stopsAt human k a = k := stopAt_eq_self hget hs
      have hadv : advance stopsAt human k a = k + 1 := by
        rw [advance_of_stopAt_lt (by omega), hstop]
      rw [scan_stop hget hs, hadv, eventPushes, hstop, missedBetween_self,
        List.nil_append]
    | false =>
      have hstop : stopAt stopsAt human k a = stopAt stopsAt human (k + 1) a :=
        stopAt_succ hget hs
      have hlt : k < stopAt stopsAt human (k + 1) a :=
        Nat.lt_of_succ_le le_stopAt
      have hadv : advance stopsAt human k a = advance stopsAt human (k + 1) a := by
        unfold advance
        rw [hstop]
      rw [scan_pass hget hs, hadv, eventPushes, hstop, missedBetween_cons hlt hget]
      by_cases hmore : k + 1 < human.length
      · rw [if_pos hmore, ih hmore _ (by omega), eventPushes]
        simp
      · -- the list is exhausted: the event is unfounded
        have hend : human.length = k + 1 := by omega
        have hstopEnd : stopAt stopsAt human (k + 1) a = k + 1 := by
          rw [← hend, stopAt_length]
        have hadvEnd : advance stopsAt human (k + 1) a = k + 1 := by
          unfold advance
          omega
        have hnone : human[k + 1]? = none := List.getElem?_eq_none (by omega)
        rw [if_neg hmore, hstopEnd, hadvEnd, missedBetween_self]
        simp [finishEvent, searching, verdict, hnone]

/-- At the end of the list the body reads outside it. -/
theorem sweepEvent_none {human : List RefereeEvent} {k : Nat} (hk : human.length ≤ k)
    (ev : List PushBack) (a : RefereeEvent) (j : Nat) :
    sweepEvent human { k := k, evaluations := ev } (a, j) = none := by
  have hnone : human[k]? = none := List.getElem?_eq_none hk
  rw [sweepEvent_eq_bind, scan_eq]
  simp [scanBody, searching, hnone]

/-! ## The whole run -/

/-- The cursor when the sweep comes to autoref event `j`. -/
def cursorAt (human autoref : List RefereeEvent) (j : Nat) : Nat :=
  cursor stopsAt human 0 (autoref.take j)

/-- Where the inner loop for autoref event `j`, which is `a`, stops. -/
def stopFor (human autoref : List RefereeEvent) (j : Nat) (a : RefereeEvent) : Nat :=
  stopAt stopsAt human (cursorAt human autoref j) a

/-- The loop over the autoref events, from any cursor. -/
theorem foldlM_sweepEvent (human : List RefereeEvent) (as : List RefereeEvent) :
    ∀ (j k : Nat) (ev : List PushBack),
    (as.zipIdx j).foldlM (sweepEvent human) { k := k, evaluations := ev } =
      if ∀ i < as.length, cursor stopsAt human k (as.take i) < human.length then
        some { k := cursor stopsAt human k as
               evaluations := ev ++ pushesFrom human j k as }
      else none := by
  induction as with
  | nil =>
    intro j k ev
    simp [pushesFrom]
  | cons a as ih =>
    intro j k ev
    rw [List.zipIdx_cons, List.foldlM_cons]
    by_cases hk : k < human.length
    · rw [sweepEvent_eq hk]
      have hiff : (∀ i < (a :: as).length,
            cursor stopsAt human k ((a :: as).take i) < human.length) ↔
          ∀ i < as.length,
            cursor stopsAt human (advance stopsAt human k a) (as.take i) < human.length := by
        refine ⟨?_, ?_⟩
        · intro h i hi
          exact h (i + 1) (Nat.succ_lt_succ hi)
        · intro h i hi
          cases i with
          | zero => exact hk
          | succ i => exact h i (Nat.lt_of_succ_lt_succ hi)
      show ((as.zipIdx (j + 1)).foldlM (sweepEvent human) _) = _
      rw [ih]
      simp only [hiff, pushesFrom, List.append_assoc, cursor_cons]
    · rw [sweepEvent_none (Nat.le_of_not_lt hk), if_neg]
      · rfl
      · intro h
        exact hk (h 0 (Nat.succ_pos _))

/-- **The whole run.** The sweep stays inside the human events exactly when the
cursor is inside them at every autoref event, and then it pushes
`pushesFrom`. -/
theorem sweep_eq (human autoref : List RefereeEvent) :
    sweep human autoref =
      if ∀ j < autoref.length, cursorAt human autoref j < human.length then
        some (pushesFrom human 0 0 autoref)
      else none := by
  unfold sweep
  rw [foldlM_sweepEvent]
  unfold cursorAt
  split
  · simp
  · rfl

theorem sweep_eq_some_iff {human autoref : List RefereeEvent} {ev : List PushBack} :
    sweep human autoref = some ev ↔
      (∀ j < autoref.length, cursorAt human autoref j < human.length) ∧
        ev = pushesFrom human 0 0 autoref := by
  rw [sweep_eq]
  split
  · rename_i h
    exact ⟨fun he => ⟨h, (Option.some.inj he).symm⟩, fun he => by rw [he.2]⟩
  · rename_i h
    exact ⟨fun he => (nomatch he), fun he => absurd he.1 h⟩

/-! ## Membership -/

theorem mem_pushesFrom {human : List RefereeEvent} {p : PushBack} (as : List RefereeEvent) :
    ∀ (j k : Nat), p ∈ pushesFrom human j k as ↔
      ∃ i a, as[i]? = some a ∧
        p ∈ eventPushes human (j + i) (cursor stopsAt human k (as.take i)) a := by
  induction as with
  | nil =>
    intro j k
    simp [pushesFrom]
  | cons a as ih =>
    intro j k
    rw [pushesFrom, List.mem_append, ih]
    refine ⟨?_, ?_⟩
    · intro h
      rcases h with h | ⟨i, b, hget, h⟩
      · exact ⟨0, a, rfl, h⟩
      · refine ⟨i + 1, b, hget, ?_⟩
        rw [show j + (i + 1) = j + 1 + i by omega]
        exact h
    · intro h
      obtain ⟨i, b, hget, h⟩ := h
      cases i with
      | zero =>
        obtain rfl : a = b := by simpa using hget
        exact .inl h
      | succ i =>
        refine .inr ⟨i, b, hget, ?_⟩
        rw [show j + 1 + i = j + (i + 1) by omega]
        exact h

section Membership

variable {human autoref : List RefereeEvent} {ev : List PushBack}

theorem mem_sweep_iff (hrun : sweep human autoref = some ev) {p : PushBack} :
    p ∈ ev ↔ ∃ j a, autoref[j]? = some a ∧
      p ∈ eventPushes human j (cursorAt human autoref j) a := by
  obtain ⟨-, rfl⟩ := sweep_eq_some_iff.mp hrun
  rw [mem_pushesFrom]
  simp only [Nat.zero_add, cursorAt]

theorem mem_missedBetween_iff {a : RefereeEvent} {k q : Nat} {p : PushBack} :
    p ∈ missedBetween human a k q ↔
      ∃ i h, p = .missed i ∧ human[i]? = some h ∧ k ≤ i ∧ i < q ∧
        before h a kHumanToAutoDelay = true := by
  unfold missedBetween
  simp only [List.mem_map, List.mem_filter, List.mem_range'_1, Option.any_eq_true]
  refine ⟨?_, ?_⟩
  · intro h
    obtain ⟨i, ⟨⟨hki, hiq⟩, h, hget, hb⟩, rfl⟩ := h
    exact ⟨i, h, rfl, hget, hki, by omega, hb⟩
  · intro h
    obtain ⟨i, h, rfl, hget, hki, hiq, hb⟩ := h
    exact ⟨i, ⟨⟨hki, by omega⟩, h, hget, hb⟩, rfl⟩

/-- The verdict of an event is a pair where the inner loop stopped, or a false
positive. -/
theorem verdict_cases (human : List RefereeEvent) (j : Nat) (a : RefereeEvent) (q : Nat) :
    (∃ h, human[q]? = some h ∧ pairs a h = true ∧ verdict human j a q = .paired j q) ∨
    ((∀ h, human[q]? = some h → pairs a h = false) ∧
      verdict human j a q = .unfounded j) := by
  unfold verdict
  cases hget : human[q]? with
  | none => exact .inr ⟨fun h hh => (nomatch hh), rfl⟩
  | some h =>
    cases hp : pairs a h with
    | true => exact .inl ⟨h, rfl, hp, by simp [hp]⟩
    | false =>
      refine .inr ⟨fun h' hh => ?_, by simp [hp]⟩
      obtain rfl := Option.some.inj hh
      exact hp

/-- Human event `i` is reported missed exactly when some autoref event's inner
loop goes past it after it is over. -/
theorem missed_mem_iff (hrun : sweep human autoref = some ev) {i : Nat} :
    PushBack.missed i ∈ ev ↔ ∃ j a h, autoref[j]? = some a ∧ human[i]? = some h ∧
      cursorAt human autoref j ≤ i ∧ i < stopFor human autoref j a ∧
      before h a kHumanToAutoDelay = true := by
  rw [mem_sweep_iff hrun]
  refine ⟨?_, ?_⟩
  · intro hmem
    obtain ⟨j, a, hj, hp⟩ := hmem
    rcases List.mem_append.mp hp with hp | hp
    · obtain ⟨i', h, heq, hget, hk, hq, hb⟩ := mem_missedBetween_iff.mp hp
      obtain rfl : i = i' := by simpa [PushBack.missed] using heq
      exact ⟨j, a, h, hj, hget, hk, hq, hb⟩
    · have heq := List.mem_singleton.mp hp
      rcases verdict_cases human j a (stopFor human autoref j a) with
        ⟨_, _, _, hv⟩ | ⟨_, hv⟩
      · rw [stopFor] at hv
        rw [hv] at heq
        cases heq
      · rw [stopFor] at hv
        rw [hv] at heq
        cases heq
  · intro hmem
    obtain ⟨j, a, h, hj, hget, hk, hq, hb⟩ := hmem
    exact ⟨j, a, hj, List.mem_append_left _
      (mem_missedBetween_iff.mpr ⟨i, h, rfl, hget, hk, hq, hb⟩)⟩

/-- Autoref event `j` is paired exactly with the human event its inner loop
stops at, when the two pair. -/
theorem paired_mem_iff (hrun : sweep human autoref = some ev) {j i : Nat} :
    PushBack.paired j i ∈ ev ↔ ∃ a h, autoref[j]? = some a ∧ human[i]? = some h ∧
      i = stopFor human autoref j a ∧ pairs a h = true := by
  rw [mem_sweep_iff hrun]
  refine ⟨?_, ?_⟩
  · intro hmem
    obtain ⟨j', a, hj, hp⟩ := hmem
    rcases List.mem_append.mp hp with hp | hp
    · obtain ⟨_, _, heq, _⟩ := mem_missedBetween_iff.mp hp
      cases heq
    · have heq := List.mem_singleton.mp hp
      rcases verdict_cases human j' a (stopFor human autoref j' a) with
        ⟨h, hget, hpair, hv⟩ | ⟨_, hv⟩
      · rw [← stopFor, hv] at heq
        obtain ⟨rfl, rfl⟩ : j = j' ∧ i = stopFor human autoref j' a := by
          simpa [PushBack.paired] using heq
        exact ⟨a, h, hj, hget, rfl, hpair⟩
      · rw [← stopFor, hv] at heq
        cases heq
  · intro hmem
    obtain ⟨a, h, hj, hget, rfl, hpair⟩ := hmem
    refine ⟨j, a, hj, List.mem_append_right _ (List.mem_singleton.mpr ?_)⟩
    rw [← stopFor, verdict, hget, Option.any_some, hpair, if_pos rfl]

/-- Autoref event `j` is a false positive exactly when the human event its
inner loop stops at, if any, does not pair with it. -/
theorem unfounded_mem_iff (hrun : sweep human autoref = some ev) {j : Nat} :
    PushBack.unfounded j ∈ ev ↔ ∃ a, autoref[j]? = some a ∧
      ∀ h, human[stopFor human autoref j a]? = some h → pairs a h = false := by
  rw [mem_sweep_iff hrun]
  refine ⟨?_, ?_⟩
  · intro hmem
    obtain ⟨j', a, hj, hp⟩ := hmem
    rcases List.mem_append.mp hp with hp | hp
    · obtain ⟨_, _, heq, _⟩ := mem_missedBetween_iff.mp hp
      cases heq
    · have heq := List.mem_singleton.mp hp
      rcases verdict_cases human j' a (stopFor human autoref j' a) with
        ⟨_, _, _, hv⟩ | ⟨hnone, hv⟩
      · rw [← stopFor, hv] at heq
        cases heq
      · rw [← stopFor, hv] at heq
        obtain rfl : j = j' := by simpa [PushBack.unfounded] using heq
        exact ⟨a, hj, hnone⟩
  · intro hmem
    obtain ⟨a, hj, hnone⟩ := hmem
    refine ⟨j, a, hj, List.mem_append_right _ (List.mem_singleton.mpr ?_)⟩
    rcases verdict_cases human j a (stopFor human autoref j a) with
      ⟨h, hget, hpair, _⟩ | ⟨_, hv⟩
    · rw [hnone h hget] at hpair
      cases hpair
    · rw [← stopFor, hv]

/-- Every entry is a miss, a pair or a false positive. -/
theorem mem_cases (hrun : sweep human autoref = some ev) {p : PushBack} (hp : p ∈ ev) :
    (∃ i, p = .missed i) ∨ (∃ j i, p = .paired j i) ∨ ∃ j, p = .unfounded j := by
  obtain ⟨j, a, hj, hp⟩ := (mem_sweep_iff hrun).mp hp
  rcases List.mem_append.mp hp with hp | hp
  · obtain ⟨i, _, rfl, _⟩ := mem_missedBetween_iff.mp hp
    exact .inl ⟨i, rfl⟩
  · rw [List.mem_singleton.mp hp]
    rcases verdict_cases human j a (stopAt stopsAt human (cursorAt human autoref j) a) with
      ⟨_, _, _, hv⟩ | ⟨_, hv⟩
    · exact .inr (.inl ⟨_, _, hv⟩)
    · exact .inr (.inr ⟨_, hv⟩)

end Membership

end SslAutoref
