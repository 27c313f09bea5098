import Mathlib.Data.List.Nodup
import SslAutoref.Logic.SweepCursor

/-!
# The sweep as a matching

What one run of the sweep guarantees for any two lists of events, and what it
does not:

* **soundness** — the entries are a one-to-one, order-preserving matching that
  covers the autoref events, and every pair overlaps over the integers
  (`sweep_isMatching`);
* **bounds** — the sweep reads inside the human events exactly when the autoref
  events leave a human event for the last of them (`sweep_inBounds_iff`);
* **coverage** — every human event is reported exactly when the human events
  fall into blocks, one an autoref event, that end with its pair
  (`sweep_reports_all_iff`).
-/

namespace SslAutoref.Theorems

open GreedyScan

/-- A goal for yellow, with its stop and command times in seconds. -/
def goalAt (stop command : Nat) : RefereeEvent :=
  { stopTimestamp := UInt64.ofNat (stop * 1000000)
    commandTimestamp := UInt64.ofNat (command * 1000000)
    commandCounter := 1
    command := .goalYellow }

/-! ## Soundness -/

/-- The entries of a run are a matching of the autoref events to human events:
every autoref event has one entry, in order; the human events that have an
entry are distinct and in order; and a pair has one command and overlaps with
the delay allowed, over the integers. -/
structure IsMatching (human autoref : List RefereeEvent) (ev : List PushBack) : Prop where
  autorefOnce : ev.filterMap (·.autoref) = List.range autoref.length
  autorefVerdict : ∀ p ∈ ev, p.autoref.isSome = true ↔
    p.value = .truePositive ∨ p.value = .falsePositive
  humanIncreasing : (humanPositions ev).Pairwise (· < ·)
  humanVerdict : ∀ p ∈ ev, p.humanref.isSome = true ↔
    p.value = .truePositive ∨ p.value = .falseNegative
  pairSound : ∀ p ∈ ev, p.value = .truePositive →
    ∃ j i a h, p.autoref = some j ∧ p.humanref = some i ∧
      autoref[j]? = some a ∧ human[i]? = some h ∧ h.command = a.command ∧
      a.stopTimestamp.toNat ≤ h.commandTimestamp.toNat ∧
      h.stopTimestamp.toNat ≤ a.commandTimestamp.toNat + 2000000

/-- One autoref event ends with one entry of its own. -/
private theorem eventPushes_autoref (human : List RefereeEvent) (j k : Nat)
    (a : RefereeEvent) :
    (eventPushes human j k a).filterMap (·.autoref) = [j] := by
  have hmiss : (missedBetween human a k (stopAt stopsAt human k a)).filterMap
      (·.autoref) = [] := by
    rw [List.filterMap_eq_nil_iff]
    intro p hp
    obtain ⟨i, _, rfl, _⟩ := mem_missedBetween_iff.mp hp
    rfl
  rw [eventPushes, List.filterMap_append, hmiss, List.nil_append]
  rcases verdict_cases human j a (stopAt stopsAt human k a) with ⟨_, _, _, hv⟩ | ⟨_, hv⟩
  · rw [hv]
    rfl
  · rw [hv]
    rfl

private theorem pushesFrom_autoref (human : List RefereeEvent) (as : List RefereeEvent) :
    ∀ j k : Nat, (pushesFrom human j k as).filterMap (·.autoref) =
      List.range' j as.length := by
  induction as with
  | nil =>
    intro j k
    rfl
  | cons a as ih =>
    intro j k
    rw [pushesFrom, List.filterMap_append, eventPushes_autoref, ih, List.length_cons,
      List.range'_succ]
    rfl

/-- Overlapping as the sweep tests it, over the integers. The delay may wrap
below a small stop time; an event that early is overlapped all the same. -/
private theorem overlaps_bounds {a h : RefereeEvent}
    (hover : overlaps h a kAutoToHumanDelay = true) :
    a.stopTimestamp.toNat ≤ h.commandTimestamp.toNat ∧
      h.stopTimestamp.toNat ≤ a.commandTimestamp.toNat + 2000000 := by
  simp only [overlaps, Bool.and_eq_true, Bool.not_eq_true'] at hover
  have hleft := le_of_not_before hover.1
  have hright := le_of_not_before hover.2
  exact ⟨hleft, hright⟩

section Entries

variable {human autoref : List RefereeEvent} {ev : List PushBack} {p : PushBack}

/-- The entries with an autoref event are those of the autoref's own verdicts. -/
theorem autoref_isSome_iff (hrun : sweep human autoref = some ev) (hp : p ∈ ev) :
    p.autoref.isSome = true ↔ p.value = .truePositive ∨ p.value = .falsePositive := by
  rcases mem_cases hrun hp with ⟨i, rfl⟩ | ⟨j, i, rfl⟩ | ⟨j, rfl⟩
  · simp [PushBack.missed]
  · simp [PushBack.paired]
  · simp [PushBack.unfounded]

/-- The entries with a human event are true positives and false negatives. -/
theorem humanref_isSome_iff (hrun : sweep human autoref = some ev) (hp : p ∈ ev) :
    p.humanref.isSome = true ↔ p.value = .truePositive ∨ p.value = .falseNegative := by
  rcases mem_cases hrun hp with ⟨i, rfl⟩ | ⟨j, i, rfl⟩ | ⟨j, rfl⟩
  · simp [PushBack.missed]
  · simp [PushBack.paired]
  · simp [PushBack.unfounded]

/-- Every autoref event has one entry, in order. -/
theorem autoref_entries (hrun : sweep human autoref = some ev) :
    ev.filterMap (·.autoref) = List.range autoref.length := by
  rw [(sweep_eq_some_iff.mp hrun).2, pushesFrom_autoref, List.range_eq_range']

theorem humanPositions_increasing (hrun : sweep human autoref = some ev) :
    (humanPositions ev).Pairwise (· < ·) := by
  rw [(sweep_eq_some_iff.mp hrun).2]
  exact (pushesFrom_positions autoref 0 0 (Nat.zero_le _)).2

/-- A true positive names two events with one command that overlap. -/
theorem truePositive_sound (hrun : sweep human autoref = some ev) (hp : p ∈ ev)
    (hvalue : p.value = .truePositive) :
    ∃ j i a h, p.autoref = some j ∧ p.humanref = some i ∧
      autoref[j]? = some a ∧ human[i]? = some h ∧ h.command = a.command ∧
      a.stopTimestamp.toNat ≤ h.commandTimestamp.toNat ∧
      h.stopTimestamp.toNat ≤ a.commandTimestamp.toNat + 2000000 := by
  rcases mem_cases hrun hp with ⟨i, rfl⟩ | ⟨j, i, rfl⟩ | ⟨j, rfl⟩
  · exact absurd hvalue (by simp [PushBack.missed])
  · obtain ⟨a, h, hj, hi, -, hpair⟩ := (paired_mem_iff hrun).mp hp
    obtain ⟨hover, hcmd⟩ := pairs_iff.mp hpair
    exact ⟨j, i, a, h, rfl, rfl, hj, hi, hcmd, overlaps_bounds hover⟩
  · exact absurd hvalue (by simp [PushBack.unfounded])

/-- **Soundness.** Every run of the sweep that stays inside the human events
produces a matching, whatever the timestamps are. -/
theorem sweep_isMatching (hrun : sweep human autoref = some ev) :
    IsMatching human autoref ev := by
  refine ⟨autoref_entries hrun, ?_, humanPositions_increasing hrun, ?_, ?_⟩
  · intro p hp
    exact autoref_isSome_iff hrun hp
  · intro p hp
    exact humanref_isSome_iff hrun hp
  · intro p hp hvalue
    exact truePositive_sound hrun hp hvalue

end Entries

/-- A run with a miss, a pair and a false positive. -/
theorem sweep_isMatching_three :
    IsMatching [goalAt 10 11, goalAt 20 21, goalAt 50 51] [goalAt 20 21, goalAt 30 31]
      [.missed 0, .paired 0 1, .unfounded 1] :=
  sweep_isMatching (by decide)

/-! ## Bounds -/

/-- The autoref events before the last embed, in order, into the human events
before the last, each onto one that ends its inner loop: the two overlap with
one command, or the autoref event is over too early for it. -/
def LeavesRoom (human autoref : List RefereeEvent) : Prop :=
  List.SublistForall₂ (fun a h => stopsAt a h = true) autoref.dropLast human.dropLast

/-- **Bounds.** The sweep never reads outside the human events exactly when the
autoref events leave room: every one but the last stops at a human event of its
own, and a human event is left for the last one to look at. -/
theorem sweep_inBounds_iff {human : List RefereeEvent} (hne : human ≠ [])
    (autoref : List RefereeEvent) :
    sweep human autoref ≠ none ↔ LeavesRoom human autoref := by
  rw [sweep_ne_none_iff hne]
  unfold LeavesRoom Ahead
  rw [List.dropLast_eq_take, List.dropLast_eq_take]

/-- The sweep does read past the end: the first autoref event pairs with the
only human event, and the second one looks at the event after it. -/
theorem sweep_reads_past_end :
    ¬ ∀ human autoref : List RefereeEvent, human ≠ [] → sweep human autoref ≠ none := by
  intro h
  exact h [goalAt 10 11] [goalAt 10 11, goalAt 20 21] (by decide) (by decide)

theorem sweep_inBounds_single :
    sweep [goalAt 10 11] [goalAt 10 11, goalAt 20 21] ≠ none ↔
      LeavesRoom [goalAt 10 11] [goalAt 10 11, goalAt 20 21] :=
  sweep_inBounds_iff (by decide) _

/-! ## Coverage -/

/-- Human event `i` is the human event of a true positive or a false negative. -/
def Reports (ev : List PushBack) (i : Nat) : Prop :=
  ∃ p ∈ ev, p.humanref = some i ∧
    (p.value = .truePositive ∨ p.value = .falseNegative)

/-- Every human event is reported, and recall's denominator is their number. -/
def ReportsAll (human : List RefereeEvent) (ev : List PushBack) : Prop :=
  (∀ i < human.length, Reports ev i) ∧
    ev.countP (·.value == .truePositive) + ev.countP (·.value == .falseNegative) =
      human.length

/-- The human events fall into consecutive blocks, one for each autoref event in
order. A block is a run of human events that are over before the autoref event
begins, then one that overlaps it with the same command; only the last autoref
event may go without, and then has at least one human event before it. -/
inductive Covered : List RefereeEvent → List RefereeEvent → Prop
  | nil : Covered [] []
  | matched {missed human autoref : List RefereeEvent} {h a : RefereeEvent} :
      (∀ e ∈ missed, before e a kHumanToAutoDelay = true) →
      overlaps h a kAutoToHumanDelay = true → h.command = a.command →
      Covered human autoref → Covered (missed ++ h :: human) (a :: autoref)
  | lastMissed {missed : List RefereeEvent} {a : RefereeEvent} :
      missed ≠ [] → (∀ e ∈ missed, before e a kHumanToAutoDelay = true) →
      Covered missed [a]

theorem reports_iff_mem {human autoref : List RefereeEvent} {ev : List PushBack}
    (hrun : sweep human autoref = some ev) {i : Nat} :
    Reports ev i ↔ i ∈ humanPositions ev := by
  unfold Reports humanPositions
  rw [List.mem_filterMap]
  refine ⟨?_, ?_⟩
  · intro h
    obtain ⟨p, hp, hi, -⟩ := h
    exact ⟨p, hp, hi⟩
  · intro h
    obtain ⟨p, hp, hi⟩ := h
    exact ⟨p, hp, hi, (humanref_isSome_iff hrun hp).mp (by rw [hi]; rfl)⟩

/-- The loop stops at the first human event after a run of misses. -/
private theorem stopAt_of_missed {human missed rest : List RefereeEvent} {k : Nat}
    {a h : RefereeEvent} (hblock : human.drop k = missed ++ h :: rest)
    (hmissed : ∀ e ∈ missed, before e a kHumanToAutoDelay = true)
    (hpair : pairs a h = true) :
    human[k + missed.length]? = some h ∧
      stopAt stopsAt human k a = k + missed.length := by
  have hget : human[k + missed.length]? = some h := by
    rw [← List.getElem?_drop, hblock]
    simp
  refine ⟨hget, stopAt_eq_of_first (Nat.le_add_right _ _) hget (stopsAt_of_pairs hpair) ?_⟩
  intro i h' hki hi hget'
  apply not_stopsAt_of_before
  apply hmissed
  apply List.mem_of_getElem?
  show missed[i - k]? = some h'
  have hlt : i - k < missed.length := by omega
  have hblock' : (missed ++ h :: rest)[i - k]? = some h' := by
    rw [← hblock, List.getElem?_drop, Nat.add_sub_cancel' hki]
    exact hget'
  rw [List.getElem?_append_left hlt] at hblock'
  exact hblock'

/-- Over misses only, the loop runs off the end. -/
private theorem length_le_stopAt_of_missed {human : List RefereeEvent} {k : Nat}
    {a : RefereeEvent}
    (hmissed : ∀ e ∈ human.drop k, before e a kHumanToAutoDelay = true) :
    human.length ≤ stopAt stopsAt human k a := by
  refine length_le_stopAt ?_
  intro i h' hki hget
  apply not_stopsAt_of_before
  apply hmissed
  apply List.mem_of_getElem?
  show (human.drop k)[i - k]? = some h'
  rw [List.getElem?_drop, Nat.add_sub_cancel' hki]
  exact hget

/-- A block of human events, from cursor `k` on, by where the inner loop for
its autoref event stops. -/
private theorem covered_cons_iff {human as : List RefereeEvent} {k : Nat}
    {a : RefereeEvent} (hk : k < human.length) :
    Covered (human.drop k) (a :: as) ↔
      (∀ e ∈ (human.drop k).take (stopAt stopsAt human k a - k),
        before e a kHumanToAutoDelay = true) ∧
      ((∃ h, human[stopAt stopsAt human k a]? = some h ∧ pairs a h = true ∧
          Covered (human.drop (stopAt stopsAt human k a + 1)) as) ∨
        (human.length ≤ stopAt stopsAt human k a ∧ as = [])) := by
  refine ⟨?_, ?_⟩
  · intro hcov
    generalize hblock : human.drop k = block at hcov
    cases hcov with
    | @matched missed rest _ h _ hmissed hover hcmd hrest =>
      have hpair : pairs a h = true := pairs_iff.mpr ⟨hover, hcmd⟩
      obtain ⟨hget, hstop⟩ := stopAt_of_missed hblock hmissed hpair
      rw [hstop]
      refine ⟨?_, .inl ⟨h, hget, hpair, ?_⟩⟩
      · simpa using hmissed
      · rw [Nat.add_assoc, ← List.drop_drop, hblock]
        simpa using hrest
    | lastMissed hne hmissed =>
      have hstop : human.length ≤ stopAt stopsAt human k a := by
        apply length_le_stopAt_of_missed
        rw [hblock]
        exact hmissed
      refine ⟨?_, .inr ⟨hstop, rfl⟩⟩
      intro e he
      exact hmissed e (List.mem_of_mem_take he)
  · intro h
    obtain ⟨hmissed, ⟨h, hget, hpair, hrest⟩ | ⟨hend, rfl⟩⟩ := h
    · obtain ⟨hlt, rfl⟩ := List.getElem?_eq_some_iff.mp hget
      obtain ⟨hover, hcmd⟩ := pairs_iff.mp hpair
      have hkq : k ≤ stopAt stopsAt human k a := le_stopAt
      have hblock : human.drop k =
          (human.drop k).take (stopAt stopsAt human k a - k) ++
            human[stopAt stopsAt human k a] ::
              human.drop (stopAt stopsAt human k a + 1) := by
        conv_lhs => rw [← List.take_append_drop (stopAt stopsAt human k a - k)
          (human.drop k)]
        rw [List.drop_drop, Nat.add_sub_cancel' hkq, List.drop_eq_getElem_cons hlt]
      rw [hblock]
      exact .matched hmissed hover hcmd hrest
    · have hall : (human.drop k).take (stopAt stopsAt human k a - k) = human.drop k := by
        apply List.take_of_length_le
        rw [List.length_drop]
        omega
      rw [hall] at hmissed
      refine .lastMissed ?_ hmissed
      intro hnil
      have := congrArg List.length hnil
      rw [List.length_drop, List.length_nil] at this
      omega

/-- The positions the cursor moves over for one event all have an entry exactly
when the human events before the stop are misses and the stop is a pair. -/
private theorem eventPushes_reports_iff {human : List RefereeEvent} {j k : Nat}
    {a : RefereeEvent} :
    (∀ i, k ≤ i → i < advance stopsAt human k a →
      i ∈ humanPositions (eventPushes human j k a)) ↔
      (∀ e ∈ (human.drop k).take (stopAt stopsAt human k a - k),
        before e a kHumanToAutoDelay = true) ∧
      ∀ h, human[stopAt stopsAt human k a]? = some h → pairs a h = true := by
  have hkq : k ≤ stopAt stopsAt human k a := le_stopAt
  simp only [mem_humanPositions_eventPushes]
  refine ⟨?_, ?_⟩
  · intro hall
    refine ⟨?_, ?_⟩
    · intro e he
      obtain ⟨d, hd⟩ := List.getElem?_of_mem he
      obtain ⟨hdlt, -⟩ := List.getElem?_eq_some_iff.mp hd
      rw [List.length_take, List.length_drop] at hdlt
      rw [List.getElem?_take_of_lt (by omega), List.getElem?_drop] at hd
      obtain ⟨h, hget, ⟨_, _, hb⟩ | ⟨heq, _⟩⟩ :=
        hall (k + d) (by omega) (by unfold advance; omega)
      · obtain rfl : e = h := Option.some.inj (hd.symm.trans hget)
        exact hb
      · omega
    · intro h hget
      obtain ⟨hlt, -⟩ := List.getElem?_eq_some_iff.mp hget
      obtain ⟨h', hget', ⟨_, hlt', _⟩ | ⟨_, hp⟩⟩ :=
        hall _ hkq (by rw [advance_of_stopAt_lt hlt]; omega)
      · omega
      · obtain rfl : h = h' := Option.some.inj (hget.symm.trans hget')
        exact hp
  · intro h i hki hi
    obtain ⟨hmissed, hpair⟩ := h
    have hlen : i < human.length := Nat.lt_of_lt_of_le hi advance_le_length
    refine ⟨human[i], List.getElem?_eq_getElem hlen, ?_⟩
    by_cases hiq : i < stopAt stopsAt human k a
    · refine .inl ⟨hki, hiq, hmissed _ ?_⟩
      apply List.mem_of_getElem?
      show ((human.drop k).take (stopAt stopsAt human k a - k))[i - k]? = _
      rw [List.getElem?_take_of_lt (by omega), List.getElem?_drop,
        Nat.add_sub_cancel' hki]
      exact List.getElem?_eq_getElem hlen
    · have heq : i = stopAt stopsAt human k a := by
        unfold advance at hi
        omega
      exact .inr ⟨heq, hpair _ (by rw [← heq]; exact List.getElem?_eq_getElem hlen)⟩

/-- What the cursor passes for one event is that event's business, the rest that
of the later events. -/
private theorem pushesFrom_reports_cons_iff {human as : List RefereeEvent} {j k : Nat}
    {a : RefereeEvent} (hk : k ≤ human.length) :
    (∀ i, k ≤ i → i < human.length →
        i ∈ humanPositions (pushesFrom human j k (a :: as))) ↔
      (∀ i, k ≤ i → i < advance stopsAt human k a →
        i ∈ humanPositions (eventPushes human j k a)) ∧
      (∀ i, advance stopsAt human k a ≤ i → i < human.length →
        i ∈ humanPositions (pushesFrom human (j + 1) (advance stopsAt human k a) as)) := by
  have hlater : ∀ i ∈ humanPositions
      (pushesFrom human (j + 1) (advance stopsAt human k a) as),
      advance stopsAt human k a ≤ i :=
    (pushesFrom_positions as _ _ advance_le_length).1
  rw [pushesFrom, humanPositions_append]
  simp only [List.mem_append]
  refine ⟨?_, ?_⟩
  · intro hall
    refine ⟨?_, ?_⟩
    · intro i hki hi
      rcases hall i hki (Nat.lt_of_lt_of_le hi advance_le_length) with h | h
      · exact h
      · have := hlater i h
        omega
    · intro i hai hi
      rcases hall i (Nat.le_trans (le_advance hk) hai) hi with h | h
      · have := (eventPushes_position_bounds h).2
        omega
      · exact h
  · intro h i hki hi
    by_cases hia : i < advance stopsAt human k a
    · exact .inl (h.1 i hki hia)
    · exact .inr (h.2 i (Nat.le_of_not_lt hia) hi)

/-- An event that stops at a human event has that one to pair with, and no
other end. -/
private theorem stop_pairs_iff {human as : List RefereeEvent} {k : Nat}
    {a : RefereeEvent} {C : Prop} (hq : stopAt stopsAt human k a < human.length) :
    ((∀ h, human[stopAt stopsAt human k a]? = some h → pairs a h = true) ∧ C) ↔
      (∃ h, human[stopAt stopsAt human k a]? = some h ∧ pairs a h = true ∧ C) ∨
        (human.length ≤ stopAt stopsAt human k a ∧ as = []) := by
  have hget := List.getElem?_eq_getElem hq
  refine ⟨?_, ?_⟩
  · intro h
    exact .inl ⟨_, hget, h.1 _ hget, h.2⟩
  · intro h
    rcases h with ⟨h, hget', hp, hrest⟩ | ⟨hle, _⟩
    · refine ⟨?_, hrest⟩
      intro h' hget''
      obtain rfl : h = h' := Option.some.inj (hget'.symm.trans hget'')
      exact hp
    · omega

/-- From cursor `k` on, every human event has an entry exactly when the human
events from there on are covered. -/
private theorem pushesFrom_reports_iff {human : List RefereeEvent}
    (as : List RefereeEvent) : ∀ j k : Nat, k ≤ human.length →
    (∀ i < as.length, cursor stopsAt human k (as.take i) < human.length) →
    ((∀ i, k ≤ i → i < human.length → i ∈ humanPositions (pushesFrom human j k as)) ↔
      Covered (human.drop k) as) := by
  induction as with
  | nil =>
    intro j k hk _
    refine ⟨?_, ?_⟩
    · intro hall
      have hend : human.length ≤ k := by
        by_contra hlt
        exact absurd (hall k (Nat.le_refl k) (Nat.lt_of_not_le hlt)) List.not_mem_nil
      rw [List.drop_eq_nil_of_le hend]
      exact .nil
    · intro hcov i hki hi
      generalize hblock : human.drop k = block at hcov
      cases hcov
      have := congrArg List.length hblock
      rw [List.length_drop, List.length_nil] at this
      omega
  | cons a as ih =>
    intro j k _ hin
    have hk : k < human.length := hin 0 (Nat.succ_pos _)
    have hin' : ∀ i < as.length,
        cursor stopsAt human (advance stopsAt human k a) (as.take i) < human.length :=
      fun i hi => hin (i + 1) (Nat.succ_lt_succ hi)
    rw [pushesFrom_reports_cons_iff (Nat.le_of_lt hk), eventPushes_reports_iff,
      ih _ _ advance_le_length hin', covered_cons_iff hk, and_assoc]
    refine and_congr_right fun _ => ?_
    by_cases hq : stopAt stopsAt human k a < human.length
    · -- the event stops at a human event: it must pair with it
      rw [advance_of_stopAt_lt hq]
      exact stop_pairs_iff hq
    · -- the event exhausts the human events: it must be the last one
      have hadv : advance stopsAt human k a = human.length := by
        unfold advance
        omega
      have hnone : human[stopAt stopsAt human k a]? = none :=
        List.getElem?_eq_none (Nat.le_of_not_lt hq)
      have hlast : as = [] := by
        cases as with
        | nil => rfl
        | cons b bs =>
          have := hin' 0 (Nat.succ_pos _)
          rw [hadv] at this
          exact absurd this (Nat.lt_irrefl _)
      subst hlast
      rw [hadv, List.drop_length]
      refine ⟨?_, ?_⟩
      · intro _
        exact .inr ⟨Nat.le_of_not_lt hq, rfl⟩
      · intro _
        refine ⟨?_, .nil⟩
        intro h hget
        rw [hnone] at hget
        cases hget

/-- The entries about a human event are the true positives and the false
negatives. -/
private theorem length_humanPositions {human autoref : List RefereeEvent}
    {ev : List PushBack} (hrun : sweep human autoref = some ev) :
    (humanPositions ev).length =
      ev.countP (·.value == .truePositive) + ev.countP (·.value == .falseNegative) := by
  have hverdict : ∀ p ∈ ev, p.humanref.isSome = true ↔
      p.value = .truePositive ∨ p.value = .falseNegative :=
    fun p hp => humanref_isSome_iff hrun hp
  clear hrun
  induction ev with
  | nil => rfl
  | cons p ps ih =>
    have htail := ih fun q hq => hverdict q (List.mem_cons_of_mem _ hq)
    have hhead := hverdict p List.mem_cons_self
    rw [List.countP_cons, List.countP_cons]
    unfold humanPositions at htail ⊢
    cases hp : p.humanref with
    | none =>
      rw [List.filterMap_cons_none hp, htail]
      cases hv : p.value <;> simp_all
    | some i =>
      rw [List.filterMap_cons_some hp, List.length_cons, htail]
      cases hv : p.value <;> simp_all <;> omega

private theorem humanPositions_lt {human autoref : List RefereeEvent}
    {ev : List PushBack} (hrun : sweep human autoref = some ev) {i : Nat}
    (hi : i ∈ humanPositions ev) : i < human.length := by
  obtain ⟨p, hp, hpi⟩ := List.mem_filterMap.mp hi
  rcases mem_cases hrun hp with ⟨i', rfl⟩ | ⟨j, i', rfl⟩ | ⟨j, rfl⟩
  · obtain ⟨_, _, _, _, hget, _⟩ := (missed_mem_iff hrun).mp hp
    obtain rfl : i' = i := by simpa [PushBack.missed] using hpi
    exact (List.getElem?_eq_some_iff.mp hget).1
  · obtain ⟨_, _, _, hget, _⟩ := (paired_mem_iff hrun).mp hp
    obtain rfl : i' = i := by simpa [PushBack.paired] using hpi
    exact (List.getElem?_eq_some_iff.mp hget).1
  · exact absurd hpi (by simp [PushBack.unfounded])

/-- **Coverage.** A run reports every human event, and its true positives and
false negatives add up to their number, exactly when the autoref events cover
the human events: a human event that is passed as the end of a false positive,
or because its command differs, and one that is left over at the end, is lost. -/
theorem sweep_reports_all_iff {human autoref : List RefereeEvent} {ev : List PushBack}
    (hrun : sweep human autoref = some ev) :
    ReportsAll human ev ↔ Covered human autoref := by
  obtain ⟨hin, hev⟩ := sweep_eq_some_iff.mp hrun
  have hcov := pushesFrom_reports_iff autoref 0 0 (Nat.zero_le _) hin
  rw [← hev, List.drop_zero] at hcov
  have hall : (∀ i < human.length, Reports ev i) ↔ Covered human autoref := by
    rw [← hcov]
    refine ⟨?_, ?_⟩
    · intro h i _ hi
      exact (reports_iff_mem hrun).mp (h i hi)
    · intro h i hi
      exact (reports_iff_mem hrun).mpr (h i (Nat.zero_le i) hi)
  refine ⟨?_, ?_⟩
  · intro h
    exact hall.mp h.1
  · intro h
    refine ⟨hall.mpr h, ?_⟩
    rw [← length_humanPositions hrun]
    -- the positions are distinct and are all the positions there are
    have hnodup : (humanPositions ev).Nodup :=
      (humanPositions_increasing hrun).imp fun hlt => Nat.ne_of_lt hlt
    have hperm : (humanPositions ev).Perm (List.range human.length) := by
      refine (List.perm_ext_iff_of_nodup hnodup List.nodup_range).mpr fun i => ?_
      rw [List.mem_range]
      refine ⟨?_, ?_⟩
      · exact humanPositions_lt hrun
      · intro hi
        exact (reports_iff_mem hrun).mp (hall.mpr h i hi)
    rw [hperm.length_eq, List.length_range]

/-- The sweep does lose human events: with one autoref event for the first of
two goals, the second goal is in no entry. -/
theorem sweep_loses_human_event :
    ¬ ∀ (human autoref : List RefereeEvent) (ev : List PushBack), human ≠ [] →
      sweep human autoref = some ev → ReportsAll human ev := by
  intro h
  have hall := h [goalAt 10 11, goalAt 20 21] [goalAt 10 11] [.paired 0 0]
    (by decide) (by decide)
  exact absurd (hall.1 1 (by decide)) (by simp [Reports, PushBack.paired])

theorem sweep_reports_all_two :
    ReportsAll [goalAt 10 11, goalAt 20 21] [.missed 0, .paired 0 1] ↔
      Covered [goalAt 10 11, goalAt 20 21] [goalAt 20 21] :=
  sweep_reports_all_iff (by decide)

end SslAutoref.Theorems
