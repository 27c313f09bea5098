import SslAutoref.Logic.SweepRun

/-!
# A sweep over events that go on

Both lists of events grow while a game is recorded. What the sweep has pushed for the
events so far stays as it is when more events follow (`sweep_growth`), up to the last
entry: an autoref event that was unfounded because the human events had ended can still
find its pair.
-/

namespace SslAutoref

open GreedyScan

variable {human more : List RefereeEvent} {a : RefereeEvent} {j k q : Nat}

/-! ## One autoref event -/

theorem missedBetween_append (hq : q ≤ human.length) :
    missedBetween (human ++ more) a k q = missedBetween human a k q := by
  unfold missedBetween
  refine congrArg _ (List.filter_congr fun i hi => ?_)
  obtain ⟨hki, hilt⟩ := List.mem_range'_1.mp hi
  rw [List.getElem?_append_left (by omega)]

/-- Going further adds misses behind those there are. -/
theorem missedBetween_grows {q' : Nat} (hq : q ≤ q') :
    missedBetween human a k q <+: missedBetween human a k q' := by
  unfold missedBetween
  have hsplit : List.range' k (q' - k) =
      List.range' k (q - k) ++ List.range' (k + (q - k)) (q' - k - (q - k)) := by
    rw [List.range'_append_1]
    congr 1
    omega
  rw [hsplit, List.filter_append, List.map_append]
  exact List.prefix_append _ _

theorem verdict_append_of_lt (hq : q < human.length) :
    verdict (human ++ more) j a q = verdict human j a q := by
  unfold verdict
  rw [List.getElem?_append_left hq]

/-- Behind the human events there is nothing to pair with. -/
theorem verdict_of_length_le (hq : human.length ≤ q) : verdict human j a q = .unfounded j := by
  unfold verdict
  rw [List.getElem?_eq_none hq]
  rfl

/-- An event that stops at a human event pushes the same, whatever follows. -/
theorem eventPushes_append_of_lt (h : stopAt stopsAt human k a < human.length) :
    eventPushes (human ++ more) j k a = eventPushes human j k a := by
  unfold eventPushes
  rw [stopAt_append_of_lt h, missedBetween_append (Nat.le_of_lt h), verdict_append_of_lt h]

/-- An event that runs off the human events pushes at least the same misses. -/
theorem missedBetween_stopAt_grows (hk : k ≤ human.length)
    (h : human.length ≤ stopAt stopsAt human k a) :
    missedBetween human a k (stopAt stopsAt human k a) <+:
      missedBetween (human ++ more) a k (stopAt stopsAt (human ++ more) k a) := by
  have hend : stopAt stopsAt human k a = human.length :=
    Nat.le_antisymm (stopAt_le_length hk) h
  rw [hend, ← missedBetween_append (Nat.le_refl _)]
  exact missedBetween_grows (length_le_stopAt_append h)

/-! ## All of them -/

/-- From cursor `k` on, all entries but the last are final, and the last if it is not that
of an unfounded event. -/
theorem pushesFrom_growth (later as : List RefereeEvent) : ∀ j k : Nat, k ≤ human.length →
    (∀ i < as.length, cursor stopsAt human k (as.take i) < human.length) →
    ∃ final last, pushesFrom human j k as = final ++ last ∧
      (last = [] ∨ last = [.unfounded (j + as.length - 1)]) ∧
      final <+: pushesFrom (human ++ more) j k (as ++ later) := by
  induction as with
  | nil => exact fun j k _ _ => ⟨[], [], rfl, .inl rfl, List.nil_prefix⟩
  | cons a as ih =>
    intro j k hk hin
    have hin' : ∀ i < as.length,
        cursor stopsAt human (advance stopsAt human k a) (as.take i) < human.length :=
      fun i hi => hin (i + 1) (Nat.succ_lt_succ hi)
    rw [pushesFrom, List.cons_append, pushesFrom, List.length_cons]
    by_cases hq : stopAt stopsAt human k a < human.length
    · -- the event stops inside, and the later ones start where they did
      obtain ⟨final, last, hpushes, hlast, hfirst⟩ := ih (j + 1) _ advance_le_length hin'
      refine ⟨eventPushes human j k a ++ final, last, ?_, ?_, ?_⟩
      · rw [hpushes, List.append_assoc]
      · rwa [show j + (as.length + 1) - 1 = j + 1 + as.length - 1 by omega]
      · rw [eventPushes_append_of_lt hq, advance_append_of_lt hq]
        exact (List.prefix_append_right_inj _).mpr hfirst
    · -- the event runs off the human events, and no other comes after it
      have hend := Nat.le_of_not_lt hq
      have hlast : as = [] := by
        cases as with
        | nil => rfl
        | cons b bs =>
          have hlt : advance stopsAt human k a < human.length := hin' 0 (Nat.succ_pos _)
          unfold advance at hlt
          omega
      subst hlast
      refine ⟨missedBetween human a k (stopAt stopsAt human k a), [.unfounded j], ?_, .inr rfl, ?_⟩
      · rw [eventPushes, verdict_of_length_le hend]
        exact List.append_nil _
      · rw [eventPushes, List.append_assoc]
        exact (missedBetween_stopAt_grows hk hend).trans (List.prefix_append _ _)

/-- **Growing events.** When both lists go on, a sweep pushes what it pushed before, but
for the entry of a last autoref event that had run out of human events. -/
theorem sweep_growth {autoref later : List RefereeEvent} {ev ev' : List PushBack}
    (hrun : sweep human autoref = some ev)
    (hrun' : sweep (human ++ more) (autoref ++ later) = some ev') :
    ∃ final last, ev = final ++ last ∧
      (last = [] ∨ last = [.unfounded (autoref.length - 1)]) ∧ final <+: ev' := by
  obtain ⟨hin, rfl⟩ := sweep_eq_some_iff.mp hrun
  obtain ⟨-, rfl⟩ := sweep_eq_some_iff.mp hrun'
  have hgrowth := @pushesFrom_growth human more later autoref 0 0 (Nat.zero_le _) hin
  rwa [Nat.zero_add] at hgrowth

/-- An entry of the sweep is made of the same events, whatever follows them. -/
theorem evaluation_append {autoref : List RefereeEvent} (later : List RefereeEvent)
    {ev : List PushBack} (hrun : sweep human autoref = some ev) {p : PushBack} (hp : p ∈ ev) :
    p.evaluation (human ++ more) (autoref ++ later) = p.evaluation human autoref := by
  have hget : ∀ {events : List RefereeEvent} {i : Nat} {e : RefereeEvent} (others),
      events[i]? = some e → (events ++ others)[i]? = events[i]? := by
    intro events i e others he
    exact List.getElem?_append_left (List.getElem?_eq_some_iff.mp he).1
  rcases mem_cases hrun hp with ⟨i, rfl⟩ | ⟨j, i, rfl⟩ | ⟨j, rfl⟩
  · obtain ⟨-, -, h, -, hh, -⟩ := (missed_mem_iff hrun).mp hp
    show EventEvaluation.new _ _ (((human ++ more)[i]?).getD {}) _ = _
    rw [hget more hh]
    rfl
  · obtain ⟨a, h, ha, hh, -⟩ := (paired_mem_iff hrun).mp hp
    show EventEvaluation.new _ (((autoref ++ later)[j]?).getD {})
      (((human ++ more)[i]?).getD {}) _ = _
    rw [hget later ha, hget more hh]
    rfl
  · obtain ⟨a, ha, -⟩ := (unfounded_mem_iff hrun).mp hp
    show EventEvaluation.new _ (((autoref ++ later)[j]?).getD {}) _ _ = _
    rw [hget later ha]
    rfl

end SslAutoref
