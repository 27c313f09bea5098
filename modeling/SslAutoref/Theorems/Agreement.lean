import Mathlib.Data.List.Forall2
import SslAutoref.Logic.Index
import SslAutoref.Logic.SweepRun

/-!
# An autoref that agrees with the human referee

The autoref issues the human referee's commands, all of them `delta` earlier. The
sweep then pairs the events position by position exactly when every pair of
events in the same position passes the sweep's test (`sweep_diagonal_iff`), and
that is so exactly when every event command follows a STOP: without one the stop
time is 0, and the delay that is subtracted from it wraps
(`agreement_perfect_iff`).
-/

namespace SslAutoref.Theorems

open GreedyScan

/-! ## The diagonal -/

/-- One true positive for each of `n` events, pairing them by position. -/
def diagonal (n : Nat) : List PushBack := (List.range n).map fun i => .paired i i

/-- When the event under the cursor is a pair, the inner loop stops at once. -/
theorem pushesFrom_diagonal {human : List RefereeEvent} (as : List RefereeEvent) :
    ∀ k : Nat, List.Forall₂ (fun a h => pairs a h = true) as (human.drop k) →
      pushesFrom human k k as = (List.range' k as.length).map (fun i => .paired i i) ∧
        ∀ i < as.length, cursor stopsAt human k (as.take i) < human.length := by
  induction as with
  | nil =>
    intro k _
    exact ⟨rfl, fun i hi => absurd hi (Nat.not_lt_zero i)⟩
  | cons a as ih =>
    intro k hall
    have hk : k < human.length := by
      have := hall.length_eq
      rw [List.length_cons, List.length_drop] at this
      omega
    rw [List.drop_eq_getElem_cons hk] at hall
    obtain ⟨hpair, hrest⟩ := List.forall₂_cons.mp hall
    have hget : human[k]? = some human[k] := List.getElem?_eq_getElem hk
    have hstop : stopAt stopsAt human k a = k := stopAt_eq_self hget (stopsAt_of_pairs hpair)
    have hadv : advance stopsAt human k a = k + 1 := by
      rw [advance_of_stopAt_lt (by omega), hstop]
    obtain ⟨hpushes, hcursor⟩ := ih (k + 1) hrest
    refine ⟨?_, ?_⟩
    · have hone : eventPushes human k k a = [.paired k k] := by
        unfold eventPushes verdict
        rw [hstop, missedBetween_self, hget, Option.any_some, if_pos hpair]
        rfl
      rw [pushesFrom, hone, hadv, hpushes, List.length_cons, List.range'_succ]
      rfl
    · intro i hi
      cases i with
      | zero => exact hk
      | succ i =>
        rw [List.take_succ_cons, cursor_cons, hadv]
        exact hcursor i (Nat.lt_of_succ_lt_succ hi)

/-- Two lists of events are paired by position exactly when the events of each
position overlap with one command. -/
theorem sweep_diagonal_iff {human autoref : List RefereeEvent}
    (hlen : autoref.length = human.length) :
    sweep human autoref = some (diagonal human.length) ↔
      List.Forall₂ (fun a h => pairs a h = true) autoref human := by
  refine ⟨?_, ?_⟩
  · intro hrun
    refine List.forall₂_iff_get.mpr ⟨hlen, ?_⟩
    intro i hi hi'
    have hmem : PushBack.paired i i ∈ diagonal human.length :=
      List.mem_map.mpr ⟨i, List.mem_range.mpr hi', rfl⟩
    obtain ⟨a, h, ha, hh, -, hpair⟩ := (paired_mem_iff hrun).mp hmem
    obtain ⟨_, rfl⟩ := List.getElem?_eq_some_iff.mp ha
    obtain ⟨_, rfl⟩ := List.getElem?_eq_some_iff.mp hh
    exact hpair
  · intro hall
    obtain ⟨hpushes, hcursor⟩ := pushesFrom_diagonal autoref 0 hall
    refine sweep_eq_some_iff.mpr ⟨hcursor, ?_⟩
    rw [hpushes, hlen, diagonal, List.range_eq_range']

/-! ## The agreeing autoref -/

/-- A command issued `delta` earlier. -/
def earlier (delta : UInt64) (m : SSLReferee) : SSLReferee :=
  { m with commandTimestamp := m.commandTimestamp - delta }

/-- Every event command follows a STOP, with no event command between them; or it
is issued so close to the end of the 64-bit range that a wrapped delay does not
put it before the end of that range. -/
def StopsPrecede (commands : List SSLReferee) (delta : UInt64) : Prop :=
  ∀ front m back, commands = front ++ m :: back → m.command.isEvent = true →
    latestStop front ≠ none ∨
      2 ^ 64 + delta.toNat ≤ m.commandTimestamp.toNat + kAutoToHumanDelay.toNat

/-- Timestamps do not decrease, and are UNIX times in microseconds. -/
structure Timed (commands : List SSLReferee) : Prop where
  sorted : commands.Pairwise fun m m' => m.commandTimestamp ≤ m'.commandTimestamp
  afterDelay : ∀ m ∈ commands, kAutoToHumanDelay < m.commandTimestamp

section Agreement

variable {commands : List SSLReferee} {m : SSLReferee} {delta : UInt64}

theorem stopTime_earlier :
    stopTime (commands.map (earlier delta)) =
      (latestStop commands).elim 0 fun s => s.commandTimestamp - delta := by
  unfold stopTime
  rw [latestStop_map (f := earlier delta) fun _ => rfl]
  cases latestStop commands <;> rfl

/-- **One event.** The events the two referees issue for one command pair exactly
when a STOP is pending or the wrapped delay does no harm. -/
theorem pairs_earlier_iff (htimed : Timed (commands ++ [m]))
    (hdelta : delta ≤ kAutoToHumanDelay) :
    pairs (eventOf (commands.map (earlier delta)) (earlier delta m)) (eventOf commands m) =
        true ↔
      latestStop commands ≠ none ∨
        2 ^ 64 + delta.toNat ≤ m.commandTimestamp.toNat + kAutoToHumanDelay.toNat := by
  have hm : kAutoToHumanDelay < m.commandTimestamp := htimed.afterDelay m (by simp)
  have hdm : delta ≤ m.commandTimestamp := UInt64.le_trans hdelta (UInt64.le_of_lt hm)
  have hsub := UInt64.toNat_sub_of_le _ _ hdm
  rw [UInt64.le_iff_toNat_le] at hdelta
  rw [UInt64.lt_iff_toNat_lt] at hm
  rw [pairs_iff]
  simp only [overlaps, Bool.and_eq_true, Bool.not_eq_true', ← Bool.not_eq_true]
  cases hstop : latestStop commands with
  | none =>
    have hzero : (eventOf commands m).stopTimestamp = 0 := by
      simp [eventOf, stopTime, hstop]
    have hzero' : (eventOf (commands.map (earlier delta))
        (earlier delta m)).stopTimestamp = 0 := by
      simp [eventOf, stopTime_earlier, hstop]
    rw [before_zero_iff, hzero', before_iff_of_lt (by rw [hzero]; decide), hzero]
    show (¬ m.commandTimestamp.toNat < 0 ∧
      ¬ (m.commandTimestamp - delta).toNat + kAutoToHumanDelay.toNat < 2 ^ 64 + 0) ∧
        m.command = m.command ↔ _
    rw [hsub]
    simp
    omega
  | some s =>
    -- the stop comes before the command, so no comparison wraps
    have hmem := mem_of_latestStop hstop
    have hsm : s.commandTimestamp ≤ m.commandTimestamp :=
      (List.pairwise_append.mp htimed.sorted).2.2 s hmem m List.mem_cons_self
    have hs : kAutoToHumanDelay < s.commandTimestamp :=
      htimed.afterDelay s (List.mem_append_left _ hmem)
    have hds : delta ≤ s.commandTimestamp :=
      UInt64.le_trans (UInt64.le_iff_toNat_le.mpr hdelta) (UInt64.le_of_lt hs)
    have hsub' := UInt64.toNat_sub_of_le _ _ hds
    have htime : (eventOf commands m).stopTimestamp = s.commandTimestamp := by
      simp [eventOf, stopTime, hstop]
    have htime' : (eventOf (commands.map (earlier delta))
        (earlier delta m)).stopTimestamp = s.commandTimestamp - delta := by
      simp [eventOf, stopTime_earlier, hstop]
    rw [before_zero_iff, htime',
      before_iff_of_le (by rw [htime]; exact UInt64.le_of_lt hs), htime]
    rw [UInt64.le_iff_toNat_le] at hsm
    show (¬ m.commandTimestamp.toNat < (s.commandTimestamp - delta).toNat ∧
      ¬ (m.commandTimestamp - delta).toNat + kAutoToHumanDelay.toNat <
        s.commandTimestamp.toNat) ∧ m.command = m.command ↔ _
    rw [hsub, hsub']
    simp
    omega

/-- The condition on a longer list. -/
theorem stopsPrecede_concat_iff :
    StopsPrecede (commands ++ [m]) delta ↔
      StopsPrecede commands delta ∧ (m.command.isEvent = true →
        latestStop commands ≠ none ∨
          2 ^ 64 + delta.toNat ≤ m.commandTimestamp.toNat + kAutoToHumanDelay.toNat) := by
  refine ⟨?_, ?_⟩
  · intro h
    refine ⟨?_, h commands m [] rfl⟩
    intro front m' back hsplit
    exact h front m' (back ++ [m]) (by rw [hsplit]; simp)
  · intro h front m' back hsplit
    rcases concat_eq_append_cons_iff.mp hsplit with ⟨rfl, rfl, rfl⟩ | ⟨rest, rfl, hcommands⟩
    · exact h.2
    · exact h.1 front m' rest hcommands

theorem Timed.of_concat (h : Timed (commands ++ [m])) : Timed commands where
  sorted := (List.pairwise_append.mp h.sorted).1
  afterDelay m' hm' := h.afterDelay m' (List.mem_append_left _ hm')

/-- Pairs of a longer list of events. -/
theorem forall₂_concat_iff {R : RefereeEvent → RefereeEvent → Prop}
    {xs ys : List RefereeEvent} {x y : RefereeEvent} :
    List.Forall₂ R (xs ++ [x]) (ys ++ [y]) ↔ List.Forall₂ R xs ys ∧ R x y := by
  rw [← List.forall₂_reverse_iff, List.reverse_append, List.reverse_append,
    List.reverse_singleton, List.reverse_singleton, List.singleton_append,
    List.singleton_append, List.forall₂_cons, List.forall₂_reverse_iff, and_comm]

/-- **All events.** By induction over the commands, the last one at a time. -/
theorem forall_pairs_iff (htimed : Timed commands) (hdelta : delta ≤ kAutoToHumanDelay) :
    List.Forall₂ (fun a h => pairs a h = true)
        (indexReferee (commands.map (earlier delta))) (indexReferee commands) ↔
      StopsPrecede commands delta := by
  induction commands using List.reverseRecOn with
  | nil =>
    refine ⟨fun _ front m back hsplit => ?_, fun _ => .nil⟩
    exact absurd hsplit.symm (by simp)
  | append_singleton commands m ih =>
    have hkind : (earlier delta m).command = m.command := rfl
    rw [stopsPrecede_concat_iff, ← ih htimed.of_concat, List.map_append,
      List.map_singleton, indexReferee_concat, indexReferee_concat, hkind]
    by_cases hevent : m.command.isEvent = true
    · rw [if_pos hevent, if_pos hevent, forall₂_concat_iff, pairs_earlier_iff htimed hdelta]
      simp [hevent]
    · rw [if_neg hevent, if_neg hevent, List.append_nil, List.append_nil]
      simp [hevent]

theorem length_indexReferee_earlier :
    (indexReferee (commands.map (earlier delta))).length = (indexReferee commands).length := by
  induction commands using List.reverseRecOn with
  | nil => rfl
  | append_singleton commands m ih =>
    have hkind : (earlier delta m).command = m.command := rfl
    rw [List.map_append, List.map_singleton, indexReferee_concat, indexReferee_concat,
      List.length_append, List.length_append, ih, hkind]
    split <;> rfl

/-- **Agreement.** An autoref that issues the human referee's commands up to two
seconds earlier scores one true positive for every human event and nothing else,
exactly when every event command follows a STOP. -/
theorem agreement_perfect_iff (htimed : Timed commands)
    (hdelta : delta ≤ kAutoToHumanDelay) :
    sweep (indexReferee commands) (indexReferee (commands.map (earlier delta))) =
        some (diagonal (indexReferee commands).length) ↔
      StopsPrecede commands delta := by
  rw [sweep_diagonal_iff length_indexReferee_earlier]
  exact forall_pairs_iff htimed hdelta

end Agreement

/-- A goal without a STOP before it is a false positive, even for an autoref that
issues it at the same time. -/
theorem agreement_can_fail :
    ¬ ∀ (commands : List SSLReferee) (delta : UInt64), Timed commands →
      (∃ m ∈ commands, m.command.isEvent = true) → delta ≤ kAutoToHumanDelay →
      sweep (indexReferee commands) (indexReferee (commands.map (earlier delta))) =
        some (diagonal (indexReferee commands).length) := by
  intro h
  have hperfect := h [⟨.goalYellow, 1, 11000000⟩] 0
    ⟨List.pairwise_singleton _ _, by decide⟩ (by decide) (by decide)
  exact absurd hperfect (by decide)

/-- A stop, a timeout and a goal, issued a second earlier by the autoref. -/
theorem agreement_perfect_goal :
    sweep (indexReferee [⟨.stop, 1, 10000000⟩, ⟨.timeoutBlue, 2, 10500000⟩,
          ⟨.goalYellow, 3, 11000000⟩])
        (indexReferee ([⟨.stop, 1, 10000000⟩, ⟨.timeoutBlue, 2, 10500000⟩,
          ⟨.goalYellow, 3, 11000000⟩].map (earlier 1000000))) =
        some (diagonal (indexReferee [⟨.stop, 1, 10000000⟩, ⟨.timeoutBlue, 2, 10500000⟩,
          ⟨.goalYellow, 3, 11000000⟩]).length) ↔
      StopsPrecede [⟨.stop, 1, 10000000⟩, ⟨.timeoutBlue, 2, 10500000⟩,
        ⟨.goalYellow, 3, 11000000⟩] 1000000 :=
  agreement_perfect_iff ⟨by decide, by decide⟩ (by decide)

end SslAutoref.Theorems
