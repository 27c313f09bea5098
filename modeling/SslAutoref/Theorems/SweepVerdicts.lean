import SslAutoref.Theorems.SweepMatching

/-!
# Are the verdicts right?

A verdict of the sweep is decided by comparing two events; whether it is right
is about all of them.

* **false negatives** — when the stop times of both lists increase, a human
  event reported missed has no autoref event left that could have matched it
  (`falseNegative_right`);
* **false positives** — the cursor also passes human events that are neither
  missed nor matched, and a later autoref event can want one of them. On ordered
  events the false positives are right exactly when such an event always finds
  another one (`falsePositive_right_iff`).

Both directions transport "too early" and "over" along the lists, over the
integers: the stop times are at least the delay, so nothing wraps.
-/

namespace SslAutoref.Theorems

open GreedyScan

/-- Stop times do not decrease along the list. -/
def StopsSorted (events : List RefereeEvent) : Prop :=
  events.Pairwise fun e e' => e.stopTimestamp ≤ e'.stopTimestamp

/-- Every stop time is at least the delay, as UNIX times are. -/
def StopsAfterDelay (events : List RefereeEvent) : Prop :=
  ∀ e ∈ events, kAutoToHumanDelay ≤ e.stopTimestamp

/-- Ordered disjoint intervals. -/
def Ordered (events : List RefereeEvent) : Prop :=
  (∀ e ∈ events, e.stopTimestamp ≤ e.commandTimestamp) ∧
    events.IsChain fun e e' => e.commandTimestamp ≤ e'.stopTimestamp

theorem StopsSorted.le {events : List RefereeEvent} (hs : StopsSorted events)
    {i j : Nat} {e e' : RefereeEvent} (hij : i ≤ j) (hi : events[i]? = some e)
    (hj : events[j]? = some e') : e.stopTimestamp ≤ e'.stopTimestamp := by
  obtain ⟨hi', rfl⟩ := List.getElem?_eq_some_iff.mp hi
  obtain ⟨hj', rfl⟩ := List.getElem?_eq_some_iff.mp hj
  rcases Nat.lt_or_eq_of_le hij with hlt | heq
  · exact List.pairwise_iff_getElem.mp hs i j hi' hj' hlt
  · subst heq
    exact UInt64.le_refl _

/-- In ordered intervals the stop times increase. -/
theorem Ordered.stopsSorted {events : List RefereeEvent} (h : Ordered events) :
    StopsSorted events := by
  obtain ⟨hle, hchain⟩ := h
  induction events with
  | nil => exact List.Pairwise.nil
  | cons e es ih =>
    have htail := ih (fun e' he' => hle e' (List.mem_cons_of_mem _ he')) hchain.tail
    refine List.pairwise_cons.mpr ⟨?_, htail⟩
    cases es with
    | nil =>
      intro e' he'
      exact absurd he' List.not_mem_nil
    | cons e₁ es =>
      have hhead : e.stopTimestamp ≤ e₁.stopTimestamp :=
        UInt64.le_trans (hle e List.mem_cons_self) (List.isChain_cons_cons.mp hchain).1
      intro e' he'
      rcases List.mem_cons.mp he' with heq | hmem
      · rw [heq]
        exact hhead
      · exact UInt64.le_trans hhead ((List.pairwise_cons.mp htail).1 e' hmem)

/-! ## Transport along sorted lists -/

/-- An event over before one autoref event is over before the later ones. -/
theorem before_of_later_autoref {h a a' : RefereeEvent}
    (hle : a.stopTimestamp ≤ a'.stopTimestamp)
    (hb : before h a kHumanToAutoDelay = true) : before h a' kHumanToAutoDelay = true := by
  rw [UInt64.le_iff_toNat_le] at hle
  unfold kHumanToAutoDelay at hb ⊢
  rw [before_zero_iff] at hb ⊢
  omega

/-- An autoref event too early for one human event is too early for the later
ones. -/
theorem before_of_later_human {a h h' : RefereeEvent}
    (hdelay : kAutoToHumanDelay ≤ h.stopTimestamp)
    (hle : h.stopTimestamp ≤ h'.stopTimestamp)
    (hb : before a h kAutoToHumanDelay = true) : before a h' kAutoToHumanDelay = true := by
  have hdelay' : kAutoToHumanDelay ≤ h'.stopTimestamp := UInt64.le_trans hdelay hle
  rw [UInt64.le_iff_toNat_le] at hle
  rw [before_iff_of_le hdelay] at hb
  rw [before_iff_of_le hdelay']
  omega

theorem not_pairs_of_early {a h : RefereeEvent}
    (hb : before a h kAutoToHumanDelay = true) : pairs a h = false := by
  simp [pairs, overlaps, hb]

theorem not_pairs_of_over {a h : RefereeEvent}
    (hb : before h a kHumanToAutoDelay = true) : pairs a h = false := by
  unfold kHumanToAutoDelay at hb
  simp [pairs, overlaps, hb]

/-- Where the inner loop stops without a pair, the autoref event is too early
for every human event from there on. -/
theorem not_pairs_from_stop {human : List RefereeEvent} (hsorted : StopsSorted human)
    (hdelay : StopsAfterDelay human) {q i : Nat} {a h h' : RefereeEvent}
    (hq : human[q]? = some h) (hs : stopsAt a h = true) (hnot : pairs a h = false)
    (hqi : q ≤ i) (hi : human[i]? = some h') : pairs a h' = false := by
  have hearly : before a h kAutoToHumanDelay = true := by
    by_contra hb
    rw [pairs_of_stopsAt hs (Bool.eq_false_iff.mpr hb)] at hnot
    cases hnot
  exact not_pairs_of_early (before_of_later_human (hdelay h (List.mem_of_getElem? hq))
    (hsorted.le hqi hq hi) hearly)

/-! ## False negatives -/

/-- **A false negative is right.** When the stop times of both lists increase,
and the human ones are at least the delay, every autoref event that could match
a human event reported missed is paired with an earlier human event. -/
theorem falseNegative_right {human autoref : List RefereeEvent} {ev : List PushBack}
    (hsorted : StopsSorted human) (hdelay : StopsAfterDelay human)
    (hautoref : StopsSorted autoref) (hrun : sweep human autoref = some ev)
    {k : Nat} {h : RefereeEvent} (hk : human[k]? = some h)
    (hmiss : PushBack.missed k ∈ ev) :
    ∀ j a, autoref[j]? = some a → h.command = a.command →
      overlaps h a kAutoToHumanDelay = true → ∃ i < k, PushBack.paired j i ∈ ev := by
  intro j a hj hcmd hover
  have hpair : pairs a h = true := pairs_iff.mpr ⟨hover, hcmd⟩
  obtain ⟨j₀, a₀, h₀, hj₀, hk₀, hcur, -, hover₀⟩ := (missed_mem_iff hrun).mp hmiss
  obtain rfl : h = h₀ := Option.some.inj (hk.symm.trans hk₀)
  rcases Nat.lt_or_ge j j₀ with hlt | hge
  · -- the autoref event came before: its inner loop stopped before position k
    have hklen := (List.getElem?_eq_some_iff.mp hk).1
    have hmono : cursorAt human autoref (j + 1) ≤ cursorAt human autoref j₀ :=
      cursorAt_mono hlt
    have hstop : stopFor human autoref j a < k := by
      have hcurj := hmono
      rw [cursorAt_succ hj] at hcurj
      unfold advance at hcurj
      unfold stopFor
      omega
    obtain ⟨h', hget⟩ : ∃ h', human[stopFor human autoref j a]? = some h' :=
      ⟨_, List.getElem?_eq_getElem (by omega)⟩
    refine ⟨_, hstop, (paired_mem_iff hrun).mpr ⟨a, _, hj, hget, rfl, ?_⟩⟩
    by_contra hnot
    have := not_pairs_from_stop hsorted hdelay hget (stops_stopAt hget)
      (Bool.eq_false_iff.mpr hnot) (Nat.le_of_lt hstop) hk
    rw [hpair] at this
    cases this
  · -- the autoref event comes later: the human event is over by then
    have hb := before_of_later_autoref (hautoref.le hge hj₀ hj) hover₀
    rw [not_pairs_of_over hb] at hpair
    cases hpair

/-- A miss with an autoref event that overlaps it, paired with an earlier human
event. -/
theorem falseNegative_right_three :
    ∃ i < 1, PushBack.paired 0 i ∈ [.paired 0 0, .missed 1, .paired 1 2] :=
  falseNegative_right
    (show StopsSorted [goalAt 10 11, goalAt 20 22, goalAt 30 31] by
      unfold StopsSorted; decide)
    (by unfold StopsAfterDelay; decide)
    (show StopsSorted [goalAt 10 21, goalAt 30 31] by unfold StopsSorted; decide)
    (by decide) (show _ = some (goalAt 20 22) by decide) (by decide)
    0 (goalAt 10 21) rfl rfl (by decide)

/-! ## False positives -/

/-- The sweep passes human event `i` while it serves autoref event `j`, and
pushes no entry for it: it is neither over before `j` nor a pair of it. -/
def DroppedAt (human autoref : List RefereeEvent) (j i : Nat) : Prop :=
  (Ahead human autoref j i ∧ ¬ Ahead human autoref (j + 1) i) ∧
    ∀ a h, autoref[j]? = some a → human[i]? = some h →
      before h a kHumanToAutoDelay = false ∧ pairs a h = false

/-- Whenever a human event was dropped and a later autoref event pairs with it,
that autoref event pairs with a human event that is still ahead. -/
def DropsHarmless (human autoref : List RefereeEvent) : Prop :=
  ∀ j' j i a h, j' < j → autoref[j]? = some a → human[i]? = some h →
    DroppedAt human autoref j' i → pairs a h = true →
    ∃ i' h', human[i']? = some h' ∧ Ahead human autoref j i' ∧ pairs a h' = true

/-- No autoref event reported as a false positive has a human event in no true
positive that overlaps it with the same command. -/
def FalsePositivesRight (human autoref : List RefereeEvent) (ev : List PushBack) : Prop :=
  ∀ j a, autoref[j]? = some a → PushBack.unfounded j ∈ ev →
    ¬ ∃ i h, human[i]? = some h ∧
      (∀ p ∈ ev, p.value = .truePositive → p.humanref ≠ some i) ∧
      h.command = a.command ∧ overlaps h a kAutoToHumanDelay = true

section FalsePositives

variable {human autoref : List RefereeEvent} {ev : List PushBack}

/-- An autoref event is a false positive exactly when it pairs with nothing that
is still ahead. -/
theorem unfounded_iff_none_ahead (hsorted : StopsSorted human)
    (hdelay : StopsAfterDelay human) (hrun : sweep human autoref = some ev)
    {j : Nat} {a : RefereeEvent} (hj : autoref[j]? = some a) :
    PushBack.unfounded j ∈ ev ↔
      ∀ i h, human[i]? = some h → Ahead human autoref j i → pairs a h = false := by
  rw [unfounded_mem_iff hrun]
  refine ⟨?_, ?_⟩
  · intro hunf i h hi hahead
    obtain ⟨a', hj', hnone⟩ := hunf
    obtain rfl : a = a' := Option.some.inj (hj.symm.trans hj')
    have hilen := (List.getElem?_eq_some_iff.mp hi).1
    have hcur := (ahead_iff hilen).mp hahead
    rcases Nat.lt_or_ge i (stopFor human autoref j a) with hlt | hge
    · -- the inner loop goes past it, so it does not stop it
      have hpass := not_stops_of_lt_stopAt hcur hlt hi
      by_contra hp
      rw [stopsAt_of_pairs ((Bool.not_eq_false _).mp hp)] at hpass
      cases hpass
    · -- the inner loop stops before it, too early
      obtain ⟨h', hget⟩ : ∃ h', human[stopFor human autoref j a]? = some h' :=
        ⟨_, List.getElem?_eq_getElem (by omega)⟩
      exact not_pairs_from_stop hsorted hdelay hget (stops_stopAt hget)
        (hnone _ hget) hge hi
  · intro hall
    refine ⟨a, hj, ?_⟩
    intro h hget
    have hlen := (List.getElem?_eq_some_iff.mp hget).1
    exact hall _ h hget ((ahead_iff hlen).mpr (cursorAt_le_stopFor j a))

/-- What became of a human event the cursor has passed: it was missed, paired or
dropped. -/
theorem passed_cases (hrun : sweep human autoref = some ev) {j i : Nat}
    {a h : RefereeEvent} (hj : autoref[j]? = some a) (hi : human[i]? = some h)
    (hp : PassedAt human autoref j i) :
    before h a kHumanToAutoDelay = true ∨ PushBack.paired j i ∈ ev ∨
      DroppedAt human autoref j i := by
  have hilen := (List.getElem?_eq_some_iff.mp hi).1
  by_cases hb : before h a kHumanToAutoDelay = true
  · exact .inl hb
  · by_cases hpair : pairs a h = true
    · have heq := hp.eq_stopFor hj hi (stopsAt_of_pairs hpair)
      exact .inr (.inl ((paired_mem_iff hrun).mpr ⟨a, h, hj, hi, heq, hpair⟩))
    · refine .inr (.inr ⟨(passedAt_iff_ahead hilen).mp hp, ?_⟩)
      intro a' h' hj' hi'
      obtain rfl : a = a' := Option.some.inj (hj.symm.trans hj')
      obtain rfl : h = h' := Option.some.inj (hi.symm.trans hi')
      exact ⟨Bool.eq_false_iff.mpr hb, Bool.eq_false_iff.mpr hpair⟩

/-- A dropped human event is in no true positive. -/
theorem not_paired_of_dropped (hrun : sweep human autoref = some ev) {j i j' : Nat}
    {h : RefereeEvent} (hi : human[i]? = some h) (hd : DroppedAt human autoref j i) :
    PushBack.paired j' i ∉ ev := by
  intro hmem
  obtain ⟨a', h', hj', hi', heq, hpair⟩ := (paired_mem_iff hrun).mp hmem
  have hilen := (List.getElem?_eq_some_iff.mp hi).1
  have hpassed : PassedAt human autoref j i := (passedAt_iff_ahead hilen).mpr hd.1
  have hpassed' : PassedAt human autoref j' i := by
    rw [heq] at hi' ⊢
    exact passedAt_stopFor hj' hi'
  obtain rfl := passedAt_unique hpassed hpassed'
  have := (hd.2 a' h' hj' hi').2
  rw [hpair] at this
  cases this

/-- **When false positives are right.** On ordered events with the human stop
times at least the delay, every false positive is right exactly when drops are
harmless: no autoref event wants a human event that was passed without an entry
while nothing ahead pairs with it. -/
theorem falsePositive_right_iff (hhuman : Ordered human) (hautoref : Ordered autoref)
    (hdelay : StopsAfterDelay human) (hrun : sweep human autoref = some ev) :
    FalsePositivesRight human autoref ev ↔ DropsHarmless human autoref := by
  have hsorted := hhuman.stopsSorted
  refine ⟨?_, ?_⟩
  · intro hright j' j i a h _ hj hi hd hpair
    by_contra hnone
    -- nothing ahead pairs with the event, so it is a false positive
    have hunf : PushBack.unfounded j ∈ ev := by
      refine (unfounded_iff_none_ahead hsorted hdelay hrun hj).mpr ?_
      intro i' h' hi' hahead
      by_contra hp
      exact hnone ⟨i', h', hi', hahead, (Bool.not_eq_false _).mp hp⟩
    obtain ⟨hover, hcmd⟩ := pairs_iff.mp hpair
    refine hright j a hj hunf ⟨i, h, hi, ?_, hcmd, hover⟩
    intro p hp hvalue hpi
    rcases mem_cases hrun hp with ⟨i', rfl⟩ | ⟨j'', i', rfl⟩ | ⟨j'', rfl⟩
    · cases hvalue
    · obtain rfl : i' = i := by simpa [PushBack.paired] using hpi
      exact not_paired_of_dropped hrun hi hd hp
    · cases hvalue
  · intro hharmless j a hj hunf hex
    obtain ⟨i, h, hi, hunmatched, hcmd, hover⟩ := hex
    have hpair : pairs a h = true := pairs_iff.mpr ⟨hover, hcmd⟩
    have hnone := (unfounded_iff_none_ahead hsorted hdelay hrun hj).mp hunf
    have hilen := (List.getElem?_eq_some_iff.mp hi).1
    -- the human event is behind the cursor: find where it was passed
    have hbehind : i < cursorAt human autoref j := by
      by_contra hge
      have := hnone i h hi ((ahead_iff hilen).mpr (Nat.le_of_not_lt hge))
      rw [hpair] at this
      cases this
    obtain ⟨j', hlt, hpassed⟩ := exists_passedAt hbehind
    have hjlen := (List.getElem?_eq_some_iff.mp hj).1
    obtain ⟨a', hj'⟩ : ∃ a', autoref[j']? = some a' :=
      ⟨_, List.getElem?_eq_getElem (by omega)⟩
    rcases passed_cases hrun hj' hi hpassed with hb | hmem | hd
    · have hb' := before_of_later_autoref
        (hautoref.stopsSorted.le (Nat.le_of_lt hlt) hj' hj) hb
      rw [not_pairs_of_over hb'] at hpair
      cases hpair
    · exact hunmatched _ hmem rfl rfl
    · obtain ⟨i', h', hi', hahead, hpair'⟩ := hharmless j' j i a h hlt hj hi hd hpair
      rw [hnone i' h' hi' hahead] at hpair'
      cases hpair'

/-- A false positive can be wrong: the first autoref event is too early for the
first goal and takes the cursor past it, so the second one, which reports that
goal, does not find it. -/
theorem falsePositive_can_be_wrong :
    ¬ ∀ (human autoref : List RefereeEvent) (ev : List PushBack), human ≠ [] →
      Ordered human → Ordered autoref → StopsAfterDelay human →
      sweep human autoref = some ev → FalsePositivesRight human autoref ev := by
  intro h
  have hright := h [goalAt 10 11, goalAt 20 21] [goalAt 1 2, goalAt 10 11]
    [.unfounded 0, .unfounded 1] (by decide) (by unfold Ordered; decide)
    (by unfold Ordered; decide) (by unfold StopsAfterDelay; decide) (by decide)
  refine hright 1 (goalAt 10 11) (by decide) (by decide)
    ⟨0, goalAt 10 11, by decide, ?_, rfl, by decide⟩
  decide

theorem falsePositive_right_two :
    FalsePositivesRight [goalAt 10 11, goalAt 20 21] [goalAt 1 2, goalAt 20 21]
        [.unfounded 0, .paired 1 1] ↔
      DropsHarmless [goalAt 10 11, goalAt 20 21] [goalAt 1 2, goalAt 20 21] :=
  falsePositive_right_iff (by unfold Ordered; decide) (by unfold Ordered; decide)
    (by unfold StopsAfterDelay; decide) (by decide)

end FalsePositives

end SslAutoref.Theorems
