import SslAutoref.Logic.Index
import SslAutoref.Model.Sweep

/-!
# The indexed events

`IndexRefereeEvents` makes one event of every event command, whatever comes between them
(`index_exact`). Where no STOP is pending the event starts at 0, a time that no command
has. So the events are ordered intervals exactly when a STOP is pending at every event
command (`events_ordered_iff`), and `Before` compares them as its comment says exactly
when the delay it subtracts is not larger than the time that is pending
(`before_exact_iff`).
-/

namespace SslAutoref.Theorems

/-! ## Every event command -/

/-- `t` is the time of the latest STOP in `front` behind its last event command, and 0
without one. -/
def PendingStop (front : List SSLReferee) (t : UInt64) : Prop :=
  (∃ before s between, front = before ++ s :: between ∧ s.command = .stop ∧
      (∀ m ∈ between, m.command ≠ .stop ∧ m.command.isEvent = false) ∧
      t = s.commandTimestamp) ∨
    (∀ before s between, front = before ++ s :: between → s.command = .stop →
      ∃ m ∈ between, m.command.isEvent = true) ∧ t = 0

theorem pendingStop_stopTime (front : List SSLReferee) : PendingStop front (stopTime front) := by
  unfold stopTime
  cases hlatest : latestStop front with
  | none => exact .inr ⟨latestStop_eq_none_iff.mp hlatest, rfl⟩
  | some s =>
    obtain ⟨before, between, hsplit, hs, hbetween⟩ := latestStop_eq_some_iff.mp hlatest
    exact .inl ⟨before, s, between, hsplit, hs, hbetween, rfl⟩

/-- One event for every event command, in order. -/
structure IndexedExactly (commands : List SSLReferee) (events : List RefereeEvent) : Prop where
  /-- With the timestamp, the counter and the command of that command. -/
  own : events.map (fun e => (e.commandTimestamp, e.commandCounter, e.command)) =
    (eventCommands commands).map fun m => (m.commandTimestamp, m.commandCounter, m.command)
  /-- And with the stop time that is pending there. -/
  stop : ∀ front m back, commands = front ++ m :: back → m.command.isEvent = true →
    ∃ e, events[(eventCommands front).length]? = some e ∧ PendingStop front e.stopTimestamp

theorem indexedExactly_indexReferee (commands : List SSLReferee) :
    IndexedExactly commands (indexReferee commands) where
  own := map_indexReferee fun _ _ => rfl
  stop := by
    intro front m back hsplit hevent
    exact ⟨eventOf front m, getElem?_indexReferee hsplit hevent, pendingStop_stopTime front⟩

/-- **Indexing.** Whatever the commands of a referee, its events are appended to its list:
one for every event command and no others. -/
theorem index_exact {t : Tables} {i : Nat} {commands : List SSLReferee}
    {events : List RefereeEvent} (hcommands : t.refereeCommands[i]? = some commands)
    (hevents : t.refereeEvents[i]? = some events) :
    ∃ more, (indexRefereeEvents t).refereeEvents[i]? = some (events ++ more) ∧
      IndexedExactly commands more := by
  refine ⟨indexReferee commands, ?_, indexedExactly_indexReferee commands⟩
  show (t.refereeEvents.mapIdx _)[i]? = _
  rw [List.getElem?_mapIdx, hevents, Option.map_some, hcommands]

/-- A stop, a timeout and two goals, of which the second has no stop. -/
def stopAndTwoGoals : List SSLReferee :=
  [⟨.stop, 1, 10000000⟩, ⟨.timeoutBlue, 2, 10500000⟩, ⟨.goalYellow, 3, 11000000⟩,
    ⟨.goalBlue, 4, 12000000⟩]

theorem index_exact_stopAndTwoGoals :
    ∃ more, (indexRefereeEvents
        { refereeCommands := [stopAndTwoGoals], refereeEvents := [[]] }).refereeEvents[0]? =
          some ([] ++ more) ∧
      IndexedExactly stopAndTwoGoals more :=
  index_exact rfl rfl

example : indexReferee stopAndTwoGoals =
    [⟨10000000, 11000000, 3, .goalYellow⟩, ⟨0, 12000000, 4, .goalBlue⟩] := rfl

/-! ## Intervals -/

/-- Events are intervals that start at a STOP, one behind the other. -/
structure EventsOrdered (events : List RefereeEvent) : Prop where
  starts : ∀ e ∈ events, 0 < e.stopTimestamp
  ends : ∀ e ∈ events, e.stopTimestamp ≤ e.commandTimestamp
  apart : ∀ (j : Nat) e e', events[j]? = some e → events[j + 1]? = some e' →
    e.commandTimestamp ≤ e'.stopTimestamp

/-- Every event command has a STOP before it, and no event command in between. -/
def EventsFollowStops (commands : List SSLReferee) : Prop :=
  ∀ front m back, commands = front ++ m :: back → m.command.isEvent = true →
    ∃ before s between, front = before ++ s :: between ∧ s.command = .stop ∧
      ∀ m' ∈ between, m'.command.isEvent = false

section

variable {commands : List SSLReferee}

/-- That is, a STOP is pending. -/
theorem eventsFollowStops_iff :
    EventsFollowStops commands ↔
      ∀ front m back, commands = front ++ m :: back → m.command.isEvent = true →
        ∃ s, latestStop front = some s := by
  refine forall_congr' fun front => forall_congr' fun m => forall_congr' fun back =>
    forall_congr' fun _ => forall_congr' fun _ => ?_
  refine ⟨?_, ?_⟩
  · rintro ⟨before, s, between, rfl, hs, hbetween⟩
    exact Option.ne_none_iff_exists'.mp (latestStop_ne_none hs hbetween)
  · rintro ⟨s, hlatest⟩
    obtain ⟨before, between, hsplit, hs, hbetween⟩ := latestStop_eq_some_iff.mp hlatest
    exact ⟨before, s, between, hsplit, hs, fun m' hm' => (hbetween m' hm').2⟩

theorem stopTime_of_some {front : List SSLReferee} {s : SSLReferee}
    (h : latestStop front = some s) : stopTime front = s.commandTimestamp := by
  rw [stopTime, h]
  rfl

/-- A pending STOP is no earlier than the events before it. -/
theorem le_of_latestStop (hsorted : commands.Pairwise fun m m' =>
      m.commandTimestamp ≤ m'.commandTimestamp) {s : SSLReferee}
    (hlatest : latestStop commands = some s) {e : RefereeEvent}
    (he : e ∈ indexReferee commands) : e.commandTimestamp ≤ s.commandTimestamp := by
  obtain ⟨before, between, rfl, hs, hbetween⟩ := latestStop_eq_some_iff.mp hlatest
  obtain ⟨front, m, back, hsplit, hevent, rfl⟩ := mem_indexReferee_iff.mp he
  have hm : m ∈ before ++ s :: between := by
    rw [hsplit]
    exact List.mem_append_right _ List.mem_cons_self
  -- the event command is neither the STOP nor behind it
  rcases List.mem_append.mp hm with hm | hm
  · exact (List.pairwise_append.mp hsorted).2.2 m hm s List.mem_cons_self
  · rcases List.mem_cons.mp hm with rfl | hm
    · rw [hs] at hevent
      cases hevent
    · rw [(hbetween m hm).2] at hevent
      cases hevent

/-- The events of any two positions are apart, by induction over the commands. -/
theorem pairwise_indexReferee (hsorted : commands.Pairwise fun m m' =>
      m.commandTimestamp ≤ m'.commandTimestamp)
    (hstops : ∀ front m back, commands = front ++ m :: back → m.command.isEvent = true →
      ∃ s, latestStop front = some s) :
    (indexReferee commands).Pairwise fun e e' => e.commandTimestamp ≤ e'.stopTimestamp := by
  induction commands using List.reverseRecOn with
  | nil => exact .nil
  | append_singleton commands m ih =>
    have hbefore := (List.pairwise_append.mp hsorted).1
    have hrest := ih hbefore fun front m' back hsplit =>
      hstops front m' (back ++ [m]) (by rw [hsplit]; simp)
    rw [indexReferee_concat]
    by_cases hevent : m.command.isEvent = true
    · rw [if_pos hevent, List.pairwise_append]
      refine ⟨hrest, List.pairwise_singleton _ _, ?_⟩
      intro e he e' he'
      obtain rfl := List.mem_singleton.mp he'
      obtain ⟨s, hs⟩ := hstops commands m [] rfl hevent
      show e.commandTimestamp ≤ stopTime commands
      rw [stopTime_of_some hs]
      exact le_of_latestStop hbefore hs he
    · rw [if_neg hevent, List.append_nil]
      exact hrest

/-- **Intervals.** For commands with positive times that do not decrease, the indexed events
are ordered intervals exactly when every event command follows a STOP. -/
theorem events_ordered_iff (hpos : ∀ m ∈ commands, 0 < m.commandTimestamp)
    (hsorted : commands.Pairwise fun m m' => m.commandTimestamp ≤ m'.commandTimestamp) :
    EventsOrdered (indexReferee commands) ↔ EventsFollowStops commands := by
  rw [eventsFollowStops_iff]
  refine ⟨?_, ?_⟩
  · intro h front m back hsplit hevent
    have hstart := h.starts _ (mem_indexReferee_iff.mpr ⟨front, m, back, hsplit, hevent, rfl⟩)
    cases hlatest : latestStop front with
    | some s => exact ⟨s, rfl⟩
    | none =>
      have hzero : stopTime front = 0 := by
        rw [stopTime, hlatest]
        rfl
      have hnot : 0 < stopTime front := hstart
      rw [hzero] at hnot
      exact absurd hnot (UInt64.lt_irrefl 0)
  · intro hstops
    have hstop : ∀ e ∈ indexReferee commands,
        0 < e.stopTimestamp ∧ e.stopTimestamp ≤ e.commandTimestamp := by
      intro e he
      obtain ⟨front, m, back, hsplit, hevent, rfl⟩ := mem_indexReferee_iff.mp he
      obtain ⟨s, hs⟩ := hstops front m back hsplit hevent
      have hmem := mem_of_latestStop hs
      rw [hsplit] at hpos hsorted
      show 0 < stopTime front ∧ stopTime front ≤ m.commandTimestamp
      rw [stopTime_of_some hs]
      refine ⟨hpos s (List.mem_append_left _ hmem), ?_⟩
      exact (List.pairwise_append.mp hsorted).2.2 s hmem m List.mem_cons_self
    refine ⟨fun e he => (hstop e he).1, fun e he => (hstop e he).2, ?_⟩
    intro j e e' he he'
    obtain ⟨hj, rfl⟩ := List.getElem?_eq_some_iff.mp he
    obtain ⟨hj', rfl⟩ := List.getElem?_eq_some_iff.mp he'
    exact List.pairwise_iff_getElem.mp (pairwise_indexReferee hsorted hstops) _ _ hj hj'
      (Nat.lt_succ_self j)

end

/-- The second goal starts at 0, before the first has ended. -/
theorem events_can_overlap :
    ¬ ∀ commands : List SSLReferee, (∀ m ∈ commands, 0 < m.commandTimestamp) →
      commands.Pairwise (fun m m' => m.commandTimestamp ≤ m'.commandTimestamp) →
      EventsOrdered (indexReferee commands) := by
  intro h
  have hordered := h stopAndTwoGoals (by decide) (by decide)
  exact absurd (hordered.apart 0 _ _ rfl rfl) (by decide)

/-- Without the second goal they are ordered. -/
theorem events_ordered_goal :
    EventsOrdered (indexReferee (stopAndTwoGoals.take 3)) ↔
      EventsFollowStops (stopAndTwoGoals.take 3) :=
  events_ordered_iff (by decide) (by decide)

/-! ## Comparisons -/

/-- What the comment of `Before` says, over the integers. -/
def BeforeExact (e1 e2 : RefereeEvent) (td : UInt64) : Prop :=
  before e1 e2 td = true ↔
    e1.commandTimestamp.toNat + td.toNat < e2.stopTimestamp.toNat

theorem beforeExact_zero (e1 e2 : RefereeEvent) : BeforeExact e1 e2 kHumanToAutoDelay := by
  unfold BeforeExact
  exact before_iff_of_le UInt64.zero_le

/-- The comparison is exact unless the delay wraps, and is then wrong but at the end of the
64-bit range. -/
theorem beforeExact_iff (e1 e2 : RefereeEvent) (td : UInt64) :
    BeforeExact e1 e2 td ↔
      td ≤ e2.stopTimestamp ∨
        2 ^ 64 + e2.stopTimestamp.toNat ≤ e1.commandTimestamp.toNat + td.toNat := by
  unfold BeforeExact
  by_cases hle : td ≤ e2.stopTimestamp
  · exact ⟨fun _ => .inl hle, fun _ => before_iff_of_le hle⟩
  · have hlt : e2.stopTimestamp < td := UInt64.not_le.mp hle
    have hnat := UInt64.lt_iff_toNat_lt.mp hlt
    rw [before_iff_of_lt hlt]
    refine ⟨?_, ?_⟩
    · intro h
      refine .inr ?_
      omega
    · intro h
      have hlate := h.resolve_left hle
      omega

/-- The pending stop time of every event command of the second list is as large as the
delay, or the first list has no event command but at the end of the 64-bit range. -/
def NoWrap (commands commands' : List SSLReferee) : Prop :=
  ∀ front m back, commands' = front ++ m :: back → m.command.isEvent = true →
    kAutoToHumanDelay ≤ stopTime front ∨
      ∀ m₁ ∈ eventCommands commands,
        2 ^ 64 + (stopTime front).toNat ≤ m₁.commandTimestamp.toNat + kAutoToHumanDelay.toNat

/-- **Comparisons.** For the events of any two lists of commands and both delays of the
sweep, `Before` is exact exactly when the delay wraps for none of them. -/
theorem before_exact_iff (commands commands' : List SSLReferee) :
    (∀ e1 ∈ indexReferee commands, ∀ e2 ∈ indexReferee commands',
        ∀ td ∈ [kHumanToAutoDelay, kAutoToHumanDelay], BeforeExact e1 e2 td) ↔
      NoWrap commands commands' := by
  refine ⟨?_, ?_⟩
  · intro h front m back hsplit hevent
    by_cases hle : kAutoToHumanDelay ≤ stopTime front
    · exact .inl hle
    · refine .inr ?_
      intro m₁ hm₁
      obtain ⟨hmem, hevent₁⟩ := List.mem_filter.mp hm₁
      obtain ⟨front₁, back₁, hsplit₁⟩ := List.append_of_mem hmem
      have hexact := h _ (mem_indexReferee_iff.mpr ⟨front₁, m₁, back₁, hsplit₁, hevent₁, rfl⟩)
        _ (mem_indexReferee_iff.mpr ⟨front, m, back, hsplit, hevent, rfl⟩) kAutoToHumanDelay
        (List.mem_cons_of_mem _ List.mem_cons_self)
      exact ((beforeExact_iff _ _ _).mp hexact).resolve_left hle
  · intro h e1 he1 e2 he2 td htd
    obtain ⟨front₁, m₁, back₁, hsplit₁, hevent₁, rfl⟩ := mem_indexReferee_iff.mp he1
    obtain ⟨front, m, back, hsplit, hevent, rfl⟩ := mem_indexReferee_iff.mp he2
    rcases List.mem_cons.mp htd with rfl | htd
    · exact beforeExact_zero _ _
    · obtain rfl := List.mem_singleton.mp htd
      rw [beforeExact_iff]
      refine (h front m back hsplit hevent).imp_right fun hlate => hlate m₁ ?_
      refine List.mem_filter.mpr ⟨?_, hevent₁⟩
      rw [hsplit₁]
      exact List.mem_append_right _ List.mem_cons_self

/-- A goal without a STOP is later than one that comes after it. -/
theorem before_can_wrap :
    ¬ ∀ (commands commands' : List SSLReferee),
      ∀ e1 ∈ indexReferee commands, ∀ e2 ∈ indexReferee commands',
        ∀ td ∈ [kHumanToAutoDelay, kAutoToHumanDelay], BeforeExact e1 e2 td := by
  intro h
  have hexact := h [⟨.goalYellow, 1, 12000000⟩] [⟨.goalYellow, 1, 11000000⟩] _
    List.mem_cons_self _ List.mem_cons_self kAutoToHumanDelay
    (List.mem_cons_of_mem _ List.mem_cons_self)
  exact absurd (hexact.mp rfl) (Nat.not_lt_zero _)

end SslAutoref.Theorems
