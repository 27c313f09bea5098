import SslAutoref.Logic.HandOver
import SslAutoref.Theorems.Indexing
import SslAutoref.Theorems.SavedVerdicts

/-!
# What the verdicts depend on

The verdicts on an autoref are a matter of two streams of packets, its own and that of the
refbox:

* **isolation** — two logs that agree in these two give the same verdicts, whatever the order
  in which the packets of different ports were logged, and the annotation files; the other
  referees decide only whether the run gets to the autoref (`verdicts_isolated`);
* **the clock** — commands that are all issued later by the same time get the same
  verdicts, as long as every event follows a STOP (`verdicts_shift`).
-/

namespace SslAutoref.Theorems

open GreedyScan

/-! ## Isolation -/

/-- **Isolation.** What one run of the evaluator hands over for a port, every run on a log with
the same referee messages on that port and on the refbox's hands over, and nothing else, as soon
as no autoref that was heard of before has an event. -/
theorem verdicts_isolated {pb : Protobuf} {log log' : List UInt8} {port : UInt16}
    {logFile : String} {files : Files} {call : List PushBack × List EventEvaluation}
    (hhuman : messagesOf (logTraffic pb log') kRefboxPort =
      messagesOf (logTraffic pb log) kRefboxPort)
    (hport : messagesOf (logTraffic pb log') port = messagesOf (logTraffic pb log) port)
    (h : HandsOver pb logFile log files port call) (logFile' : String) (files' : Files)
    (call' : List PushBack × List EventEvaluation) :
    HandsOver pb logFile' log' files' port call' ↔
      call' = call ∧ GetsTo (logTraffic pb log') port := by
  have hevents : ∀ p, messagesOf (logTraffic pb log') p = messagesOf (logTraffic pb log) p →
      eventsOf (logTraffic pb log') p = eventsOf (logTraffic pb log) p := by
    intro p hp
    unfold eventsOf recordedOf
    rw [hp]
  exact h.iff_of_same (hevents kRefboxPort hhuman) (hevents port hport)

/-- The two goals again, among the packets of a third referee. -/
def crowdedGoals : List (Nat × SSLReferee) :=
  [(10004, ⟨.stop, 1, 10000000⟩), issue .stop 1 10000000, (10005, ⟨.stop, 7, 9000000⟩),
    issue .goalYellow 2 11000000, (10004, ⟨.goalYellow, 2, 11000000⟩),
    (10005, ⟨.forceStart, 8, 9500000⟩)]

theorem crowdedGoals_traffic :
    logTraffic (sampleProtobuf [] crowdedGoals) (sampleLog crowdedGoals) =
        [(10004, ⟨.stop, 1, 10000000⟩), (kRefboxPort, ⟨.stop, 1, 10000000⟩),
          (10005, ⟨.stop, 7, 9000000⟩), (kRefboxPort, ⟨.goalYellow, 2, 11000000⟩),
          (10004, ⟨.goalYellow, 2, 11000000⟩), (10005, ⟨.forceStart, 8, 9500000⟩)] ∧
      logTraffic (sampleProtobuf [] crowdedGoals) (sampleLog bothGoals) =
        [(kRefboxPort, ⟨.stop, 1, 10000000⟩), (kRefboxPort, ⟨.goalYellow, 2, 11000000⟩),
          (10004, ⟨.stop, 1, 10000000⟩), (10004, ⟨.goalYellow, 2, 11000000⟩)] := by
  rw [logTraffic_sampleLog (by decide), logTraffic_sampleLog (by decide)]
  decide

/-- The third referee is heard of behind the autoref, and has no event. -/
theorem verdicts_isolated_crowdedGoals :
    GetsTo (logTraffic (sampleProtobuf [] crowdedGoals) (sampleLog crowdedGoals)) 10004 ∧
      ∃ call, HandsOver (sampleProtobuf [] crowdedGoals) "match" (sampleLog bothGoals)
        (fun _ => none) 10004 call ∧
      ∀ call', HandsOver (sampleProtobuf [] crowdedGoals) "again" (sampleLog crowdedGoals)
          (fun _ => none) 10004 call' ↔
        call' = call ∧
          GetsTo (logTraffic (sampleProtobuf [] crowdedGoals) (sampleLog crowdedGoals))
            10004 := by
  obtain ⟨hcrowded, hboth⟩ := crowdedGoals_traffic
  have h : HandsOver (sampleProtobuf [] crowdedGoals) "match" (sampleLog bothGoals)
      (fun _ => none) 10004 ([.paired 0 0],
        [⟨.unknown, ⟨10000000, 11000000, 2, .goalYellow⟩,
          ⟨10000000, 11000000, 2, .goalYellow⟩, false⟩]) := by
    unfold HandsOver evaluateAutorefs
    rw [loadRefereeCommands_eq, hboth]
    exact ⟨0, rfl, rfl⟩
  refine ⟨?_, _, h, verdicts_isolated ?_ ?_ h "again" fun _ => none⟩
  · -- the autoref is the first one that is heard of
    rw [hcrowded]
    exact ⟨by decide, fun p hp => by cases hp⟩
  · rw [hboth, hcrowded]
    decide
  · rw [hboth, hcrowded]
    decide

/-! ## The clock -/

/-- What the sweep asks about two events it asks about their images, with the same
answers. -/
structure Alike (f : RefereeEvent → RefereeEvent) (a h : RefereeEvent) : Prop where
  missed : before (f h) (f a) kHumanToAutoDelay = before h a kHumanToAutoDelay
  early : before (f a) (f h) kAutoToHumanDelay = before a h kAutoToHumanDelay
  command : ((f h).command == (f a).command) = (h.command == a.command)

section Sweep

variable {f : RefereeEvent → RefereeEvent} {human : List RefereeEvent} {a : RefereeEvent}
  {j k : Nat}

theorem Alike.stopsAt {h : RefereeEvent} (halike : Alike f a h) :
    stopsAt (f a) (f h) = SslAutoref.stopsAt a h := by
  unfold SslAutoref.stopsAt
  rw [halike.missed, halike.early, halike.command]

theorem Alike.pairs {h : RefereeEvent} (halike : Alike f a h) :
    pairs (f a) (f h) = SslAutoref.pairs a h := by
  have hmissed : before (f h) (f a) 0 = before h a 0 := halike.missed
  unfold SslAutoref.pairs overlaps
  rw [hmissed, halike.early, halike.command]

theorem eventPushes_map (halike : ∀ h ∈ human, Alike f a h) :
    eventPushes (human.map f) j k (f a) = eventPushes human j k a := by
  have hany : ∀ {p p' : RefereeEvent → Bool} (i : Nat), (∀ h ∈ human, p' (f h) = p h) →
      ((human.map f)[i]?).any p' = (human[i]?).any p := by
    intro p p' i hp
    rw [List.getElem?_map]
    cases hget : human[i]? with
    | none => rfl
    | some h => exact hp h (List.mem_of_getElem? hget)
  unfold eventPushes missedBetween verdict
  rw [stopAt_map (f a) f fun h hh => (halike h hh).stopsAt,
    hany (stopAt stopsAt human k a) fun h hh => (halike h hh).pairs]
  refine congrArg (· ++ _) (congrArg _ (List.filter_congr fun i _ => ?_))
  exact hany i fun h hh => (halike h hh).missed

theorem pushesFrom_map (as : List RefereeEvent) : ∀ j k : Nat,
    (∀ a ∈ as, ∀ h ∈ human, Alike f a h) →
    pushesFrom (human.map f) j k (as.map f) = pushesFrom human j k as ∧
      ∀ i, cursor stopsAt (human.map f) k ((as.map f).take i) =
        cursor stopsAt human k (as.take i) := by
  induction as with
  | nil => exact fun j k _ => ⟨rfl, fun i => by rw [List.map_nil, List.take_nil]; rfl⟩
  | cons a as ih =>
    intro j k halike
    have ha := halike a List.mem_cons_self
    have hadvance : advance stopsAt (human.map f) k (f a) = advance stopsAt human k a :=
      advance_map (f a) f fun h hh => (ha h hh).stopsAt
    obtain ⟨hpushes, hcursor⟩ := ih (j + 1) (advance stopsAt human k a)
      fun a' ha' => halike a' (List.mem_cons_of_mem _ ha')
    refine ⟨?_, ?_⟩
    · rw [List.map_cons, pushesFrom, pushesFrom, eventPushes_map ha, hadvance, hpushes]
    · intro i
      cases i with
      | zero => rfl
      | succ i =>
        rw [List.map_cons, List.take_succ_cons, List.take_succ_cons, cursor_cons, cursor_cons,
          hadvance, hcursor]

/-- A sweep sees of the events what it asks about them, and no more. -/
theorem sweep_map {autoref : List RefereeEvent}
    (halike : ∀ a ∈ autoref, ∀ h ∈ human, Alike f a h) :
    sweep (human.map f) (autoref.map f) = sweep human autoref := by
  obtain ⟨hpushes, hcursor⟩ := pushesFrom_map autoref 0 0 halike
  rw [sweep_eq, sweep_eq, hpushes]
  unfold cursorAt
  simp only [hcursor, List.length_map]

end Sweep

/-- A command issued `delta` later. -/
def later (delta : UInt64) (m : SSLReferee) : SSLReferee :=
  { m with commandTimestamp := m.commandTimestamp + delta }

/-- An event that begins and ends `delta` later. -/
def laterEvent (delta : UInt64) (e : RefereeEvent) : RefereeEvent :=
  { e with
    stopTimestamp := e.stopTimestamp + delta
    commandTimestamp := e.commandTimestamp + delta }

/-- Commands whose events can all begin and end `delta` later. -/
structure Movable (delta : UInt64) (commands : List SSLReferee) : Prop where
  stops : EventsFollowStops commands
  fits : ∀ m ∈ commands, m.command = .stop ∨ m.command.isEvent = true →
    m.commandTimestamp.toNat + delta.toNat < 2 ^ 64

section Shift

variable {delta : UInt64} {commands : List SSLReferee}

theorem toNat_add_of_lt {x y : UInt64} (h : x.toNat + y.toNat < 2 ^ 64) :
    (x + y).toNat = x.toNat + y.toNat := by
  rw [UInt64.toNat_add]
  exact Nat.mod_eq_of_lt h

/-- The events of the later commands are the later events. -/
theorem indexReferee_later (hstops : EventsFollowStops commands) :
    indexReferee (commands.map (later delta)) =
      (indexReferee commands).map (laterEvent delta) := by
  rw [eventsFollowStops_iff] at hstops
  induction commands using List.reverseRecOn with
  | nil => rfl
  | append_singleton commands m ih =>
    have hbefore : ∀ front m' back, commands = front ++ m' :: back →
        m'.command.isEvent = true → ∃ s, latestStop front = some s :=
      fun front m' back hsplit => hstops front m' (back ++ [m]) (by rw [hsplit]; simp)
    rw [List.map_append, List.map_singleton, indexReferee_concat, indexReferee_concat,
      List.map_append, ih hbefore]
    have hkind : (later delta m).command.isEvent = m.command.isEvent := rfl
    rw [hkind]
    by_cases hevent : m.command.isEvent = true
    · -- the STOP that is pending is issued later as well
      obtain ⟨s, hlatest⟩ := hstops commands m [] rfl hevent
      have hlatest' : latestStop (commands.map (later delta)) = some (later delta s) := by
        rw [latestStop_map (f := later delta) fun _ => rfl, hlatest]
        rfl
      rw [if_pos hevent, if_pos hevent, List.map_singleton]
      unfold eventOf
      rw [stopTime_of_some hlatest, stopTime_of_some hlatest']
      rfl
    · rw [if_neg hevent, if_neg hevent]
      rfl

/-- An event begins with a STOP and ends with an event command. -/
theorem times_of_mem (hstops : EventsFollowStops commands) {e : RefereeEvent}
    (he : e ∈ indexReferee commands) :
    (∃ s ∈ commands, s.command = .stop ∧ e.stopTimestamp = s.commandTimestamp) ∧
      ∃ m ∈ commands, m.command.isEvent = true ∧ e.commandTimestamp = m.commandTimestamp := by
  obtain ⟨front, m, back, hsplit, hevent, rfl⟩ := mem_indexReferee_iff.mp he
  obtain ⟨s, hlatest⟩ := eventsFollowStops_iff.mp hstops front m back hsplit hevent
  refine ⟨⟨s, ?_, command_of_latestStop hlatest, stopTime_of_some hlatest⟩, m, ?_, hevent, rfl⟩
  · rw [hsplit]
    exact List.mem_append_left _ (mem_of_latestStop hlatest)
  · rw [hsplit]
    exact List.mem_append_right _ List.mem_cons_self

/-- Neither of them overflows. -/
theorem Movable.times_fit (h : Movable delta commands) {e : RefereeEvent}
    (he : e ∈ indexReferee commands) :
    e.stopTimestamp.toNat + delta.toNat < 2 ^ 64 ∧
      e.commandTimestamp.toNat + delta.toNat < 2 ^ 64 := by
  obtain ⟨⟨s, hs, hstop, hsame⟩, m, hm, hevent, hsame'⟩ := times_of_mem h.stops he
  rw [hsame, hsame']
  exact ⟨h.fits s hs (.inl hstop), h.fits m hm (.inr hevent)⟩

/-- `Before` compares the later events as it compares the events. -/
theorem before_later {e1 e2 : RefereeEvent} {td : UInt64} (htd : td ≤ e2.stopTimestamp)
    (h1 : e1.commandTimestamp.toNat + delta.toNat < 2 ^ 64)
    (h2 : e2.stopTimestamp.toNat + delta.toNat < 2 ^ 64) :
    before (laterEvent delta e1) (laterEvent delta e2) td = before e1 e2 td := by
  have hstop : (laterEvent delta e2).stopTimestamp.toNat = e2.stopTimestamp.toNat + delta.toNat :=
    toNat_add_of_lt h2
  have hcommand : (laterEvent delta e1).commandTimestamp.toNat =
      e1.commandTimestamp.toNat + delta.toNat := toNat_add_of_lt h1
  have htd' : td ≤ (laterEvent delta e2).stopTimestamp := by
    rw [UInt64.le_iff_toNat_le] at htd ⊢
    omega
  rw [Bool.eq_iff_iff, before_iff_of_le htd, before_iff_of_le htd', hstop, hcommand]
  omega

end Shift

/-- **The clock.** Commands of both referees that are issued later by one and the same time
get the same verdicts, if every event command follows a STOP, and no time of an event overflows,
nor the delay that is taken from a STOP of the human referee. -/
theorem verdicts_shift {delta : UInt64} {human autoref : List SSLReferee}
    (hhuman : Movable delta human) (hautoref : Movable delta autoref)
    (hdelay : ∀ m ∈ human, m.command = .stop → kAutoToHumanDelay ≤ m.commandTimestamp) :
    sweep (indexReferee (human.map (later delta))) (indexReferee (autoref.map (later delta))) =
      sweep (indexReferee human) (indexReferee autoref) := by
  rw [indexReferee_later hhuman.stops, indexReferee_later hautoref.stops]
  refine sweep_map fun a ha h hh => ?_
  obtain ⟨hastop, hacommand⟩ := hautoref.times_fit ha
  obtain ⟨hhstop, hhcommand⟩ := hhuman.times_fit hh
  obtain ⟨⟨s, hs, hstop, hsame⟩, -⟩ := times_of_mem hhuman.stops hh
  refine ⟨?_, ?_, rfl⟩
  · exact before_later (UInt64.le_iff_toNat_le.mpr (Nat.zero_le _)) hhcommand hastop
  · refine before_later ?_ hacommand hhstop
    rw [hsame]
    exact hdelay s hs hstop

/-- A goal after a stop, and a halt when nothing had begun. -/
def oneGoal : List SSLReferee :=
  [⟨.halt, 1, 0⟩, ⟨.stop, 2, 10000000⟩, ⟨.goalYellow, 3, 11000000⟩]

theorem movable_oneGoal : Movable 5000000 oneGoal := by
  refine ⟨eventsFollowStops_iff.mpr ?_, by decide⟩
  intro front m back hsplit hevent
  have hfront : front = oneGoal.take front.length := by rw [hsplit, List.take_left]
  have hm : oneGoal[front.length]? = some m := by rw [hsplit]; simp
  have hlt : front.length < 3 := (List.getElem?_eq_some_iff.mp hm).1
  rw [hfront]
  generalize front.length = i at hm hlt
  -- only the last of the three is an event
  match i, hlt with
  | 0, _ =>
    rw [← Option.some.inj hm] at hevent
    cases hevent
  | 1, _ =>
    rw [← Option.some.inj hm] at hevent
    cases hevent
  | 2, _ => exact ⟨⟨.stop, 2, 10000000⟩, rfl⟩

theorem verdicts_shift_oneGoal :
    sweep (indexReferee (oneGoal.map (later 5000000)))
        (indexReferee (oneGoal.map (later 5000000))) =
      sweep (indexReferee oneGoal) (indexReferee oneGoal) :=
  verdicts_shift movable_oneGoal movable_oneGoal (by decide)

end SslAutoref.Theorems
