import Mathlib.Data.List.Induction
import SslAutoref.Model.Log

/-!
# Which events are indexed

`IndexRefereeEvents` carries one pending stop time along a referee's commands.
That time is the one of the latest STOP since the previous event command
(`latestStop`), and 0 when there is none, so the event of a command is a function
of the commands before it (`eventOf`, `indexReferee_concat`), and the events are those of
the event commands, in order (`getElem?_indexReferee`, `mem_indexReferee_iff`).
-/

namespace SslAutoref

/-- The latest STOP among the commands after the last event command. -/
def latestStop (commands : List SSLReferee) : Option SSLReferee :=
  (commands.reverse.takeWhile fun m => !m.command.isEvent).find? fun m =>
    m.command = .stop

/-- The stop time that is pending after some commands. -/
def stopTime (commands : List SSLReferee) : UInt64 :=
  (latestStop commands).elim 0 (·.commandTimestamp)

/-- The event of an event command that comes after `commands`. -/
def eventOf (commands : List SSLReferee) (m : SSLReferee) : RefereeEvent :=
  { stopTimestamp := stopTime commands
    commandTimestamp := m.commandTimestamp
    commandCounter := m.commandCounter
    command := m.command }

variable {commands : List SSLReferee} {m : SSLReferee}

/-! ## The latest stop -/

theorem latestStop_concat_of_isEvent (h : m.command.isEvent = true) :
    latestStop (commands ++ [m]) = none := by
  simp [latestStop, h]

theorem latestStop_concat_of_stop (h : m.command = .stop) :
    latestStop (commands ++ [m]) = some m := by
  simp [latestStop, Command.isEvent, h]

theorem latestStop_concat_of_ignored (h : m.command.isEvent = false)
    (hstop : m.command ≠ .stop) : latestStop (commands ++ [m]) = latestStop commands := by
  simp [latestStop, h, hstop]

theorem mem_of_latestStop (h : latestStop commands = some m) : m ∈ commands := by
  have hmem := List.mem_of_find?_eq_some h
  exact List.mem_reverse.mp ((List.takeWhile_prefix _).subset hmem)

theorem command_of_latestStop (h : latestStop commands = some m) : m.command = .stop := by
  simpa using List.find?_some h

/-- The last command of a list is the one a split puts in front of its rest, or it is at
the end of that rest. -/
theorem concat_eq_append_cons_iff {before between : List SSLReferee} {s : SSLReferee} :
    commands ++ [m] = before ++ s :: between ↔
      between = [] ∧ commands = before ∧ m = s ∨
        ∃ rest, between = rest ++ [m] ∧ commands = before ++ s :: rest := by
  refine ⟨?_, ?_⟩
  · intro h
    rcases List.eq_nil_or_concat' between with rfl | ⟨rest, last, rfl⟩
    · obtain ⟨hcommands, hlast⟩ := List.append_inj' h rfl
      exact .inl ⟨rfl, hcommands, List.singleton_inj.mp hlast⟩
    · rw [← List.cons_append, ← List.append_assoc] at h
      obtain ⟨hcommands, hlast⟩ := List.append_inj' h rfl
      obtain rfl := List.singleton_inj.mp hlast
      exact .inr ⟨rest, rfl, hcommands⟩
  · rintro (⟨rfl, rfl, rfl⟩ | ⟨rest, rfl, rfl⟩)
    · rfl
    · rw [List.append_assoc, List.cons_append]

/-- The latest stop has neither a STOP nor an event command behind it. -/
theorem latestStop_eq_some_iff {s : SSLReferee} :
    latestStop commands = some s ↔
      ∃ before between, commands = before ++ s :: between ∧ s.command = .stop ∧
        ∀ m ∈ between, m.command ≠ .stop ∧ m.command.isEvent = false := by
  induction commands using List.reverseRecOn with
  | nil =>
    refine ⟨nofun, ?_⟩
    rintro ⟨before, between, hsplit, -⟩
    exact absurd hsplit.symm (List.append_ne_nil_of_right_ne_nil _ (List.cons_ne_nil _ _))
  | append_singleton commands m ih =>
    by_cases hstop : m.command = .stop
    · rw [latestStop_concat_of_stop hstop]
      refine ⟨?_, ?_⟩
      · intro h
        obtain rfl := Option.some.inj h
        exact ⟨commands, [], rfl, hstop, nofun⟩
      · rintro ⟨before, between, hsplit, -, hbetween⟩
        rcases concat_eq_append_cons_iff.mp hsplit with ⟨-, -, rfl⟩ | ⟨rest, rfl, -⟩
        · rfl
        · exact absurd hstop (hbetween m (by simp)).1
    by_cases hevent : m.command.isEvent = true
    · rw [latestStop_concat_of_isEvent hevent]
      refine ⟨nofun, ?_⟩
      rintro ⟨before, between, hsplit, hs, hbetween⟩
      rcases concat_eq_append_cons_iff.mp hsplit with ⟨-, -, rfl⟩ | ⟨rest, rfl, -⟩
      · exact absurd hs hstop
      · have hnot := (hbetween m (by simp)).2
        rw [hevent] at hnot
        cases hnot
    · have hignored := Bool.eq_false_iff.mpr hevent
      rw [latestStop_concat_of_ignored hignored hstop, ih]
      refine ⟨?_, ?_⟩
      · rintro ⟨before, between, rfl, hs, hbetween⟩
        refine ⟨before, between ++ [m], by simp, hs, ?_⟩
        rw [List.forall_mem_append, List.forall_mem_singleton]
        exact ⟨hbetween, hstop, hignored⟩
      · rintro ⟨before, between, hsplit, hs, hbetween⟩
        rcases concat_eq_append_cons_iff.mp hsplit with ⟨-, -, rfl⟩ | ⟨rest, rfl, hrest⟩
        · exact absurd hs hstop
        · exact ⟨before, rest, hrest, hs, (List.forall_mem_append.mp hbetween).1⟩

/-- A stop that no event command follows is pending, or a later one is. -/
theorem latestStop_ne_none {before between : List SSLReferee} {s : SSLReferee}
    (hs : s.command = .stop) (hbetween : ∀ m ∈ between, m.command.isEvent = false) :
    latestStop (before ++ s :: between) ≠ none := by
  induction between using List.reverseRecOn with
  | nil =>
    rw [latestStop_concat_of_stop hs]
    exact nofun
  | append_singleton between m ih =>
    obtain ⟨hrest, hm⟩ := List.forall_mem_append.mp hbetween
    rw [← List.cons_append, ← List.append_assoc]
    by_cases hstop : m.command = .stop
    · rw [latestStop_concat_of_stop hstop]
      exact nofun
    · rw [latestStop_concat_of_ignored (hm m List.mem_cons_self) hstop]
      exact ih hrest

/-- Without a pending stop every STOP has an event command behind it. -/
theorem latestStop_eq_none_iff :
    latestStop commands = none ↔
      ∀ before s between, commands = before ++ s :: between → s.command = .stop →
        ∃ m ∈ between, m.command.isEvent = true := by
  refine ⟨?_, ?_⟩
  · rintro hnone before s between rfl hs
    by_contra hall
    refine latestStop_ne_none hs ?_ hnone
    intro m hm
    rw [Bool.eq_false_iff]
    exact fun hevent => hall ⟨m, hm, hevent⟩
  · intro hall
    cases hlatest : latestStop commands with
    | none => rfl
    | some s =>
      obtain ⟨before, between, hsplit, hs, hbetween⟩ := latestStop_eq_some_iff.mp hlatest
      obtain ⟨m, hm, hevent⟩ := hall before s between hsplit hs
      rw [(hbetween m hm).2] at hevent
      cases hevent

/-- A change of the commands that keeps what they are keeps the latest stop. -/
theorem latestStop_map {f : SSLReferee → SSLReferee}
    (hf : ∀ m, (f m).command = m.command) :
    latestStop (commands.map f) = (latestStop commands).map f := by
  unfold latestStop
  rw [← List.map_reverse, List.takeWhile_map, List.find?_map]
  simp only [Function.comp_def, hf]

/-! ## The indexed events -/

/-- What one command does to the pending stop time and the events. -/
theorem indexCommand_eq (s : UInt64 × List RefereeEvent) (m : SSLReferee) :
    indexCommand s m =
      if m.command.isEvent then
        (0, s.2 ++ [⟨s.1, m.commandTimestamp, m.commandCounter, m.command⟩])
      else if m.command = .stop then (m.commandTimestamp, s.2)
      else s := by
  unfold indexCommand
  cases m.command <;> rfl

/-- The pending stop time is that of the latest stop. -/
theorem foldl_indexCommand_fst (commands : List SSLReferee) :
    (commands.foldl indexCommand (0, [])).1 = stopTime commands := by
  induction commands using List.reverseRecOn with
  | nil => rfl
  | append_singleton commands m ih =>
    rw [List.foldl_append, List.foldl_cons, List.foldl_nil, indexCommand_eq]
    unfold stopTime at ih ⊢
    split
    · rename_i h
      rw [latestStop_concat_of_isEvent h]
      rfl
    · rename_i h
      split
      · rename_i hstop
        rw [latestStop_concat_of_stop hstop]
        rfl
      · rename_i hstop
        rw [latestStop_concat_of_ignored (Bool.eq_false_iff.mpr h) hstop]
        exact ih

@[simp] theorem indexReferee_nil : indexReferee [] = [] := rfl

/-- An event command adds its event, any other command none. -/
theorem indexReferee_concat (commands : List SSLReferee) (m : SSLReferee) :
    indexReferee (commands ++ [m]) =
      indexReferee commands ++ (if m.command.isEvent then [eventOf commands m] else []) := by
  unfold indexReferee
  rw [List.foldl_append, List.foldl_cons, List.foldl_nil, indexCommand_eq,
    foldl_indexCommand_fst]
  split
  · rfl
  · rw [List.append_nil]
    split <;> rfl

/-- More commands add events behind those there are. -/
theorem indexReferee_prefix (front back : List SSLReferee) :
    indexReferee front <+: indexReferee (front ++ back) := by
  induction back using List.reverseRecOn with
  | nil => exact ⟨[], by simp⟩
  | append_singleton back m ih =>
    rw [← List.append_assoc, indexReferee_concat]
    exact ih.trans (List.prefix_append _ _)

/-- The event commands of a list. -/
def eventCommands (commands : List SSLReferee) : List SSLReferee :=
  commands.filter (·.command.isEvent)

theorem eventCommands_concat (commands : List SSLReferee) (m : SSLReferee) :
    eventCommands (commands ++ [m]) =
      eventCommands commands ++ (if m.command.isEvent then [m] else []) := by
  unfold eventCommands
  rw [List.filter_append, List.filter_singleton]
  cases m.command.isEvent <;> rfl

/-- There is one event for every event command, and it is made of that command. -/
theorem map_indexReferee {β : Type} {ofEvent : RefereeEvent → β} {ofCommand : SSLReferee → β}
    (h : ∀ front m, ofEvent (eventOf front m) = ofCommand m) :
    (indexReferee commands).map ofEvent = (eventCommands commands).map ofCommand := by
  induction commands using List.reverseRecOn with
  | nil => rfl
  | append_singleton commands m ih =>
    rw [indexReferee_concat, eventCommands_concat, List.map_append, List.map_append, ih]
    cases m.command.isEvent with
    | false => rfl
    | true =>
      show _ ++ [ofEvent (eventOf commands m)] = _ ++ [ofCommand m]
      rw [h]

theorem length_indexReferee :
    (indexReferee commands).length = (eventCommands commands).length := by
  have hmap := @map_indexReferee commands Unit (fun _ => ()) (fun _ => ()) fun _ _ => rfl
  have hlen := congrArg List.length hmap
  rwa [List.length_map, List.length_map] at hlen

/-- The event of an event command has as many events before it as there are event
commands. -/
theorem getElem?_indexReferee {front back : List SSLReferee}
    (hsplit : commands = front ++ m :: back) (hevent : m.command.isEvent = true) :
    (indexReferee commands)[(eventCommands front).length]? = some (eventOf front m) := by
  have hpart : indexReferee (front ++ [m]) = indexReferee front ++ [eventOf front m] := by
    rw [indexReferee_concat, if_pos hevent]
  have htaken := indexReferee_prefix (front ++ [m]) back
  rw [hpart, List.append_assoc, List.singleton_append, ← hsplit] at htaken
  obtain ⟨more, hmore⟩ := htaken
  rw [← hmore, ← length_indexReferee, List.append_assoc,
    List.getElem?_append_right (Nat.le_refl _), Nat.sub_self]
  rfl

/-- The events are those of the event commands. -/
theorem mem_indexReferee_iff {e : RefereeEvent} :
    e ∈ indexReferee commands ↔
      ∃ front m back, commands = front ++ m :: back ∧ m.command.isEvent = true ∧
        e = eventOf front m := by
  refine ⟨?_, ?_⟩
  · intro hmem
    induction commands using List.reverseRecOn with
    | nil => cases hmem
    | append_singleton commands m ih =>
      rw [indexReferee_concat, List.mem_append] at hmem
      rcases hmem with hmem | hmem
      · obtain ⟨front, m', back, rfl, hevent, he⟩ := ih hmem
        exact ⟨front, m', back ++ [m], by simp, hevent, he⟩
      · by_cases hevent : m.command.isEvent = true
        · rw [if_pos hevent] at hmem
          exact ⟨commands, m, [], rfl, hevent, List.mem_singleton.mp hmem⟩
        · rw [if_neg hevent] at hmem
          cases hmem
  · rintro ⟨front, m, back, hsplit, hevent, rfl⟩
    exact List.mem_of_getElem? (getElem?_indexReferee hsplit hevent)

/-- There are no events exactly when there are no event commands. -/
theorem indexReferee_eq_nil_iff :
    indexReferee commands = [] ↔ ∀ m ∈ commands, m.command.isEvent = false := by
  induction commands using List.reverseRecOn with
  | nil => simp
  | append_singleton commands m ih =>
    rw [indexReferee_concat, List.append_eq_nil_iff, ih, List.forall_mem_append,
      List.forall_mem_singleton]
    cases m.command.isEvent <;> simp

end SslAutoref
