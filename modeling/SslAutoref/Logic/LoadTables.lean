import Mathlib.Data.List.Nodup
import SslAutoref.Lib.AppendFilter
import SslAutoref.Model.Log

/-!
# What the tables hold

`LoadRefereeCommands` extends four containers at once. What they hold at the end
is determined by two views of the log:

* the ports in the order they are first seen (`portsOf`), and
* for each port its own messages (`messagesOf`), of which the strict running
  maxima of the counter are recorded (`recordedOf`).

`Tables.Holds` says that a set of tables shows a list of ports and what is
recorded for each. Registering a port and offering a message preserve it
(`holds_addReferee`, `holds_modify`), so the loop does
(`holds_loadRefereeCommands`), by induction over the log.
-/

namespace SslAutoref

open AppendFilter

/-! ## Referee traffic -/

/-- What a message means to the loop: a port and a referee message, or nothing
when it was not sent to the referee group. -/
def refereeTraffic (pb : Protobuf) (message : UDPMessageWrapper) :
    Option (UInt16 × SSLReferee) :=
  if message.address = kRefereeMulticast then
    some (message.refereePort, (pb.parseSSLReferee message.data).2)
  else none

/-- The referee traffic of a list of wrapper payloads. -/
def trafficOf (pb : Protobuf) (packets : List (List UInt8)) :
    List (UInt16 × SSLReferee) :=
  packets.filterMap fun packet =>
    refereeTraffic pb (pb.parseUDPMessageWrapper packet).2

/-- The referee traffic of a log file. -/
def logTraffic (pb : Protobuf) (log : List UInt8) : List (UInt16 × SSLReferee) :=
  trafficOf pb (Framing.readFrames kSizeWidth log)

/-- The ports, in the order the containers list them: the refbox, then every
port when it is first seen. -/
def portsOf (traffic : List (UInt16 × SSLReferee)) : List UInt16 :=
  run unseen [kRefboxPort] (traffic.map (·.1))

/-- The messages of one port, in order. -/
def messagesOf (traffic : List (UInt16 × SSLReferee)) (port : UInt16) :
    List SSLReferee :=
  (traffic.filter fun x => x.1 = port).map (·.2)

/-- The key of the filter. -/
def counterOf (m : SSLReferee) : Nat := m.commandCounter.toNat

/-- The messages of one port whose counter exceeds every earlier one. -/
def recordedOf (traffic : List (UInt16 × SSLReferee)) (port : UInt16) :
    List SSLReferee :=
  leftMaxima counterOf (messagesOf traffic port)

theorem loadMessage_eq (pb : Protobuf) (t : Tables) (message : UDPMessageWrapper) :
    loadMessage pb t message =
      match refereeTraffic pb message with
      | none => t
      | some (port, m) => t.addMessage port m := by
  unfold loadMessage refereeTraffic
  by_cases hvision : message.address = kVisionMulticast ∧ message.port = kVisionPort
  · have hne : ¬ message.address = kRefereeMulticast := by
      rw [hvision.1]
      decide
    rw [if_pos hvision, if_neg hne]
  · rw [if_neg hvision]
    split <;> rfl

/-- The loop over the log is a loop over its referee traffic. -/
theorem loadRefereeCommands_eq (pb : Protobuf) (log : List UInt8) (t : Tables) :
    loadRefereeCommands pb log t =
      (logTraffic pb log).foldl (fun t x => t.addMessage x.1 x.2) t.start := by
  unfold loadRefereeCommands logMessages logTraffic trafficOf
  generalize Framing.readFrames kSizeWidth log = packets
  generalize t.start = t
  induction packets generalizing t with
  | nil => rfl
  | cons packet packets ih =>
    rw [List.map_cons, List.foldl_cons, ih, loadMessage_eq, List.filterMap_cons]
    cases refereeTraffic pb (pb.parseUDPMessageWrapper packet).2 <;> rfl

/-- The comparison with the last counter is the filter that keeps the running
maxima. -/
theorem pushCommand_eq (m : SSLReferee) (referee : List SSLReferee) :
    pushCommand m referee = push (exceedsLast counterOf) referee m := by
  unfold pushCommand push exceedsLast counterOf
  cases referee.getLast? with
  | none => simp
  | some back => simp [UInt32.lt_iff_toNat_lt]

/-! ## Views of growing traffic -/

variable {traffic : List (UInt16 × SSLReferee)} {port : UInt16} {m : SSLReferee}

theorem portsOf_concat :
    portsOf (traffic ++ [(port, m)]) = push unseen (portsOf traffic) port := by
  unfold portsOf
  rw [List.map_append]
  exact run_concat _

theorem nodup_portsOf : (portsOf traffic).Nodup :=
  nodup_run_unseen (List.nodup_singleton _) _

theorem mem_portsOf {p : UInt16} :
    p ∈ portsOf traffic ↔ p = kRefboxPort ∨ ∃ m, (p, m) ∈ traffic := by
  unfold portsOf
  rw [mem_run_unseen]
  simp

/-- The refbox is listed first. -/
theorem exists_portsOf_eq_cons (traffic : List (UInt16 × SSLReferee)) :
    ∃ autorefs, portsOf traffic = kRefboxPort :: autorefs := by
  obtain ⟨autorefs, hports⟩ : [kRefboxPort] <+: portsOf traffic := prefix_run _
  exact ⟨autorefs, hports.symm⟩

theorem messagesOf_append (front back : List (UInt16 × SSLReferee)) (p : UInt16) :
    messagesOf (front ++ back) p = messagesOf front p ++ messagesOf back p := by
  simp [messagesOf]

theorem messagesOf_cons_self (back : List (UInt16 × SSLReferee)) :
    messagesOf ((port, m) :: back) port = m :: messagesOf back port := by
  simp [messagesOf]

theorem messagesOf_cons_ne {p : UInt16} (hne : port ≠ p)
    (back : List (UInt16 × SSLReferee)) :
    messagesOf ((port, m) :: back) p = messagesOf back p := by
  simp [messagesOf, hne]

theorem mem_messagesOf {p : UInt16} : m ∈ messagesOf traffic p ↔ (p, m) ∈ traffic := by
  simp [messagesOf]

/-- A port that was not seen has no messages. -/
theorem messagesOf_eq_nil {p : UInt16} (h : p ∉ portsOf traffic) :
    messagesOf traffic p = [] := by
  refine List.eq_nil_iff_forall_not_mem.mpr fun m hm => h ?_
  exact mem_portsOf.mpr (.inr ⟨m, mem_messagesOf.mp hm⟩)

theorem recordedOf_concat_self :
    recordedOf (traffic ++ [(port, m)]) port = pushCommand m (recordedOf traffic port) := by
  unfold recordedOf
  rw [messagesOf_append, messagesOf_cons_self, pushCommand_eq, ← run_exceedsLast,
    ← run_exceedsLast]
  exact run_concat _

theorem recordedOf_concat_ne {p : UInt16} (hne : port ≠ p) :
    recordedOf (traffic ++ [(port, m)]) p = recordedOf traffic p := by
  unfold recordedOf
  rw [messagesOf_append, messagesOf_cons_ne hne]
  simp [messagesOf]

/-! ## The tables -/

/-- The tables list exactly `ports`, and record `recorded p` for each. -/
structure Tables.Holds (t : Tables) (ports : List UInt16)
    (recorded : UInt16 → List SSLReferee) : Prop where
  nodup : ports.Nodup
  portsEq : t.refereePorts = ports
  mapEq : ∀ p i, t.refereeMap p = some i ↔ ports[i]? = some p
  commandsEq : t.refereeCommands = ports.map recorded
  eventsEq : t.refereeEvents = List.replicate ports.length []

namespace Tables.Holds

variable {t : Tables} {ports : List UInt16} {recorded : UInt16 → List SSLReferee}

theorem map_eq_none_iff (h : t.Holds ports recorded) {p : UInt16} :
    t.refereeMap p = none ↔ p ∉ ports := by
  refine ⟨?_, ?_⟩
  · intro hnone hmem
    obtain ⟨i, hi⟩ := List.getElem?_of_mem hmem
    rw [(h.mapEq p i).mpr hi] at hnone
    cases hnone
  · intro hmem
    cases hmap : t.refereeMap p with
    | none => rfl
    | some i => exact absurd (List.mem_of_getElem? ((h.mapEq p i).mp hmap)) hmem

/-- Registering a port that is not listed lists it last, with nothing recorded. -/
theorem addReferee (h : t.Holds ports recorded) {p : UInt16} (hp : p ∉ ports)
    (hrec : recorded p = []) : (t.addReferee p).Holds (ports ++ [p]) recorded := by
  have hlen : t.refereeCommands.length = ports.length := by
    rw [h.commandsEq, List.length_map]
  refine ⟨?_, ?_, ?_, ?_, ?_⟩
  · exact List.nodup_append.mpr ⟨h.nodup, List.nodup_singleton p, by
      intro q hq r hr heq
      exact hp (List.mem_singleton.mp hr ▸ heq ▸ hq)⟩
  · show t.refereePorts ++ [p] = ports ++ [p]
    rw [h.portsEq]
  · intro q i
    show Function.update t.refereeMap p (some t.refereeCommands.length) q = some i ↔ _
    by_cases hq : q = p
    · subst hq
      rw [Function.update_self, hlen]
      refine ⟨?_, ?_⟩
      · intro hi
        obtain rfl := Option.some.inj hi
        simp
      · intro hi
        rcases Nat.lt_trichotomy i ports.length with hlt | heq | hgt
        · rw [List.getElem?_append_left hlt] at hi
          exact absurd (List.mem_of_getElem? hi) hp
        · rw [heq]
        · rw [List.getElem?_eq_none (by simp; omega)] at hi
          cases hi
    · rw [Function.update_of_ne hq, h.mapEq]
      refine ⟨?_, ?_⟩
      · intro hi
        rw [List.getElem?_append_left (List.getElem?_eq_some_iff.mp hi).1]
        exact hi
      · intro hi
        rcases Nat.lt_or_ge i ports.length with hlt | hge
        · rw [List.getElem?_append_left hlt] at hi
          exact hi
        · rw [List.getElem?_append_right hge] at hi
          have := List.mem_of_getElem? hi
          exact absurd (List.mem_singleton.mp this) hq
  · show t.refereeCommands ++ [[]] = (ports ++ [p]).map recorded
    rw [h.commandsEq, List.map_append, List.map_singleton, hrec]
  · show t.refereeEvents ++ [[]] = _
    rw [h.eventsEq, List.length_append, List.length_singleton, List.replicate_succ']

/-- Changing the list of a port changes what is recorded for it alone. -/
theorem modify (h : t.Holds ports recorded) {p : UInt16} {i : Nat}
    (hi : t.refereeMap p = some i) (f : List SSLReferee → List SSLReferee) :
    ({ t with refereeCommands := t.refereeCommands.modify i f } : Tables).Holds ports
      (Function.update recorded p (f (recorded p))) := by
  have hpi := (h.mapEq p i).mp hi
  refine ⟨h.nodup, h.portsEq, h.mapEq, ?_, h.eventsEq⟩
  show t.refereeCommands.modify i f = _
  rw [h.commandsEq]
  refine List.ext_getElem? fun j => ?_
  rw [List.getElem?_modify, List.getElem?_map, List.getElem?_map]
  cases hj : ports[j]? with
  | none => rfl
  | some q =>
    by_cases hij : i = j
    · subst hij
      obtain rfl : p = q := Option.some.inj (hpi.symm.trans hj)
      simp
    · have hqp : q ≠ p := by
        intro heq
        subst heq
        have hlt := (List.getElem?_eq_some_iff.mp hpi).1
        exact hij ((List.getElem?_inj hlt h.nodup).mp (hpi.trans hj.symm))
      simp [hij, Function.update_of_ne hqp]

end Tables.Holds

/-- Indexing fills the event lists from what is recorded. -/
theorem Tables.Holds.events_indexRefereeEvents {t : Tables} {ports : List UInt16}
    {recorded : UInt16 → List SSLReferee} (h : t.Holds ports recorded) :
    (indexRefereeEvents t).refereeEvents = ports.map fun p => indexReferee (recorded p) := by
  unfold indexRefereeEvents
  rw [h.eventsEq, h.commandsEq]
  refine List.ext_getElem? fun i => ?_
  rw [List.getElem?_mapIdx, List.getElem?_map, List.getElem?_map]
  cases hi : ports[i]? with
  | none =>
    rw [List.getElem?_eq_none (by simpa using hi)]
    rfl
  | some p =>
    have hlt := (List.getElem?_eq_some_iff.mp hi).1
    rw [List.getElem?_replicate, if_pos hlt]
    rfl

/-- The tables the loop starts with. -/
theorem holds_start : (Tables.start {}).Holds (portsOf []) (recordedOf []) := by
  refine ⟨nodup_portsOf, rfl, ?_, rfl, rfl⟩
  intro p i
  show Function.update (fun _ => none) kRefboxPort (some 0) p = some i ↔
    [kRefboxPort][i]? = some p
  by_cases hp : p = kRefboxPort
  · subst hp
    cases i <;> simp
  · rw [Function.update_of_ne hp]
    cases i with
    | zero => simpa using Ne.symm hp
    | succ i => simp

/-- **One message.** The tables follow the traffic. -/
theorem holds_addMessage {t : Tables}
    (h : t.Holds (portsOf traffic) (recordedOf traffic)) (port : UInt16)
    (m : SSLReferee) :
    (t.addMessage port m).Holds (portsOf (traffic ++ [(port, m)]))
      (recordedOf (traffic ++ [(port, m)])) := by
  have hrec : recordedOf (traffic ++ [(port, m)]) =
      Function.update (recordedOf traffic) port
        (pushCommand m (recordedOf traffic port)) := by
    funext p
    by_cases hp : p = port
    · rw [hp, Function.update_self]
      exact recordedOf_concat_self
    · rw [Function.update_of_ne hp]
      exact recordedOf_concat_ne (Ne.symm hp)
  rw [portsOf_concat, hrec]
  -- once the port is listed, offering the message is a modification
  have hoffer : ∀ {t' : Tables} {ports' : List UInt16} {i : Nat},
      t'.Holds ports' (recordedOf traffic) → t'.refereeMap port = some i →
      ({ t' with refereeCommands :=
          t'.refereeCommands.modify i (pushCommand m) } : Tables).Holds ports'
        (Function.update (recordedOf traffic) port
          (pushCommand m (recordedOf traffic port))) :=
    fun ht' hi => ht'.modify hi _
  unfold Tables.addMessage
  cases hmap : t.refereeMap port with
  | none =>
    have hnew := h.map_eq_none_iff.mp hmap
    have hempty : recordedOf traffic port = [] := by
      unfold recordedOf
      rw [messagesOf_eq_nil hnew]
      rfl
    have hadded := h.addReferee hnew hempty
    have hget : (t.addReferee port).refereeMap port = some t.refereeCommands.length :=
      Function.update_self ..
    rw [push_of_keep (by simpa [unseen] using hnew)]
    simp only [hget]
    exact hoffer hadded hget
  | some i =>
    have hknown : port ∈ portsOf traffic :=
      List.mem_of_getElem? ((h.mapEq port i).mp hmap)
    rw [push_of_refuse (by simpa [unseen] using hknown)]
    simp only [hmap]
    exact hoffer h hmap

/-- **The whole log.** From the empty containers, the tables hold the ports of
the traffic and the running maxima of each. -/
theorem holds_loadRefereeCommands (pb : Protobuf) (log : List UInt8) :
    (loadRefereeCommands pb log {}).Holds (portsOf (logTraffic pb log))
      (recordedOf (logTraffic pb log)) := by
  rw [loadRefereeCommands_eq]
  generalize logTraffic pb log = traffic
  induction traffic using List.reverseRecOn with
  | nil => exact holds_start
  | append_singleton traffic x ih =>
    rw [List.foldl_append]
    exact holds_addMessage ih x.1 x.2

/-- The commands recorded for a port, looked up through the map. -/
def recordedCommands (t : Tables) (port : UInt16) : List SSLReferee :=
  match t.refereeMap port with
  | none => []
  | some i => t.refereeCommands.getD i []

theorem recordedCommands_load (pb : Protobuf) (log : List UInt8) (p : UInt16) :
    recordedCommands (loadRefereeCommands pb log {}) p =
      recordedOf (logTraffic pb log) p := by
  have h := holds_loadRefereeCommands pb log
  unfold recordedCommands
  cases hmap : (loadRefereeCommands pb log {}).refereeMap p with
  | none =>
    show [] = recordedOf _ p
    unfold recordedOf
    rw [messagesOf_eq_nil (h.map_eq_none_iff.mp hmap)]
    rfl
  | some i =>
    show (loadRefereeCommands pb log {}).refereeCommands.getD i [] = recordedOf _ p
    rw [h.commandsEq, List.getD_eq_getElem?_getD, List.getElem?_map,
      (h.mapEq p i).mp hmap]
    rfl

/-- The containers a later stage reads are the same. -/
def Tables.SameReferees (t t' : Tables) : Prop :=
  t.refereeCommands = t'.refereeCommands ∧ t.refereePorts = t'.refereePorts ∧
    t.refereeMap = t'.refereeMap

/-- Two logs load alike exactly when they show the same ports in the same order
and record the same for each. -/
theorem sameReferees_load_iff (pb : Protobuf) (log log' : List UInt8) :
    (loadRefereeCommands pb log {}).SameReferees (loadRefereeCommands pb log' {}) ↔
      portsOf (logTraffic pb log) = portsOf (logTraffic pb log') ∧
        ∀ p, recordedOf (logTraffic pb log) p = recordedOf (logTraffic pb log') p := by
  have h := holds_loadRefereeCommands pb log
  have h' := holds_loadRefereeCommands pb log'
  refine ⟨?_, ?_⟩
  · intro hsame
    obtain ⟨hcommands, hports, hmap⟩ := hsame
    refine ⟨?_, ?_⟩
    · rw [← h.portsEq, ← h'.portsEq, hports]
    · intro p
      rw [← recordedCommands_load, ← recordedCommands_load]
      unfold recordedCommands
      rw [hcommands, hmap]
  · intro hsame
    obtain ⟨hports, hrec⟩ := hsame
    refine ⟨?_, ?_, ?_⟩
    · rw [h.commandsEq, h'.commandsEq, hports, funext hrec]
    · rw [h.portsEq, h'.portsEq, hports]
    · funext p
      refine Option.ext fun i => ?_
      rw [h.mapEq, h'.mapEq, hports]

end SslAutoref
