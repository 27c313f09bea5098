import SslAutoref.Logic.LoadTables

/-!
# What loading a log guarantees

For a log file with any bytes in it:

* **sorting** — the containers list the referees without repeats, and each
  referee's list is the strict running maxima of its own command counters
  (`load_sorts`);
* **numbering** — a referee that counts its commands up from `c` has every one
  recorded once exactly when the counter does not wrap (`load_records_all_iff`);
* **malformed records** — a record leaves no trace exactly when what it parses
  to is no news (`load_unchanged_iff`).
-/

namespace SslAutoref.Theorems

open AppendFilter

/-! ## Log files on the wire

The concrete logs below are spelled out in protobuf's wire format, and
`sampleProtobuf` knows what their packets parse to. -/

/-- A base-128 varint of at most `fuel` bytes. -/
def varintUpTo : Nat → Nat → List UInt8
  | 0, _ => []
  | fuel + 1, n =>
    if n < 128 then [UInt8.ofNat n]
    else UInt8.ofNat (n % 128 + 128) :: varintUpTo fuel (n / 128)

def varint (n : Nat) : List UInt8 := varintUpTo 10 n

/-- A `TeamInfo` without a name and with every number zero. -/
def teamBytes : List UInt8 :=
  [0x0a, 0, 0x10, 0, 0x18, 0, 0x28, 0, 0x30, 0, 0x38, 0, 0x40, 0]

/-- An `SSL_Referee` with all its required fields. -/
def refereeBytes (m : SSLReferee) : List UInt8 :=
  [0x08, 0, 0x10, 0] ++ 0x20 :: varint m.command.number ++
    0x28 :: varint m.commandCounter.toNat ++ 0x30 :: varint m.commandTimestamp.toNat ++
    0x3a :: 14 :: teamBytes ++ 0x42 :: 14 :: teamBytes

/-- The address and the port of a wrapper around referee data. -/
def headerBytes (port : Nat) : List UInt8 :=
  [0x0a, 10, 50, 50, 52, 46, 53, 46, 50, 51, 46, 49] ++ 0x10 :: varint port

/-- A wrapper around a referee message. -/
def wrapperBytes (sent : Nat × SSLReferee) : List UInt8 :=
  headerBytes sent.1 ++ 0x22 :: varint (refereeBytes sent.2).length ++ refereeBytes sent.2

/-- What the generated parsers make of the wrappers in `sent`, of the referee
messages in them, and of wrappers without data in `bare`. -/
def sampleProtobuf (bare : List Nat) (sent : List (Nat × SSLReferee)) : Protobuf where
  parseUDPMessageWrapper bytes :=
    match sent.find? fun s => wrapperBytes s = bytes with
    | some s =>
      (true, { address := kRefereeMulticast, port := Int32.ofNat s.1,
               data := refereeBytes s.2 })
    | none =>
      match bare.find? fun port => headerBytes port = bytes with
      | some port => (true, { address := kRefereeMulticast, port := Int32.ofNat port })
      | none => (false, {})
  parseSSLReferee bytes :=
    match sent.find? fun s => refereeBytes s.2 = bytes with
    | some s => (true, s.2)
    | none => (false, {})

/-- The log of the wrappers in `sent`. -/
def sampleLog (sent : List (Nat × SSLReferee)) : List UInt8 :=
  Framing.encodeFrames kSizeWidth (sent.map wrapperBytes)

/-- A command of the refbox. -/
def issue (command : Command) (counter : UInt32) (timestamp : UInt64) :
    Nat × SSLReferee :=
  (10003, ⟨command, counter, timestamp⟩)

/-- A log is read back as the packets it was written from. -/
theorem logTraffic_append {packets : List (List UInt8)}
    (h : ∀ packet ∈ packets, packet.length < 256 ^ kSizeWidth) (pb : Protobuf)
    (rest : List UInt8) :
    logTraffic pb (Framing.encodeFrames kSizeWidth packets ++ rest) =
      trafficOf pb packets ++ logTraffic pb rest := by
  unfold logTraffic
  rw [Framing.readFrames_encodeFrames (by decide) h]
  exact List.filterMap_append

theorem logTraffic_sampleLog {sent : List (Nat × SSLReferee)}
    (h : ∀ packet ∈ sent.map wrapperBytes, packet.length < 256 ^ kSizeWidth)
    (pb : Protobuf) :
    logTraffic pb (sampleLog sent) = trafficOf pb (sent.map wrapperBytes) := by
  have hread := logTraffic_append h pb []
  rw [List.append_nil] at hread
  rw [sampleLog, hread]
  exact List.append_nil _

/-! ## Sorting -/

/-- A port is seen on the referees' group. -/
def Seen (pb : Protobuf) (log : List UInt8) (p : UInt16) : Prop :=
  ∃ message ∈ logMessages pb log,
    message.address = kRefereeMulticast ∧ message.refereePort = p

theorem seen_iff {pb : Protobuf} {log : List UInt8} {p : UInt16} :
    Seen pb log p ↔ ∃ m, (p, m) ∈ logTraffic pb log := by
  unfold Seen logMessages logTraffic trafficOf
  simp only [List.mem_map, List.mem_filterMap, refereeTraffic]
  refine ⟨?_, ?_⟩
  · intro h
    obtain ⟨_, ⟨packet, hpacket, rfl⟩, haddress, rfl⟩ := h
    exact ⟨_, packet, hpacket, if_pos haddress⟩
  · intro h
    obtain ⟨m, packet, hpacket, hsome⟩ := h
    split at hsome
    · rename_i haddress
      obtain ⟨rfl, -⟩ := Prod.mk.inj (Option.some.inj hsome)
      exact ⟨_, ⟨packet, hpacket, rfl⟩, haddress, rfl⟩
    · cases hsome

/-- The containers sort a log by referee: they have one entry a referee, the map
numbers the refbox and the ports seen, and a referee's list has its messages
whose counter exceeds every earlier one. Neither the interleaving of the ports
nor a repeated message makes a difference to them. -/
structure SortedByReferee (pb : Protobuf) (log : List UInt8) (t : Tables) : Prop where
  eventsLength : t.refereeEvents.length = t.refereeCommands.length
  portsLength : t.refereePorts.length = t.refereeCommands.length
  mapDomain : ∀ p, (t.refereeMap p).isSome = true ↔ p = kRefboxPort ∨ Seen pb log p
  mapRange : ∀ p i, t.refereeMap p = some i → i < t.refereeCommands.length
  mapInjective : ∀ p q i, t.refereeMap p = some i → t.refereeMap q = some i → p = q
  mapSurjective : ∀ i < t.refereeCommands.length, ∃ p, t.refereeMap p = some i
  refboxFirst : t.refereeMap kRefboxPort = some 0
  portsListed : ∀ p i, t.refereeMap p = some i → t.refereePorts[i]? = some p
  commandsListed : ∀ p i, t.refereeMap p = some i →
    t.refereeCommands[i]? = some (leftMaxima counterOf (messagesOf (logTraffic pb log) p))
  interleaving : ∀ log',
    (∀ p, messagesOf (logTraffic pb log') p = messagesOf (logTraffic pb log) p) →
    ∀ p, recordedCommands (loadRefereeCommands pb log' {}) p = recordedCommands t p
  repeats : ∀ log' front x back, x ∈ front → logTraffic pb log = front ++ back →
    logTraffic pb log' = front ++ x :: back →
    (loadRefereeCommands pb log' {}).SameReferees t

theorem portsOf_insert_repeat {front : List (UInt16 × SSLReferee)}
    {x : UInt16 × SSLReferee} (hx : x ∈ front) (back : List (UInt16 × SSLReferee)) :
    portsOf (front ++ x :: back) = portsOf (front ++ back) := by
  unfold portsOf
  rw [List.map_append, List.map_append, List.map_cons]
  exact unseen_stable.run_insert_repeat (List.mem_map_of_mem hx) _

theorem recordedOf_insert_repeat {front : List (UInt16 × SSLReferee)}
    {x : UInt16 × SSLReferee} (hx : x ∈ front) (back : List (UInt16 × SSLReferee))
    (p : UInt16) : recordedOf (front ++ x :: back) p = recordedOf (front ++ back) p := by
  obtain ⟨port, m⟩ := x
  unfold recordedOf
  rw [messagesOf_append, messagesOf_append]
  by_cases hp : port = p
  · subst hp
    rw [messagesOf_cons_self, ← run_exceedsLast, ← run_exceedsLast]
    exact exceedsLast_stable.run_insert_repeat (mem_messagesOf.mpr hx) _
  · rw [messagesOf_cons_ne hp]

/-- **Sorting.** Whatever the log's bytes and however the parsers read them, the
containers sort the log by referee. -/
theorem load_sorts (pb : Protobuf) (log : List UInt8) :
    SortedByReferee pb log (loadRefereeCommands pb log {}) := by
  have h := holds_loadRefereeCommands pb log
  have hlen : (loadRefereeCommands pb log {}).refereeCommands.length =
      (portsOf (logTraffic pb log)).length := by
    rw [h.commandsEq, List.length_map]
  refine ⟨?_, ?_, ?_, ?_, ?_, ?_, ?_, ?_, ?_, ?_, ?_⟩
  · rw [h.eventsEq, List.length_replicate, hlen]
  · rw [h.portsEq, hlen]
  · intro p
    rw [seen_iff, ← mem_portsOf, Option.isSome_iff_ne_none, ne_eq, h.map_eq_none_iff,
      not_not]
  · intro p i hi
    rw [hlen]
    exact (List.getElem?_eq_some_iff.mp ((h.mapEq p i).mp hi)).1
  · intro p q i hp hq
    exact Option.some.inj (((h.mapEq p i).mp hp).symm.trans ((h.mapEq q i).mp hq))
  · intro i hi
    rw [hlen] at hi
    exact ⟨_, (h.mapEq _ i).mpr (List.getElem?_eq_getElem hi)⟩
  · -- the refbox is listed first
    obtain ⟨autorefs, hports⟩ := exists_portsOf_eq_cons (logTraffic pb log)
    rw [h.mapEq, hports]
    rfl
  · intro p i hi
    rw [h.portsEq]
    exact (h.mapEq p i).mp hi
  · intro p i hi
    rw [h.commandsEq, List.getElem?_map, (h.mapEq p i).mp hi]
    rfl
  · intro log' hmessages p
    rw [recordedCommands_load, recordedCommands_load]
    unfold recordedOf
    rw [hmessages]
  · intro log' front x back hx hlog hlog'
    refine (sameReferees_load_iff pb log' log).mpr ⟨?_, ?_⟩
    · rw [hlog, hlog']
      exact portsOf_insert_repeat hx back
    · intro p
      rw [hlog, hlog']
      exact recordedOf_insert_repeat hx back p

/-! ## Numbering -/

/-- A referee numbers its commands from `c` on, as `command_counter` is defined. -/
def Numbered (c : UInt32) (issued : List SSLReferee) : Prop :=
  ∀ i (hi : i < issued.length), issued[i].commandCounter = c + UInt32.ofNat i

/-- The counters of numbered commands increase exactly when they do not wrap. -/
theorem increasing_iff_of_numbered {c : UInt32} {issued : List SSLReferee}
    (h : Numbered c issued) :
    issued.Pairwise (counterOf · < counterOf ·) ↔ c.toNat + issued.length ≤ 2 ^ 32 := by
  have hcounter : ∀ i (hi : i < issued.length),
      counterOf issued[i] = (c.toNat + i) % 2 ^ 32 := by
    intro i hi
    unfold counterOf
    rw [h i hi, UInt32.toNat_add, UInt32.toNat_ofNat',
      Nat.add_mod_mod]
  have hc : c.toNat < 2 ^ 32 := c.toNat_lt
  rw [List.pairwise_iff_getElem]
  refine ⟨?_, ?_⟩
  · intro hinc
    by_contra hwrap
    -- the command after the last counter value starts again from zero
    have hlast : 2 ^ 32 - 1 - c.toNat + 1 < issued.length := by omega
    have hstep := hinc (2 ^ 32 - 1 - c.toNat) _ (by omega) hlast (Nat.lt_succ_self _)
    rw [hcounter, hcounter] at hstep
    omega
  · intro hle i j hi hj hij
    rw [hcounter, hcounter, Nat.mod_eq_of_lt (by omega), Nat.mod_eq_of_lt (by omega)]
    omega

/-- **Numbering.** When a log has the commands a referee issues in order, each
one repeated any number of times, they are recorded once each exactly when the
counter does not wrap. -/
theorem load_records_all_iff {pb : Protobuf} {log : List UInt8} {p : UInt16}
    {c : UInt32} {issued : List SSLReferee} {reps : List Nat}
    (hnumbered : Numbered c issued) (hlen : reps.length = issued.length)
    (hpos : ∀ r ∈ reps, 0 < r)
    (hlog : messagesOf (logTraffic pb log) p =
      (List.zipWith List.replicate reps issued).flatten) :
    recordedCommands (loadRefereeCommands pb log {}) p = issued ↔
      c.toNat + issued.length ≤ 2 ^ 32 := by
  rw [recordedCommands_load, ← increasing_iff_of_numbered hnumbered,
    ← leftMaxima_eq_self_iff]
  unfold recordedOf
  rw [hlog, ← run_exceedsLast, exceedsLast_stable.run_repeats hlen hpos, run_exceedsLast]

/-- The last command before the counter wraps, and the first one after. -/
def wrapping : List (Nat × SSLReferee) :=
  [issue .stop 0xffffffff 900, issue .goalBlue 0 901]

theorem wrapping_traffic :
    logTraffic (sampleProtobuf [] wrapping) (sampleLog wrapping) =
      [(kRefboxPort, ⟨.stop, 0xffffffff, 900⟩), (kRefboxPort, ⟨.goalBlue, 0, 901⟩)] := by
  rw [logTraffic_sampleLog (by decide)]
  decide

/-- The command after the wrap is not recorded. -/
theorem load_drops_wrapped :
    ¬ ∀ (pb : Protobuf) (log : List UInt8) (p : UInt16) (c : UInt32)
      (issued : List SSLReferee) (reps : List Nat), Numbered c issued →
      reps.length = issued.length → (∀ r ∈ reps, 0 < r) →
      messagesOf (logTraffic pb log) p =
        (List.zipWith List.replicate reps issued).flatten →
      recordedCommands (loadRefereeCommands pb log {}) p = issued := by
  intro h
  have hrec := h (sampleProtobuf [] wrapping) (sampleLog wrapping) kRefboxPort 0xffffffff
    [⟨.stop, 0xffffffff, 900⟩, ⟨.goalBlue, 0, 901⟩] [1, 1]
    (by unfold Numbered; decide) rfl (by decide) (by rw [wrapping_traffic]; decide)
  rw [recordedCommands_load, wrapping_traffic] at hrec
  exact absurd hrec (by decide)

/-- Two commands, the first one sent twice. -/
def repeating : List (Nat × SSLReferee) :=
  [issue .stop 6 900, issue .stop 6 900, issue .goalBlue 7 901]

theorem repeating_traffic :
    logTraffic (sampleProtobuf [] repeating) (sampleLog repeating) =
      [(kRefboxPort, ⟨.stop, 6, 900⟩), (kRefboxPort, ⟨.stop, 6, 900⟩),
        (kRefboxPort, ⟨.goalBlue, 7, 901⟩)] := by
  rw [logTraffic_sampleLog (by decide)]
  decide

theorem load_records_all_repeating :
    recordedCommands (loadRefereeCommands (sampleProtobuf [] repeating)
        (sampleLog repeating) {}) kRefboxPort = [⟨.stop, 6, 900⟩, ⟨.goalBlue, 7, 901⟩] ↔
      (6 : UInt32).toNat + 2 ≤ 2 ^ 32 :=
  load_records_all_iff
    (show Numbered 6 [⟨.stop, 6, 900⟩, ⟨.goalBlue, 7, 901⟩] by unfold Numbered; decide)
    (show [2, 1].length = _ from rfl) (by decide) (by rw [repeating_traffic]; decide)

/-! ## Malformed records -/

/-- A packet the parsers reject: as a wrapper, or as the referee message in it. -/
def Malformed (pb : Protobuf) (packet : List UInt8) : Prop :=
  (pb.parseUDPMessageWrapper packet).1 = false ∨
    ((pb.parseUDPMessageWrapper packet).2.address = kRefereeMulticast ∧
      (pb.parseSSLReferee (pb.parseUDPMessageWrapper packet).2.data).1 = false)

/-- Some message of port `p` has a counter of at least `m`'s. -/
def Outdated (traffic : List (UInt16 × SSLReferee)) (p : UInt16) (m : SSLReferee) : Prop :=
  ∃ m' ∈ messagesOf traffic p, m.commandCounter ≤ m'.commandCounter

/-- What a packet parses to is no news between the traffic `earlier` and the
traffic `later`: it is no referee message, or its counter is not above those its
port had earlier, or the same message comes again before anything else would
have been recorded for the port, and before any other port is first seen if the
port itself was not seen yet. -/
def NoNews (pb : Protobuf) (earlier : List (UInt16 × SSLReferee)) (packet : List UInt8)
    (later : List (UInt16 × SSLReferee)) : Prop :=
  ∀ p m, refereeTraffic pb (pb.parseUDPMessageWrapper packet).2 = some (p, m) →
    Outdated earlier p m ∨
      ∃ front back, later = front ++ (p, m) :: back ∧
        (∀ m' ∈ messagesOf front p, Outdated earlier p m') ∧
        (p ∈ portsOf earlier ∨ ∀ x ∈ front, x.1 ∈ portsOf earlier)

section Malformed

variable {earlier later : List (UInt16 × SSLReferee)} {p : UInt16} {m : SSLReferee}

/-- The filter of a port refuses exactly the outdated messages. -/
theorem exceedsLast_eq_false_iff :
    exceedsLast counterOf (recordedOf earlier p) m = false ↔ Outdated earlier p m := by
  unfold recordedOf Outdated
  rw [← Bool.not_eq_true, exceedsLast_leftMaxima_iff]
  simp [counterOf, UInt32.le_iff_toNat_le]

/-- An outdated message is of a port that was seen. -/
theorem Outdated.mem_portsOf (h : Outdated earlier p m) : p ∈ portsOf earlier := by
  obtain ⟨m', hm', -⟩ := h
  by_contra hnot
  rw [messagesOf_eq_nil hnot] at hm'
  cases hm'

/-- A message leaves what is recorded for its port as it is exactly when it is
outdated or comes again before the port's next news. -/
theorem recordedOf_insert_iff :
    recordedOf (earlier ++ (p, m) :: later) p = recordedOf (earlier ++ later) p ↔
      Outdated earlier p m ∨ ∃ front back, messagesOf later p = front ++ m :: back ∧
        ∀ m' ∈ front, Outdated earlier p m' := by
  have hdrop : run (exceedsLast counterOf) (recordedOf earlier p)
        (m :: messagesOf later p) =
      run (exceedsLast counterOf) (recordedOf earlier p) (messagesOf later p) ↔ _ :=
    exceedsLast_stable.run_cons_eq_iff (messagesOf later p)
  simp only [exceedsLast_eq_false_iff] at hdrop
  rw [← hdrop]
  unfold recordedOf
  rw [messagesOf_append, messagesOf_append, messagesOf_cons_self, ← run_exceedsLast,
    ← run_exceedsLast, ← run_exceedsLast, run_append, run_append]

/-- A message leaves the list of ports as it is exactly when its port was seen, or
is the next new one. -/
theorem portsOf_insert_iff :
    portsOf (earlier ++ (p, m) :: later) = portsOf (earlier ++ later) ↔
      p ∈ portsOf earlier ∨ ∃ front back, later.map (·.1) = front ++ p :: back ∧
        ∀ q ∈ front, q ∈ portsOf earlier := by
  have hdrop : run unseen (portsOf earlier) (p :: later.map (·.1)) =
      run unseen (portsOf earlier) (later.map (·.1)) ↔ _ :=
    unseen_stable.run_cons_eq_iff (later.map (·.1))
  have hseen : ∀ q, unseen (portsOf earlier) q = false ↔ q ∈ portsOf earlier := by
    intro q
    simp [unseen]
  simp only [hseen] at hdrop
  rw [← hdrop]
  unfold portsOf
  rw [List.map_append, List.map_append, List.map_cons, run_append, run_append]

/-- A message of a port is somewhere in the traffic. -/
theorem exists_split_of_messagesOf {front back : List SSLReferee}
    (h : messagesOf later p = front ++ m :: back) :
    ∃ before after, later = before ++ (p, m) :: after ∧ messagesOf before p = front := by
  obtain ⟨kept, kept', hkept, hfront, hback⟩ := List.map_eq_append_iff.mp h
  obtain ⟨⟨q, m'⟩, kept'', rfl, rfl, -⟩ := List.map_eq_cons_iff.mp hback
  obtain ⟨before, rest, rfl, rfl, hrest⟩ := List.filter_eq_append_iff.mp hkept
  obtain ⟨skipped, after, rfl, hskipped, hq, -⟩ := List.filter_eq_cons_iff.mp hrest
  obtain rfl : q = p := of_decide_eq_true hq
  refine ⟨before ++ skipped, after, (List.append_assoc _ _ _).symm, ?_⟩
  have hnone : messagesOf skipped q = [] := by
    unfold messagesOf
    rw [List.filter_eq_nil_iff.mpr hskipped, List.map_nil]
  rw [messagesOf_append, hnone, List.append_nil]
  exact hfront

/-- The first message of a new port. -/
theorem exists_split_of_ports {front back : List UInt16} (hp : p ∉ front)
    (h : later.map (·.1) = front ++ p :: back) :
    ∃ before m' after, later = before ++ (p, m') :: after ∧
      before.map (·.1) = front ∧ messagesOf later p = m' :: messagesOf after p := by
  obtain ⟨before, rest, rfl, rfl, hrest⟩ := List.map_eq_append_iff.mp h
  obtain ⟨⟨q, m'⟩, after, rfl, rfl, -⟩ := List.map_eq_cons_iff.mp hrest
  refine ⟨before, m', after, rfl, rfl, ?_⟩
  have hnone : messagesOf before q = [] := by
    refine List.eq_nil_iff_forall_not_mem.mpr fun m'' hm'' => hp ?_
    exact List.mem_map.mpr ⟨_, mem_messagesOf.mp hm'', rfl⟩
  rw [messagesOf_append, hnone, List.nil_append, messagesOf_cons_self]

/-- A message changes neither the ports nor what is recorded for its own exactly
when it is no news. -/
theorem insert_unchanged_iff :
    portsOf (earlier ++ (p, m) :: later) = portsOf (earlier ++ later) ∧
        recordedOf (earlier ++ (p, m) :: later) p = recordedOf (earlier ++ later) p ↔
      Outdated earlier p m ∨
        ∃ front back, later = front ++ (p, m) :: back ∧
          (∀ m' ∈ messagesOf front p, Outdated earlier p m') ∧
          (p ∈ portsOf earlier ∨ ∀ x ∈ front, x.1 ∈ portsOf earlier) := by
  rw [portsOf_insert_iff, recordedOf_insert_iff]
  refine ⟨?_, ?_⟩
  · intro h
    obtain ⟨hports, hold | ⟨front, back, hlater, hfront⟩⟩ := h
    · exact .inl hold
    · refine .inr ?_
      by_cases hp : p ∈ portsOf earlier
      · obtain ⟨before, after, heq, rfl⟩ := exists_split_of_messagesOf hlater
        exact ⟨before, after, heq, hfront, .inl hp⟩
      · -- a port that was not seen has no outdated messages: m is its first
        obtain ⟨seen, rest, hmap, hseen⟩ := hports.resolve_left hp
        obtain ⟨before, m', after, heq, rfl, hfirst⟩ :=
          exists_split_of_ports (fun hmem => hp (hseen p hmem)) hmap
        obtain rfl : front = [] := by
          cases front with
          | nil => rfl
          | cons m'' front => exact absurd (hfront m'' List.mem_cons_self).mem_portsOf hp
        obtain ⟨rfl, -⟩ := List.cons_eq_cons.mp (hfirst.symm.trans hlater)
        have hbefore : ∀ x ∈ before, x.1 ∈ portsOf earlier :=
          fun x hx => hseen _ (List.mem_map_of_mem hx)
        refine ⟨before, after, heq, ?_, .inr hbefore⟩
        intro m'' hm''
        exact absurd (hbefore _ (mem_messagesOf.mp hm'')) hp
  · intro h
    rcases h with hold | ⟨front, back, rfl, hfront, hports⟩
    · exact ⟨.inl hold.mem_portsOf, .inl hold⟩
    · refine ⟨?_, .inr ⟨messagesOf front p, messagesOf back p, ?_, hfront⟩⟩
      · rcases hports with hp | hseen
        · exact .inl hp
        · refine .inr ⟨front.map (·.1), back.map (·.1), ?_, ?_⟩
          · rw [List.map_append, List.map_cons]
          · intro q hq
            obtain ⟨x, hx, rfl⟩ := List.mem_map.mp hq
            exact hseen x hx
      · rw [messagesOf_append, messagesOf_cons_self]

end Malformed

/-- **Malformed records.** Removing a complete record, malformed or not, leaves the
commands, the ports and the map as they are exactly when what it parses to is no
news where it stands. -/
theorem load_unchanged_iff (pb : Protobuf) {front : List (List UInt8)}
    {packet : List UInt8} (hfront : ∀ q ∈ front, q.length < 256 ^ kSizeWidth)
    (hpacket : packet.length < 256 ^ kSizeWidth) (rest : List UInt8) :
    (loadRefereeCommands pb (Framing.encodeFrames kSizeWidth front ++
          (Framing.encodeFrame kSizeWidth packet ++ rest)) {}).SameReferees
        (loadRefereeCommands pb (Framing.encodeFrames kSizeWidth front ++ rest) {}) ↔
      NoNews pb (trafficOf pb front) packet (logTraffic pb rest) := by
  have hone : Framing.encodeFrame kSizeWidth packet =
      Framing.encodeFrames kSizeWidth [packet] := by
    simp [Framing.encodeFrames]
  have hwith : logTraffic pb (Framing.encodeFrame kSizeWidth packet ++ rest) =
      (refereeTraffic pb (pb.parseUDPMessageWrapper packet).2).toList ++
        logTraffic pb rest := by
    rw [hone, logTraffic_append (by simpa using hpacket)]
    unfold trafficOf
    cases hx : refereeTraffic pb (pb.parseUDPMessageWrapper packet).2 <;> simp [hx]
  rw [sameReferees_load_iff, logTraffic_append hfront, logTraffic_append hfront, hwith]
  unfold NoNews
  cases refereeTraffic pb (pb.parseUDPMessageWrapper packet).2 with
  | none => simp
  | some x =>
    obtain ⟨p, m⟩ := x
    have hother : ∀ q, q ≠ p →
        recordedOf (trafficOf pb front ++ (p, m) :: logTraffic pb rest) q =
          recordedOf (trafficOf pb front ++ logTraffic pb rest) q := by
      intro q hq
      unfold recordedOf
      rw [messagesOf_append, messagesOf_append, messagesOf_cons_ne (Ne.symm hq)]
    refine ⟨?_, ?_⟩
    · intro h p' m' heq
      obtain ⟨rfl, rfl⟩ := Prod.mk.inj (Option.some.inj heq)
      exact insert_unchanged_iff.mp ⟨h.1, h.2 p⟩
    · intro h
      obtain ⟨hports, hrec⟩ := insert_unchanged_iff.mpr (h p m rfl)
      refine ⟨hports, ?_⟩
      intro q
      by_cases hq : q = p
      · rw [hq]
        exact hrec
      · exact hother q hq

/-- A wrapper without data does not parse as a referee message, and is recorded as
a command of the refbox. -/
theorem malformed_can_be_recorded :
    Malformed (sampleProtobuf [10003] []) (headerBytes 10003) ∧
      ¬ (loadRefereeCommands (sampleProtobuf [10003] [])
            (Framing.encodeFrame kSizeWidth (headerBytes 10003)) {}).SameReferees
          (loadRefereeCommands (sampleProtobuf [10003] []) [] {}) := by
  refine ⟨.inr (by decide), ?_⟩
  intro hsame
  exact absurd hsame.1 (by decide)

/-- The same record after a command of the refbox leaves no trace. -/
theorem load_unchanged_after_command :
    (loadRefereeCommands (sampleProtobuf [10003] [issue .stop 6 900])
        (Framing.encodeFrames kSizeWidth [wrapperBytes (issue .stop 6 900)] ++
          (Framing.encodeFrame kSizeWidth (headerBytes 10003) ++ [])) {}).SameReferees
        (loadRefereeCommands (sampleProtobuf [10003] [issue .stop 6 900])
          (Framing.encodeFrames kSizeWidth [wrapperBytes (issue .stop 6 900)] ++ []) {}) ↔
      NoNews (sampleProtobuf [10003] [issue .stop 6 900])
        (trafficOf (sampleProtobuf [10003] [issue .stop 6 900])
          [wrapperBytes (issue .stop 6 900)])
        (headerBytes 10003) (logTraffic (sampleProtobuf [10003] [issue .stop 6 900]) []) :=
  load_unchanged_iff _ (by decide) (by decide) _

end SslAutoref.Theorems
