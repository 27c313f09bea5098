import SslAutoref.Lib.Climb
import SslAutoref.Logic.PlaybackRun
import SslAutoref.Theorems.Streams

/-!
# The pace of playback

When `PlayLogFile` publishes the records of a log, by the clock it reads:

* **never ahead** — the records are published no closer together than they were logged,
  exactly as long as no wait is cut short by the 32 bits of `usleep`'s argument by more than
  passes anyway (`never_ahead_iff`);
* **out of order** — on an ideal clock every record is published as late as all the forward
  gaps before it add up to, which is when it is due only while no forward gap starts below
  an earlier timestamp (`published_at_climb`).
-/

namespace SslAutoref.Theorems

/-! ## Never ahead -/

/-- Two records one after the other are published no closer together than they were logged,
and so are the first one and any other. -/
structure NeverAhead (published : List Published) : Prop where
  consecutive : ∀ (k : Nat) a b, published[k]? = some a → published[k + 1]? = some b →
    (b.message.timestamp.toNat : Int) - a.message.timestamp.toNat ≤
      (b.time.toNat : Int) - a.time.toNat
  sinceStart : ∀ (k : Nat) a b, published[0]? = some a → published[k]? = some b →
    (b.message.timestamp.toNat : Int) - a.message.timestamp.toNat ≤
      (b.time.toNat : Int) - a.time.toNat

/-- The multiple of 2^32 that a wait loses on its way into `usleep` is no more than the
time that passes before the next publish anyway, beyond what was measured. -/
def WaitFits (s : Playback) (pace : Pace) (timestamp : UInt64) : Prop :=
  let measured := s.measured (micros (s.clock + pace.reading))
  2 ^ 32 * ((s.gap timestamp - measured) / 2 ^ 32) ≤
    (micros (s.busy pace) : Int) - s.tLastPublish.toNat - measured

/-- Every wait but the first fits, or what it loses passes anyway. -/
def WaitsFit (pace : Nat → Pace) (published : List Published) : Prop :=
  ∀ (k : Nat) a b, published[k]? = some a → published[k + 1]? = some b →
    WaitFits a.after (pace (k + 1)) b.message.timestamp

/-- **One record.** The gap in the log is kept exactly when the wait fits. -/
theorem gap_le_iff {s : Playback} {pace : Pace} {message : UDPMessageWrapper}
    (hpublish : s.tLastPublish.toNat = micros s.clock) (hlog : 0 < s.tLastLog.toNat)
    (hlog' : s.tLastLog.toNat < 2 ^ 63) (htimestamp : message.timestamp.toNat < 2 ^ 63)
    (hfits : micros (s.publish pace message).clock < 2 ^ 64) :
    s.gap message.timestamp ≤
        ((s.publish pace message).tLastPublish.toNat : Int) - s.tLastPublish.toNat ↔
      WaitFits s pace message.timestamp := by
  have hread : micros s.clock ≤ micros (s.clock + pace.reading) := micros_mono (by omega)
  have hbusy : micros (s.clock + pace.reading) ≤ micros (s.busy pace) :=
    micros_mono (by unfold Playback.busy; omega)
  have hclock := micros_mono (busy_le_clock_publish s pace message)
  have hgap : s.gap message.timestamp < 2 ^ 63 ∧ -2 ^ 63 ≤ s.gap message.timestamp := by
    unfold Playback.gap
    omega
  have hmeasured := @measured_le s (micros (s.clock + pace.reading)) (by omega)
  rw [toNat_publish hfits]
  unfold WaitFits
  dsimp only
  by_cases hdue : s.measured (micros (s.clock + pace.reading)) ≤ s.gap message.timestamp
  · -- the wait is exact, and what is left of it is its remainder
    have husec := @toNat_usec s pace message.timestamp (by omega) hlog (by omega) hgap.2
      hgap.1 (by omega) (by omega)
    omega
  · -- the record is late already
    omega

/-- The clock never goes back: it stays within the 64 bits that it is read as. -/
def ClockFits (published : List Published) : Prop :=
  ∀ p ∈ published, micros p.after.clock < 2 ^ 64

/-- The gap between two records, from the state that the first one leaves. -/
theorem consecutive_iff {pb : Protobuf} {log : List UInt8} {pace : Nat → Pace} {clock : Nat}
    (htimestamps : ∀ m ∈ logMessages pb log,
      0 < m.timestamp.toNat ∧ m.timestamp.toNat < 2 ^ 63)
    (hclock : ClockFits (playLogFile pb log pace clock)) {k : Nat} {a b : Published}
    (ha : (playLogFile pb log pace clock)[k]? = some a)
    (hb : (playLogFile pb log pace clock)[k + 1]? = some b) :
    (b.message.timestamp.toNat : Int) - a.message.timestamp.toNat ≤
        (b.time.toNat : Int) - a.time.toNat ↔
      WaitFits a.after (pace (k + 1)) b.message.timestamp := by
  have hafter := after_eq_publish ha hb
  rw [Nat.zero_add] at hafter
  have hfits := hclock b (List.mem_of_getElem? hb)
  rw [hafter] at hfits
  have hlog := tLastLog_after ha
  have hta := htimestamps _ (mem_of_getElem?_playMessages ha)
  have htb := htimestamps _ (mem_of_getElem?_playMessages hb)
  have hiff := gap_le_iff (toNat_time ha (hclock a (List.mem_of_getElem? ha)))
    (by rw [hlog]; exact hta.1) (by rw [hlog]; exact hta.2) htb.2 hfits
  unfold Playback.gap at hiff
  rw [hlog, ← hafter] at hiff
  exact hiff

/-- The gaps add up, by induction over the records. -/
theorem neverAhead_of_consecutive {published : List Published}
    (h : ∀ (k : Nat) a b, published[k]? = some a → published[k + 1]? = some b →
      (b.message.timestamp.toNat : Int) - a.message.timestamp.toNat ≤
        (b.time.toNat : Int) - a.time.toNat) : NeverAhead published := by
  refine ⟨h, ?_⟩
  intro k first b hfirst hb
  induction k generalizing b with
  | zero =>
    obtain rfl := Option.some.inj (hfirst.symm.trans hb)
    omega
  | succ k ih =>
    obtain ⟨hlt, -⟩ := List.getElem?_eq_some_iff.mp hb
    have ha := List.getElem?_eq_getElem (Nat.lt_of_succ_lt hlt)
    have hsofar := ih _ ha
    have hnext := h k _ b ha hb
    omega

/-- **Never ahead.** Whatever the log, if its timestamps are positive and fit a signed
number, and however long every step takes, playback never runs ahead of the log exactly when
every wait fits. -/
theorem never_ahead_iff (pb : Protobuf) (log : List UInt8) (pace : Nat → Pace) (clock : Nat)
    (htimestamps : ∀ m ∈ logMessages pb log,
      0 < m.timestamp.toNat ∧ m.timestamp.toNat < 2 ^ 63)
    (hclock : ClockFits (playLogFile pb log pace clock)) :
    NeverAhead (playLogFile pb log pace clock) ↔
      WaitsFit pace (playLogFile pb log pace clock) := by
  refine ⟨?_, ?_⟩
  · intro h k a b ha hb
    exact (consecutive_iff htimestamps hclock ha hb).mp (h.consecutive k a b ha hb)
  · intro h
    apply neverAhead_of_consecutive
    intro k a b ha hb
    exact (consecutive_iff htimestamps hclock ha hb).mpr (h k a b ha hb)

/-- The log of the given records. -/
def logOf (messages : List UDPMessageWrapper) : List UInt8 :=
  Framing.encodeFrames kSizeWidth (messages.map messageBytes)

/-- A log is read back, when its records fit and are parsed back. -/
theorem logMessages_logOf {messages : List UDPMessageWrapper}
    (hfit : ∀ m ∈ messages, (messageBytes m).length < 256 ^ kSizeWidth)
    (hparse : ∀ m ∈ messages,
      ((messageProtobuf messages).parseUDPMessageWrapper (messageBytes m)).2 = m) :
    logMessages (messageProtobuf messages) (logOf messages) = messages := by
  unfold logMessages logOf
  rw [Framing.readFrames_encodeFrames_self kSizeWidth_pos (by simpa using hfit), List.map_map]
  exact (List.map_congr_left hparse).trans (List.map_id _)

/-- A referee message received at the given time. -/
def receivedAt (timestamp : UInt64) : UDPMessageWrapper :=
  ⟨kRefereeMulticast, 10003, timestamp, [7]⟩

/-- Two records a tenth of a second apart, on a clock that is late. -/
def steadyRecords : List UDPMessageWrapper := [receivedAt 1000000, receivedAt 1100000]

def latePace (_ : Nat) : Pace where
  reading := 40000
  oversleep := 55000
  sending := 12000

theorem logMessages_steady :
    logMessages (messageProtobuf steadyRecords) (logOf steadyRecords) = steadyRecords :=
  logMessages_logOf (by decide) (by decide)

theorem never_ahead_steady :
    NeverAhead (playLogFile (messageProtobuf steadyRecords) (logOf steadyRecords) latePace 5000) ↔
      WaitsFit latePace
        (playLogFile (messageProtobuf steadyRecords) (logOf steadyRecords) latePace 5000) := by
  apply never_ahead_iff
  · rw [logMessages_steady]
    decide
  · unfold ClockFits playLogFile
    rw [logMessages_steady]
    decide

/-- Two records with a pause of 2^32 microseconds between them, an hour and twelve
minutes. -/
def pausedRecords : List UDPMessageWrapper := [receivedAt 1000000, receivedAt 4295967296]

theorem logMessages_paused :
    logMessages (messageProtobuf pausedRecords) (logOf pausedRecords) = pausedRecords :=
  logMessages_logOf (by decide) (by decide)

/-- The second record is published at once: its wait is narrowed to zero. -/
theorem runs_ahead_after_a_pause :
    ¬ ∀ (pb : Protobuf) (log : List UInt8) (pace : Nat → Pace) (clock : Nat),
      (∀ m ∈ logMessages pb log, 0 < m.timestamp.toNat ∧ m.timestamp.toNat < 2 ^ 63) →
      ClockFits (playLogFile pb log pace clock) →
      NeverAhead (playLogFile pb log pace clock) := by
  intro h
  have hahead := h (messageProtobuf pausedRecords) (logOf pausedRecords) (fun _ => {}) 5000
  unfold ClockFits playLogFile at hahead
  rw [logMessages_paused] at hahead
  have hgap := (hahead (by decide) (by decide)).consecutive 0 _ _ rfl rfl
  exact absurd hgap (by decide)

/-! ## Out of order -/

/-- The timestamp of record `k`. -/
def timestampAt (messages : List UDPMessageWrapper) (k : Nat) : Int :=
  match messages[k]? with
  | some m => m.timestamp.toNat
  | none => 0

/-- An ideal clock: only the sleep itself takes time. -/
def idealPace (_ : Nat) : Pace := {}

/-- A log with positive timestamps, one after the other less than 2^31 apart either way. -/
structure ShortGaps (messages : List UDPMessageWrapper) : Prop where
  positive : ∀ m ∈ messages, 0 < m.timestamp.toNat
  gaps : ∀ k, k + 1 < messages.length →
    |timestampAt messages (k + 1) - timestampAt messages k| < 2 ^ 31

/-- Every record is published when all the forward gaps before it have passed. -/
def PublishedAtClimb (messages : List UDPMessageWrapper) (published : List Published) : Prop :=
  ∀ (k : Nat) first p, published[0]? = some first → published[k]? = some p →
    (p.time.toNat : Int) = first.time.toNat + Climb.climb (timestampAt messages) k

/-- Every record is published as soon as it and all the records before it are due. -/
def PublishedWhenDue (messages : List UDPMessageWrapper) (published : List Published) : Prop :=
  ∀ (k : Nat) first p, published[0]? = some first → published[k]? = some p →
    (p.time.toNat : Int) = first.time.toNat + Climb.height (timestampAt messages) k

/-- No forward gap starts below an earlier timestamp. -/
def ForwardFromHighest (messages : List UDPMessageWrapper) : Prop :=
  ∀ k, k + 1 < messages.length → timestampAt messages k < timestampAt messages (k + 1) →
    ∀ j ≤ k, timestampAt messages j ≤ timestampAt messages k

theorem timestampAt_eq {pace : Nat → Pace} {k i : Nat} {s : Playback}
    {messages : List UDPMessageWrapper} {p : Published}
    (hp : (playMessages pace k s messages)[i]? = some p) :
    timestampAt messages i = p.message.timestamp.toNat := by
  have hmessage : messages[i]? = some p.message := by
    rw [← map_message_playMessages pace k s messages, List.getElem?_map, hp]
    rfl
  unfold timestampAt
  rw [hmessage]

/-- **One record.** On an ideal clock a record is published later by the gap, or at once
when the gap is not forward. -/
theorem time_publish_ideal {s : Playback} {message : UDPMessageWrapper}
    (hpublish : s.tLastPublish.toNat = micros s.clock) (hlog : 0 < s.tLastLog.toNat)
    (hgap : |s.gap message.timestamp| < 2 ^ 31)
    (hfits : micros (s.publish {} message).clock < 2 ^ 64) :
    ((s.publish {} message).tLastPublish.toNat : Int) =
      s.tLastPublish.toNat + max 0 (s.gap message.timestamp) := by
  obtain ⟨hlow, hhigh⟩ := abs_lt.mp hgap
  have hclock : micros s.clock ≤ _ := micros_mono (busy_le_clock_publish s {} message)
  have hread : micros (s.clock + 0) = micros s.clock := rfl
  -- nothing has passed since the last publish
  have hmeasured : s.measured (micros (s.clock + 0)) = 0 := by
    unfold Playback.measured
    split
    · omega
    · rfl
  have husec : ((s.usec {} message.timestamp).toNat : Int) =
      max 0 (s.gap message.timestamp - s.measured (micros (s.clock + 0))) % 2 ^ 32 :=
    toNat_usec (Nat.lt_of_le_of_lt hclock hfits) hlog (Nat.le_of_eq hpublish) (by omega)
      (by omega) (Int.lt_of_le_of_lt (Int.le_of_eq hmeasured) (by omega))
      (by show _ ≤ _ - s.measured (micros (s.clock + 0)); omega)
  have htime : (s.publish {} message).tLastPublish.toNat =
      micros s.clock + (s.usec {} message.timestamp).toNat := toNat_publish hfits
  rw [htime, hpublish]
  omega

/-- On an ideal clock the forward gaps add up. -/
theorem publishedAtClimb {pb : Protobuf} {log : List UInt8} {clock : Nat}
    (hgaps : ShortGaps (logMessages pb log))
    (hclock : ClockFits (playLogFile pb log idealPace clock)) :
    PublishedAtClimb (logMessages pb log) (playLogFile pb log idealPace clock) := by
  intro k first p hfirst hp
  induction k generalizing p with
  | zero =>
    obtain rfl := Option.some.inj (hfirst.symm.trans hp)
    simp
  | succ k ih =>
    obtain ⟨hlt, -⟩ := List.getElem?_eq_some_iff.mp hp
    have ha := List.getElem?_eq_getElem (Nat.lt_of_succ_lt hlt)
    generalize (playLogFile pb log idealPace clock)[k] = a at ha
    have hafter := after_eq_publish ha hp
    have hlog := tLastLog_after ha
    have hfits := hclock p (List.mem_of_getElem? hp)
    have hgap := hgaps.gaps k (by rwa [playLogFile, length_playMessages] at hlt)
    rw [hafter] at hfits
    rw [timestampAt_eq ha, timestampAt_eq hp, ← hlog] at hgap
    have hnext := time_publish_ideal (toNat_time ha (hclock a (List.mem_of_getElem? ha)))
      (by rw [hlog]; exact hgaps.positive _ (mem_of_getElem?_playMessages ha)) hgap hfits
    have hsofar := ih a ha
    rw [Climb.climb_succ, timestampAt_eq ha, timestampAt_eq hp, ← Int.add_assoc, ← hsofar,
      ← hlog]
    unfold Published.time
    rw [hafter]
    exact hnext

/-- So every record is published when it is due exactly while the forward gaps start from
the highest timestamp. -/
theorem publishedWhenDue_iff {messages : List UDPMessageWrapper} {published : List Published}
    (hlen : published.length = messages.length) (hclimb : PublishedAtClimb messages published) :
    PublishedWhenDue messages published ↔ ForwardFromHighest messages := by
  rcases Nat.eq_zero_or_pos messages.length with hnil | hpos
  · refine ⟨?_, ?_⟩
    · intro _ k hk
      omega
    · intro _ k first p hfirst
      obtain ⟨hlt, -⟩ := List.getElem?_eq_some_iff.mp hfirst
      omega
  · have hiff := @Climb.climb_eq_height_iff Int _ _ _ (timestampAt messages)
      (messages.length - 1)
    have hfirst := List.getElem?_eq_getElem (show 0 < published.length by omega)
    have hheight : PublishedWhenDue messages published ↔
        ∀ k ≤ messages.length - 1,
          Climb.climb (timestampAt messages) k = Climb.height (timestampAt messages) k := by
      refine ⟨?_, ?_⟩
      · intro hdue k hk
        have hp := List.getElem?_eq_getElem (show k < published.length by omega)
        have hone := hdue k _ _ hfirst hp
        have htwo := hclimb k _ _ hfirst hp
        omega
      · intro heq k first p hfirst hp
        obtain ⟨hlt, -⟩ := List.getElem?_eq_some_iff.mp hp
        rw [← heq k (by omega)]
        exact hclimb k first p hfirst hp
    rw [hheight, hiff]
    unfold ForwardFromHighest
    refine forall_congr' fun k => ?_
    have hk : k < messages.length - 1 ↔ k + 1 < messages.length := by omega
    rw [hk]

/-- **Out of order.** Whatever the log, with positive timestamps and short gaps, on an ideal
clock every record is published when the forward gaps before it have passed. It is then as
soon as it and all the records before it are due, for every record, exactly when no forward
gap starts below an earlier timestamp. -/
theorem published_at_climb (pb : Protobuf) (log : List UInt8) (clock : Nat)
    (hgaps : ShortGaps (logMessages pb log))
    (hclock : ClockFits (playLogFile pb log idealPace clock)) :
    PublishedAtClimb (logMessages pb log) (playLogFile pb log idealPace clock) ∧
      (PublishedWhenDue (logMessages pb log) (playLogFile pb log idealPace clock) ↔
        ForwardFromHighest (logMessages pb log)) := by
  have hclimb := publishedAtClimb hgaps hclock
  exact ⟨hclimb, publishedWhenDue_iff (length_playMessages ..) hclimb⟩

/-- Four records, the second of which was stamped before the third and logged ahead of
it. -/
def swappedRecords : List UDPMessageWrapper :=
  [receivedAt 1000000, receivedAt 1000400, receivedAt 1000100, receivedAt 1000500]

theorem logMessages_swapped :
    logMessages (messageProtobuf swappedRecords) (logOf swappedRecords) = swappedRecords :=
  logMessages_logOf (by decide) (by decide)

theorem shortGaps_swapped : ShortGaps swappedRecords where
  positive := by decide
  gaps := by
    intro k hk
    have hk' : k < 3 := Nat.lt_of_succ_lt_succ hk
    obtain rfl | rfl | rfl : k = 0 ∨ k = 1 ∨ k = 2 := by omega
    · decide
    · decide
    · decide

theorem clockFits_swapped :
    ClockFits (playLogFile (messageProtobuf swappedRecords) (logOf swappedRecords) idealPace
      1000) := by
  unfold ClockFits playLogFile
  rw [logMessages_swapped]
  decide

theorem published_at_climb_swapped :
    PublishedAtClimb (logMessages (messageProtobuf swappedRecords) (logOf swappedRecords))
        (playLogFile (messageProtobuf swappedRecords) (logOf swappedRecords) idealPace 1000) ∧
      (PublishedWhenDue (logMessages (messageProtobuf swappedRecords) (logOf swappedRecords))
          (playLogFile (messageProtobuf swappedRecords) (logOf swappedRecords) idealPace 1000) ↔
        ForwardFromHighest
          (logMessages (messageProtobuf swappedRecords) (logOf swappedRecords))) :=
  published_at_climb _ _ _ (by rw [logMessages_swapped]; exact shortGaps_swapped)
    clockFits_swapped

/-- The last record is published the gap back to the third later than it is due. -/
theorem drifts_after_a_swap :
    ¬ ∀ (pb : Protobuf) (log : List UInt8) (clock : Nat), ShortGaps (logMessages pb log) →
      0 < micros clock → ClockFits (playLogFile pb log idealPace clock) →
      PublishedWhenDue (logMessages pb log) (playLogFile pb log idealPace clock) := by
  intro h
  have hgaps : ShortGaps (logMessages (messageProtobuf swappedRecords) (logOf swappedRecords)) := by
    rw [logMessages_swapped]
    exact shortGaps_swapped
  have hdue := h _ _ 1000 hgaps (by decide) clockFits_swapped
  have hforward := (publishedWhenDue_iff (length_playMessages ..)
    (publishedAtClimb hgaps clockFits_swapped)).mp hdue
  rw [logMessages_swapped] at hforward
  exact absurd (hforward 2 (by decide) (by decide) 1 (by decide)) (by decide)

end SslAutoref.Theorems
