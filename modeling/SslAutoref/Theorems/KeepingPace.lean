import Mathlib.Algebra.BigOperators.Intervals
import SslAutoref.Theorems.Playback

/-!
# How far playback falls behind

The wait before a record is measured from the last publish, so the time that reading takes is
made up for, as far as the gap in the log is long enough, and the time that `usleep` takes
over its argument and that sending takes is not: it is added to the delay of all later
records. Between any two records playback takes no less than the log, and no more than the
forward gaps of the log and what the steps of the records between them add (`keeps_pace`).
-/

namespace SslAutoref.Theorems

/-- What a record adds to the delay, in nanoseconds: what `usleep` takes over its argument,
what sending takes, what reading takes over the gap in the log, and at most a microsecond that
the clock does not show. -/
def Pace.lag (pace : Pace) (gap : Int) : Int :=
  999 + pace.oversleep + pace.sending + max 0 (pace.reading - 999 - 1000 * max 0 gap)

/-- **One record** is published no later than the gap and the lag after the last one. -/
theorem clock_publish_le {s : Playback} {pace : Pace} {message : UDPMessageWrapper}
    (hpublish : s.tLastPublish.toNat = micros s.clock) (hstarted : 0 < micros s.clock)
    (hlog : 0 < s.tLastLog.toNat) (hlog' : s.tLastLog.toNat < 2 ^ 62)
    (htimestamp : message.timestamp.toNat < 2 ^ 62)
    (hfits : micros (s.publish pace message).clock < 2 ^ 62) :
    ((s.publish pace message).clock : Int) ≤
      s.clock + 1000 * max 0 (s.gap message.timestamp) +
        Pace.lag pace (s.gap message.timestamp) := by
  have hread : micros (s.clock + pace.reading) ≤ micros (s.busy pace) :=
    micros_mono (by unfold Playback.busy; omega)
  have hbusy := micros_mono (busy_le_clock_publish s pace message)
  have hgap : s.gap message.timestamp < 2 ^ 62 ∧ -2 ^ 62 < s.gap message.timestamp := by
    unfold Playback.gap
    omega
  -- the time since the last publish is measured, and has not been long
  have hmeasured : s.measured (micros (s.clock + pace.reading)) =
      micros (s.clock + pace.reading) - micros s.clock := by
    unfold Playback.measured
    rw [hpublish, if_pos hstarted]
  have hclock := micros_mono (Nat.le_add_right s.clock pace.reading)
  have husec := @toNat_usec s pace message.timestamp (by omega) hlog (by omega) (by omega)
    (by omega) (by omega) (by omega)
  have hle : ((s.usec pace message.timestamp).toNat : Int) ≤
      max 0 (s.gap message.timestamp - s.measured (micros (s.clock + pace.reading))) := by
    omega
  rw [hmeasured] at hle
  rw [clock_publish]
  unfold Playback.busy Pace.lag
  unfold micros at hle
  push_cast at hle ⊢
  omega

/-! ## The whole log -/

/-- The gap in the log between record `k` and the next one. -/
def gapAt (messages : List UDPMessageWrapper) (k : Nat) : Int :=
  timestampAt messages (k + 1) - timestampAt messages k

/-- What the records behind `j`, up to `k`, add to the delay. -/
def lagBetween (pace : Nat → Pace) (messages : List UDPMessageWrapper) (j k : Nat) : Int :=
  ∑ i ∈ Finset.Ico j k, Pace.lag (pace (i + 1)) (gapAt messages i)

/-- Between any two records playback takes as long as the log, or longer, but no longer than
the forward gaps and the lag of the records between them. -/
structure KeepsPace (pace : Nat → Pace) (messages : List UDPMessageWrapper)
    (published : List Published) : Prop where
  notBefore : ∀ (j k : Nat) (a b : Published), j ≤ k → published[j]? = some a → published[k]? = some b →
    (b.message.timestamp.toNat : Int) - a.message.timestamp.toNat ≤
      (b.time.toNat : Int) - a.time.toNat
  notAfter : ∀ (j k : Nat) (a b : Published), j ≤ k → published[j]? = some a → published[k]? = some b →
    (b.after.clock : Int) - a.after.clock ≤
      1000 * (Climb.climb (timestampAt messages) k - Climb.climb (timestampAt messages) j) +
        lagBetween pace messages j k

/-- A log with timestamps that are not extreme, and no pause of 2^32 microseconds. -/
structure ShortPauses (messages : List UDPMessageWrapper) : Prop where
  timestamps : ∀ m ∈ messages, 0 < m.timestamp.toNat ∧ m.timestamp.toNat < 2 ^ 62
  pauses : ∀ k, k + 1 < messages.length → gapAt messages k < 2 ^ 32

/-- The clock is past its first microsecond, and not at its end. -/
def ClockRuns (published : List Published) : Prop :=
  ∀ p ∈ published, 0 < micros p.after.clock ∧ micros p.after.clock < 2 ^ 62

section

variable {pb : Protobuf} {log : List UInt8} {pace : Nat → Pace} {clock : Nat}

theorem ClockRuns.fits {published : List Published} (h : ClockRuns published) :
    ClockFits published := by
  intro p hp
  exact Nat.lt_trans (h p hp).2 (by decide)

/-- A short pause is waited for in full. -/
theorem waitFits_of_short {s : Playback} {pace : Pace} {timestamp : UInt64}
    (hpublish : s.tLastPublish.toNat = micros s.clock) (hgap : s.gap timestamp < 2 ^ 32) :
    WaitFits s pace timestamp := by
  have hread : micros s.clock ≤ micros (s.clock + pace.reading) := micros_mono (by omega)
  have hbusy : micros (s.clock + pace.reading) ≤ micros (s.busy pace) :=
    micros_mono (by unfold Playback.busy; omega)
  have hnonneg := @measured_nonneg s (micros (s.clock + pace.reading)) (by omega)
  have hle := @measured_le s (micros (s.clock + pace.reading)) (by omega)
  unfold WaitFits
  dsimp only
  omega

/-- **Keeping pace.** Whatever the log, if it has no long pauses, and however long every step
takes. -/
theorem keeps_pace (hlog : ShortPauses (logMessages pb log))
    (hclock : ClockRuns (playLogFile pb log pace clock)) :
    KeepsPace pace (logMessages pb log) (playLogFile pb log pace clock) := by
  have htimestamps : ∀ m ∈ logMessages pb log,
      0 < m.timestamp.toNat ∧ m.timestamp.toNat < 2 ^ 63 := by
    intro m hm
    obtain ⟨hpos, hlt⟩ := hlog.timestamps m hm
    exact ⟨hpos, by omega⟩
  -- what one record after the other takes
  have hnext : ∀ (k : Nat) a b, (playLogFile pb log pace clock)[k]? = some a →
      (playLogFile pb log pace clock)[k + 1]? = some b →
      a.after.gap b.message.timestamp = gapAt (logMessages pb log) k ∧
        WaitFits a.after (pace (k + 1)) b.message.timestamp ∧
        (b.after.clock : Int) ≤ a.after.clock + 1000 * max 0 (gapAt (logMessages pb log) k) +
          Pace.lag (pace (k + 1)) (gapAt (logMessages pb log) k) := by
    intro k a b ha hb
    obtain ⟨hlt, -⟩ := List.getElem?_eq_some_iff.mp hb
    have hafter := after_eq_publish ha hb
    rw [Nat.zero_add] at hafter
    have hlast := tLastLog_after ha
    have htime := toNat_time ha (hclock.fits a (List.mem_of_getElem? ha))
    have hgap : a.after.gap b.message.timestamp = gapAt (logMessages pb log) k := by
      unfold Playback.gap gapAt
      rw [timestampAt_eq ha, timestampAt_eq hb, hlast]
    have hshort := hlog.pauses k (by rwa [playLogFile, length_playMessages] at hlt)
    have hta := hlog.timestamps _ (mem_of_getElem?_playMessages ha)
    have htb := hlog.timestamps _ (mem_of_getElem?_playMessages hb)
    have hruns := (hclock b (List.mem_of_getElem? hb)).2
    rw [hafter] at hruns
    have hle := clock_publish_le htime (hclock a (List.mem_of_getElem? ha)).1
      (by rw [hlast]; exact hta.1) (by rw [hlast]; exact hta.2) htb.2 hruns
    rw [hgap, ← hafter] at hle
    rw [← hgap] at hshort
    exact ⟨hgap, waitFits_of_short htime hshort, hle⟩
  refine ⟨?_, ?_⟩
  · intro j k a b hjk ha hb
    induction k, hjk using Nat.le_induction generalizing b with
    | base =>
      obtain rfl := Option.some.inj (ha.symm.trans hb)
      omega
    | succ k hjk ih =>
      obtain ⟨hlt, -⟩ := List.getElem?_eq_some_iff.mp hb
      have hc := List.getElem?_eq_getElem (Nat.lt_of_succ_lt hlt)
      have hsofar := ih _ hc
      have hlast := (consecutive_iff htimestamps hclock.fits hc hb).mpr (hnext k _ b hc hb).2.1
      omega
  · intro j k a b hjk ha hb
    induction k, hjk using Nat.le_induction generalizing b with
    | base =>
      obtain rfl := Option.some.inj (ha.symm.trans hb)
      simp [lagBetween]
    | succ k hjk ih =>
      obtain ⟨hlt, -⟩ := List.getElem?_eq_some_iff.mp hb
      have hc := List.getElem?_eq_getElem (Nat.lt_of_succ_lt hlt)
      have hsofar := ih _ hc
      have hlast := (hnext k _ b hc hb).2.2
      unfold lagBetween at hsofar ⊢
      rw [Climb.climb_succ, Finset.sum_Ico_succ_top hjk]
      show _ ≤ 1000 * (_ + max 0 (gapAt (logMessages pb log) k) - _) + _
      omega

end

/-- Between the two records of the steady log, on a clock that is late. -/
theorem keeps_pace_steady :
    KeepsPace latePace (logMessages (messageProtobuf steadyRecords) (logOf steadyRecords))
      (playLogFile (messageProtobuf steadyRecords) (logOf steadyRecords) latePace 5000) := by
  apply keeps_pace
  · rw [logMessages_steady]
    refine ⟨by decide, ?_⟩
    intro k hk
    obtain rfl : k = 0 := Nat.lt_one_iff.mp (Nat.lt_of_succ_lt_succ hk)
    decide
  · unfold ClockRuns playLogFile
    rw [logMessages_steady]
    decide

end SslAutoref.Theorems
