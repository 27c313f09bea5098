import SslAutoref.Model.Playback

/-!
# What playback does to the clock

The conversions of `PlayLogFile`, in integers: what the clock reads, what the two
differences are, and what is left of the wait in the argument of `usleep`. From them follows
when a record is published (`toNat_publish`), and what two records one after the other
have to do with each other (`after_eq_publish`).
-/

namespace SslAutoref

/-- The microseconds on a clock. -/
def micros (nanoseconds : Nat) : Nat := nanoseconds / 1000

theorem micros_mono {a b : Nat} (h : a ≤ b) : micros a ≤ micros b := Nat.div_le_div_right h

/-- Whole microseconds of sleep stay whole. -/
theorem micros_add (usec clock : Nat) : micros (clock + 1000 * usec) = micros clock + usec := by
  unfold micros
  omega

/-- `GetTimeUSec` is the clock in microseconds, while these fit its 64 bits. -/
theorem toNat_getTimeUSec {nanoseconds : Nat} (hfits : micros nanoseconds < 2 ^ 64) :
    (getTimeUSec (clockGettime nanoseconds)).toNat = micros nanoseconds := by
  unfold micros at *
  have huseconds : (clockGettime nanoseconds).tvNsec / 1000 =
      Int64.ofNat (nanoseconds % 1000000000 / 1000) := by
    rw [@Int64.ofNat_div _ 1000 (by omega) (by omega)]
    rfl
  unfold getTimeUSec
  dsimp only
  rw [huseconds]
  simp only [clockGettime, Int64.toUInt64_ofNat', UInt64.toNat_add, UInt64.toNat_mul,
    UInt64.toNat_ofNat', UInt64.toNat_ofNat]
  omega

theorem uint64_pos_iff {a : UInt64} : 0 < a ↔ 0 < a.toNat := UInt64.lt_iff_toNat_lt

/-- A difference of two 64-bit numbers that fits is exact as a signed number. -/
theorem toInt_toInt64_sub {a b : UInt64} (hlow : -2 ^ 63 ≤ (a.toNat : Int) - b.toNat)
    (hhigh : (a.toNat : Int) - b.toNat < 2 ^ 63) :
    (a - b).toInt64.toInt = (a.toNat : Int) - b.toNat := by
  have ha := a.toNat_lt
  have hb := b.toNat_lt
  have hsub := UInt64.toNat_sub a b
  have hsigned : (a - b).toInt64.toInt = if 2 * (a - b).toNat < 2 ^ 64 then ((a - b).toNat : Int)
      else ((a - b).toNat : Int) - (2 ^ 64 : Nat) :=
    BitVec.toInt_eq_toNat_cond (a - b).toBitVec
  rw [hsigned]
  split
  · omega
  · omega

/-- What `usleep` gets of a wait. -/
theorem toNat_useconds {tWait : Int64} (hwait : 0 ≤ tWait.toInt) :
    ((useconds tWait).toNat : Int) = tWait.toInt % 2 ^ 32 := by
  have hnat : tWait.toUInt64.toNat = tWait.toInt.toNat :=
    Int64.toNat_toUInt64_of_le (Int64.le_iff_toInt_le.mpr hwait)
  unfold useconds
  rw [UInt64.toNat_toUInt32, hnat]
  omega

theorem toInt_max_zero (x : Int64) : (max 0 x).toInt = max 0 x.toInt := by
  have hle : (0 ≤ x) = (0 ≤ x.toInt) := propext Int64.le_iff_toInt_le
  show (if 0 ≤ x then x else 0).toInt = _
  simp only [hle]
  split
  · omega
  · show (0 : Int) = _
    omega

/-! ## One record -/

/-- The gap in the log before a record. -/
def Playback.gap (s : Playback) (timestamp : UInt64) : Int :=
  (timestamp.toNat : Int) - s.tLastLog.toNat

/-- The time since the last publish, which is taken off the gap. It is not measured when
the last publish time is zero, which means that there is none. -/
def Playback.measured (s : Playback) (now : Nat) : Int :=
  if 0 < s.tLastPublish.toNat then (now : Int) - s.tLastPublish.toNat else 0

theorem measured_nonneg {s : Playback} {now : Nat} (hnow : s.tLastPublish.toNat ≤ now) :
    0 ≤ s.measured now := by
  unfold Playback.measured
  split
  · omega
  · exact Int.le_refl 0

theorem measured_le {s : Playback} {now : Nat} (hnow : s.tLastPublish.toNat ≤ now) :
    s.measured now ≤ (now : Int) - s.tLastPublish.toNat := by
  unfold Playback.measured
  split
  · exact Int.le_refl _
  · omega

theorem tWait_nonneg (s : Playback) (now timestamp : UInt64) :
    0 ≤ (s.tWait now timestamp).toInt := by
  unfold Playback.tWait
  rw [toInt_max_zero]
  exact Int.le_max_left ..

/-- The wait is the gap without the time measured, when these and their difference fit. -/
theorem toInt_tWait {s : Playback} {now timestamp : UInt64} (hlog : 0 < s.tLastLog.toNat)
    (hnow : s.tLastPublish.toNat ≤ now.toNat) (hlow : -2 ^ 63 ≤ s.gap timestamp)
    (hhigh : s.gap timestamp < 2 ^ 63) (hmeasured : s.measured now.toNat < 2 ^ 63)
    (hwait : -2 ^ 63 ≤ s.gap timestamp - s.measured now.toNat) :
    (s.tWait now timestamp).toInt = max 0 (s.gap timestamp - s.measured now.toNat) := by
  have hdeltaLog : (s.deltaTLog timestamp).toInt = s.gap timestamp := by
    unfold Playback.deltaTLog
    rw [if_pos (uint64_pos_iff.mpr hlog)]
    exact toInt_toInt64_sub hlow hhigh
  have hdeltaPublisher : (s.deltaTPublisher now).toInt = s.measured now.toNat := by
    unfold Playback.deltaTPublisher
    unfold Playback.measured at hmeasured ⊢
    by_cases hpublished : 0 < s.tLastPublish.toNat
    · rw [if_pos hpublished] at hmeasured ⊢
      rw [if_pos (uint64_pos_iff.mpr hpublished)]
      exact toInt_toInt64_sub (by omega) hmeasured
    · rw [if_neg hpublished, if_neg (mt uint64_pos_iff.mp hpublished)]
      rfl
  have hnonneg := measured_nonneg hnow
  unfold Playback.tWait
  rw [toInt_max_zero, Int64.toInt_sub, hdeltaLog, hdeltaPublisher,
    Int.bmod_eq_of_le (by omega) (by omega)]

/-- The argument of `usleep` for a record. -/
def Playback.usec (s : Playback) (pace : Pace) (timestamp : UInt64) : UInt32 :=
  useconds (s.tWait (getTimeUSec (clockGettime (s.clock + pace.reading))) timestamp)

/-- What is left of the wait for a record in the argument of `usleep`. -/
theorem toNat_usec {s : Playback} {pace : Pace} {timestamp : UInt64}
    (hfits : micros (s.clock + pace.reading) < 2 ^ 64) (hlog : 0 < s.tLastLog.toNat)
    (hnow : s.tLastPublish.toNat ≤ micros (s.clock + pace.reading))
    (hlow : -2 ^ 63 ≤ s.gap timestamp) (hhigh : s.gap timestamp < 2 ^ 63)
    (hmeasured : s.measured (micros (s.clock + pace.reading)) < 2 ^ 63)
    (hwait : -2 ^ 63 ≤ s.gap timestamp - s.measured (micros (s.clock + pace.reading))) :
    ((s.usec pace timestamp).toNat : Int) =
      max 0 (s.gap timestamp - s.measured (micros (s.clock + pace.reading))) % 2 ^ 32 := by
  have hread := toNat_getTimeUSec hfits
  rw [← hread] at hnow hmeasured hwait ⊢
  unfold Playback.usec
  rw [toNat_useconds (tWait_nonneg s _ timestamp),
    toInt_tWait hlog hnow hlow hhigh hmeasured hwait]

/-- The clock at the next publish, less what `usleep` was asked for. -/
def Playback.busy (s : Playback) (pace : Pace) : Nat :=
  s.clock + pace.reading + pace.oversleep + pace.sending

theorem clock_publish (s : Playback) (pace : Pace) (message : UDPMessageWrapper) :
    (s.publish pace message).clock =
      s.busy pace + 1000 * (s.usec pace message.timestamp).toNat := by
  show s.clock + pace.reading + 1000 * (s.usec pace message.timestamp).toNat +
    pace.oversleep + pace.sending = _
  unfold Playback.busy
  omega

/-- When a record is published. -/
theorem toNat_publish {s : Playback} {pace : Pace} {message : UDPMessageWrapper}
    (hfits : micros (s.publish pace message).clock < 2 ^ 64) :
    (s.publish pace message).tLastPublish.toNat =
      micros (s.busy pace) + (s.usec pace message.timestamp).toNat := by
  rw [← micros_add, ← clock_publish]
  exact toNat_getTimeUSec hfits

theorem busy_le_clock_publish (s : Playback) (pace : Pace) (message : UDPMessageWrapper) :
    s.busy pace ≤ (s.publish pace message).clock := by
  rw [clock_publish]
  exact Nat.le_add_right ..

/-! ## The whole log -/

/-- Every record of the log is published, in its order. -/
theorem map_message_playMessages (pace : Nat → Pace) (k : Nat) (s : Playback)
    (messages : List UDPMessageWrapper) :
    (playMessages pace k s messages).map (·.message) = messages := by
  induction messages generalizing k s with
  | nil => rfl
  | cons message messages ih =>
    show message :: _ = _
    rw [ih]

theorem length_playMessages (pace : Nat → Pace) (k : Nat) (s : Playback)
    (messages : List UDPMessageWrapper) :
    (playMessages pace k s messages).length = messages.length := by
  rw [← List.length_map, map_message_playMessages]

/-- The first record is published from the start. -/
theorem after_eq_publish_start {pace : Nat → Pace} {k : Nat} {s : Playback}
    {messages : List UDPMessageWrapper} {a : Published}
    (h : (playMessages pace k s messages)[0]? = some a) :
    a.after = s.publish (pace k) a.message := by
  cases messages with
  | nil => cases h
  | cons message messages =>
    obtain rfl := Option.some.inj h
    rfl

/-- Every other record is published from where the one before it left the loop. -/
theorem after_eq_publish {pace : Nat → Pace} {k i : Nat} {s : Playback}
    {messages : List UDPMessageWrapper} {a b : Published}
    (ha : (playMessages pace k s messages)[i]? = some a)
    (hb : (playMessages pace k s messages)[i + 1]? = some b) :
    b.after = a.after.publish (pace (k + i + 1)) b.message := by
  induction messages generalizing k s i with
  | nil => cases ha
  | cons message messages ih =>
    cases i with
    | zero =>
      obtain rfl := Option.some.inj ha
      exact after_eq_publish_start hb
    | succ i =>
      have hnext := ih ha hb
      rw [hnext, Nat.add_assoc k 1 i, Nat.add_comm 1 i]

/-- A record is published from some state of the loop. -/
theorem exists_publish {pace : Nat → Pace} {k i : Nat} {s : Playback}
    {messages : List UDPMessageWrapper} {a : Published}
    (ha : (playMessages pace k s messages)[i]? = some a) :
    ∃ before : Playback, a.after = before.publish (pace (k + i)) a.message := by
  cases i with
  | zero => exact ⟨s, after_eq_publish_start ha⟩
  | succ i =>
    obtain ⟨hlt, -⟩ := List.getElem?_eq_some_iff.mp ha
    have hbefore := List.getElem?_eq_getElem (Nat.lt_of_succ_lt hlt)
    exact ⟨_, after_eq_publish hbefore ha⟩

/-- After a record the loop has its timestamp. -/
theorem tLastLog_after {pace : Nat → Pace} {k i : Nat} {s : Playback}
    {messages : List UDPMessageWrapper} {a : Published}
    (ha : (playMessages pace k s messages)[i]? = some a) :
    a.after.tLastLog = a.message.timestamp := by
  obtain ⟨before, hafter⟩ := exists_publish ha
  rw [hafter]
  rfl

/-- After a record the loop has the time on the clock. -/
theorem toNat_time {pace : Nat → Pace} {k i : Nat} {s : Playback}
    {messages : List UDPMessageWrapper} {a : Published}
    (ha : (playMessages pace k s messages)[i]? = some a)
    (hfits : micros a.after.clock < 2 ^ 64) : a.time.toNat = micros a.after.clock := by
  obtain ⟨before, hafter⟩ := exists_publish ha
  unfold Published.time
  rw [hafter] at hfits ⊢
  exact toNat_getTimeUSec hfits

/-- What is published is a record of the log. -/
theorem mem_of_getElem?_playMessages {pace : Nat → Pace} {k i : Nat} {s : Playback}
    {messages : List UDPMessageWrapper} {a : Published}
    (ha : (playMessages pace k s messages)[i]? = some a) : a.message ∈ messages := by
  rw [← map_message_playMessages pace k s messages]
  exact List.mem_map_of_mem (List.mem_of_getElem? ha)

end SslAutoref
