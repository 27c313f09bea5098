import Mathlib.Algebra.Group.Nat.Defs
import Mathlib.Algebra.Group.Int.Defs
import SslAutoref.Model.Log

/-!
# Playing a log back

`PlayLogFile` of `playback_main.cpp` and `GetTimeUSec` of `misc_util.cpp`, over a clock that
counts nanoseconds. The time that every step of a record takes is a parameter; `usleep`
sleeps for its argument, and longer when the system is late.
-/

namespace SslAutoref

/-- `timespec`. -/
structure Timespec where
  tvSec : Int64
  tvNsec : Int64
  deriving DecidableEq, Repr

/-- `clock_gettime(CLOCK_REALTIME, &time)`, so many nanoseconds after the epoch. -/
def clockGettime (nanoseconds : Nat) : Timespec where
  tvSec := Int64.ofNat (nanoseconds / 1000000000)
  tvNsec := Int64.ofNat (nanoseconds % 1000000000)

/-- `GetTimeUSec`, when the clock reads `time`. -/
def getTimeUSec (time : Timespec) : UInt64 :=
  let seconds := time.tvSec.toUInt64
  let useconds := (time.tvNsec / 1000).toUInt64
  seconds * 1000000 + useconds

/-- What the steps for one record take, in nanoseconds: reading and printing it, what the
sleep takes over its argument, and sending it. -/
structure Pace where
  reading : Nat := 0
  oversleep : Nat := 0
  sending : Nat := 0
  deriving DecidableEq, Repr

/-- The variables of the loop, and the nanoseconds on the clock. -/
structure Playback where
  tLastPublish : UInt64 := 0
  tLastLog : UInt64 := 0
  clock : Nat
  deriving DecidableEq, Repr

/-- The time between the record and the last one in the log. -/
def Playback.deltaTLog (s : Playback) (timestamp : UInt64) : Int64 :=
  if s.tLastLog > 0 then (timestamp - s.tLastLog).toInt64 else 0

/-- The time since the last record was published. -/
def Playback.deltaTPublisher (s : Playback) (now : UInt64) : Int64 :=
  if s.tLastPublish > 0 then (now - s.tLastPublish).toInt64 else 0

def Playback.tWait (s : Playback) (now timestamp : UInt64) : Int64 :=
  max 0 (s.deltaTLog timestamp - s.deltaTPublisher now)

/-- The conversion of `t_wait` to `useconds_t`, which has 32 bits. -/
def useconds (tWait : Int64) : UInt32 := tWait.toUInt64.toUInt32

/-- The clock after `usleep`. -/
def usleep (clock : Nat) (usec : UInt32) (oversleep : Nat) : Nat :=
  clock + 1000 * usec.toNat + oversleep

/-- The body of the loop of `PlayLogFile`. -/
def Playback.publish (s : Playback) (pace : Pace) (message : UDPMessageWrapper) : Playback :=
  let read := s.clock + pace.reading
  let tWait := s.tWait (getTimeUSec (clockGettime read)) message.timestamp
  let sent := usleep read (useconds tWait) pace.oversleep + pace.sending
  { tLastPublish := getTimeUSec (clockGettime sent)
    tLastLog := message.timestamp
    clock := sent }

/-- A record that `PublishMessage` has sent to its address and port, and the variables
then. Whether it was sent is only printed. -/
structure Published where
  message : UDPMessageWrapper
  after : Playback

/-- The recorded publish time. -/
def Published.time (p : Published) : UInt64 := p.after.tLastPublish

/-- The loop of `PlayLogFile`, from record `k` of the log on. -/
def playMessages (pace : Nat → Pace) : Nat → Playback → List UDPMessageWrapper → List Published
  | _, _, [] => []
  | k, s, message :: messages =>
    let after := s.publish (pace k) message
    ⟨message, after⟩ :: playMessages pace (k + 1) after messages

/-- `PlayLogFile` on a log file with the given bytes, started when the clock reads
`clock`. -/
def playLogFile (pb : Protobuf) (log : List UInt8) (pace : Nat → Pace) (clock : Nat) :
    List Published :=
  playMessages pace 0 { clock := clock } (logMessages pb log)

end SslAutoref
