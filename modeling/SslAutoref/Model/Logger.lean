import Mathlib.Logic.Function.Basic
import SslAutoref.Lib.Steps
import SslAutoref.Model.Log

/-!
# The logger

`logger_main.cpp`: one thread a stream receives datagrams, wraps them and appends
records to the log file all threads share; `main` waits for SIGINT and closes the
file. The threads are indexed by a type `ι` of any size, and take their steps in any
order. The log is here what `fwrite` is called with; when that reaches the file is a
matter of the stream, and of `LogStream`. The generated serializer is not part of the
repository: it is the function `serialize`, which every definition here takes as a
parameter.
-/

namespace SslAutoref

/-! ## One record -/

/-- `const uint32_t packet_size = write_buffer.size()`. -/
def packetSize (writeBuffer : List UInt8) : UInt32 := UInt32.ofNat writeBuffer.length

/-- What `fwrite(&packet_size, sizeof(packet_size), 1, log_file_)` writes. -/
def sizeBlock (writeBuffer : List UInt8) : List UInt8 :=
  Framing.sizeBytes kSizeWidth (packetSize writeBuffer).toNat

/-- What `fwrite(write_buffer.data(), 1, packet_size, log_file_)` writes. -/
def payloadBlock (writeBuffer : List UInt8) : List UInt8 :=
  writeBuffer.take (packetSize writeBuffer).toNat

/-- The bytes of the records of some write buffers. -/
def loggedBytes (writeBuffers : List (List UInt8)) : List UInt8 :=
  writeBuffers.flatMap fun writeBuffer => sizeBlock writeBuffer ++ payloadBlock writeBuffer

/-- The two writes of a record make a frame, whatever the size of the buffer. -/
theorem sizeBlock_append_payloadBlock (writeBuffer : List UInt8) :
    sizeBlock writeBuffer ++ payloadBlock writeBuffer =
      Framing.encodeFrame kSizeWidth (payloadBlock writeBuffer) := by
  have hle : (packetSize writeBuffer).toNat ≤ writeBuffer.length := by
    rw [packetSize, UInt32.toNat_ofNat']
    exact Nat.mod_le _ _
  rw [Framing.encodeFrame, sizeBlock, payloadBlock, List.length_take, Nat.min_eq_left hle]

theorem payloadBlock_of_lt {writeBuffer : List UInt8} (h : writeBuffer.length < 2 ^ 32) :
    payloadBlock writeBuffer = writeBuffer := by
  rw [payloadBlock, packetSize, UInt32.toNat_ofNat', Nat.mod_eq_of_lt h, List.take_length]

theorem length_payloadBlock_lt (writeBuffer : List UInt8) :
    (payloadBlock writeBuffer).length < 2 ^ 32 := by
  have hlt := (packetSize writeBuffer).toNat_lt
  rw [payloadBlock, List.length_take]
  omega

theorem loggedBytes_eq (writeBuffers : List (List UInt8)) :
    loggedBytes writeBuffers =
      Framing.encodeFrames kSizeWidth (writeBuffers.map payloadBlock) := by
  induction writeBuffers with
  | nil => rfl
  | cons b bs ih =>
    rw [List.map_cons, Framing.encodeFrames_cons, ← ih, ← sizeBlock_append_payloadBlock]
    rfl

/-! ## A logger thread -/

def kMaxDatagramSize : Nat := 65536

/-- A `ProtobufLogger`: the address and the port it was made with. -/
structure ProtobufLogger where
  ipAddress : String
  portNumber : Int32
  deriving DecidableEq

/-- Where `LoggerThread` is. -/
inductive Pc
  | opening | checking | receiving | stamping | locking
  | writingSize | writingPayload | unlocking | done
  deriving DecidableEq, Repr

/-- The locals of `LoggerThread`. -/
structure LoggerThread where
  pc : Pc := .opening
  receiveBuffer : List UInt8 := []
  messageWrapper : UDPMessageWrapper := {}
  writeBuffer : List UInt8 := []

/-- The steps of `LoggerThread`, with what comes from outside: whether the socket
opened and joined the group, the datagram, the time. -/
inductive ThreadAction
  | openSocket (ok : Bool)
  | check
  | receive (datagram : List UInt8)
  | stamp (now : UInt64)
  | lock
  | writeSize
  | writePayload
  | unlock
  deriving DecidableEq

/-- Where a step is taken. -/
def ThreadAction.pc : ThreadAction → Pc
  | .openSocket _ => .opening
  | .check => .checking
  | .receive _ => .receiving
  | .stamp _ => .stamping
  | .lock => .locking
  | .writeSize => .writingSize
  | .writePayload => .writingPayload
  | .unlock => .unlocking

/-- What `client.recv(receive_buffer, kMaxDatagramSize, src)` leaves in the buffer.
An empty datagram stands for an error as well. -/
def recv (datagram : List UInt8) : List UInt8 := datagram.take kMaxDatagramSize

section

variable (serialize : UDPMessageWrapper → List UInt8)

/-- What a step does to the locals. -/
def LoggerThread.step (logger : ProtobufLogger) (run : Bool) (th : LoggerThread) :
    ThreadAction → LoggerThread
  | .openSocket ok =>
    if ok then
      { th with
        pc := .checking
        messageWrapper :=
          { th.messageWrapper with
            address := logger.ipAddress
            port := logger.portNumber } }
    else
      -- without a socket the thread returns
      { th with pc := .done }
  | .check => { th with pc := if run then .receiving else .done }
  | .receive datagram =>
    -- nothing received leads back to the check, and so does an error
    if recv datagram = [] then { th with pc := .checking }
    else { th with pc := .stamping, receiveBuffer := recv datagram }
  | .stamp now =>
    -- the label was set before the loop and stays
    let message := { th.messageWrapper with timestamp := now, data := th.receiveBuffer }
    { th with pc := .locking, messageWrapper := message, writeBuffer := serialize message }
  | .lock => { th with pc := .writingSize }
  | .writeSize => { th with pc := .writingPayload }
  | .writePayload => { th with pc := .unlocking }
  | .unlock => { th with pc := .checking }

/-! ## The process -/

/-- Where `main` is, once the loggers are made. -/
inductive MainPc
  | waiting | deleting | closing | returning | exited
  deriving DecidableEq, Repr

/-- The steps of `main`: the loop over `run_`, the destructors, which wait for
nothing, `fclose`, and the end of the process. -/
inductive MainAction
  | check | deleteLoggers | fclose | exit
  deriving DecidableEq

def MainAction.pc : MainAction → MainPc
  | .check => .waiting
  | .deleteLoggers => .deleting
  | .fclose => .closing
  | .exit => .returning

def MainPc.step (run : Bool) : MainAction → MainPc
  | .check => if run then .waiting else .deleting
  | .deleteLoggers => .closing
  | .fclose => .returning
  | .exit => .exited

/-- Whether `log_file_` is still open. -/
def MainPc.fileOpen : MainPc → Bool
  | .waiting | .deleting | .closing => true
  | .returning | .exited => false

/-- One call of `fwrite`. -/
structure Write (ι : Type) where
  thread : ι
  bytes : List UInt8
  deriving DecidableEq

/-- The state of the process. What `fwrite` gets before `fclose` is in `logFile`: the file
has all of it once it is closed. What it gets after that is in `lateWrites`. -/
structure LoggerState (ι : Type) where
  run : Bool := true
  loggingMutex : Option ι := none
  threads : ι → LoggerThread := fun _ => {}
  main : MainPc := .waiting
  logFile : List (Write ι) := []
  lateWrites : List (Write ι) := []

/-- The state when the loggers are made and `main` starts to wait. -/
def LoggerState.start {ι : Type} : LoggerState ι := {}

inductive Action (ι : Type)
  | thread (t : ι) (a : ThreadAction)
  | sigInt
  | main (a : MainAction)
  deriving DecidableEq

variable {ι : Type} [DecidableEq ι]

def LoggerState.fwrite (s : LoggerState ι) (t : ι) (bytes : List UInt8) : LoggerState ι :=
  if s.main.fileOpen then { s with logFile := s.logFile ++ [⟨t, bytes⟩] }
  else { s with lateWrites := s.lateWrites ++ [⟨t, bytes⟩] }

/-- What a step of thread `t` does to what the threads share. -/
def LoggerState.share (s : LoggerState ι) (t : ι) : ThreadAction → LoggerState ι
  | .lock => { s with loggingMutex := some t }
  | .writeSize => s.fwrite t (sizeBlock (s.threads t).writeBuffer)
  | .writePayload => s.fwrite t (payloadBlock (s.threads t).writeBuffer)
  | .unlock => { s with loggingMutex := none }
  | _ => s

/-- When an action can be taken. The lock waits for the mutex. -/
def LoggerState.Enabled (s : LoggerState ι) : Action ι → Prop
  | .thread t a =>
    s.main ≠ .exited ∧ (s.threads t).pc = a.pc ∧ (a = .lock → s.loggingMutex = none)
  | .sigInt => s.main ≠ .exited
  | .main a => s.main = a.pc

instance (s : LoggerState ι) : (a : Action ι) → Decidable (s.Enabled a)
  | .thread _ _ => inferInstanceAs (Decidable (_ ∧ _))
  | .sigInt => inferInstanceAs (Decidable (_ ≠ _))
  | .main _ => inferInstanceAs (Decidable (_ = _))

/-- What an action does. -/
def LoggerState.effect (loggers : ι → ProtobufLogger) (s : LoggerState ι) :
    Action ι → LoggerState ι
  | .thread t a =>
    { s.share t a with
      threads :=
        Function.update s.threads t ((s.threads t).step serialize (loggers t) s.run a) }
  | .sigInt => { s with run := false }
  | .main a => { s with main := MainPc.step s.run a }

/-- One step of the process. -/
def LoggerState.step (loggers : ι → ProtobufLogger) (s : LoggerState ι) (a : Action ι) :
    Option (LoggerState ι) :=
  if s.Enabled a then some (s.effect serialize loggers a) else none

end

end SslAutoref
