import Mathlib.Logic.Function.Basic
import SslAutoref.Lib.Framing
import SslAutoref.Model.Referee

/-!
# Reading the log

`ReadUDPMessageWrapper`, `LoadRefereeCommands` and `IndexRefereeEvents` of
`evaluate_main.cpp`, over the bytes of a log file. The generated protobuf
parsers are not part of the repository: they are the two functions of
`Protobuf`, which every definition here takes as a parameter.
-/

namespace SslAutoref

/-- `UDPMessageWrapper`, with the defaults of fields that were not decoded. The
evaluator does not read the timestamp. -/
structure UDPMessageWrapper where
  address : String := ""
  port : Int32 := 0
  timestamp : UInt64 := 0
  data : List UInt8 := []
  deriving DecidableEq

/-- The generated parsers, `ParseFromArray` and `ParseFromString`: the value
they return and the message they leave behind. Both clear the message first,
so what they leave depends on the bytes alone, also when they return false. -/
structure Protobuf where
  parseUDPMessageWrapper : List UInt8 → Bool × UDPMessageWrapper
  parseSSLReferee : List UInt8 → Bool × SSLReferee

def kRefereeMulticast : String := "224.5.23.1"
def kVisionMulticast : String := "224.5.23.2"
def kVisionPort : Int32 := 10006
def kRefboxPort : UInt16 := 10003

/-- The implicit conversion of `message.port()` to the `uint16_t` keys of
`referee_map`. -/
def UDPMessageWrapper.refereePort (message : UDPMessageWrapper) : UInt16 :=
  message.port.toUInt32.toUInt16

/-- The bytes of `sizeof(uint32_t)`. -/
def kSizeWidth : Nat := 4

theorem kSizeWidth_pos : 0 < kSizeWidth := Nat.succ_pos 3

/-- `ReadUDPMessageWrapper`: the message and the rest of the file, or nothing
when it returns false. What the parser returns is not looked at. -/
def readUDPMessageWrapper (pb : Protobuf) (fid : List UInt8) :
    Option (UDPMessageWrapper × List UInt8) :=
  (Framing.readFrame kSizeWidth fid).map fun (packet, rest) =>
    ((pb.parseUDPMessageWrapper packet).2, rest)

/-- The messages `while (ReadUDPMessageWrapper(fid(), &message))` goes
through (`logMessages_eq`). -/
def logMessages (pb : Protobuf) (log : List UInt8) : List UDPMessageWrapper :=
  (Framing.readFrames kSizeWidth log).map fun packet =>
    (pb.parseUDPMessageWrapper packet).2

theorem logMessages_eq (pb : Protobuf) (log : List UInt8) :
    logMessages pb log =
      match readUDPMessageWrapper pb log with
      | none => []
      | some (message, rest) => message :: logMessages pb rest := by
  unfold logMessages readUDPMessageWrapper
  rw [Framing.readFrames_eq kSizeWidth_pos]
  cases Framing.readFrame kSizeWidth log <;> rfl

/-! ## The tables -/

/-- The global containers of the evaluator. -/
structure Tables where
  refereeCommands : List (List SSLReferee) := []
  refereeEvents : List (List RefereeEvent) := []
  refereePorts : List UInt16 := []
  refereeMap : UInt16 → Option Nat := fun _ => none

/-- `vector::resize(1)`. -/
def resizeOne {α : Type} (xs : List (List α)) : List (List α) := (xs ++ [[]]).take 1

/-- The containers when the loop over the log starts: only the human refbox. -/
def Tables.start (t : Tables) : Tables :=
  { refereeCommands := resizeOne t.refereeCommands
    refereeEvents := resizeOne t.refereeEvents
    refereePorts := t.refereePorts ++ [kRefboxPort]
    refereeMap := Function.update (fun _ => none) kRefboxPort (some 0) }

/-- Allocate space for a referee that was not seen before. -/
def Tables.addReferee (t : Tables) (port : UInt16) : Tables :=
  { refereeCommands := t.refereeCommands ++ [[]]
    refereeEvents := t.refereeEvents ++ [[]]
    refereePorts := t.refereePorts ++ [port]
    refereeMap := Function.update t.refereeMap port (some t.refereeCommands.length) }

/-- Append a command to a referee's list when the list is empty or its last
counter is smaller. -/
def pushCommand (refereeMessage : SSLReferee) (referee : List SSLReferee) :
    List SSLReferee :=
  match referee.getLast? with
  | none => referee ++ [refereeMessage]
  | some back =>
    if back.commandCounter < refereeMessage.commandCounter then
      referee ++ [refereeMessage]
    else referee

/-- A referee message of `port`: find the referee, or make space for it, and
offer it the message. -/
def Tables.addMessage (t : Tables) (port : UInt16) (refereeMessage : SSLReferee) :
    Tables :=
  let t := match t.refereeMap port with
    | none => t.addReferee port
    | some _ => t
  match t.refereeMap port with
  | none => t
  | some it =>
    { t with refereeCommands :=
        t.refereeCommands.modify it (pushCommand refereeMessage) }

/-- The body of the loop of `LoadRefereeCommands`. A vision message is parsed
and forgotten; a referee message is used whether or not it parsed. -/
def loadMessage (pb : Protobuf) (t : Tables) (message : UDPMessageWrapper) : Tables :=
  if message.address = kVisionMulticast ∧ message.port = kVisionPort then t
  else if message.address = kRefereeMulticast then
    t.addMessage message.refereePort (pb.parseSSLReferee message.data).2
  else t

/-- `LoadRefereeCommands` on a log file with the given bytes. -/
def loadRefereeCommands (pb : Protobuf) (log : List UInt8) (t : Tables) : Tables :=
  (logMessages pb log).foldl (loadMessage pb) t.start

/-! ## Indexing events -/

/-- One command of a referee: the accumulator is `t_last_stop` and the events
pushed so far. -/
def indexCommand (s : UInt64 × List RefereeEvent) (command : SSLReferee) :
    UInt64 × List RefereeEvent :=
  match command.command with
  | .stop => (command.commandTimestamp, s.2)
  | .directFreeYellow | .directFreeBlue
  | .indirectFreeYellow | .indirectFreeBlue
  | .goalYellow | .goalBlue =>
    (0, s.2 ++
      [{ stopTimestamp := s.1
         commandTimestamp := command.commandTimestamp
         commandCounter := command.commandCounter
         command := command.command }])
  | _ => s

/-- The events `IndexRefereeEvents` pushes for one referee. -/
def indexReferee (referee : List SSLReferee) : List RefereeEvent :=
  (referee.foldl indexCommand (0, [])).2

/-- `IndexRefereeEvents`: every referee's events are appended to its list. -/
def indexRefereeEvents (t : Tables) : Tables :=
  { t with refereeEvents := t.refereeEvents.mapIdx fun i events =>
      match t.refereeCommands[i]? with
      | none => events
      | some referee => events ++ indexReferee referee }

end SslAutoref
