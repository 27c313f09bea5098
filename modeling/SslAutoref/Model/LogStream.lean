import SslAutoref.Lib.Buffered
import SslAutoref.Model.Logger

/-!
# The stream of the log file

`log_file_` of `logger_main.cpp` is a stream of `stdio`: what `fwrite` gets waits in a buffer,
which is written to the file as the library sees fit, and what is left of it when `main` calls
`fclose`. A logger that is killed before that leaves the file as it is then. Writes to the file
that fail are not modelled.
-/

namespace SslAutoref

/-- The process, and the stream behind `log_file_`. -/
structure StreamState (ι : Type) where
  process : LoggerState ι := .start
  stream : Buffered.Stream UInt8 := {}

section

variable (serialize : UDPMessageWrapper → List UInt8) {ι : Type} [DecidableEq ι]

/-- What an action does to the open stream, when `moved` bytes leave its buffer in a call of
`fwrite`. -/
def LoggerState.stream (s : LoggerState ι) (stream : Buffered.Stream UInt8) (moved : Nat) :
    Action ι → Buffered.Stream UInt8
  | .thread t .writeSize => stream.put (sizeBlock (s.threads t).writeBuffer) moved
  | .thread t .writePayload => stream.put (payloadBlock (s.threads t).writeBuffer) moved
  | .main .fclose => stream.close
  | _ => stream

/-- One step of the process. What is written to a closed stream gets nowhere. -/
def StreamState.step (loggers : ι → ProtobufLogger) (s : StreamState ι) (a : Action ι × Nat) :
    Option (StreamState ι) :=
  (s.process.step serialize loggers a.1).map fun process =>
    { process := process
      stream :=
        if s.process.main.fileOpen then s.process.stream s.stream a.2 a.1 else s.stream }

end

end SslAutoref
