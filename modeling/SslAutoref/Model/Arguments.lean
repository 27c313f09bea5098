import SslAutoref.Lib.Scanf
import SslAutoref.Model.Logger

/-!
# The arguments of the logger

`ParseAddressAndPort` and the loop over the arguments in `main` of `logger_main.cpp`. An
out parameter is given and returned, so that what is left of it shows.
-/

namespace SslAutoref

open Scanf

/-- An argument of the command line: its bytes, which an `int` can count, as those of every
argument that a process is started with. -/
structure Argument where
  text : List Char
  length_lt : text.length < 2 ^ 31

/-- `strstr(arg, ":")`: where the first colon is. -/
def strstrColon (arg : List Char) : Option Nat := arg.findIdx? (· == ':')

/-- `ParseAddressAndPort`: what it returns, and what is in `*address` and `*port` then. -/
def parseAddressAndPort (arg : Argument) (address : List Char) (port : Int32) :
    Bool × List Char × Int32 :=
  let argLen := Int32.ofNat arg.text.length
  match strstrColon arg.text with
  | none => (false, address, port)
  | some split =>
    if argLen = 0 ∨ (split : Int) + 1 = argLen.toInt then (false, address, port)
    else (true, arg.text.take split, atoi (arg.text.drop (split + 1)))

/-- What `main` makes of the arguments. -/
structure LoggerArguments where
  verbose : Bool := false
  loggers : List ProtobufLogger

/-- The loggers of SSL-Vision and of the main refbox. -/
def kDefaultLoggers : List ProtobufLogger :=
  [⟨kVisionMulticast, kVisionPort⟩, ⟨kRefereeMulticast, 10003⟩]

/-- The body of the loop over the arguments. -/
def readArgument (s : LoggerArguments) (arg : Argument) : LoggerArguments :=
  if arg.text = ['-', 'v'] then { s with verbose := true }
  else
    match parseAddressAndPort arg [] 0 with
    | (true, address, port) =>
      { s with loggers := s.loggers ++ [⟨String.ofList address, port⟩] }
    | (false, _, _) => s

/-- The arguments of `main`, without the name of the program. After `-h` or `-?` it only
prints its usage. -/
def readArguments : List Argument → Option LoggerArguments
  | [] => some { loggers := kDefaultLoggers }
  | first :: rest =>
    if first.text = ['-', 'h'] ∨ first.text = ['-', '?'] then none
    else some ((first :: rest).foldl readArgument { loggers := kDefaultLoggers })

end SslAutoref
