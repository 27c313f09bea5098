import SslAutoref.Model.Logger

/-!
# The sockets of the logger

`UDP::open` and `UDP::addMulticast` of `netraw.cpp`, as `LoggerThread` calls them, and
which sockets the operating system hands a multicast datagram to; and what
`PublishMessage` of `playback_main.cpp` sends. The lookup of host names is not part of the
repository: it is the function `host`, which the definitions here take as a parameter.
-/

namespace SslAutoref

/-- `htons(port)`: the low 16 bits of an `int`. -/
def udpPort (port : Int32) : UInt16 := port.toUInt32.toUInt16

/-- A socket: the port it is bound to, on every interface and shared with others, and
the groups it has joined. -/
structure Socket where
  port : Option UInt16 := none
  groups : List UInt32 := []
  deriving DecidableEq

/-- `UDP::open`: a port of zero is not bound. -/
def Socket.open (port : Int32) : Socket :=
  { port := if port ≠ 0 then some (udpPort port) else none }

/-- `UDP::addMulticast`. -/
def Socket.addMulticast (socket : Socket) (group : UInt32) : Socket :=
  { socket with groups := socket.groups ++ [group] }

section

variable (host : String → UInt32)

/-- The socket of a logger thread, `client`. -/
def ProtobufLogger.client (logger : ProtobufLogger) : Socket :=
  (Socket.open logger.portNumber).addMulticast (host logger.ipAddress)

/-- The rule of the operating system: a socket bound to a port of every interface gets a
copy of each multicast datagram to that port whose group any socket of the host has
joined. -/
def deliversTo (sockets : List Socket) (group : UInt32) (port : UInt16) (socket : Socket) :
    Bool :=
  socket.port = some port && sockets.any fun other => other.groups.contains group

/-- A datagram to a stream. It has data, no more than fit the length field of a
datagram, and a port a datagram can be sent to. -/
structure Datagram where
  address : String
  port : Int32
  data : List UInt8
  data_ne_nil : data ≠ []
  length_data_lt : data.length < 2 ^ 16
  udpPort_ne_zero : udpPort port ≠ 0

/-- What a record of a datagram says, when its label is right. -/
def Datagram.content (d : Datagram) : String × Int32 × List UInt8 := (d.address, d.port, d.data)

/-- The data of the datagrams that reach a logger, in the order they are sent. -/
def deliveredTo (loggers : List ProtobufLogger) (logger : ProtobufLogger)
    (datagrams : List Datagram) : List (List UInt8) :=
  (datagrams.filter fun d =>
    deliversTo (loggers.map (·.client host)) (host d.address) (udpPort d.port)
      (logger.client host)).map (·.data)

end

/-- `PublishMessage`: the datagram that `publisher_.send` sends to the address and the port
of a record. The system refuses what does not fit one and what has no port to go to, which
is only printed, and no data are sent where there are none. -/
def publishMessage (message : UDPMessageWrapper) : Option Datagram :=
  if h : message.data ≠ [] ∧ message.data.length < 2 ^ 16 ∧ udpPort message.port ≠ 0 then
    some
      { address := message.address
        port := message.port
        data := message.data
        data_ne_nil := h.1
        length_data_lt := h.2.1
        udpPort_ne_zero := h.2.2 }
  else none

end SslAutoref
