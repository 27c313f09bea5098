import SslAutoref.Lib.Owners

/-!
# The handles that objects own

`Net::UDP` of `netraw.cpp`, with its descriptor and its counters, and `ScopedFile` of
`misc_util.cpp`. Objects of any number are constructed, used and destroyed, by threads that
act in any order, beside the rest of the program, which has handles of its own. A system
call that the rest of the program can come in between of is a step of its own: `open` and
`Open` close the old handle in one and get the new one in another.

What the system answers is part of an action. It opens no handle that is open already.
-/

namespace SslAutoref

/-! ## `Net::UDP` -/

namespace Sockets

/-- The members of a `UDP`. -/
structure UDP where
  fd : Int := -1
  sentPackets : UInt32 := 0
  sentBytes : UInt32 := 0
  recvPackets : UInt32 := 0
  recvBytes : UInt32 := 0
  deriving DecidableEq

/-- `UDP::isOpen`. -/
def UDP.isOpen (u : UDP) : Bool := decide (0 ≤ u.fd)

/-- What `UDP::open` and `UDP::close` call `::close` with, if they do. -/
def UDP.closes (u : UDP) : Option Int := if u.isOpen = true then some u.fd else none

/-- The rest of `UDP::open`, and what it returns. The counters stay. `descriptor` is what
`socket` returns, if it does not fail, and `ttl` what setting the option returns, which
fails on a descriptor that there is none of. What `bind` returns is not looked at. -/
def UDP.open (u : UDP) (descriptor : Option Nat) (ttl : Int) : UDP × Bool :=
  match descriptor with
  | none => ({ u with fd := -1 }, false)
  | some fd => ({ u with fd := fd }, decide (ttl = 0))

/-- The rest of `UDP::close`. -/
def UDP.close (_ : UDP) : UDP := {}

/-- `UDP::send`, where `len` is what `sendto` returns, and what it returns. -/
def UDP.send (u : UDP) (length len : Int) : UDP × Bool :=
  if len > 0 then
    ({ u with
      sentPackets := u.sentPackets + 1
      sentBytes := u.sentBytes + UInt32.ofNat len.toNat }, decide (len = length))
  else (u, decide (len = length))

/-- `UDP::recv`, where `len` is what `recvfrom` returns, and what it returns. -/
def UDP.recv (u : UDP) (len : Int) : UDP × Int :=
  if len > 0 then
    ({ u with
      recvPackets := u.recvPackets + 1
      recvBytes := u.recvBytes + UInt32.ofNat len.toNat }, len)
  else (u, len)

/-- An object, and whether it is between the two halves of `open`, where the descriptor in
it is an old one. -/
inductive Object
  | ready (udp : UDP)
  | opening (udp : UDP)
  deriving DecidableEq

/-- The descriptor that an object owns. -/
def Object.fd : Object → Option Int
  | .ready u => u.closes
  | .opening _ => none

/-- What is done with an object: the constructor, the halves of `open`, the other functions,
and the destructor. -/
inductive Call
  | construct
  | reopen
  | open (descriptor : Option Nat) (ttl : Int)
  | close
  | send (length len : Int)
  | recv (len : Int)
  | destroy
  deriving DecidableEq

/-- A call on an object, or the rest of the program gets a descriptor, or closes one. -/
inductive Action (ι : Type)
  | call (i : ι) (call : Call)
  | openOther (fd : Int)
  | closeOther (fd : Int)
  deriving DecidableEq

/-- The descriptors that are open, and the objects. -/
abbrev State (ι : Type) := Owners.Table ι Int Object

/-- The process without objects, and with some descriptors. -/
def State.start (ι : Type) (descriptors : Int → Bool) : State ι where
  taken := descriptors
  others := descriptors

variable {ι : Type} [DecidableEq ι]

/-- One step. -/
def State.step (s : State ι) : Action ι → Option (State ι)
  | .call i call =>
    match s.objects i, call with
    | none, .construct => some (s.set i (some (.ready {})))
    | some (.ready u), .reopen => some ((s.release u.closes).set i (some (.opening u)))
    | some (.opening u), .open descriptor ttl =>
      if (descriptor.map Int.ofNat).any s.taken = true then none
      else
        some ((s.acquire (descriptor.map Int.ofNat)).set i
          (some (.ready (u.open descriptor ttl).1)))
    | some (.ready u), .close => some ((s.release u.closes).set i (some (.ready u.close)))
    | some (.ready u), .send length len => some (s.set i (some (.ready (u.send length len).1)))
    | some (.ready u), .recv len => some (s.set i (some (.ready (u.recv len).1)))
    | some (.ready u), .destroy => some ((s.release u.closes).set i none)
    | _, _ => none
  | .openOther fd => s.takeOther fd
  | .closeOther fd => s.dropOther fd

end Sockets

/-! ## `ScopedFile` -/

namespace ScopedFiles

variable {H : Type}

/-- An object with its `fid_`, which may be null, or in the middle of `Open`. -/
inductive Object (H : Type)
  | ready (fid : Option H)
  | opening
  deriving DecidableEq

/-- The file that an object owns, and that `Open` and the destructor call `fclose` with. -/
def Object.fid : Object H → Option H
  | .ready fid => fid
  | .opening => none

/-- The constructor that takes a file over, the one that opens it, up to `Open`, the halves
of `Open`, and the destructor. -/
inductive Call (H : Type)
  | construct (fid : Option H)
  | constructOpen
  | reopen
  | fopen (fid : Option H)
  | destroy
  deriving DecidableEq

/-- A call on an object, or the rest of the program opens a file, or closes one. -/
inductive Action (ι H : Type)
  | call (i : ι) (call : Call H)
  | openOther (fid : H)
  | closeOther (fid : H)
  deriving DecidableEq

/-- The files that are open, and the objects. -/
abbrev State (ι H : Type) := Owners.Table ι H (Object H)

/-- The process without objects, and with some open files. -/
def State.start (ι : Type) (files : H → Bool) : State ι H where
  taken := files
  others := files

variable {ι : Type} [DecidableEq ι] [DecidableEq H]

/-- One step. A file that is taken over is one that the rest of the program opened. -/
def State.step (s : State ι H) : Action ι H → Option (State ι H)
  | .call i call =>
    match s.objects i, call with
    | none, .construct none => some (s.set i (some (.ready none)))
    | none, .construct (some fid) =>
      (s.adopt fid).map fun s => s.set i (some (.ready (some fid)))
    | none, .constructOpen => some (s.set i (some .opening))
    | some (.ready fid), .reopen => some ((s.release fid).set i (some .opening))
    | some .opening, .fopen fid =>
      if fid.any s.taken = true then none
      else some ((s.acquire fid).set i (some (.ready fid)))
    | some (.ready fid), .destroy => some ((s.release fid).set i none)
    | _, _ => none
  | .openOther fid => s.takeOther fid
  | .closeOther fid => s.dropOther fid

end ScopedFiles

end SslAutoref
