import Unserding.Wire

/-!
# Sockets and the kernel

The state of one `struct __sock_s` with its two packet buffers and cursors, and
the three system calls the packers and checkers make.  What the kernel answers
is a parameter of every call: a `sendto` may fail, send in full or fall short,
a `recvfrom` may fail or hand over any datagram.
-/

namespace Unserding

open Foundation

/-! ## Messages -/

/-- A `struct ud_msg_s` to be packed; its length is a `size_t`. -/
structure UdMsg where
  svc : UInt16
  data : Bytes
  dlen_lt : data.length < 2 ^ 64 := by decide
  deriving DecidableEq

def UdMsg.dlen (msg : UdMsg) : Nat := msg.data.length

/--
A `struct ud_msg_s` filled in by `ud_chck_msg`.  The pointer `data` goes into
the receive buffer and is kept as an offset into `recv.pl`.
-/
structure MsgRef where
  svc : UInt16
  data : Nat
  dlen : Nat
  deriving DecidableEq, Repr

/-! ## The socket -/

def sockaddrIn6Size : Nat := 28

def sockaddrStorageSize : Nat := 128

abbrev SockaddrIn6 := Vector UInt8 sockaddrIn6Size

structure UdSockaddr where
  sz : Nat
  sa : Bytes
  deriving DecidableEq

/--
The fields of `struct __sock_s` that packing and checking work on.  The packet
number is a C `int` that starts at 0 and is only ever incremented; packets carry
its low 16 bits.
-/
structure Sock where
  pno : Nat
  svc : UInt16
  src : UdSockaddr
  nrd : Nat
  nck : Nat
  recv : Bytes
  nwr : Nat
  npk : Nat
  send : Bytes
  deriving DecidableEq

/-- The zeroed mapping of `ud_socket` with the length of `src` filled in. -/
def Sock.fresh : Sock where
  pno := 0
  svc := 0
  src := ⟨sockaddrStorageSize, List.replicate sockaddrStorageSize 0⟩
  nrd := 0
  nck := 0
  recv := List.replicate ethMtu 0
  nwr := 0
  npk := 0
  send := List.replicate ethMtu 0

def sizeBytes (n : Nat) : Bytes :=
  (List.range 8).map fun i => UInt8.ofNat (n / 256 ^ i)

/--
Memory from `recv` to the end of the socket.  Behind the 1440 bytes of `recv`
lie `nwr` and `npk`, and `send` follows without a gap since it is aligned to
16 bytes.
-/
def Sock.mem (us : Sock) : Bytes :=
  us.recv ++ sizeBytes us.nwr ++ sizeBytes us.npk ++ us.send

def Sock.plAt (us : Sock) (i : Nat) : UInt8 := us.mem.getD (hdrSize + i) 0

def Sock.deref (us : Sock) (msg : MsgRef) : Bytes :=
  window us.mem (hdrSize + msg.data) msg.dlen

def Sock.pending (us : Sock) : Bytes := window us.send hdrSize us.npk

def Sock.unread (us : Sock) : Bytes :=
  window us.recv (hdrSize + us.nck) (us.nrd - us.nck)

/-! ## System calls -/

/-- What a `sendto` does: fail, send in full, or send a part and say so. -/
inductive SendRes where
  | fail
  | full
  | short (nwr : Nat)
  deriving DecidableEq, Repr

def SendRes.Atomic : SendRes → Prop
  | .fail | .full => True
  | .short _ => False

def sendto (w : SendRes) (b : Bytes) : Option Bytes :=
  match w with
  | .fail => none
  | .full => some b
  | .short nwr => some (b.take nwr)

structure Arrival where
  bytes : Bytes
  src : SockaddrIn6
  deriving DecidableEq

def Arrival.nrd (d : Arrival) : Nat := min d.bytes.length ethMtu

/--
The buffers after a `recvfrom` of `d`.  The address is cut at the room given
and its own size is stored.
-/
def recvfrom (d : Arrival) (us : Sock) : Sock :=
  { us with
    recv := blit us.recv 0 (d.bytes.take ethMtu)
    src := ⟨sockaddrIn6Size, blit us.src.sa 0 (d.src.toList.take us.src.sz)⟩ }

inductive Tx where
  -- sent by `ud_flush` and by `ud_pack_cmsg`
  | data (dgram : Bytes)
  | ctrl (dgram : Bytes)
  deriving DecidableEq, Repr

def Tx.dgram : Tx → Bytes
  | .data dgram | .ctrl dgram => dgram

def dataSent (txs : List Tx) : List Bytes :=
  txs.filterMap fun
    | .data dgram => some dgram
    | .ctrl _ => none

structure Res (σ α : Type) where
  val : α
  st : σ
  tx : List Tx

/-! ## The process around the sockets -/

/-- The enumeration in `struct svc_ping_s`, and the values outside it. -/
inductive PingWhat where
  | ping
  | pong
  | other (what : UInt32)
  deriving DecidableEq, Repr

/-- `struct svc_ping_s`; `hostnlen` is the length of `hostname`. -/
structure SvcPing where
  hostname : Bytes
  pid : Int32
  what : PingWhat
  deriving DecidableEq

/-- The static variables all sockets of a process share. -/
structure Statics where
  -- `__msg` of `svc-pong.c`, `po` of `ud_pack_pong`, `ctrl` of `ud_pack_cmsg`
  msg : Bytes
  po : SvcPing
  ctrl : Bytes
  deriving DecidableEq

def pingMsgSize : Nat := 64

def Statics.init : Statics where
  msg := List.replicate pingMsgSize 0
  po := ⟨[], 0, .ping⟩
  ctrl := List.replicate ctrlMtu 0

structure Lib where
  g : Statics
  us : Sock
  deriving DecidableEq

def Lib.fresh : Lib := ⟨Statics.init, Sock.fresh⟩

/-- What the system answers to the calls nested in one library call. -/
structure Env where
  -- what `recvfrom` reads, if it is called, and `gethostname` and `getpid`
  rx : Option Arrival
  hostname : Option Bytes
  pid : Int32
  -- the `sendto` of `ud_flush` and the one of `ud_pack_cmsg`
  w₁ : SendRes
  w₂ : SendRes

end Unserding
