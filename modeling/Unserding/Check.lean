import Unserding.Pong

/-!
# Checking

`ud_dscrd`, `ud_chck_msg` and its callers of `unserding.c`, with the reply to
PING packets, and `ud_chck_ping` of `svc-pong.c`.
-/

namespace Unserding

open Foundation

def udDscrd (rx : Option Arrival) (us : Sock) : Res Sock Int :=
  if us.nrd = 0 then
    match rx with
    | none => ⟨-1, us, []⟩
    | some d =>
        let us := recvfrom d us
        if d.nrd < hdrSize then ⟨-1, us, []⟩
        else if !hdrAccepted us.recv then ⟨-1, us, []⟩
        else ⟨0, { us with nrd := d.nrd - hdrSize, nck := 0 }, []⟩
  else
    ⟨0, { us with nrd := 0, nck := 0 }, []⟩

def udChckCmsg (e : Env) (s : Lib) : Res Lib Int :=
  let svc := hdrCmd s.us.recv
  if !ctrlMsg svc then ⟨-1, s, []⟩
  else if svc &&& 0x00ff = udSvcPing then
    let r := udPackPong 1 e s
    ⟨0, r.st, r.tx⟩
  else ⟨0, s, []⟩

/-- The part of `ud_chck_msg` that reads the record at the cursor. -/
def takeMsg (svc : UInt16) (us : Sock) : Option MsgRef × Sock :=
  let p := us.nck
  if !isData (us.plAt p) then
    (none, { us with nrd := 0, nck := 0 })
  else
    let dlen := recLen (us.plAt p) (us.plAt (p + 1))
    (some ⟨svc, p + 2, dlen⟩, { us with nck := us.nck + dlen + 2 })

/-- `ud_chck_msg` once there is something to check. -/
def chckMsg (e : Env) (s : Lib) : Res Lib (Option MsgRef) :=
  let svc := hdrCmd s.us.recv
  let r := if ctrlMsg svc then udChckCmsg e s else ⟨0, s, []⟩
  let taken := takeMsg svc r.st.us
  ⟨taken.1, { r.st with us := taken.2 }, r.tx⟩

/-- The message is `none` where the C function returns -1. -/
def udChckMsg (e : Env) (s : Lib) : Res Lib (Option MsgRef) :=
  if s.us.nck ≥ s.us.nrd then
    let r := udDscrd e.rx s.us
    if r.val < 0 then ⟨none, { s with us := r.st }, []⟩
    else if r.st.nck ≥ r.st.nrd then ⟨none, { s with us := r.st }, []⟩
    else chckMsg e { s with us := r.st }
  else
    chckMsg e s

def udChck (tsz : Nat) (e : Env) (s : Lib) : Res Lib (Option (UInt16 × Bytes)) :=
  let r := udChckMsg e s
  let copied := r.val.map fun msg =>
    (msg.svc, r.st.us.deref { msg with dlen := min msg.dlen tsz })
  ⟨copied, r.st, r.tx⟩

/-- `struct ud_auxmsg_s`; `src` is what the pointer goes to. -/
structure UdAuxmsg where
  src : Bytes
  pno : UInt16
  svc : UInt16
  len : UInt32

def udGetAux (us : Sock) : Option UdAuxmsg :=
  if us.nrd = 0 then none
  else some ⟨us.src.sa, hdrPno us.recv, hdrCmd us.recv, UInt32.ofNat us.nrd⟩

/--
What `ud_chck_ping` fills in; `hn` is the memory `hostname` points to, the rest
of `__msg`.
-/
structure PingRef where
  hn : Bytes
  hostnlen : Nat
  pid : Int32
  what : PingWhat

def inspectPing (msg : MsgRef) (data buf : Bytes) : Option PingRef × Bytes :=
  let buf := blit buf 0 data
  let hnz := buf.getD 4 0
  if hnz > maxHnz then (none, buf)
  else
    let buf := blit buf (hnOffset + hnz.toNat) [0]
    (some
      { hn := buf.drop hnOffset
        hostnlen := hnz.toNat
        pid := (be32At buf 0).toInt32
        what := if msg.svc &&& 0x01 ≠ 0 then .pong else .ping }, buf)

def udChckPing (e : Env) (s : Lib) : Res Lib (Option PingRef) :=
  let r := udChckMsg e s
  match r.val with
  | none => ⟨none, r.st, r.tx⟩
  | some msg =>
      if msg.dlen > pingMsgSize then ⟨none, r.st, r.tx⟩
      else if msg.svc &&& 0xfffe ≠ udCtrlSvc udSvcPing then
        ⟨none, r.st, r.tx⟩
      else
        let seen := inspectPing msg (r.st.us.deref msg) r.st.g.msg
        ⟨seen.1, { r.st with g := { r.st.g with msg := seen.2 } }, r.tx⟩

end Unserding
