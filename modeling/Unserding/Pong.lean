import Unserding.Pack

/-!
# Ping and pong packets

`ud_pack_ping` and `ud_pack_pong` of `svc-pong.c`.
-/

namespace Unserding

open Foundation

def maxHnz : UInt8 := UInt8.ofNat (pingMsgSize - 6)

/-- `offsetof(struct __ping_s, hn)`. -/
def hnOffset : Nat := 5

def hnzOf (hostnlen : Nat) : UInt8 :=
  let hnz := UInt8.ofNat hostnlen
  if hnz > maxHnz then UInt8.ofNat (pingMsgSize - 5) else hnz

def putPing (msg : SvcPing) (buf : Bytes) : Bytes :=
  let hnz := hnzOf msg.hostname.length
  let buf := blit buf 0 (htobe32 msg.pid.toUInt32)
  let buf := blit buf 4 [hnz]
  blit buf hnOffset (msg.hostname.take hnz.toNat)

def pingCmd : PingWhat → Option UInt16
  | .ping => some (udCtrlSvc udSvcPing)
  | .pong => some (udCtrlSvc (udSvcPing + 1))
  | .other _ => none

def pingMsg (cmd : UInt16) (hnz : UInt8) (buf : Bytes) : UdMsg where
  svc := cmd
  data := buf.take (hnOffset + hnz.toNat)
  dlen_lt := by
    have hhnz := hnz.toNat_lt
    have htake := List.length_take_le (hnOffset + hnz.toNat) buf
    unfold hnOffset at htake ⊢
    omega

def udPackPing (w₁ w₂ : SendRes) (msg : SvcPing) (s : Lib) : Res Lib Int :=
  match pingCmd msg.what with
  | none => ⟨-1, s, []⟩
  | some cmd =>
      let buf := putPing msg s.g.msg
      -- the result of the flush is ignored
      let flushed := udFlush w₁ s.us
      let packed := udPackCmsg w₂
        (pingMsg cmd (hnzOf msg.hostname.length) buf)
        { g := { s.g with msg := buf }, us := flushed.st }
      ⟨packed.val, packed.st, flushed.tx ++ packed.tx⟩

def posixHostNameMax : Nat := 255

/-- The string in `hname` once its last byte is overwritten with NUL. -/
def hname (name : Bytes) : Bytes :=
  (name.takeWhile (· != 0)).take (posixHostNameMax - 1)

def udPackPong (pongp : Nat) (e : Env) (s : Lib) : Res Lib Int :=
  let po? :=
    if s.g.po.hostname.length = 0 then
      e.hostname.map fun name =>
        { s.g.po with hostname := hname name, pid := e.pid }
    else some s.g.po
  match po? with
  | none => ⟨-1, s, []⟩
  | some po =>
      let po := { po with what := if pongp ≠ 0 then .pong else .ping }
      udPackPing e.w₁ e.w₂ po { s with g := { s.g with po := po } }

end Unserding
