import Unserding.Socket

/-!
# Packing and flushing

`ud_flush`, `ud_pack_msg` and `ud_pack_cmsg` of `unserding.c`.
-/

namespace Unserding

open Foundation

def udFlush (w : SendRes) (us : Sock) : Res Sock Int :=
  if us.npk > 0 then
    let z := us.npk + hdrSize
    let send := blit us.send 0 (udHdr us.pno us.svc)
    match sendto w (send.take z) with
    | none => ⟨-1, { us with send := send }, []⟩
    | some dgram =>
        -- a short count is not acted upon, the packet counts as sent
        ⟨0, { us with send := send, npk := 0, nwr := 0, pno := us.pno + 1,
                      svc := 0 }, [.data dgram]⟩
  else
    ⟨0, { us with svc := 0 }, []⟩

def msgFits (us : Sock) (len : Nat) : Bool :=
  us.npk + 2 + len ≤ ethMtu - hdrSize

def svcSame (us : Sock) (svc : UInt16) : Bool :=
  us.svc == 0 || svc == us.svc

/-- The length of a message as `ud_pack_msg` keeps it, a `uint8_t`. -/
def UdMsg.z (msg : UdMsg) : UInt8 := UInt8.ofNat msg.dlen

def putMsg (msg : UdMsg) (us : Sock) : Sock :=
  let z := msg.z
  let p := hdrSize + us.npk
  let rs := UInt8.ofNat (z.toNat % 256)
  let xc := UInt8.ofNat (z.toNat / 256)
  let send := blit us.send p [udpcTypeData ||| xc <<< 4, rs]
  let send := blit send (p + 2) (msg.data.take z.toNat)
  { us with svc := msg.svc, send := send, npk := us.npk + 2 + z.toNat }

def udPackMsg (w : SendRes) (msg : UdMsg) (us : Sock) : Res Sock Int :=
  if !msgFits us msg.z.toNat || !svcSame us msg.svc then
    let r := udFlush w us
    if r.val < 0 then ⟨-1, r.st, r.tx⟩
    else ⟨0, putMsg msg r.st, r.tx⟩
  else
    ⟨0, putMsg msg us, []⟩

def udPack (w : SendRes) (svc : UInt16) (data : Bytes)
    (hdata : data.length < 2 ^ 64) (us : Sock) : Res Sock Int :=
  udPackMsg w ⟨svc, data, hdata⟩ us

def udPackCmsg (w : SendRes) (msg : UdMsg) (s : Lib) : Res Lib Int :=
  -- the sum is a `size_t`
  if (msg.dlen + 2) % 2 ^ 64 > ctrlMtu - hdrSize then
    ⟨-1, s, []⟩
  else
    let ctrl := blit s.g.ctrl hdrSize [udpcTypeData, UInt8.ofNat msg.dlen]
    let ctrl := blit ctrl (hdrSize + 2) msg.data
    let z := 2 + msg.dlen + hdrSize
    let ctrl := blit ctrl 0 (udHdr s.us.pno msg.svc)
    match sendto w (ctrl.take z) with
    | none => ⟨-1, { s with g := { s.g with ctrl := ctrl } }, []⟩
    | some dgram =>
        ⟨0, { g := { s.g with ctrl := ctrl },
              us := { s.us with pno := s.us.pno + 1 } }, [.ctrl dgram]⟩

end Unserding
