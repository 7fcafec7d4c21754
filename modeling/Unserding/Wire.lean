import Unserding.Foundation.Buffer
import Unserding.Foundation.Endian

/-!
# Packets on the wire

The packet header of `struct ud_hdr_s`, the data record of one message and the
numbering of services, as `unserding.c`, `ud-private.h` and the packet chapter
of the manual have them.  Names are those of the source in camel case, so that
`ethMtu` is `ETH_MTU` and `udpcTypeData` is `UDPC_TYPE_DATA`.
-/

namespace Unserding

open Foundation

abbrev Bytes := List UInt8

def ethMtu : Nat := 1440
def ctrlMtu : Nat := 80

-- `sizeof(struct ud_hdr_s)`
def hdrSize : Nat := 8

/-! ## The header -/

def udProtoIni : UInt16 := 0x5544
def udPktfloData : UInt16 := 0xda7a

def legacyMagics : List UInt16 := [0xbeef, 0xbeee, 0xcaff, 0xcafe, 0xda7a]

def hdrIni (buf : Bytes) : UInt16 := be16At buf 0
def hdrPno (buf : Bytes) : UInt16 := be16At buf 2
def hdrCmd (buf : Bytes) : UInt16 := be16At buf 4
def hdrMagic (buf : Bytes) : UInt16 := be16At buf 6

def hdrAccepted (buf : Bytes) : Bool :=
  hdrIni buf == udProtoIni || legacyMagics.contains (hdrMagic buf)

def udHdr (pno : Nat) (cmd : UInt16) : Bytes :=
  htobe16 udProtoIni ++ htobe16 (UInt16.ofNat pno) ++ htobe16 cmd ++
    htobe16 udPktfloData

@[simp] theorem length_udHdr (pno : Nat) (cmd : UInt16) :
    (udHdr pno cmd).length = hdrSize := rfl

theorem hdrIni_udHdr (pno : Nat) (cmd : UInt16) (rest : Bytes) :
    hdrIni (udHdr pno cmd ++ rest) = udProtoIni := by
  simpa [hdrIni, udHdr, List.append_assoc] using
    be16At_append [] udProtoIni
      (htobe16 (UInt16.ofNat pno) ++ (htobe16 cmd ++
        (htobe16 udPktfloData ++ rest)))

@[simp] theorem hdrPno_udHdr (pno : Nat) (cmd : UInt16) (rest : Bytes) :
    hdrPno (udHdr pno cmd ++ rest) = UInt16.ofNat pno := by
  simpa [hdrPno, udHdr, List.append_assoc] using
    be16At_append (htobe16 udProtoIni) (UInt16.ofNat pno)
      (htobe16 cmd ++ (htobe16 udPktfloData ++ rest))

@[simp] theorem hdrCmd_udHdr (pno : Nat) (cmd : UInt16) (rest : Bytes) :
    hdrCmd (udHdr pno cmd ++ rest) = cmd := by
  simpa [hdrCmd, udHdr, List.append_assoc] using
    be16At_append (htobe16 udProtoIni ++ htobe16 (UInt16.ofNat pno)) cmd
      (htobe16 udPktfloData ++ rest)

@[simp] theorem hdrAccepted_udHdr (pno : Nat) (cmd : UInt16) (rest : Bytes) :
    hdrAccepted (udHdr pno cmd ++ rest) = true := by
  simp [hdrAccepted, hdrIni_udHdr]

/-! ## The records -/

def udpcTypeData : UInt8 := 0x0c

/--
The record of a blob: the type and the upper 4 bits of the length, the lower 8
bits of the length, and the blob.
-/
def record (blob : Bytes) : Bytes :=
  (udpcTypeData ||| UInt8.ofNat (blob.length / 256) <<< 4) ::
    UInt8.ofNat (blob.length % 256) :: blob

def isData (b : UInt8) : Bool := (b &&& 0x0f) == udpcTypeData

def recLen (b l : UInt8) : Nat := ((b &&& 0xf0) >>> 4).toNat + l.toNat

@[simp] theorem length_record (blob : Bytes) :
    (record blob).length = blob.length + 2 := rfl

theorem record_of_lt {blob : Bytes} (h : blob.length < 256) :
    record blob = udpcTypeData :: UInt8.ofNat blob.length :: blob := by
  have hdiv : blob.length / 256 = 0 := by omega
  have hmod : blob.length % 256 = blob.length := by omega
  rw [record, hdiv, hmod]
  rfl

/-! ## The services -/

def udChn (s : UInt16) : UInt16 := s / 0x100
def udSvc (c s : UInt16) : UInt16 := c * 0x100 + s

def udChnCtrl : UInt16 := 0xff
def udCtrlSvc (s : UInt16) : UInt16 := udSvc udChnCtrl s
def udSvcPing : UInt16 := 0x04

-- the services of PING and PONG packets, `0xff04` and `0xff05`
def svcPing : UInt16 := udCtrlSvc udSvcPing
def svcPong : UInt16 := udCtrlSvc (udSvcPing + 1)

def ctrlMsg (svc : UInt16) : Bool := udChn svc == udChnCtrl

theorem ctrlMsg_and_ping_iff (svc : UInt16) :
    (ctrlMsg svc = true ∧ svc &&& 0x00ff = udSvcPing) ↔ svc = svcPing := by
  constructor
  · rintro ⟨hchn, hlow⟩
    have hdiv : svc.toNat / 256 = 255 := by
      simpa [ctrlMsg, udChn, udChnCtrl, ← UInt16.toNat_inj] using hchn
    have hmod : svc.toNat % 256 = 4 := by
      have hand := congrArg UInt16.toNat hlow
      rw [UInt16.toNat_and] at hand
      exact (Nat.and_two_pow_sub_one_eq_mod svc.toNat 8).symm.trans hand
    apply UInt16.toNat_inj.mp
    change svc.toNat = 65284
    omega
  · rintro rfl
    decide

end Unserding
