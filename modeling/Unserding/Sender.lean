import Unserding.Calls
import Unserding.Foundation.Outbox

/-!
# The sending half

The bytes of `send.pl` below `npk` hold the records of an abstract outbox, and
every packing call is a few acts of that outbox.
-/

namespace Unserding

open Foundation

/-! ## The two halves of a socket -/

structure Inbox where
  src : UdSockaddr
  nrd : Nat
  nck : Nat
  recv : Bytes

def Sock.inbox (us : Sock) : Inbox := ⟨us.src, us.nrd, us.nck, us.recv⟩

structure Tray where
  pno : Nat
  svc : UInt16
  npk : Nat
  send : Bytes

def Sock.tray (us : Sock) : Tray := ⟨us.pno, us.svc, us.npk, us.send⟩

theorem Sock.eq_of_inbox {us us' : Sock} (h : us'.inbox = us.inbox) :
    us'.src = us.src ∧ us'.nrd = us.nrd ∧ us'.nck = us.nck ∧
      us'.recv = us.recv := by
  simpa [Sock.inbox] using h

theorem Sock.eq_of_tray {us us' : Sock} (h : us'.tray = us.tray) :
    us'.pno = us.pno ∧ us'.svc = us.svc ∧ us'.npk = us.npk ∧
      us'.send = us.send := by
  simpa [Sock.tray] using h

theorem udFlush_inbox (w : SendRes) (us : Sock) :
    (udFlush w us).st.inbox = us.inbox := by
  unfold udFlush
  split
  · cases w <;> rfl
  · rfl

theorem udPackMsg_inbox (w : SendRes) (msg : UdMsg) (us : Sock) :
    (udPackMsg w msg us).st.inbox = us.inbox := by
  simp only [udPackMsg]
  split
  · split
    · exact udFlush_inbox w us
    · exact udFlush_inbox w us
  · rfl

theorem udPackCmsg_inbox (w : SendRes) (msg : UdMsg) (s : Lib) :
    (udPackCmsg w msg s).st.us.inbox = s.us.inbox := by
  simp only [udPackCmsg]
  split
  · rfl
  · cases w <;> rfl

theorem udPackPing_inbox (w₁ w₂ : SendRes) (msg : SvcPing) (s : Lib) :
    (udPackPing w₁ w₂ msg s).st.us.inbox = s.us.inbox := by
  unfold udPackPing
  cases pingCmd msg.what with
  | none => rfl
  | some cmd => exact (udPackCmsg_inbox _ _ _).trans (udFlush_inbox w₁ s.us)

theorem udPackPong_inbox (pongp : Nat) (e : Env) (s : Lib) :
    (udPackPong pongp e s).st.us.inbox = s.us.inbox := by
  simp only [udPackPong]
  split
  · rfl
  · exact udPackPing_inbox _ _ _ _

/-! ## The send buffer -/

structure Sock.SendSane (us : Sock) : Prop where
  send_length : us.send.length = ethMtu
  npk_le : us.npk ≤ ethMtu - hdrSize

theorem Sock.fresh_sendSane : Sock.fresh.SendSane :=
  ⟨by simp [Sock.fresh], by simp [Sock.fresh]⟩

theorem Sock.take_stamped (us : Sock) (pno : Nat) (cmd : UInt16) :
    (blit us.send 0 (udHdr pno cmd)).take (us.npk + hdrSize) =
      udHdr pno cmd ++ us.pending := by
  rw [← window_from_zero, Nat.add_comm us.npk hdrSize, window_add]
  have hhdr : window (blit us.send 0 (udHdr pno cmd)) 0 hdrSize =
      udHdr pno cmd := window_blit_self (Nat.zero_le _)
  rw [hhdr, Nat.zero_add, window_blit_above (Nat.zero_le _) (by simp)]
  rfl

section Buffer

variable {us : Sock} (h : us.SendSane)

include h

theorem Sock.SendSane.length_pending : us.pending.length = us.npk := by
  have hlen := h.send_length
  have hnpk := h.npk_le
  exact length_window (by unfold ethMtu hdrSize at *; omega)

end Buffer

def UdMsg.wire (msg : UdMsg) : Bytes :=
  udpcTypeData :: msg.z :: msg.data.take msg.z.toNat

theorem UdMsg.z_toNat (msg : UdMsg) : msg.z.toNat = msg.dlen % 256 := by
  simp [UdMsg.z]

theorem UdMsg.length_wire (msg : UdMsg) :
    msg.wire.length = msg.z.toNat + 2 := by
  have hz := msg.z_toNat
  have hle : msg.z.toNat ≤ msg.data.length := by
    rw [hz]
    exact Nat.mod_le _ _
  simp [UdMsg.wire, hle]

theorem UdMsg.wire_ne_nil (msg : UdMsg) : msg.wire ≠ [] := by
  simp [UdMsg.wire]

theorem UdMsg.wire_eq_record {msg : UdMsg} (h : msg.dlen < 256) :
    msg.wire = record msg.data := by
  have hz : msg.z.toNat = msg.data.length := by
    rw [msg.z_toNat, Nat.mod_eq_of_lt h, UdMsg.dlen]
  rw [record_of_lt h, UdMsg.wire, hz, List.take_length]
  rfl

theorem putMsg_header (z : UInt8) :
    [udpcTypeData ||| UInt8.ofNat (z.toNat / 256) <<< 4,
      UInt8.ofNat (z.toNat % 256)] = [udpcTypeData, z] := by
  have hz := z.toNat_lt
  have hdiv : z.toNat / 256 = 0 := by omega
  have hmod : z.toNat % 256 = z.toNat := by omega
  rw [hdiv, hmod, UInt8.ofNat_toNat]
  rfl

section Put

variable {us : Sock} {msg : UdMsg} (h : us.SendSane)
  (hfits : msgFits us msg.z.toNat = true)

include h hfits

theorem putMsg_room : hdrSize + us.npk + msg.wire.length ≤ us.send.length := by
  have hroom : us.npk + 2 + msg.z.toNat ≤ ethMtu - hdrSize := by
    simpa [msgFits] using hfits
  rw [h.send_length, msg.length_wire]
  unfold ethMtu hdrSize at *
  omega

theorem putMsg_send :
    (putMsg msg us).send = blit us.send (hdrSize + us.npk) msg.wire := by
  have hroom := putMsg_room h hfits
  simp only [putMsg, putMsg_header]
  exact blit_blit (by omega)

theorem putMsg_sendSane : (putMsg msg us).SendSane := by
  have hroom : us.npk + 2 + msg.z.toNat ≤ ethMtu - hdrSize := by
    simpa [msgFits] using hfits
  constructor
  · rw [putMsg_send h hfits, length_blit (putMsg_room h hfits), h.send_length]
  · exact hroom

theorem putMsg_pending :
    (putMsg msg us).pending = us.pending ++ msg.wire := by
  have hroom := putMsg_room h hfits
  have hnpk : (putMsg msg us).npk = us.npk + msg.wire.length := by
    rw [msg.length_wire, Nat.add_comm msg.z.toNat, ← Nat.add_assoc]
    rfl
  rw [Sock.pending, putMsg_send h hfits, hnpk, window_add]
  congr 1
  · exact window_blit_below (by omega) (by omega)
  · exact window_blit_self (by omega)

end Put

/-! ## What the packers do -/

theorem SendRes.Atomic.sendto {w : SendRes} (hw : w.Atomic) (b : Bytes) :
    sendto w b = none ∨ sendto w b = some b := by
  cases w with
  | fail => exact .inl rfl
  | full => exact .inr rfl
  | short nwr => exact hw.elim

def Sock.packet (us : Sock) : Bytes := udHdr us.pno us.svc ++ us.pending

theorem Sock.SendSane.length_packet_le {us : Sock} (h : us.SendSane) :
    us.packet.length ≤ ethMtu := by
  have hnpk := h.npk_le
  rw [Sock.packet, List.length_append, length_udHdr, h.length_pending]
  unfold ethMtu hdrSize at *
  omega

-- The socket after a flush: with nothing packed, with a failed `sendto`, and
-- with its packet sent.
def Sock.cleared (us : Sock) : Sock := { us with svc := 0 }

def Sock.stamped (us : Sock) : Sock :=
  { us with send := blit us.send 0 (udHdr us.pno us.svc) }

def Sock.shipped (us : Sock) : Sock :=
  { us.stamped with npk := 0, nwr := 0, pno := us.pno + 1, svc := 0 }

theorem udFlush_cases (w : SendRes) (us : Sock) :
    (us.npk = 0 ∧ udFlush w us = ⟨0, us.cleared, []⟩) ∨
    (0 < us.npk ∧ sendto w us.packet = none ∧
      udFlush w us = ⟨-1, us.stamped, []⟩) ∨
    (0 < us.npk ∧ ∃ dgram, sendto w us.packet = some dgram ∧
      udFlush w us = ⟨0, us.shipped, [.data dgram]⟩) := by
  by_cases hnpk : us.npk > 0
  · simp only [udFlush, hnpk, if_true, Sock.take_stamped]
    cases hsend : sendto w (udHdr us.pno us.svc ++ us.pending) with
    | none => exact .inr (.inl ⟨trivial, hsend, rfl⟩)
    | some dgram => exact .inr (.inr ⟨trivial, dgram, hsend, rfl⟩)
  · exact .inl ⟨by omega, by simp [udFlush, hnpk, Sock.cleared]⟩

theorem udFlush_full_npk (us : Sock) : (udFlush .full us).st.npk = 0 := by
  rcases udFlush_cases .full us with
    ⟨hnpk, heq⟩ | ⟨-, hsend, -⟩ | ⟨-, dgram, -, heq⟩
  · rw [heq]
    exact hnpk
  · contradiction
  · rw [heq]
    rfl

@[simp] theorem Sock.cleared_pending (us : Sock) :
    us.cleared.pending = us.pending := rfl

@[simp] theorem Sock.stamped_pending (us : Sock) :
    us.stamped.pending = us.pending :=
  window_blit_above (Nat.zero_le _) (by simp)

@[simp] theorem Sock.shipped_pending (us : Sock) : us.shipped.pending = [] :=
  window_zero _ _

theorem Sock.SendSane.cleared {us : Sock} (h : us.SendSane) :
    us.cleared.SendSane := ⟨h.send_length, h.npk_le⟩

theorem Sock.SendSane.stamped {us : Sock} (h : us.SendSane) :
    us.stamped.SendSane := by
  refine ⟨?_, h.npk_le⟩
  have hlen := h.send_length
  have hroom : 0 + (udHdr us.pno us.svc).length ≤ us.send.length := by
    rw [hlen]
    simp [ethMtu, hdrSize]
  exact (length_blit hroom).trans hlen

theorem Sock.SendSane.shipped {us : Sock} (h : us.SendSane) :
    us.shipped.SendSane := ⟨h.stamped.send_length, Nat.zero_le _⟩

theorem msgFits_of_npk_eq_zero {us : Sock} (h : us.npk = 0) (z : UInt8) :
    msgFits us z.toNat = true := by
  have hz := z.toNat_lt
  simp only [msgFits, h, decide_eq_true_eq]
  unfold ethMtu hdrSize
  omega

theorem udPackMsg_cases (w : SendRes) (msg : UdMsg) (us : Sock) :
    (msgFits us msg.z.toNat = true ∧ svcSame us msg.svc = true ∧
      udPackMsg w msg us = ⟨0, putMsg msg us, []⟩) ∨
    (¬ (msgFits us msg.z.toNat = true ∧ svcSame us msg.svc = true) ∧
      ((us.npk = 0 ∧ udPackMsg w msg us = ⟨0, putMsg msg us.cleared, []⟩) ∨
      (0 < us.npk ∧ sendto w us.packet = none ∧
        udPackMsg w msg us = ⟨-1, us.stamped, []⟩) ∨
      (0 < us.npk ∧ ∃ dgram, sendto w us.packet = some dgram ∧
        udPackMsg w msg us =
          ⟨0, putMsg msg us.shipped, [.data dgram]⟩))) := by
  by_cases hstay : msgFits us msg.z.toNat = true ∧ svcSame us msg.svc = true
  · exact .inl ⟨hstay.1, hstay.2, by simp [udPackMsg, hstay.1, hstay.2]⟩
  · have hflush : (!msgFits us msg.z.toNat || !svcSame us msg.svc) = true := by
      simpa [or_iff_not_imp_left] using hstay
    refine .inr ⟨hstay, ?_⟩
    simp only [udPackMsg, hflush, if_true]
    rcases udFlush_cases w us with
      ⟨hnpk, heq⟩ | ⟨hnpk, hsend, heq⟩ | ⟨hnpk, dgram, hsend, heq⟩
    · exact .inl ⟨hnpk, by simp [heq]⟩
    · exact .inr (.inl ⟨hnpk, hsend, by simp [heq]⟩)
    · exact .inr (.inr ⟨hnpk, dgram, hsend, by simp [heq]⟩)

def UdMsg.ctrlWire (msg : UdMsg) : Bytes :=
  udpcTypeData :: UInt8.ofNat msg.dlen :: msg.data

def ctrlPacket (pno : Nat) (msg : UdMsg) : Bytes :=
  udHdr pno msg.svc ++ msg.ctrlWire

theorem udPackCmsg_cases (w : SendRes) (msg : UdMsg) {s : Lib}
    (hg : ctrlMtu ≤ s.g.ctrl.length) :
    ((msg.dlen + 2) % 2 ^ 64 > ctrlMtu - hdrSize ∧
      udPackCmsg w msg s = ⟨-1, s, []⟩) ∨
    (¬ (msg.dlen + 2) % 2 ^ 64 > ctrlMtu - hdrSize ∧
      ∃ ctrl, ctrlMtu ≤ ctrl.length ∧
      ((sendto w (ctrlPacket s.us.pno msg) = none ∧
        udPackCmsg w msg s = ⟨-1, ⟨{ s.g with ctrl := ctrl }, s.us⟩, []⟩) ∨
      (∃ dgram, sendto w (ctrlPacket s.us.pno msg) = some dgram ∧
        udPackCmsg w msg s =
          ⟨0, ⟨{ s.g with ctrl := ctrl }, { s.us with pno := s.us.pno + 1 }⟩,
            [.ctrl dgram]⟩))) := by
  by_cases hsize : (msg.dlen + 2) % 2 ^ 64 > ctrlMtu - hdrSize
  · exact .inl ⟨hsize, by rw [udPackCmsg, if_pos hsize]⟩
  · have hoff : hdrSize ≤ s.g.ctrl.length := by
      unfold ctrlMtu hdrSize at *
      omega
    have hrec : blit (blit s.g.ctrl hdrSize
        [udpcTypeData, UInt8.ofNat msg.dlen]) (hdrSize + 2) msg.data =
          blit s.g.ctrl hdrSize msg.ctrlWire := blit_blit hoff
    have hpacket : (blit (blit s.g.ctrl hdrSize msg.ctrlWire) 0
        (udHdr s.us.pno msg.svc)).take (2 + msg.dlen + hdrSize) =
          ctrlPacket s.us.pno msg := by
      have hhdr : window (blit (blit s.g.ctrl hdrSize msg.ctrlWire) 0
          (udHdr s.us.pno msg.svc)) 0 hdrSize = udHdr s.us.pno msg.svc :=
        window_blit_self (Nat.zero_le _)
      have hlen : 2 + msg.dlen = msg.ctrlWire.length := by
        simp [UdMsg.ctrlWire, UdMsg.dlen]
        omega
      rw [← window_from_zero, Nat.add_comm _ hdrSize, window_add, hhdr,
        Nat.zero_add, window_blit_above (Nat.zero_le _) (by simp), hlen,
        window_blit_self hoff]
      rfl
    refine .inr ⟨hsize, blit (blit s.g.ctrl hdrSize msg.ctrlWire) 0
      (udHdr s.us.pno msg.svc), ?_, ?_⟩
    · exact hg.trans ((le_length_blit hoff).trans
        (le_length_blit (Nat.zero_le _)))
    · simp only [udPackCmsg, if_neg hsize, hrec, hpacket]
      cases hsend : sendto w (ctrlPacket s.us.pno msg) with
      | none => exact .inl ⟨rfl, rfl⟩
      | some dgram => exact .inr ⟨dgram, rfl, rfl⟩

end Unserding
