import Unserding.Sanity

/-!
# Control packets

`ud_pack_cmsg` builds its packets in a static buffer of its own.  For messages
that fit it they are the packets the data path would send, and the data path
does not notice.
-/

namespace Unserding

open Foundation

theorem ctrlWire_eq_record {msg : UdMsg} (h : msg.dlen < 256) :
    msg.ctrlWire = record msg.data :=
  (record_of_lt h).symm

theorem putMsg_packet {us : Sock} (hs : us.SendSane) (hnpk : us.npk = 0)
    {msg : UdMsg} (hdlen : msg.dlen < 256) :
    (putMsg msg us).packet = ctrlPacket us.pno msg := by
  have hnone : us.pending = [] := by
    rw [Sock.pending, hnpk]
    exact window_zero _ _
  have hpending := putMsg_pending hs (msgFits_of_npk_eq_zero hnpk msg.z)
  rw [hnone, List.nil_append, UdMsg.wire_eq_record hdlen] at hpending
  rw [Sock.packet, hpending, ctrlPacket, ctrlWire_eq_record hdlen]
  rfl

theorem udPackMsg_udFlush {us : Sock} (hs : us.SendSane) (hnpk : us.npk = 0)
    {msg : UdMsg} (hdlen : msg.dlen < 256) {w : SendRes} {dgram : Bytes}
    (hsend : sendto w (ctrlPacket us.pno msg) = some dgram) (w' : SendRes) :
    (udPackMsg w' msg us).val = 0 ∧ (udPackMsg w' msg us).tx = [] ∧
      (udFlush w (udPackMsg w' msg us).st).val = 0 ∧
      (udFlush w (udPackMsg w' msg us).st).tx = [.data dgram] ∧
      (udFlush w (udPackMsg w' msg us).st).st.pno = us.pno + 1 := by
  have hput : ∃ us₀ : Sock, us₀.SendSane ∧ us₀.npk = 0 ∧ us₀.pno = us.pno ∧
      udPackMsg w' msg us = ⟨0, putMsg msg us₀, []⟩ := by
    rcases udPackMsg_cases w' msg us with ⟨-, -, heq⟩ |
      ⟨-, ⟨-, heq⟩ | ⟨hpos, -⟩ | ⟨hpos, -⟩⟩
    · exact ⟨us, hs, hnpk, rfl, heq⟩
    · exact ⟨us.cleared, hs.cleared, hnpk, rfl, heq⟩
    · omega
    · omega
  obtain ⟨us₀, hs₀, hnpk₀, hpno, heq⟩ := hput
  have hpacket := putMsg_packet hs₀ hnpk₀ hdlen
  rw [hpno] at hpacket
  rw [heq]
  refine ⟨rfl, rfl, ?_⟩
  rcases udFlush_cases w (putMsg msg us₀) with ⟨hzero, -⟩ | ⟨-, hnone, -⟩ |
    ⟨-, dgram', hsome, hflush⟩
  · change us₀.npk + 2 + msg.z.toNat = 0 at hzero
    omega
  · rw [hpacket, hsend] at hnone
    contradiction
  · rw [hpacket, hsend] at hsome
    rw [hflush, ← Option.some.inj hsome]
    refine ⟨rfl, rfl, ?_⟩
    change us₀.pno + 1 = us.pno + 1
    rw [hpno]

theorem ctrl_size_iff (msg : UdMsg) :
    (msg.dlen + 2) % 2 ^ 64 > ctrlMtu - hdrSize ↔
      70 < msg.dlen ∧ msg.dlen < 2 ^ 64 - 2 := by
  have hdlen : msg.dlen < 2 ^ 64 := msg.dlen_lt
  unfold ctrlMtu hdrSize
  omega

/--
A control message of up to 70 bytes leaves as the very datagram that packing it
into an empty buffer and flushing would send, with the same packet number and
with nothing else of the socket changed; a longer one and a failed send leave
the socket as it was.
-/
theorem control_agrees_with_data (calls : List Call) (w : SendRes)
    (msg : UdMsg) :
    let s := api.run Lib.fresh calls
    let r := udPackCmsg w msg s
    (msg.dlen ≤ 70 → w ≠ .fail → ∃ dgram,
      r.val = 0 ∧ r.tx = [.ctrl dgram] ∧
      r.st.us = { s.us with pno := s.us.pno + 1 } ∧
      ∀ w' svc, let packed := udPackMsg w' msg { s.us with npk := 0, svc := svc }
        packed.val = 0 ∧ packed.tx = [] ∧
        (udFlush w packed.st).val = 0 ∧
        (udFlush w packed.st).tx = [.data dgram] ∧
        (udFlush w packed.st).st.pno = s.us.pno + 1) ∧
    ((70 < msg.dlen ∧ msg.dlen < 2 ^ 64 - 2) ∨ w = .fail →
      r.val = -1 ∧ r.tx = [] ∧ r.st.us = s.us) := by
  intro s r
  have hs : s.Sane := run_sane calls
  have hsize := ctrl_size_iff msg
  rcases udPackCmsg_cases w msg hs.g.ctrl_length with ⟨hlong, heq⟩ |
    ⟨hfits, ctrl, -, ⟨hnone, heq⟩ | ⟨dgram, hsome, heq⟩⟩
  · have hr : r = ⟨-1, s, []⟩ := heq
    rw [hsize] at hlong
    exact ⟨fun hshort _ => by omega, fun _ => by rw [hr]; exact ⟨rfl, rfl, rfl⟩⟩
  · have hr : r = ⟨-1, ⟨{ s.g with ctrl := ctrl }, s.us⟩, []⟩ := heq
    refine ⟨fun _ hw => ?_, fun _ => by rw [hr]; exact ⟨rfl, rfl, rfl⟩⟩
    cases w with
    | fail => exact absurd rfl hw
    | full => contradiction
    | short nwr => contradiction
  · have hr : r = ⟨0, ⟨{ s.g with ctrl := ctrl },
        { s.us with pno := s.us.pno + 1 }⟩, [.ctrl dgram]⟩ := heq
    refine ⟨fun hshort _ => ⟨dgram, ?_⟩, fun hbad => ?_⟩
    · rw [hr]
      refine ⟨rfl, rfl, rfl, fun w' svc => ?_⟩
      have hempty : Sock.SendSane { s.us with npk := 0, svc := svc } :=
        ⟨hs.send.send_length, Nat.zero_le _⟩
      exact udPackMsg_udFlush hempty rfl (by omega) hsome w'
    · rcases hbad with hlong | rfl
      · exact absurd (hsize.mpr hlong) hfits
      · contradiction

end Unserding
