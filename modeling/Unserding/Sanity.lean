import Unserding.Checker

/-!
# What every call keeps

The buffers keep their sizes and the cursors stay inside them, whatever is
packed, whatever arrives and whatever the system calls answer.
-/

namespace Unserding

open Foundation

structure Sock.RecvSane (us : Sock) : Prop where
  recv_length : us.recv.length = ethMtu
  nrd_le : us.nrd ≤ ethMtu - hdrSize
  nck_eq_zero : us.nrd = 0 → us.nck = 0
  sz_ge : sockaddrIn6Size ≤ us.src.sz
  sa_length : us.src.sa.length = sockaddrStorageSize

structure Lib.Sane (s : Lib) : Prop where
  g : s.g.Sane
  send : s.us.SendSane
  recv : s.us.RecvSane

theorem Lib.fresh_sane : Lib.fresh.Sane where
  g := ⟨by simp [Lib.fresh, Statics.init], by simp [Lib.fresh, Statics.init]⟩
  send := Sock.fresh_sendSane
  recv :=
    { recv_length := by simp [Lib.fresh, Sock.fresh]
      nrd_le := Nat.zero_le _
      nck_eq_zero := fun _ => rfl
      sz_ge := by decide
      sa_length := by simp [Lib.fresh, Sock.fresh] }

theorem Sock.SendSane.congr {us us' : Sock} (h : us.SendSane)
    (htray : us'.tray = us.tray) : us'.SendSane := by
  obtain ⟨-, -, hnpk, hsend⟩ := Sock.eq_of_tray htray
  exact ⟨hsend ▸ h.send_length, hnpk ▸ h.npk_le⟩

theorem Sock.RecvSane.congr {us us' : Sock} (h : us.RecvSane)
    (hinbox : us'.inbox = us.inbox) : us'.RecvSane := by
  obtain ⟨hsrc, hnrd, hnck, hrecv⟩ := Sock.eq_of_inbox hinbox
  exact
    { recv_length := hrecv ▸ h.recv_length
      nrd_le := hnrd ▸ h.nrd_le
      nck_eq_zero := by rw [hnrd, hnck]; exact h.nck_eq_zero
      sz_ge := hsrc ▸ h.sz_ge
      sa_length := hsrc ▸ h.sa_length }

/-! ## Packing -/

theorem udFlush_sendSane (w : SendRes) {us : Sock} (h : us.SendSane) :
    (udFlush w us).st.SendSane := by
  rcases udFlush_cases w us with ⟨-, heq⟩ | ⟨-, -, heq⟩ | ⟨-, dgram, -, heq⟩
  · rw [heq]
    exact h.cleared
  · rw [heq]
    exact h.stamped
  · rw [heq]
    exact h.shipped

theorem udPackMsg_sendSane (w : SendRes) (msg : UdMsg) {us : Sock}
    (h : us.SendSane) : (udPackMsg w msg us).st.SendSane := by
  rcases udPackMsg_cases w msg us with
    ⟨hfits, -, heq⟩ | ⟨-, ⟨hnpk, heq⟩ | ⟨-, -, heq⟩ | ⟨-, dgram, -, heq⟩⟩
  · rw [heq]
    exact putMsg_sendSane h hfits
  · rw [heq]
    exact putMsg_sendSane h.cleared (msgFits_of_npk_eq_zero hnpk _)
  · rw [heq]
    exact h.stamped
  · rw [heq]
    exact putMsg_sendSane h.shipped (msgFits_of_npk_eq_zero rfl _)

theorem udPackCmsg_sane (w : SendRes) (msg : UdMsg) {s : Lib} (h : s.Sane) :
    (udPackCmsg w msg s).st.Sane := by
  rcases udPackCmsg_cases w msg h.g.ctrl_length with
    ⟨-, heq⟩ | ⟨-, ctrl, hctrl, ⟨-, heq⟩ | ⟨dgram, -, heq⟩⟩
  · rw [heq]
    exact h
  · rw [heq]
    exact ⟨⟨h.g.msg_length, hctrl⟩, h.send, h.recv⟩
  · rw [heq]
    exact ⟨⟨h.g.msg_length, hctrl⟩, ⟨h.send.send_length, h.send.npk_le⟩,
      h.recv.congr rfl⟩

theorem hnzOf_le (hostnlen : Nat) :
    (hnzOf hostnlen).toNat ≤ pingMsgSize - hnOffset := by
  simp only [hnzOf]
  split
  · decide
  · rename_i hle
    have hmax : (UInt8.ofNat hostnlen).toNat ≤ maxHnz.toNat :=
      UInt8.le_iff_toNat_le.mp (UInt8.not_lt.mp hle)
    exact hmax.trans (by decide)

theorem length_putPing (msg : SvcPing) {buf : Bytes}
    (h : buf.length = pingMsgSize) :
    (putPing msg buf).length = pingMsgSize := by
  have hhnz := hnzOf_le msg.hostname.length
  simp only [putPing]
  have hpid : (blit buf 0 (htobe32 msg.pid.toUInt32)).length = pingMsgSize := by
    rw [length_blit (by rw [h]; simp [pingMsgSize]), h]
  have hlen : (blit (blit buf 0 (htobe32 msg.pid.toUInt32)) 4
      [hnzOf msg.hostname.length]).length = pingMsgSize := by
    rw [length_blit (by rw [hpid]; simp [pingMsgSize]), hpid]
  rw [length_blit, hlen]
  rw [hlen, List.length_take]
  unfold pingMsgSize hnOffset at *
  omega

theorem udPackPing_sane (w₁ w₂ : SendRes) (msg : SvcPing) {s : Lib}
    (h : s.Sane) : (udPackPing w₁ w₂ msg s).st.Sane := by
  unfold udPackPing
  cases pingCmd msg.what with
  | none => exact h
  | some cmd =>
      exact udPackCmsg_sane w₂ _
        ⟨⟨length_putPing msg h.g.msg_length, h.g.ctrl_length⟩,
          udFlush_sendSane w₁ h.send, h.recv.congr (udFlush_inbox w₁ s.us)⟩

theorem udPackPong_sane (pongp : Nat) (e : Env) {s : Lib} (h : s.Sane) :
    (udPackPong pongp e s).st.Sane := by
  simp only [udPackPong]
  split
  · exact h
  · exact udPackPing_sane _ _ _
      ⟨⟨h.g.msg_length, h.g.ctrl_length⟩, h.send, h.recv⟩

/-! ## Checking -/

theorem recvfrom_recvSane (d : Arrival) {us : Sock} (h : us.RecvSane) :
    (recvfrom d us).RecvSane where
  recv_length := by
    refine (length_blit ?_).trans h.recv_length
    rw [h.recv_length, List.length_take]
    omega
  nrd_le := h.nrd_le
  nck_eq_zero := h.nck_eq_zero
  sz_ge := le_refl _
  sa_length := by
    refine (length_blit ?_).trans h.sa_length
    rw [h.sa_length, List.length_take, Vector.length_toList]
    unfold sockaddrIn6Size sockaddrStorageSize
    omega

theorem load_recvSane (d : Arrival) {us : Sock} (h : us.RecvSane) :
    (load d us).RecvSane where
  recv_length := (recvfrom_recvSane d h).recv_length
  nrd_le := by
    change d.nrd - hdrSize ≤ ethMtu - hdrSize
    unfold Arrival.nrd
    omega
  nck_eq_zero := fun _ => rfl
  sz_ge := (recvfrom_recvSane d h).sz_ge
  sa_length := (recvfrom_recvSane d h).sa_length

theorem udDscrd_recvSane (rx : Option Arrival) {us : Sock} (h : us.RecvSane) :
    (udDscrd rx us).st.RecvSane := by
  rcases udDscrd_cases rx us with
    ⟨-, heq⟩ | ⟨-, -, heq⟩ | ⟨-, d, -, -, heq⟩ | ⟨-, d, -, -, heq⟩
  · rw [heq]
    exact ⟨h.recv_length, Nat.zero_le _, fun _ => rfl, h.sz_ge, h.sa_length⟩
  · rw [heq]
    exact h
  · rw [heq]
    exact recvfrom_recvSane d h
  · rw [heq]
    exact load_recvSane d h

theorem refill_recvSane (rx : Option Arrival) {us : Sock} (h : us.RecvSane) :
    (refill rx us).RecvSane := by
  unfold refill
  split
  · exact udDscrd_recvSane rx h
  · exact h

theorem Lib.Sane.load {s : Lib} (h : s.Sane) (d : Arrival) :
    Lib.Sane { s with us := Unserding.load d s.us } :=
  ⟨h.g, h.send.congr rfl, load_recvSane d h.recv⟩

theorem Lib.Sane.refill {s : Lib} (h : s.Sane) (rx : Option Arrival) :
    Lib.Sane { s with us := Unserding.refill rx s.us } :=
  ⟨h.g, h.send.congr (refill_tray rx s.us), refill_recvSane rx h.recv⟩

theorem takeMsg_recvSane (svc : UInt16) {us : Sock} (h : us.RecvSane)
    (hmore : us.nck < us.nrd) : (takeMsg svc us).2.RecvSane := by
  simp only [takeMsg]
  split
  · exact ⟨h.recv_length, Nat.zero_le _, fun _ => rfl, h.sz_ge, h.sa_length⟩
  · exact ⟨h.recv_length, h.nrd_le, fun hzero => by
      change us.nrd = 0 at hzero
      omega, h.sz_ge, h.sa_length⟩

theorem reply_sane (e : Env) {s : Lib} (h : s.Sane) : (reply e s).1.Sane := by
  unfold reply
  split
  · exact udPackPong_sane 1 e h
  · exact h

theorem chckMsg_sane (e : Env) {s : Lib} (h : s.Sane)
    (hmore : s.us.nck < s.us.nrd) : (chckMsg e s).st.Sane := by
  have hreply := reply_sane e h
  have hinbox := reply_inbox e s
  obtain ⟨-, hnrd, hnck, -⟩ := Sock.eq_of_inbox hinbox
  rw [chckMsg_eq]
  exact ⟨hreply.g, hreply.send.congr (takeMsg_tray _ _),
    takeMsg_recvSane _ hreply.recv (by rw [hnrd, hnck]; exact hmore)⟩

theorem udChckMsg_sane (e : Env) {s : Lib} (h : s.Sane) :
    (udChckMsg e s).st.Sane := by
  have hrefill := h.refill e.rx
  rw [udChckMsg_eq]
  split
  · rename_i hmore
    exact chckMsg_sane e hrefill hmore
  · exact hrefill

theorem length_inspectPing {msg : MsgRef} {data buf : Bytes}
    (hdata : data.length ≤ pingMsgSize) (h : buf.length = pingMsgSize) :
    (inspectPing msg data buf).2.length = pingMsgSize := by
  have hbuf : (blit buf 0 data).length = pingMsgSize := by
    rw [length_blit (by omega), h]
  simp only [inspectPing]
  split
  · exact hbuf
  · rename_i hle
    have hmax : ((blit buf 0 data).getD 4 0).toNat ≤ maxHnz.toNat :=
      UInt8.le_iff_toNat_le.mp (UInt8.not_lt.mp hle)
    have hval : maxHnz.toNat = 58 := by decide
    rw [length_blit, hbuf]
    rw [hbuf, List.length_singleton]
    unfold pingMsgSize hnOffset
    omega

theorem udChckPing_sane (e : Env) {s : Lib} (h : s.Sane) :
    (udChckPing e s).st.Sane := by
  have hchck := udChckMsg_sane e h
  simp only [udChckPing]
  cases hval : (udChckMsg e s).val with
  | none => exact hchck
  | some msg =>
      simp only
      split
      · exact hchck
      · rename_i hsize
        split
        · exact hchck
        · have hdata : ((udChckMsg e s).st.us.deref msg).length ≤
              pingMsgSize := by
            have htake := List.length_take_le msg.dlen
              ((udChckMsg e s).st.us.mem.drop (hdrSize + msg.data))
            exact htake.trans (Nat.le_of_not_gt hsize)
          exact ⟨⟨length_inspectPing hdata hchck.g.msg_length,
            hchck.g.ctrl_length⟩, hchck.send, hchck.recv⟩

/-! ## Every call -/

theorem call_sane (s : Lib) (c : Call) (h : s.Sane) : (api.step s c).1.Sane := by
  cases c with
  | udPackMsg w msg =>
      exact ⟨h.g, udPackMsg_sendSane w msg h.send,
        h.recv.congr (udPackMsg_inbox w msg s.us)⟩
  | udFlush w =>
      exact ⟨h.g, udFlush_sendSane w h.send,
        h.recv.congr (udFlush_inbox w s.us)⟩
  | udPackCmsg w msg => exact udPackCmsg_sane w msg h
  | udPackPing w₁ w₂ msg => exact udPackPing_sane w₁ w₂ msg h
  | udPackPong pongp e => exact udPackPong_sane pongp e h
  | udChckMsg e => exact udChckMsg_sane e h
  | udChck tsz e => exact udChckMsg_sane e h
  | udChckPing e => exact udChckPing_sane e h
  | udDscrd rx =>
      exact ⟨h.g, h.send.congr (udDscrd_tray rx s.us),
        udDscrd_recvSane rx h.recv⟩
  | elsewhere g sane => exact ⟨sane, h.send, h.recv⟩

theorem run_sane (calls : List Call) : (api.run Lib.fresh calls).Sane :=
  System.invariant call_sane Lib.fresh_sane calls

end Unserding
