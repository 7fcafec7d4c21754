import Unserding.Sender

/-!
# The checking half

A checking call refills the receive buffer if it is used up, answers a PING and
reads one record.  The lemmas below take `ud_chck_msg` apart along these lines
and say which half of the socket each part touches.
-/

namespace Unserding

open Foundation

/-! ## Refilling -/

def load (d : Arrival) (us : Sock) : Sock :=
  { recvfrom d us with nrd := d.nrd - hdrSize, nck := 0 }

def Arrival.Accepted (d : Arrival) : Prop :=
  hdrSize ≤ d.nrd ∧ hdrAccepted d.bytes = true

instance (d : Arrival) : Decidable d.Accepted := by
  unfold Arrival.Accepted
  infer_instance

theorem getElem?_recvfrom (d : Arrival) (us : Sock) {i : Nat}
    (h : i < d.nrd) : (recvfrom d us).recv[i]? = d.bytes[i]? := by
  have hi : i < ethMtu ∧ i < d.bytes.length := by
    unfold Arrival.nrd at h
    omega
  have hcond : 0 ≤ i ∧ i < 0 + (d.bytes.take ethMtu).length := by
    rw [List.length_take]
    omega
  simp only [recvfrom]
  rw [getElem?_blit (Nat.zero_le _), if_pos hcond, Nat.sub_zero,
    List.getElem?_take_of_lt hi.1]

theorem be16At_recvfrom (d : Arrival) (us : Sock) {off : Nat}
    (h : off + 1 < d.nrd) :
    be16At (recvfrom d us).recv off = be16At d.bytes off :=
  be16At_congr (getElem?_recvfrom d us (by omega)) (getElem?_recvfrom d us h)

section Header

variable {d : Arrival} (us : Sock) (h : hdrSize ≤ d.nrd)

include h

theorem hdrCmd_recvfrom : hdrCmd (recvfrom d us).recv = hdrCmd d.bytes :=
  be16At_recvfrom d us (by unfold hdrSize at h; omega)

theorem hdrAccepted_recvfrom :
    hdrAccepted (recvfrom d us).recv = hdrAccepted d.bytes := by
  have hini : hdrIni (recvfrom d us).recv = hdrIni d.bytes :=
    be16At_recvfrom d us (by unfold hdrSize at h; omega)
  have hmagic : hdrMagic (recvfrom d us).recv = hdrMagic d.bytes :=
    be16At_recvfrom d us (by unfold hdrSize at h; omega)
  rw [hdrAccepted, hdrAccepted, hini, hmagic]

end Header

theorem udDscrd_cases (rx : Option Arrival) (us : Sock) :
    (us.nrd ≠ 0 ∧
      udDscrd rx us = ⟨0, { us with nrd := 0, nck := 0 }, []⟩) ∨
    (us.nrd = 0 ∧ rx = none ∧ udDscrd rx us = ⟨-1, us, []⟩) ∨
    (us.nrd = 0 ∧ ∃ d, rx = some d ∧ ¬ d.Accepted ∧
      udDscrd rx us = ⟨-1, recvfrom d us, []⟩) ∨
    (us.nrd = 0 ∧ ∃ d, rx = some d ∧ d.Accepted ∧
      udDscrd rx us = ⟨0, load d us, []⟩) := by
  by_cases hnrd : us.nrd = 0
  · cases rx with
    | none => exact .inr (.inl ⟨hnrd, rfl, by simp [udDscrd, hnrd]⟩)
    | some d =>
        by_cases hlen : d.nrd < hdrSize
        · have hrej : ¬ d.Accepted := fun h => by
            have := h.1
            omega
          exact .inr (.inr (.inl ⟨hnrd, d, rfl, hrej, by
            simp [udDscrd, hnrd, hlen]⟩))
        · have hok := hdrAccepted_recvfrom us (Nat.le_of_not_lt hlen)
          cases hacc : hdrAccepted d.bytes with
          | false =>
              have hrej : ¬ d.Accepted := fun h => by
                rw [h.2] at hacc
                contradiction
              exact .inr (.inr (.inl ⟨hnrd, d, rfl, hrej, by
                simp [udDscrd, hnrd, hlen, hok, hacc]⟩))
          | true =>
              exact .inr (.inr (.inr ⟨hnrd, d, rfl,
                ⟨Nat.le_of_not_lt hlen, hacc⟩, by
                  simp [udDscrd, hnrd, hlen, hok, hacc, load]⟩))
  · exact .inl ⟨hnrd, by simp [udDscrd, hnrd]⟩

def refill (rx : Option Arrival) (us : Sock) : Sock :=
  if us.nck ≥ us.nrd then (udDscrd rx us).st else us

theorem udChckMsg_eq (e : Env) (s : Lib) :
    udChckMsg e s =
      if (refill e.rx s.us).nck < (refill e.rx s.us).nrd then
        chckMsg e { s with us := refill e.rx s.us }
      else ⟨none, { s with us := refill e.rx s.us }, []⟩ := by
  by_cases hdose : s.us.nck ≥ s.us.nrd
  · simp only [udChckMsg, refill, hdose, if_true]
    rcases udDscrd_cases e.rx s.us with
      ⟨hnrd, heq⟩ | ⟨hnrd, -, heq⟩ | ⟨hnrd, d, -, -, heq⟩ | ⟨-, d, -, -, heq⟩
    · simp [heq]
    · simp [heq, hnrd]
    · simp [heq, recvfrom, hnrd]
    · rw [heq]
      by_cases hmore : (load d s.us).nck ≥ (load d s.us).nrd
      · rw [if_neg (Nat.not_lt.mpr hmore), if_pos hmore]
        rfl
      · rw [if_pos (Nat.lt_of_not_ge hmore), if_neg hmore]
        rfl
  · have hlt : s.us.nck < s.us.nrd := Nat.lt_of_not_ge hdose
    simp only [udChckMsg, refill, hdose, if_false, hlt, if_true]

theorem udDscrd_tray (rx : Option Arrival) (us : Sock) :
    (udDscrd rx us).st.tray = us.tray := by
  rcases udDscrd_cases rx us with
    ⟨-, heq⟩ | ⟨-, -, heq⟩ | ⟨-, d, -, -, heq⟩ | ⟨-, d, -, -, heq⟩ <;>
    rw [heq] <;> rfl

theorem refill_tray (rx : Option Arrival) (us : Sock) :
    (refill rx us).tray = us.tray := by
  unfold refill
  split
  · exact udDscrd_tray rx us
  · rfl

/-! ## Replying -/

def reply (e : Env) (s : Lib) : Lib × List Tx :=
  if hdrCmd s.us.recv = svcPing then
    ((udPackPong 1 e s).st, (udPackPong 1 e s).tx)
  else (s, [])

theorem chckMsg_eq (e : Env) (s : Lib) :
    chckMsg e s =
      ⟨(takeMsg (hdrCmd s.us.recv) (reply e s).1.us).1,
        { (reply e s).1 with
          us := (takeMsg (hdrCmd s.us.recv) (reply e s).1.us).2 },
        (reply e s).2⟩ := by
  have hiff := ctrlMsg_and_ping_iff (hdrCmd s.us.recv)
  by_cases hctrl : ctrlMsg (hdrCmd s.us.recv) = true
  · by_cases hping : hdrCmd s.us.recv &&& 0x00ff = udSvcPing
    · have hcmd := hiff.mp ⟨hctrl, hping⟩
      simp only [chckMsg, udChckCmsg, hctrl, hping, reply, if_pos hcmd,
        if_true, Bool.not_true, Bool.false_eq_true, if_false]
    · have hcmd : hdrCmd s.us.recv ≠ svcPing := fun h =>
        hping (hiff.mpr h).2
      simp only [chckMsg, udChckCmsg, hctrl, hping, reply, if_neg hcmd,
        if_true, Bool.not_true, Bool.false_eq_true, if_false]
  · have hcmd : hdrCmd s.us.recv ≠ svcPing := fun h =>
      hctrl (hiff.mpr h).1
    simp only [chckMsg, hctrl, reply, if_neg hcmd, if_false,
      Bool.false_eq_true]

theorem reply_inbox (e : Env) (s : Lib) :
    (reply e s).1.us.inbox = s.us.inbox := by
  unfold reply
  split
  · exact udPackPong_inbox 1 e s
  · rfl

/-! ## Reading a record -/

theorem takeMsg_tray (svc : UInt16) (us : Sock) :
    (takeMsg svc us).2.tray = us.tray := by
  simp only [takeMsg]
  split <;> rfl

/-! ## Pings -/

theorem udChckPing_st_us (e : Env) (s : Lib) :
    (udChckPing e s).st.us = (udChckMsg e s).st.us ∧
      (udChckPing e s).tx = (udChckMsg e s).tx := by
  simp only [udChckPing]
  cases (udChckMsg e s).val with
  | none => exact ⟨rfl, rfl⟩
  | some msg =>
      simp only
      split
      · exact ⟨rfl, rfl⟩
      · split <;> exact ⟨rfl, rfl⟩

theorem udChckPing_po (e : Env) (s : Lib) :
    (udChckPing e s).st.g.po = (udChckMsg e s).st.g.po := by
  simp only [udChckPing]
  split
  · rfl
  · split
    · rfl
    · split <;> rfl

/-! ## Calls -/

theorem call_receives (s : Lib) (c : Call) :
    (c.rx = none ∧ (api.step s c).1.us.inbox = s.us.inbox) ∨
    (∃ e, c.rx = e.rx ∧ (api.step s c).1.us = (udChckMsg e s).st.us) ∨
    (api.step s c).1.us = (udDscrd c.rx s.us).st := by
  cases c with
  | udPackMsg w msg => exact .inl ⟨rfl, udPackMsg_inbox w msg s.us⟩
  | udFlush w => exact .inl ⟨rfl, udFlush_inbox w s.us⟩
  | udPackCmsg w msg => exact .inl ⟨rfl, udPackCmsg_inbox w msg s⟩
  | udPackPing w₁ w₂ msg => exact .inl ⟨rfl, udPackPing_inbox w₁ w₂ msg s⟩
  | udPackPong pongp e => exact .inl ⟨rfl, udPackPong_inbox pongp e s⟩
  | udChckMsg e => exact .inr (.inl ⟨e, rfl, rfl⟩)
  | udChck tsz e => exact .inr (.inl ⟨e, rfl, rfl⟩)
  | udChckPing e => exact .inr (.inl ⟨e, rfl, (udChckPing_st_us e s).1⟩)
  | udDscrd rx => exact .inr (.inr rfl)
  | elsewhere g sane => exact .inl ⟨rfl, rfl⟩

end Unserding
