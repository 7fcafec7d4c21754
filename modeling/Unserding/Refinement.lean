import Unserding.Sanity
import Unserding.Foundation.Outbox

/-!
# The sending half as an outbox

The abstract purpose of the sending half is a batching sender: messages are
collected under one service, leave together, and control messages bypass them.
Every call of the library, with each `sendto` failing or sending in full, takes
a few guarded acts of that outbox, sends exactly its parcels and takes in
exactly the messages `ud_pack_msg` accepted.
-/

namespace Unserding

open Foundation

/-! ## The abstract sender -/

abbrev SendBox := Outbox UInt16 UdMsg

/-- The outbox of services; service 0 stands for no service yet. -/
abbrev sendBox : System SendBox (Act UdMsg) (List (Parcel UInt16 UdMsg)) :=
  Outbox.system UdMsg.svc 0

abbrev SendBox.parcels (o : SendBox) (acts : List (Act UdMsg)) :
    List (Parcel UInt16 UdMsg) := Outbox.parcels UdMsg.svc 0 o acts

def SendBox.fresh : SendBox := ⟨0, 0, []⟩

def wires (msgs : List UdMsg) : Bytes := msgs.flatMap UdMsg.wire

@[simp] theorem wires_append (first second : List UdMsg) :
    wires (first ++ second) = wires first ++ wires second :=
  List.flatMap_append

theorem wires_eq_nil_iff {msgs : List UdMsg} : wires msgs = [] ↔ msgs = [] := by
  constructor
  · intro h
    cases msgs with
    | nil => rfl
    | cons msg rest => simp [wires, msg.wire_ne_nil] at h
  · rintro rfl
    rfl

def parcelTx : Parcel UInt16 UdMsg → Tx
  | .batch seq key msgs => .data (udHdr seq key ++ wires msgs)
  | .single seq msg => .ctrl (ctrlPacket seq msg)

/-- `o` is what the sending half of `us` stands for. -/
structure Holds (us : Sock) (o : SendBox) : Prop where
  pno : us.pno = o.seq
  svc : us.svc = o.key
  pending : us.pending = wires o.pending

theorem Holds.fresh : Holds Sock.fresh SendBox.fresh :=
  ⟨rfl, rfl, window_zero _ _⟩

theorem Holds.congr {us us' : Sock} {o : SendBox} (h : Holds us o)
    (htray : us'.tray = us.tray) : Holds us' o := by
  obtain ⟨hpno, hsvc, hnpk, hsend⟩ := Sock.eq_of_tray htray
  refine ⟨hpno.trans h.pno, hsvc.trans h.svc, ?_⟩
  rw [← h.pending, Sock.pending, Sock.pending, hnpk, hsend]

theorem Holds.packet {us : Sock} {o : SendBox} (h : Holds us o) :
    us.packet = udHdr o.seq o.key ++ wires o.pending := by
  rw [Sock.packet, h.pno, h.svc, h.pending]

theorem Holds.pending_eq_nil_iff {us : Sock} {o : SendBox} (h : Holds us o)
    (hs : us.SendSane) : o.pending = [] ↔ us.npk = 0 := by
  rw [← wires_eq_nil_iff, ← h.pending, ← hs.length_pending,
    List.length_eq_zero_iff]

/-! ## Guarded paths -/

/--
From `o` to `o'` by guarded acts that send `tx` and take in `packed`.  On a
loose path service 0 may be overwritten while messages are pending.
-/
def Sends (loose : Prop) (o : SendBox) (tx : List Tx) (packed : List UdMsg)
    (o' : SendBox) : Prop :=
  ∃ acts, (∀ e ∈ sendBox.events o acts,
      Outbox.Guard UdMsg.svc 0 loose e.pre e.input) ∧
    sendBox.run o acts = o' ∧
    (o.parcels acts).map parcelTx = tx ∧
    Outbox.accepted acts = packed

theorem Sends.refl (loose : Prop) (o : SendBox) : Sends loose o [] [] o :=
  ⟨[], by simp, rfl, rfl, rfl⟩

theorem Sends.trans {loose : Prop} {o₁ o₂ o₃ : SendBox} {tx₁ tx₂ : List Tx}
    {packed₁ packed₂ : List UdMsg} (h₁ : Sends loose o₁ tx₁ packed₁ o₂)
    (h₂ : Sends loose o₂ tx₂ packed₂ o₃) :
    Sends loose o₁ (tx₁ ++ tx₂) (packed₁ ++ packed₂) o₃ := by
  obtain ⟨acts₁, hguard₁, rfl, rfl, rfl⟩ := h₁
  obtain ⟨acts₂, hguard₂, rfl, rfl, rfl⟩ := h₂
  refine ⟨acts₁ ++ acts₂, ?_, System.run_append _ _ _ _, ?_, ?_⟩
  · intro e he
    rw [System.events_append] at he
    rcases List.mem_append.mp he with hfirst | hsecond
    · exact hguard₁ e hfirst
    · exact hguard₂ e hsecond
  · rw [SendBox.parcels, Outbox.parcels_append, List.map_append]
  · rw [Outbox.accepted_append]

theorem Sends.act {loose : Prop} {o : SendBox} (act : Act UdMsg)
    (hguard : Outbox.Guard UdMsg.svc 0 loose o act) :
    Sends loose o ((o.parcels [act]).map parcelTx) (Outbox.accepted [act])
      (sendBox.step o act).1 := by
  refine ⟨[act], ?_, rfl, rfl, rfl⟩
  intro e he
  rw [System.events_cons, System.events_nil, List.mem_singleton] at he
  rw [he]
  exact hguard

section Acts

variable (loose : Prop) {us : Sock} {o : SendBox} (h : Holds us o)

include h

theorem Holds.clear (hempty : o.pending = []) :
    ∃ o', Holds us.cleared o' ∧ Sends loose o [] [] o' ∧ o'.pending = [] :=
  ⟨{ o with key := 0 }, ⟨h.pno, rfl, h.pending⟩, Sends.act .clear hempty,
    hempty⟩

theorem Holds.ship (hpending : o.pending ≠ []) :
    ∃ o', Holds us.shipped o' ∧ Sends loose o [.data us.packet] [] o' ∧
      o'.pending = [] := by
  refine ⟨⟨o.seq + 1, 0, []⟩, ⟨?_, rfl, us.shipped_pending⟩, ?_, rfl⟩
  · change us.pno + 1 = o.seq + 1
    rw [h.pno]
  · rw [h.packet]
    exact Sends.act .ship hpending

theorem Holds.append {msg : UdMsg} (hs : us.SendSane)
    (hfits : msgFits us msg.z.toNat = true)
    (hguard : Outbox.Guard UdMsg.svc 0 loose o (.append msg)) :
    ∃ o', Holds (putMsg msg us) o' ∧ Sends loose o [] [msg] o' := by
  refine ⟨{ o with key := msg.svc, pending := o.pending ++ [msg] },
    ⟨h.pno, rfl, ?_⟩, Sends.act (.append msg) hguard⟩
  rw [putMsg_pending hs hfits, h.pending, wires_append]
  simp [wires]

theorem Holds.stamped : Holds us.stamped o :=
  ⟨h.pno, h.svc, us.stamped_pending.trans h.pending⟩

theorem Holds.bypass (msg : UdMsg) :
    ∃ o', Holds { us with pno := us.pno + 1 } o' ∧
      Sends loose o [.ctrl (ctrlPacket us.pno msg)] [] o' := by
  refine ⟨{ o with seq := o.seq + 1 }, ⟨?_, h.svc, h.pending⟩, ?_⟩
  · change us.pno + 1 = o.seq + 1
    rw [h.pno]
  · rw [h.pno]
    exact Sends.act (.bypass msg) trivial

end Acts

/-! ## The packers -/

section Packers

variable (loose : Prop) {o : SendBox}

theorem udFlush_sends {w : SendRes} (hw : w.Atomic) {us : Sock}
    (hs : us.SendSane) (h : Holds us o) :
    ∃ o', Holds (udFlush w us).st o' ∧
      Sends loose o (udFlush w us).tx [] o' := by
  have hempty := h.pending_eq_nil_iff hs
  rcases udFlush_cases w us with
    ⟨hnpk, heq⟩ | ⟨-, -, heq⟩ | ⟨hnpk, dgram, hsend, heq⟩
  · obtain ⟨o', hheld, hpath, -⟩ := h.clear loose (hempty.mpr hnpk)
    exact ⟨o', by rw [heq]; exact hheld, by rw [heq]; exact hpath⟩
  · exact ⟨o, by rw [heq]; exact h.stamped, by rw [heq]; exact .refl _ _⟩
  · have hnil : o.pending ≠ [] := fun hnil => by
      have := hempty.mp hnil
      omega
    obtain ⟨o', hheld, hpath, -⟩ := h.ship loose hnil
    rcases hw.sendto us.packet with hnone | hfull
    · rw [hnone] at hsend
      contradiction
    · rw [hfull] at hsend
      cases hsend
      exact ⟨o', by rw [heq]; exact hheld, by rw [heq]; exact hpath⟩

/--
Packing `msg` does not put a message of another service behind messages of
service 0 that are still pending.
-/
def Sock.KeepsService (us : Sock) (msg : UdMsg) : Prop :=
  ¬ (0 < us.npk ∧ us.svc = 0 ∧ msg.svc ≠ 0 ∧
    msgFits us msg.z.toNat = true)

theorem Holds.guard {us : Sock} (h : Holds us o) (hs : us.SendSane)
    {msg : UdMsg} (hkeep : ¬ loose → us.KeepsService msg)
    (hfits : msgFits us msg.z.toNat = true)
    (hsame : svcSame us msg.svc = true) :
    Outbox.Guard UdMsg.svc 0 loose o (.append msg) := by
  have hkey : us.svc = 0 ∨ msg.svc = us.svc := by simpa [svcSame] using hsame
  rcases hkey with hzero | heq
  · by_cases hloose : loose
    · exact .inr (.inr ⟨hloose, h.svc.symm.trans hzero⟩)
    · by_cases hnpk : us.npk = 0
      · exact .inl ((h.pending_eq_nil_iff hs).mpr hnpk)
      · have hmsg : msg.svc = 0 := by
          by_contra hne
          exact hkeep hloose ⟨by omega, hzero, hne, hfits⟩
        exact .inr (.inl (by rw [← h.svc, hzero, hmsg]))
  · exact .inr (.inl (h.svc.symm.trans heq.symm))

theorem udPackMsg_sends {w : SendRes} (hw : w.Atomic) {us : Sock}
    (hs : us.SendSane) (h : Holds us o) {msg : UdMsg}
    (hkeep : ¬ loose → us.KeepsService msg) :
    ∃ o', Holds (udPackMsg w msg us).st o' ∧
      Sends loose o (udPackMsg w msg us).tx
        (if (udPackMsg w msg us).val = 0 then [msg] else []) o' := by
  have hempty := h.pending_eq_nil_iff hs
  rcases udPackMsg_cases w msg us with ⟨hfits, hsame, heq⟩ |
    ⟨-, ⟨hnpk, heq⟩ | ⟨-, -, heq⟩ | ⟨hnpk, dgram, hsend, heq⟩⟩
  · rw [heq]
    exact h.append loose hs hfits (h.guard loose hs hkeep hfits hsame)
  · rw [heq]
    obtain ⟨o₁, hheld, hpath, hnil⟩ := h.clear loose
      (hempty.mpr hnpk)
    obtain ⟨o', hheld', hpath'⟩ := hheld.append loose hs.cleared
      (msgFits_of_npk_eq_zero hnpk _) (.inl hnil)
    exact ⟨o', hheld', hpath.trans hpath'⟩
  · rw [heq]
    exact ⟨o, h.stamped, .refl _ _⟩
  · rw [heq]
    have hnil : o.pending ≠ [] := fun hnil => by
      have := hempty.mp hnil
      omega
    obtain ⟨o₁, hheld, hpath, hnil₁⟩ := h.ship loose hnil
    obtain ⟨o', hheld', hpath'⟩ := hheld.append loose hs.shipped
      (msgFits_of_npk_eq_zero rfl _) (.inl hnil₁)
    rcases hw.sendto us.packet with hnone | hfull
    · rw [hnone] at hsend
      contradiction
    · rw [hfull] at hsend
      cases hsend
      exact ⟨o', hheld', hpath.trans hpath'⟩

theorem udPackCmsg_sends {w : SendRes} (hw : w.Atomic) (msg : UdMsg)
    {s : Lib} (hg : s.g.Sane) (h : Holds s.us o) :
    ∃ o', Holds (udPackCmsg w msg s).st.us o' ∧
      Sends loose o (udPackCmsg w msg s).tx [] o' := by
  rcases udPackCmsg_cases w msg hg.ctrl_length with
    ⟨-, heq⟩ | ⟨-, ctrl, -, ⟨-, heq⟩ | ⟨dgram, hsend, heq⟩⟩
  · exact ⟨o, by rw [heq]; exact h, by rw [heq]; exact .refl _ _⟩
  · exact ⟨o, by rw [heq]; exact h, by rw [heq]; exact .refl _ _⟩
  · obtain ⟨o', hheld, hpath⟩ := h.bypass loose msg
    rcases hw.sendto (ctrlPacket s.us.pno msg) with hnone | hfull
    · rw [hnone] at hsend
      contradiction
    · rw [hfull] at hsend
      cases hsend
      exact ⟨o', by rw [heq]; exact hheld, by rw [heq]; exact hpath⟩

theorem udPackPing_sends {w₁ w₂ : SendRes} (hw₁ : w₁.Atomic)
    (hw₂ : w₂.Atomic) (msg : SvcPing) {s : Lib} (hs : s.Sane)
    (h : Holds s.us o) :
    ∃ o', Holds (udPackPing w₁ w₂ msg s).st.us o' ∧
      Sends loose o (udPackPing w₁ w₂ msg s).tx [] o' := by
  unfold udPackPing
  cases pingCmd msg.what with
  | none => exact ⟨o, h, .refl _ _⟩
  | some cmd =>
      obtain ⟨o₁, hheld, hpath⟩ :=
        udFlush_sends loose hw₁ hs.send h
      obtain ⟨o', hheld', hpath'⟩ := udPackCmsg_sends loose hw₂
        (pingMsg cmd (hnzOf msg.hostname.length) (putPing msg s.g.msg))
        (s := ⟨{ s.g with msg := putPing msg s.g.msg }, (udFlush w₁ s.us).st⟩)
        ⟨length_putPing msg hs.g.msg_length, hs.g.ctrl_length⟩ hheld
      exact ⟨o', hheld', hpath.trans hpath'⟩

theorem udPackPong_sends {e : Env} (hw₁ : e.w₁.Atomic) (hw₂ : e.w₂.Atomic)
    (pongp : Nat) {s : Lib} (hs : s.Sane) (h : Holds s.us o) :
    ∃ o', Holds (udPackPong pongp e s).st.us o' ∧
      Sends loose o (udPackPong pongp e s).tx [] o' := by
  simp only [udPackPong]
  split
  · exact ⟨o, h, .refl _ _⟩
  · exact udPackPing_sends loose hw₁ hw₂ _
      ⟨⟨hs.g.msg_length, hs.g.ctrl_length⟩, hs.send, hs.recv⟩ h

/-! ## The checkers -/

theorem reply_sends {e : Env} (hw₁ : e.w₁.Atomic) (hw₂ : e.w₂.Atomic)
    {s : Lib} (hs : s.Sane) (h : Holds s.us o) :
    ∃ o', Holds (reply e s).1.us o' ∧ Sends loose o (reply e s).2 [] o' := by
  unfold reply
  split
  · exact udPackPong_sends loose hw₁ hw₂ 1 hs h
  · exact ⟨o, h, .refl _ _⟩

theorem udChckMsg_sends {e : Env} (hw₁ : e.w₁.Atomic) (hw₂ : e.w₂.Atomic)
    {s : Lib} (hs : s.Sane) (h : Holds s.us o) :
    ∃ o', Holds (udChckMsg e s).st.us o' ∧
      Sends loose o (udChckMsg e s).tx [] o' := by
  have hrefill : Holds (refill e.rx s.us) o := h.congr (refill_tray e.rx s.us)
  rw [udChckMsg_eq]
  split
  · rw [chckMsg_eq]
    obtain ⟨o', hheld, hpath⟩ :=
      reply_sends loose hw₁ hw₂ (hs.refill e.rx) hrefill
    exact ⟨o', hheld.congr (takeMsg_tray _ _), hpath⟩
  · exact ⟨o, hrefill, .refl _ _⟩

end Packers

/-! ## Whole runs -/

def Call.KeepsService (s : Lib) : Call → Prop
  | .udPackMsg _ msg => s.us.KeepsService msg
  | _ => True

theorem call_sends (loose : Prop) {s : Lib} {c : Call} {o : SendBox}
    (hs : s.Sane) (h : Holds s.us o) (hc : c.Atomic)
    (hkeep : ¬ loose → c.KeepsService s) :
    ∃ o', Holds (api.step s c).1.us o' ∧
      Sends loose o (api.step s c).2.tx
        (c.packed (api.step s c).2.ans).toList o' := by
  cases c with
  | udPackMsg w msg =>
      obtain ⟨o', hheld, hpath⟩ := udPackMsg_sends loose hc hs.send h hkeep
      refine ⟨o', hheld, ?_⟩
      have hpacked : (Call.packed (.udPackMsg w msg)
          (api.step s (.udPackMsg w msg)).2.ans).toList =
            if (udPackMsg w msg s.us).val = 0 then [msg] else [] := by
        simp only [api, Call.step, Call.packed]
        split <;> rfl
      rw [hpacked]
      exact hpath
  | udFlush w => exact udFlush_sends loose hc hs.send h
  | udPackCmsg w msg => exact udPackCmsg_sends loose hc msg hs.g h
  | udPackPing w₁ w₂ msg => exact udPackPing_sends loose hc.1 hc.2 msg hs h
  | udPackPong pongp e => exact udPackPong_sends loose hc.1 hc.2 pongp hs h
  | udChckMsg e => exact udChckMsg_sends loose hc.1 hc.2 hs h
  | udChck tsz e => exact udChckMsg_sends loose hc.1 hc.2 hs h
  | udChckPing e =>
      obtain ⟨hus, htx⟩ := udChckPing_st_us e s
      obtain ⟨o', hheld, hpath⟩ := udChckMsg_sends loose
        hc.1 hc.2 hs h
      refine ⟨o', ?_, ?_⟩
      · change Holds (udChckPing e s).st.us o'
        rw [hus]
        exact hheld
      · change Sends loose o (udChckPing e s).tx [] o'
        rw [htx]
        exact hpath
  | udDscrd rx =>
      have htx : (udDscrd rx s.us).tx = [] := by
        rcases udDscrd_cases rx s.us with
          ⟨-, heq⟩ | ⟨-, -, heq⟩ | ⟨-, d, -, -, heq⟩ | ⟨-, d, -, -, heq⟩ <;>
          rw [heq]
      refine ⟨o, h.congr (udDscrd_tray rx s.us), ?_⟩
      change Sends loose o (udDscrd rx s.us).tx [] o
      rw [htx]
      exact .refl _ _
  | elsewhere g sane => exact ⟨o, h, .refl _ _⟩

@[simp] theorem Trace.sent_append (first second : Trace) :
    Trace.sent (first ++ second) = first.sent ++ second.sent :=
  List.flatMap_append

@[simp] theorem Trace.packed_append (first second : Trace) :
    Trace.packed (first ++ second) = first.packed ++ second.packed :=
  List.filterMap_append

theorem run_sends (loose : Prop) {calls : List Call}
    (hc : ∀ c ∈ calls, c.Atomic)
    (hkeep : ¬ loose → ∀ e ∈ api.events Lib.fresh calls,
      e.input.KeepsService e.pre) :
    ∃ o, Holds (api.run Lib.fresh calls).us o ∧
      Sends loose SendBox.fresh
        (Trace.sent (api.events Lib.fresh calls))
        (Trace.packed (api.events Lib.fresh calls)) o := by
  refine (System.history (S := api)
    (G := fun s c => c.Atomic ∧ (¬ loose → c.KeepsService s))
    (H := fun es s => s.Sane ∧ ∃ o, Holds s.us o ∧
      Sends loose SendBox.fresh (Trace.sent es) (Trace.packed es) o) ?_
    ⟨Lib.fresh_sane, SendBox.fresh, Holds.fresh, .refl _ _⟩ calls
    (fun e he => ⟨hc _ (System.input_mem_of_mem api he),
      fun hloose => hkeep hloose e he⟩)).2
  rintro es s c ⟨hs, o, hheld, hpath⟩ ⟨hatomic, hk⟩
  obtain ⟨o', hheld', hpath'⟩ := call_sends loose hs hheld hatomic hk
  refine ⟨call_sane s c hs, o', hheld', ?_⟩
  have hall := hpath.trans hpath'
  have hone : Trace.packed [api.event s c] =
      (c.packed (api.step s c).2.ans).toList := by
    cases hpacked : c.packed (api.step s c).2.ans <;>
      simp [Trace.packed, System.event, hpacked]
  rw [Trace.sent_append, Trace.packed_append, hone]
  simpa [Trace.sent, System.event] using hall

end Unserding
