import Unserding.Ping
import Unserding.Foundation.Shared

/-!
# Sockets of one process

`ud_pack_ping`, `ud_pack_pong`, `ud_chck_ping` and `ud_pack_cmsg` work in static
buffers, which all sockets of a process share.  In a process that keeps its
hostname and its pid a socket is none the worse for it: its calls return, read
and send what they would if it were the only socket, but for what `ud_chck_ping`
takes from beyond the end of a PING cut short.
-/

namespace Unserding

open Foundation

/-- How many bytes of `__msg` the message brings that `ud_chck_ping` inspects. -/
def Call.inspects (s : Lib) : Call → Option Nat
  | .udChckPing e =>
      let r := Unserding.udChckMsg e s
      match r.val with
      | none => none
      | some msg =>
          if msg.dlen > pingMsgSize then none
          else if msg.svc &&& 0xfffe ≠ udCtrlSvc udSvcPing then none
          else some (r.st.us.deref msg).length
  | _ => none

structure Shown where
  obs : Obs
  inspected : Option Nat

def sockets : Component Statics Sock Call Shown where
  step g us c :=
    let r := api.step ⟨g, us⟩ c
    (r.1.g, r.1.us, ⟨r.2, c.inspects ⟨g, us⟩⟩)

/-! ## The static variables -/

/-- Once set, `po` tells of the process. -/
structure Statics.Known (host : Option Bytes) (pid : Int32) (g : Statics) :
    Prop where
  sane : g.Sane
  po : g.po.hostname ≠ [] →
    ∃ name, host = some name ∧ g.po.hostname = hname name ∧ g.po.pid = pid

structure Res.Agree {α : Type} (r r' : Res Lib α) : Prop where
  val : r.val = r'.val
  us : r.st.us = r'.st.us
  tx : r.tx = r'.tx

theorem Res.Agree.of_eq {α : Type} {r r' : Res Lib α} {val : α} {us : Sock}
    {tx : List Tx} {g g' : Statics} (h : r = ⟨val, ⟨g, us⟩, tx⟩)
    (h' : r' = ⟨val, ⟨g', us⟩, tx⟩) : r.Agree r' := by
  subst h h'
  exact ⟨rfl, rfl, rfl⟩

section Agree

variable {g g' : Statics} (hg : g.Sane) (hg' : g'.Sane) (us : Sock)

include hg hg'

theorem udPackCmsg_agree (w : SendRes) (msg : UdMsg) :
    (udPackCmsg w msg ⟨g, us⟩).Agree (udPackCmsg w msg ⟨g', us⟩) := by
  rcases udPackCmsg_cases w msg (s := ⟨g, us⟩) hg.ctrl_length with
    ⟨hsize, heq⟩ | ⟨hsize, ctrl, -, ⟨hsend, heq⟩ | ⟨dgram, hsend, heq⟩⟩ <;>
  rcases udPackCmsg_cases w msg (s := ⟨g', us⟩) hg'.ctrl_length with
    ⟨hsize', heq'⟩ | ⟨hsize', ctrl', -, ⟨hsend', heq'⟩ | ⟨dgram', hsend', heq'⟩⟩
  · exact .of_eq heq heq'
  · exact absurd hsize hsize'
  · exact absurd hsize hsize'
  · exact absurd hsize' hsize
  · exact .of_eq heq heq'
  · rw [hsend] at hsend'
    contradiction
  · exact absurd hsize' hsize
  · rw [hsend] at hsend'
    contradiction
  · rw [hsend] at hsend'
    cases hsend'
    exact .of_eq heq heq'

theorem udPackPing_agree (w₁ w₂ : SendRes) (msg : SvcPing) :
    (udPackPing w₁ w₂ msg ⟨g, us⟩).Agree (udPackPing w₁ w₂ msg ⟨g', us⟩) := by
  cases hcmd : pingCmd msg.what with
  | none =>
      simp only [udPackPing, hcmd]
      exact ⟨rfl, rfl, rfl⟩
  | some cmd =>
      have hput : ({ g with msg := putPing msg g.msg } : Statics).Sane :=
        ⟨length_putPing msg hg.msg_length, hg.ctrl_length⟩
      have hput' : ({ g' with msg := putPing msg g'.msg } : Statics).Sane :=
        ⟨length_putPing msg hg'.msg_length, hg'.ctrl_length⟩
      have hcmsg := udPackCmsg_agree hput hput' (udFlush w₁ us).st w₂
        (pingControl cmd msg)
      simp only [udPackPing, hcmd, pingMsg_eq]
      exact ⟨hcmsg.val, hcmsg.us, congrArg ((udFlush w₁ us).tx ++ ·) hcmsg.tx⟩

end Agree

theorem udPackCmsg_po (w : SendRes) (msg : UdMsg) (s : Lib) :
    (udPackCmsg w msg s).st.g.po = s.g.po := by
  simp only [udPackCmsg]
  split
  · rfl
  · split <;> rfl

theorem udPackPing_po (w₁ w₂ : SendRes) (msg : SvcPing) (s : Lib) :
    (udPackPing w₁ w₂ msg s).st.g.po = s.g.po := by
  unfold udPackPing
  cases pingCmd msg.what with
  | none => rfl
  | some cmd => exact udPackCmsg_po _ _ _

/-! ## The calls -/

def Call.InProcess (host : Option Bytes) (pid : Int32) : Call → Prop
  | .udPackPong _ e | .udChckMsg e | .udChck _ e | .udChckPing e =>
      e.hostname = host ∧ e.pid = pid
  | .elsewhere _ _ => False
  | _ => True

section Known

variable {host : Option Bytes} {pid : Int32} {g : Statics}
  (hg : g.Known host pid)

include hg

theorem Statics.Known.udPackPong_eq (pongp : Nat) {e : Env}
    (hhost : e.hostname = host) (hpid : e.pid = pid) (us : Sock) :
    udPackPong pongp e ⟨g, us⟩ = host.elim ⟨-1, ⟨g, us⟩, []⟩ fun name =>
      udPackPing e.w₁ e.w₂
        ⟨hname name, pid, if pongp ≠ 0 then .pong else .ping⟩
        ⟨{ g with
          po := ⟨hname name, pid, if pongp ≠ 0 then .pong else .ping⟩ }, us⟩ := by
  by_cases hunset : g.po.hostname = []
  · cases host <;> simp [udPackPong, hunset, hhost, hpid]
  · obtain ⟨name, rfl, hname, hpo⟩ := hg.po hunset
    have hset : ¬ g.po.hostname.length = 0 := by
      simpa [List.length_eq_zero_iff] using hunset
    simp only [udPackPong, if_neg hset]
    simp only [hname, hpo, Option.elim_some]

theorem Statics.Known.congr {g' : Statics} (hsane : g'.Sane)
    (hpo : g'.po = g.po) : g'.Known host pid :=
  ⟨hsane, by rw [hpo]; exact hg.po⟩

theorem udPackPong_known (pongp : Nat) {e : Env} (hhost : e.hostname = host)
    (hpid : e.pid = pid) {us : Sock} (hsend : us.SendSane) (hrecv : us.RecvSane) :
    (udPackPong pongp e ⟨g, us⟩).st.g.Known host pid := by
  have hsane := udPackPong_sane pongp e (s := ⟨g, us⟩) ⟨hg.sane, hsend, hrecv⟩
  have heq := hg.udPackPong_eq pongp hhost hpid us
  cases host with
  | none =>
      rw [heq]
      exact hg
  | some name =>
      refine ⟨hsane.g, fun _ => ⟨name, rfl, ?_⟩⟩
      rw [heq, Option.elim_some, udPackPing_po]
      exact ⟨rfl, rfl⟩

theorem udPackPong_agree {g' : Statics} (hg' : g'.Known host pid) (pongp : Nat)
    {e : Env} (hhost : e.hostname = host) (hpid : e.pid = pid) (us : Sock) :
    (udPackPong pongp e ⟨g, us⟩).Agree (udPackPong pongp e ⟨g', us⟩) := by
  have heq := hg.udPackPong_eq pongp hhost hpid us
  have heq' := hg'.udPackPong_eq pongp hhost hpid us
  cases host with
  | none => exact .of_eq heq heq'
  | some name =>
      let po : SvcPing := ⟨hname name, pid, if pongp ≠ 0 then .pong else .ping⟩
      have hset : ({ g with po := po } : Statics).Sane :=
        ⟨hg.sane.msg_length, hg.sane.ctrl_length⟩
      have hset' : ({ g' with po := po } : Statics).Sane :=
        ⟨hg'.sane.msg_length, hg'.sane.ctrl_length⟩
      rw [heq, heq']
      exact udPackPing_agree hset hset' us e.w₁ e.w₂ po

theorem udChckMsg_known {e : Env} (hhost : e.hostname = host) (hpid : e.pid = pid)
    {us : Sock} (hsend : us.SendSane) (hrecv : us.RecvSane) :
    (udChckMsg e ⟨g, us⟩).st.g.Known host pid := by
  have hrefill := Lib.Sane.refill (s := ⟨g, us⟩) ⟨hg.sane, hsend, hrecv⟩ e.rx
  rw [udChckMsg_eq]
  split
  · rw [chckMsg_eq]
    change (reply e ⟨g, refill e.rx us⟩).1.g.Known host pid
    unfold reply
    split
    · exact udPackPong_known hg 1 hhost hpid hrefill.send hrefill.recv
    · exact hg
  · exact hg

theorem udChckMsg_agree {g' : Statics} (hg' : g'.Known host pid) {e : Env}
    (hhost : e.hostname = host) (hpid : e.pid = pid) (us : Sock) :
    (udChckMsg e ⟨g, us⟩).Agree (udChckMsg e ⟨g', us⟩) := by
  rw [udChckMsg_eq, udChckMsg_eq]
  split
  · have hreply : (reply e ⟨g, refill e.rx us⟩).1.us =
          (reply e ⟨g', refill e.rx us⟩).1.us ∧
        (reply e ⟨g, refill e.rx us⟩).2 = (reply e ⟨g', refill e.rx us⟩).2 := by
      unfold reply
      split
      · have hpong := udPackPong_agree hg hg' 1 hhost hpid (refill e.rx us)
        exact ⟨hpong.us, hpong.tx⟩
      · exact ⟨rfl, rfl⟩
    rw [chckMsg_eq, chckMsg_eq]
    simp only [hreply.1]
    exact ⟨rfl, rfl, hreply.2⟩
  · exact ⟨rfl, rfl, rfl⟩

theorem udChck_agree {g' : Statics} (hg' : g'.Known host pid) {e : Env}
    (hhost : e.hostname = host) (hpid : e.pid = pid) (tsz : Nat) (us : Sock) :
    (udChck tsz e ⟨g, us⟩).Agree (udChck tsz e ⟨g', us⟩) := by
  have h := udChckMsg_agree hg hg' hhost hpid us
  exact ⟨by simp only [udChck, h.val, h.us], h.us, h.tx⟩

end Known

/-! ## Every socket for itself -/

inductive Reported where
  | answer (ans : Answer)
  | ping (found : Option Seen)

/-- The part of it that the first `n` bytes of `__msg` tell. -/
def Seen.upTo (n : Nat) (seen : Seen) : Seen :=
  { seen with hostname := seen.hostname.take (n - hnOffset) }

/--
What a call reports whatever is left in `__msg`: everything, but of a message
that `ud_chck_ping` inspects only what it brings itself, and nothing of one that
ends before the hostname length.
-/
def Answer.report (inspected : Option Nat) : Answer → Option Reported
  | .ping found =>
      match inspected with
      | none => some (.ping (found.map PingRef.seen))
      | some n =>
          if n < hnOffset then none
          else some (.ping (found.map fun ref => ref.seen.upTo n))
  | ans => some (.answer ans)

def Shown.seen (o : Shown) : Option Reported × List Tx :=
  (o.obs.ans.report o.inspected, o.obs.tx)

theorem Res.Agree.seen {α : Type} {r r' : Res Lib α} (h : r.Agree r')
    (ans : α → Answer) :
    Shown.seen ⟨⟨ans r.val, r.tx⟩, none⟩ = Shown.seen ⟨⟨ans r'.val, r'.tx⟩, none⟩ := by
  rw [h.val, h.tx]

theorem readPing_upTo {buf buf' : Bytes} {n : Nat}
    (h : ∀ i < n, buf[i]? = buf'[i]?) (hn : hnOffset ≤ n) (svc : UInt16) :
    (readPing svc buf).upTo n = (readPing svc buf').upTo n := by
  unfold hnOffset at hn
  have hhnz : hnzAt buf = hnzAt buf' := hnzAt_congr (h 4 (by omega))
  have hpid : be32At buf 0 = be32At buf' 0 :=
    be32At_congr fun i hi => h (0 + i) (by omega)
  have hhost : (window buf hnOffset (hnzAt buf').toNat).take (n - hnOffset) =
      (window buf' hnOffset (hnzAt buf').toNat).take (n - hnOffset) := by
    apply List.ext_getElem?
    intro i
    by_cases hi : i < n - hnOffset
    · rw [List.getElem?_take_of_lt hi, List.getElem?_take_of_lt hi,
        getElem?_window, getElem?_window, h (hnOffset + i) (by omega)]
    · rw [List.getElem?_eq_none ((List.length_take_le _ _).trans (by omega)),
        List.getElem?_eq_none ((List.length_take_le _ _).trans (by omega))]
  simp only [Seen.upTo, readPing, hpid, hhnz, hhost]

theorem inspectPing_report {msg : MsgRef} {data buf buf' : Bytes}
    (hbuf : buf.length = pingMsgSize) (hbuf' : buf'.length = pingMsgSize)
    (hdata : data.length ≤ pingMsgSize) :
    (Answer.ping (inspectPing msg data buf).1).report (some data.length) =
      (Answer.ping (inspectPing msg data buf').1).report (some data.length) := by
  by_cases hcut : data.length < hnOffset
  · simp only [Answer.report, if_pos hcut]
  · have hsame : ∀ i < data.length, (blit buf 0 data)[i]? =
        (blit buf' 0 data)[i]? := by
      intro i hi
      rw [getElem?_blit (Nat.zero_le _), getElem?_blit (Nat.zero_le _),
        if_pos ⟨Nat.zero_le _, by omega⟩, if_pos ⟨Nat.zero_le _, by omega⟩]
    have hhnz : hnzAt (blit buf 0 data) = hnzAt (blit buf' 0 data) :=
      hnzAt_congr (hsame 4 (by unfold hnOffset at hcut; omega))
    simp only [Answer.report, if_neg hcut]
    by_cases hmax : maxHnz < hnzAt (blit buf 0 data)
    · rw [inspectPing_none hmax, inspectPing_none (by rw [← hhnz]; exact hmax)]
    · obtain ⟨ref, href, hseen, -⟩ :=
        @inspectPing_some msg data buf hbuf hdata hmax
      obtain ⟨ref', href', hseen', -⟩ := @inspectPing_some msg data buf' hbuf' hdata
        (by rw [← hhnz]; exact hmax)
      rw [href, href', Option.map_some, Option.map_some, hseen, hseen',
        readPing_upTo hsame (Nat.le_of_not_lt hcut)]

theorem udChckPing_report {host : Option Bytes} {pid : Int32} {g g' : Statics}
    (hg : g.Known host pid) (hg' : g'.Known host pid) {e : Env}
    (hhost : e.hostname = host) (hpid : e.pid = pid) {us : Sock}
    (hsend : us.SendSane) (hrecv : us.RecvSane) :
    (Answer.ping (udChckPing e ⟨g, us⟩).val).report
        ((Call.udChckPing e).inspects ⟨g, us⟩) =
      (Answer.ping (udChckPing e ⟨g', us⟩).val).report
        ((Call.udChckPing e).inspects ⟨g', us⟩) := by
  have hsame := udChckMsg_agree hg hg' hhost hpid us
  have hbuf := (udChckMsg_known hg hhost hpid hsend hrecv).sane.msg_length
  have hbuf' := (udChckMsg_known hg' hhost hpid hsend hrecv).sane.msg_length
  simp only [udChckPing, Call.inspects, ← hsame.val, ← hsame.us]
  cases (udChckMsg e ⟨g, us⟩).val with
  | none => rfl
  | some msg =>
      simp only
      split
      · rfl
      · rename_i hshort
        split
        · rfl
        · refine inspectPing_report hbuf hbuf' ?_
          have hle := List.length_take_le msg.dlen
            ((udChckMsg e ⟨g, us⟩).st.us.mem.drop (hdrSize + msg.data))
          exact hle.trans (Nat.le_of_not_lt hshort)

theorem sockets_agree {host : Option Bytes} {pid : Int32} {g g' : Statics}
    (hg : g.Known host pid) (hg' : g'.Known host pid) {us : Sock}
    (hsend : us.SendSane) (hrecv : us.RecvSane) {c : Call}
    (hc : c.InProcess host pid) :
    (sockets.step g us c).2.1 = (sockets.step g' us c).2.1 ∧
      (sockets.step g us c).2.2.seen = (sockets.step g' us c).2.2.seen := by
  cases c with
  | udPackMsg w msg | udFlush w | udDscrd rx => exact ⟨rfl, rfl⟩
  | udPackCmsg w msg =>
      have h := udPackCmsg_agree hg.sane hg'.sane us w msg
      exact ⟨h.us, h.seen .code⟩
  | udPackPing w₁ w₂ msg =>
      have h := udPackPing_agree hg.sane hg'.sane us w₁ w₂ msg
      exact ⟨h.us, h.seen .code⟩
  | udPackPong pongp e =>
      have h := udPackPong_agree hg hg' pongp hc.1 hc.2 us
      exact ⟨h.us, h.seen .code⟩
  | udChckMsg e =>
      have h := udChckMsg_agree hg hg' hc.1 hc.2 us
      exact ⟨h.us, h.seen .msg⟩
  | udChck tsz e =>
      have h := udChck_agree hg hg' hc.1 hc.2 tsz us
      exact ⟨h.us, h.seen .copy⟩
  | udChckPing e =>
      have h := udChckMsg_agree hg hg' hc.1 hc.2 us
      obtain ⟨hus, htx⟩ := udChckPing_st_us e ⟨g, us⟩
      obtain ⟨hus', htx'⟩ := udChckPing_st_us e ⟨g', us⟩
      have hsent : (udChckPing e ⟨g, us⟩).tx = (udChckPing e ⟨g', us⟩).tx :=
        htx.trans (h.tx.trans htx'.symm)
      exact ⟨hus.trans (h.us.trans hus'.symm),
        Prod.ext (udChckPing_report hg hg' hc.1 hc.2 hsend hrecv) hsent⟩
  | elsewhere g sane => exact hc.elim

theorem sockets_known {host : Option Bytes} {pid : Int32} {g : Statics}
    (hg : g.Known host pid) {us : Sock} (hsend : us.SendSane)
    (hrecv : us.RecvSane) {c : Call} (hc : c.InProcess host pid) :
    (sockets.step g us c).1.Known host pid := by
  have hsane : (sockets.step g us c).1.Sane :=
    (call_sane ⟨g, us⟩ c ⟨hg.sane, hsend, hrecv⟩).g
  cases c with
  | udPackMsg w msg | udFlush w | udDscrd rx => exact hg
  | udPackCmsg w msg => exact hg.congr hsane (udPackCmsg_po w msg ⟨g, us⟩)
  | udPackPing w₁ w₂ msg => exact hg.congr hsane (udPackPing_po w₁ w₂ msg ⟨g, us⟩)
  | udPackPong pongp e => exact udPackPong_known hg pongp hc.1 hc.2 hsend hrecv
  | udChckMsg e => exact udChckMsg_known hg hc.1 hc.2 hsend hrecv
  | udChck tsz e => exact udChckMsg_known hg hc.1 hc.2 hsend hrecv
  | udChckPing e =>
      exact (udChckMsg_known hg hc.1 hc.2 hsend hrecv).congr hsane
        (udChckPing_po e ⟨g, us⟩)
  | elsewhere g sane => exact hc.elim

theorem sockets_separate (host : Option Bytes) (pid : Int32) :
    sockets.Separate Shown.seen (Statics.Known host pid)
      (fun us => us.SendSane ∧ us.RecvSane) (Call.InProcess host pid) where
  common _ _ _ hg hus hc := sockets_known hg hus.1 hus.2 hc
  own g us c hg hus _ :=
    have hsane := call_sane ⟨g, us⟩ c ⟨hg.sane, hus.1, hus.2⟩
    ⟨hsane.send, hsane.recv⟩
  same _ _ _ _ hg hg' hus hc := sockets_agree hg hg' hus.1 hus.2 hc

def freshProcess (κ : Type*) : Housing κ Statics Sock :=
  ⟨Statics.init, fun _ => Sock.fresh⟩

theorem alone_eq_api (calls : List Call) (s : Lib) :
    (sockets.alone.run (s.g, s.us) calls).2 = (api.run s calls).us ∧
      Component.shown Shown.seen
          (sockets.alone.events (s.g, s.us) calls) =
        (api.events s calls).map fun e =>
          Shown.seen ⟨e.output, e.input.inspects e.pre⟩ := by
  induction calls generalizing s with
  | nil => exact ⟨rfl, rfl⟩
  | cons c calls ih =>
      obtain ⟨hrun, hshown⟩ := ih (api.step s c).1
      exact ⟨hrun, congrArg _ hshown⟩

/--
However the calls on the sockets of a process follow each other, each socket
ends up in the state, and each of its calls reports and sends, what they would
have with the calls on the other sockets left out.
-/
theorem sockets_independent {κ : Type*} [DecidableEq κ] {host : Option Bytes}
    {pid : Int32} {calls : List (κ × Call)}
    (h : ∀ c ∈ calls, c.2.InProcess host pid) (k : κ) :
    (sockets.process.run (freshProcess κ) calls).own k =
        (api.run Lib.fresh (Component.inputsOf k calls)).us ∧
      Component.shownBy Shown.seen k
          (sockets.process.events (freshProcess κ) calls) =
        (api.events Lib.fresh (Component.inputsOf k calls)).map
          fun e => Shown.seen ⟨e.output, e.input.inspects e.pre⟩ := by
  have hinit : Statics.init.Known host pid :=
    ⟨Lib.fresh_sane.g, fun hne => absurd rfl hne⟩
  obtain ⟨hown, hshown⟩ := (sockets_separate host pid).run_alone
    (p := freshProcess κ) hinit
    (fun _ => ⟨Lib.fresh_sane.send, Lib.fresh_sane.recv⟩) hinit h k
  obtain ⟨hrun, hevents⟩ := alone_eq_api (Component.inputsOf k calls) Lib.fresh
  exact ⟨hown.trans hrun, hshown.trans hevents⟩

/-- A PONG that holds one of the two bytes of hostname it announces. -/
theorem sockets_independent_witness :
    let calls : List (Bool × Call) := leaveOnes.map (true, ·) ++
      [(false, .udChckPing (silent svcPong [0, 0, 0, 7, 2, 0x68]))]
    Component.shownBy Shown.seen false
        (sockets.process.events (freshProcess Bool) calls) =
      [(some (.ping (some ⟨7, .pong, 2, [0x68]⟩)), [])] := by
  intro calls
  have halone := (@sockets_independent Bool _ none 0 calls
    (by simp [calls, leaveOnes, Call.InProcess, silent]) false).2
  exact halone.trans rfl

end Unserding
