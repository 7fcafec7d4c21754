import Unserding.Ping
import Unserding.Decoding
import Unserding.Storm
import Unserding.Foundation.CString
import Unserding.Foundation.Traffic
import Mathlib.Data.List.TakeWhile

/-!
# The ping utility

The callbacks of `ud-ping.c` and a group of processes that run them.  A process
multicasts a PING on each tick, answers the PINGs of all processes, its own
included, and prints a line for every PONG it can read.
-/

namespace Unserding

open Foundation

/-! ## The callbacks -/

structure Line where
  pid : Int32
  hostname : Bytes
  deriving DecidableEq

/-- A process of `ud-ping` with its `struct ctx_s`, the state of its loop and
what it has printed so far. -/
structure Pinger where
  addr : SockaddrIn6
  -- what `gethostname` and `getpid` have to say in this process
  hostname : Bytes
  pid : Int32
  lib : Lib
  cnt : UInt32
  looping : Bool
  out : List Line
  deriving DecidableEq

/-- A callback, with the success of `gethostname` and of the sends nested in it. -/
inductive Callback where
  | subCb (named : Bool) (w₁ w₂ : SendRes)
  | ptmCb (named : Bool) (w₁ w₂ : SendRes)
  | sigallCb

namespace Pinger

def env (m : Pinger) (rx : Option Arrival) (named : Bool)
    (w₁ w₂ : SendRes) : Env :=
  ⟨rx, if named then some m.hostname else none, m.pid, w₁, w₂⟩

def subCb (e : Env) (m : Pinger) : Pinger × List Tx :=
  let r := udChckPing e m.lib
  match r.val with
  | none => ({ m with lib := r.st }, r.tx)
  | some po =>
      if po.what ≠ .pong then ({ m with lib := r.st }, r.tx)
      else
        -- `%s` prints the hostname up to its NUL
        ({ m with lib := r.st, out := m.out ++ [⟨po.pid, cstr 0 po.hn 0⟩] }, r.tx)

def ptmCb (e : Env) (m : Pinger) : Pinger × List Tx :=
  if m.cnt = 0 then
    ({ m with cnt := m.cnt - 1, looping := false }, [])
  else
    let r := udPackPong 0 e m.lib
    ({ m with cnt := m.cnt - 1, lib := r.st }, r.tx)

def sigallCb (m : Pinger) : Pinger × List Tx := ({ m with looping := false }, [])

def callback (m : Pinger) (rx : Option Arrival) :
    Callback → Pinger × List Tx
  | .subCb named w₁ w₂ => subCb (m.env rx named w₁ w₂) m
  | .ptmCb named w₁ w₂ => ptmCb (m.env rx named w₁ w₂) m
  | .sigallCb => sigallCb m

/-- `main` before its loop; the count is -1 unless it is given. -/
def start (addr : SockaddrIn6) (hostname : Bytes) (pid : Int32)
    (count : Option UInt32) : Pinger :=
  ⟨addr, hostname, pid, Lib.fresh, count.getD (-1), true, []⟩

end Pinger

def pinger : Node Pinger Callback Arrival where
  reads m
    | .subCb _ _ _ => m.looping && m.lib.us.nrd == 0
    | _ => false
  step m cb rx :=
    let r := if m.looping then m.callback rx cb else (m, [])
    (r.1, r.2.map fun t => ⟨t.dgram, m.addr⟩)

/-! ## Packets -/

def Pinger.po (m : Pinger) (what : PingWhat) : SvcPing :=
  ⟨hname m.hostname, m.pid, what⟩

def PingPacket (dgram : Bytes) (msg : SvcPing) : Prop :=
  ∃ pno cmd, pingCmd msg.what = some cmd ∧
    dgram = udHdr pno cmd ++ record (pingData msg)

theorem length_hname (name : Bytes) : (hname name).length ≤ 254 :=
  List.length_take_le _ _

theorem hname_clear (name : Bytes) : 0 ∉ hname name := by
  intro h
  simpa using List.mem_takeWhile_imp (List.mem_of_mem_take h)

theorem udPackPing_alone (w₁ w₂ : SendRes) {s : Lib} (hs : s.Sane)
    (hnpk : s.us.npk = 0) {msg : SvcPing} {cmd : UInt16}
    (hcmd : pingCmd msg.what = some cmd) :
    (udPackPing w₁ w₂ msg s).tx = ((sendto w₂ (udHdr s.us.pno cmd ++
        record (pingData msg))).map Tx.ctrl).toList ∧
      (udPackPing w₁ w₂ msg s).st.us.npk = 0 ∧
      (udPackPing w₁ w₂ msg s).st.g.po = s.g.po := by
  have hflush : udFlush w₁ s.us = ⟨0, s.us.cleared, []⟩ := by
    simp [udFlush, hnpk, Sock.cleared]
  have hpacket := ctrlPacket_pingControl s.us.pno cmd msg
  simp only [udPackPing, hcmd, hflush, pingMsg_eq]
  rcases udPackCmsg_cases w₂ (pingControl cmd msg)
      (s := ⟨{ s.g with msg := putPing msg s.g.msg }, s.us.cleared⟩)
      hs.g.ctrl_length with
    ⟨hlong, -⟩ | ⟨-, ctrl, -, ⟨hsend, heq⟩ | ⟨dgram, hsend, heq⟩⟩
  · exact absurd hlong (pingControl_fits cmd msg)
  · change sendto w₂ (ctrlPacket s.us.pno (pingControl cmd msg)) = _ at hsend
    rw [hpacket] at hsend
    rw [heq]
    exact ⟨by simp [hsend], hnpk, rfl⟩
  · change sendto w₂ (ctrlPacket s.us.pno (pingControl cmd msg)) = _ at hsend
    rw [hpacket] at hsend
    rw [heq]
    exact ⟨by simp [hsend], hnpk, rfl⟩

/-- The library of a process that only pings: nothing is packed, and `po` is
unset or tells of this process. -/
structure Pinger.Knows (m : Pinger) (s : Lib) : Prop where
  sane : s.Sane
  npk : s.us.npk = 0
  po : s.g.po.hostname ≠ [] →
    s.g.po.hostname = hname m.hostname ∧ s.g.po.pid = m.pid

def Pinger.ident (m : Pinger) : SockaddrIn6 × Bytes × Int32 :=
  (m.addr, m.hostname, m.pid)

theorem po_congr {m m' : Pinger} (h : m'.ident = m.ident) (what : PingWhat) :
    m'.po what = m.po what := by
  simp only [Pinger.ident, Prod.mk.injEq] at h
  simp [Pinger.po, h]

theorem Pinger.Knows.congr {m m' : Pinger} {s : Lib} (h : m.Knows s)
    (hident : m'.ident = m.ident) : m'.Knows s := by
  simp only [Pinger.ident, Prod.mk.injEq] at hident
  refine ⟨h.sane, h.npk, ?_⟩
  simpa [hident] using h.po

theorem Pinger.Knows.udPackPong_eq {m : Pinger} {s : Lib} (h : m.Knows s)
    (pongp : Nat) (rx : Option Arrival) (named : Bool) (w₁ w₂ : SendRes) :
    (named = false ∧
      udPackPong pongp (m.env rx named w₁ w₂) s = ⟨-1, s, []⟩) ∨
    udPackPong pongp (m.env rx named w₁ w₂) s =
      udPackPing w₁ w₂ (m.po (if pongp ≠ 0 then .pong else .ping))
        ⟨{ s.g with po := m.po (if pongp ≠ 0 then .pong else .ping) }, s.us⟩ := by
  by_cases hunset : s.g.po.hostname = []
  · cases named with
    | false => exact .inl ⟨rfl, by simp [udPackPong, hunset, Pinger.env]⟩
    | true => exact .inr (by simp [udPackPong, hunset, Pinger.env, Pinger.po])
  · obtain ⟨hname, hpid⟩ := h.po hunset
    have hset : ¬ s.g.po.hostname.length = 0 := by
      simpa [List.length_eq_zero_iff] using hunset
    refine .inr ?_
    simp only [udPackPong, if_neg hset]
    simp only [hname, hpid, Pinger.env, Pinger.po]

def Pinger.Says (m : Pinger) (what : PingWhat) (tx : List Tx) : Prop :=
  ∃ dgram, tx = [.ctrl dgram] ∧ PingPacket dgram (m.po what)

structure Pinger.Packs (m : Pinger) (what : PingWhat) (s : Lib) (r : Res Lib Int)
    (sure : Prop) : Prop where
  knows : m.Knows r.st
  inbox : r.st.us.inbox = s.us.inbox
  tx : r.tx = [] ∧ ¬ sure ∨ m.Says what r.tx

theorem Pinger.Knows.packs {m : Pinger} {s : Lib} (h : m.Knows s) (pongp : Nat)
    (rx : Option Arrival) (named : Bool) (w₁ : SendRes) {w₂ : SendRes}
    (hw₂ : w₂.Atomic) :
    m.Packs (if pongp ≠ 0 then .pong else .ping) s
      (udPackPong pongp (m.env rx named w₁ w₂) s)
      (named = true ∧ w₂ = .full) := by
  have hinbox := udPackPong_inbox pongp (m.env rx named w₁ w₂) s
  have hsane := udPackPong_sane pongp (m.env rx named w₁ w₂) h.sane
  rcases h.udPackPong_eq pongp rx named w₁ w₂ with ⟨hnamed, heq⟩ | heq
  · rw [heq]
    exact ⟨h, rfl, .inl ⟨rfl, by simp [hnamed]⟩⟩
  · have hcmd : ∃ cmd, pingCmd (if pongp ≠ 0 then .pong else .ping) = some cmd :=
      exists_pingCmd (by split <;> simp)
    generalize (if pongp ≠ 0 then PingWhat.pong else .ping) = what at *
    obtain ⟨cmd, hcmd⟩ := hcmd
    have hwhat : pingCmd (m.po what).what = some cmd := hcmd
    obtain ⟨htx, hnpk, hpo⟩ := udPackPing_alone w₁ w₂
      (s := ⟨{ s.g with po := m.po what }, s.us⟩)
      ⟨⟨h.sane.g.msg_length, h.sane.g.ctrl_length⟩, h.sane.send, h.sane.recv⟩
      h.npk hwhat
    rw [heq] at hsane hinbox ⊢
    refine ⟨⟨hsane, hnpk, fun _ => by rw [hpo]; exact ⟨rfl, rfl⟩⟩, hinbox, ?_⟩
    rw [htx]
    rcases hw₂.sendto (udHdr s.us.pno cmd ++ record (pingData (m.po what))) with
      hnone | hfull
    · refine .inl ⟨by rw [hnone]; rfl, fun hsure => ?_⟩
      rw [hsure.2] at hnone
      contradiction
    · exact .inr ⟨_, by rw [hfull]; rfl, s.us.pno, cmd, hcmd, rfl⟩

/-! ## Checking -/

def SvcPing.line (msg : SvcPing) : List Line :=
  if msg.what = .pong ∧ msg.hostname.length ≤ 58 then
    [⟨msg.pid, msg.hostname⟩]
  else []

def printed (val : Option PingRef) : List Line :=
  val.toList.flatMap fun po =>
    if po.what ≠ .pong then [] else [⟨po.pid, cstr 0 po.hn 0⟩]

theorem subCb_eq (e : Env) (m : Pinger) :
    Pinger.subCb e m = ({ m with
        lib := (udChckPing e m.lib).st
        out := m.out ++ printed (udChckPing e m.lib).val },
      (udChckPing e m.lib).tx) := by
  simp only [Pinger.subCb]
  split
  · rename_i hval
    simp [hval, printed]
  · rename_i po hval
    by_cases hwhat : po.what = .pong <;> simp [hval, printed, hwhat]

theorem PingRef.cstr_eq {ref : PingRef} (hterm : ref.Terminated)
    (hclear : 0 ∉ ref.hostname) : cstr 0 ref.hn 0 = ref.hostname := by
  obtain ⟨hlt, hget⟩ := List.getElem?_eq_some_iff.mp hterm
  refine Reads.cstr_eq ⟨⟨[], ref.hn.drop (ref.hostnlen + 1), ?_, rfl⟩, hclear⟩
  rw [List.nil_append, ← hget, PingRef.hostname, List.getElem_cons_drop,
    List.take_append_drop]

theorem udChckPing_packet {s : Lib} (hs : s.Sane) (hidle : s.us.nrd = 0)
    {e : Env} {d : Arrival} (hrx : e.rx = some d) {msg : SvcPing} {pno : Nat}
    {cmd : UInt16} (hcmd : pingCmd msg.what = some cmd)
    (hbytes : d.bytes = udHdr pno cmd ++ record (pingData msg))
    (hlen : msg.hostname.length ≤ 254) (hclear : 0 ∉ msg.hostname) :
    printed (udChckPing e s).val = msg.line := by
  have hhnz := hnzOf_toNat msg.hostname.length
  have hle := hnzOf_le msg.hostname.length
  have hdata := length_pingData msg
  have hmax : maxHnz.toNat = 58 := by decide
  unfold pingMsgSize hnOffset at hle
  unfold hnOffset at hdata
  obtain ⟨-, hgives, -⟩ := udChckMsg_single hs hidle hrx (by omega) hbytes
  have hping := isPing_of_pingCmd hcmd
  have hseen := udChckPing_complete hs hgives hping.1 (completePing_pingData msg)
  rw [hnzAt_pingData, readPing_pingData, hping.2] at hseen
  by_cases hlong : 58 < msg.hostname.length
  · have hbig : maxHnz < hnzOf msg.hostname.length := by
      rw [UInt8.lt_iff_toNat_lt, hmax, hhnz, if_pos (by omega)]
      decide
    rw [if_pos (.inr hbig), Option.map_eq_none_iff] at hseen
    simp [hseen, printed, SvcPing.line, hlong]
  · rw [Nat.mod_eq_of_lt (by omega), if_neg hlong] at hhnz
    have hfit : ¬ (pingMsgSize < (pingData msg).length ∨
        maxHnz < hnzOf msg.hostname.length) := by
      rw [UInt8.lt_iff_toNat_lt, hmax, hdata, hhnz]
      unfold pingMsgSize
      omega
    rw [if_neg hfit] at hseen
    obtain ⟨ref, href, hsame⟩ := Option.map_eq_some_iff.mp hseen
    obtain ⟨hpid, hwhat, hnlen, hname⟩ := Seen.mk.inj hsame
    have hterm := udChckPing_terminated hs hgives hping.1 href
    rw [hhnz, List.take_length] at hname
    have hcstr := PingRef.cstr_eq hterm (by rw [hname]; exact hclear)
    rw [href, printed, SvcPing.line]
    by_cases hpong : msg.what = .pong <;>
      simp [hwhat, hpong, hcstr, hname, hpid, Nat.le_of_not_lt hlong]

theorem udChckPing_quiet {e : Env} {s s' : Lib}
    (h : udChckMsg e s = ⟨none, s', []⟩) : udChckPing e s = ⟨none, s', []⟩ := by
  simp [udChckPing, h]

structure Pinger.Checks (m : Pinger) (msg : SvcPing)
    (r : Res Lib (Option PingRef)) (sure : Prop) : Prop where
  knows : m.Knows r.st
  used : r.st.us.nrd ≤ r.st.us.nck
  lines : printed r.val = msg.line
  pong : msg.what = .ping → r.tx = [] ∧ ¬ sure ∨ m.Says .pong r.tx
  silent : msg.what ≠ .ping → r.tx = []

theorem pingCmd_eq_svcPing_iff {what : PingWhat} {cmd : UInt16}
    (h : pingCmd what = some cmd) : cmd = svcPing ↔ what = .ping := by
  cases what with
  | ping =>
      cases h
      exact ⟨fun _ => rfl, fun _ => rfl⟩
  | pong =>
      cases h
      exact iff_of_false (by decide) (by simp)
  | other what => contradiction

theorem length_pingData_le (msg : SvcPing) : (pingData msg).length ≤ 64 := by
  have hlen := length_pingData msg
  have hle := hnzOf_le msg.hostname.length
  unfold pingMsgSize hnOffset at hle
  unfold hnOffset at hlen
  omega

theorem Pinger.Knows.reply {m : Pinger} {s : Lib} (h : m.Knows s)
    (rx : Option Arrival) (named : Bool) (w₁ : SendRes) {w₂ : SendRes}
    (hw₂ : w₂.Atomic) :
    m.Knows (reply (m.env rx named w₁ w₂) s).1 ∧
      (hdrCmd s.us.recv = svcPing →
        (reply (m.env rx named w₁ w₂) s).2 = [] ∧
            ¬ (named = true ∧ w₂ = .full) ∨
          m.Says .pong (reply (m.env rx named w₁ w₂) s).2) ∧
      (hdrCmd s.us.recv ≠ svcPing → (reply (m.env rx named w₁ w₂) s).2 = []) := by
  have hpacks := h.packs 1 rx named w₁ hw₂
  by_cases hcmd : hdrCmd s.us.recv = svcPing
  · rw [Unserding.reply, if_pos hcmd]
    exact ⟨hpacks.knows, fun _ => hpacks.tx, fun hne => absurd hcmd hne⟩
  · rw [Unserding.reply, if_neg hcmd]
    exact ⟨h, fun hping => absurd hping hcmd, fun _ => rfl⟩

theorem PingPacket.cmd {dgram : Bytes} {msg : SvcPing} (h : PingPacket dgram msg) :
    hdrCmd dgram = svcPing ↔ msg.what = .ping := by
  obtain ⟨pno, cmd, hcmd, rfl⟩ := h
  rw [hdrCmd_udHdr]
  exact pingCmd_eq_svcPing_iff hcmd

theorem PingPacket.arrives {d : Arrival} {msg : SvcPing}
    (h : PingPacket d.bytes msg) :
    d.Accepted ∧ d.payload = record (pingData msg) := by
  obtain ⟨pno, cmd, -, hbytes⟩ := h
  have hshort := length_pingData_le msg
  constructor
  · exact Arrival.accepted_of_bytes hbytes (length_udHdr pno cmd)
      (by rw [hbytes, hdrAccepted_udHdr])
  · refine Arrival.payload_of_bytes hbytes (length_udHdr pno cmd) ?_
    rw [length_record]
    unfold ethMtu hdrSize
    omega

theorem Pinger.Knows.checks {m : Pinger} {s : Lib} (h : m.Knows s)
    (hidle : s.us.nrd = 0) {d : Arrival} {msg : SvcPing}
    (hpacket : PingPacket d.bytes msg) (hlen : msg.hostname.length ≤ 254)
    (hclear : 0 ∉ msg.hostname) (named : Bool) (w₁ : SendRes) {w₂ : SendRes}
    (hw₂ : w₂.Atomic) :
    m.Checks msg (udChckPing (m.env (some d) named w₁ w₂) s)
      (named = true ∧ w₂ = .full) := by
  have hwhat := hpacket.cmd
  obtain ⟨hd, hpayload⟩ := hpacket.arrives
  obtain ⟨pno, cmd, hcmd, hbytes⟩ := hpacket
  have hlines := udChckPing_packet h.sane hidle
    (show (m.env (some d) named w₁ w₂).rx = some d from rfl) hcmd hbytes hlen
    hclear
  have hsane := udChckPing_sane (m.env (some d) named w₁ w₂) h.sane
  obtain ⟨hus, htx⟩ := udChckPing_st_us (m.env (some d) named w₁ w₂) s
  have hpo := udChckPing_po (m.env (some d) named w₁ w₂) s
  have hload : m.Knows { s with us := load d s.us } :=
    ⟨h.sane.load d, h.npk, h.po⟩
  have hunread : (load d s.us).unread = record (pingData msg) ++ [] := by
    rw [load_unread, hpayload, List.append_nil]
  have hrec : hdrCmd (load d s.us).recv = svcPing ↔ msg.what = .ping := by
    rw [show hdrCmd (load d s.us).recv = hdrCmd d.bytes from
      hdrCmd_recvfrom s.us hd.1]
    exact hwhat
  have heq := udChckMsg_load (e := m.env (some d) named w₁ w₂) hd hidle rfl
    (by simp [hpayload, record])
  have hmore : (load d s.us).nck < (load d s.us).nrd :=
    hload.sane.recv.more_of_unread (b := _) (by rw [hunread]; rfl)
  obtain ⟨-, hrest, hnrd, -⟩ := udChckMsg_blob (m.env (some d) named w₁ w₂)
    hload.sane (by have := length_pingData_le msg; omega) hunread
  obtain ⟨hknows, hpong, hsilent⟩ := hload.reply (some d) named w₁ hw₂
  have hchck := (udChckMsg_more (m.env (some d) named w₁ w₂)
    (s := { s with us := load d s.us }) hmore).trans (chckMsg_eq _ _)
  rw [← heq] at hrest hchck
  have hnpk : (udChckPing (m.env (some d) named w₁ w₂) s).st.us.npk = 0 := by
    rw [hus, hchck]
    exact (Sock.eq_of_tray (takeMsg_tray _ _)).2.2.1.trans hknows.npk
  have hused := hsane.recv.length_unread
  rw [hus, hrest, List.length_nil] at hused
  refine ⟨⟨hsane, hnpk, ?_⟩, by rw [hus]; omega, hlines, ?_, ?_⟩
  · rw [hpo, hchck]
    exact hknows.po
  · intro hping
    rw [htx, hchck]
    exact hpong (hrec.mpr hping)
  · intro hother
    rw [htx, hchck]
    exact hsilent fun hping => hother (hrec.mp hping)

/-! ## Turns -/

def Callback.Atomic : Callback → Prop
  | .subCb _ _ w₂ | .ptmCb _ _ w₂ => w₂.Atomic
  | .sigallCb => True

def Callback.Obliging : Callback → Prop
  | .subCb named _ w₂ | .ptmCb named _ w₂ => named = true ∧ w₂ = .full
  | .sigallCb => True

theorem Callback.Obliging.atomic {cb : Callback} (h : cb.Obliging) :
    cb.Atomic := by
  cases cb with
  | subCb named w₁ w₂ | ptmCb named w₁ w₂ =>
      rw [Callback.Atomic, h.2]
      trivial
  | sigallCb => trivial

structure Pinger.Tidy (m : Pinger) : Prop where
  knows : m.Knows m.lib
  used : m.lib.us.nrd ≤ m.lib.us.nck

def Pinger.ticks (m : Pinger) : Nat := if m.looping then m.cnt.toNat else 0

inductive Pinger.Turns (P : SvcPing → Prop) (m m' : Pinger)
    (rx : Option Arrival) (tx : List Tx) (sure : Prop) : Prop where
  | rest (hrx : rx = none) (htx : tx = []) (hout : m'.out = m.out)
      (hticks : m'.ticks ≤ m.ticks)
  | tick (hrx : rx = none) (hticks : m'.ticks + 1 ≤ m.ticks)
      (hout : m'.out = m.out) (htx : tx = [] ∧ ¬ sure ∨ m.Says .ping tx)
  | read (d : Arrival) (msg : SvcPing) (hrx : rx = some d) (hmsg : P msg)
      (hpacket : PingPacket d.bytes msg) (hticks : m'.ticks = m.ticks)
      (hout : m'.out = m.out ++ msg.line)
      (hpong : msg.what = .ping → tx = [] ∧ ¬ sure ∨ m.Says .pong tx)
      (hsilent : msg.what ≠ .ping → tx = [])

def SvcPing.Fair (msg : SvcPing) : Prop :=
  msg.hostname.length ≤ 254 ∧ 0 ∉ msg.hostname

theorem Pinger.po_fair (m : Pinger) (what : PingWhat) : (m.po what).Fair :=
  ⟨length_hname _, hname_clear _⟩

def PingArrival (P : SvcPing → Prop) (d : Arrival) : Prop :=
  ∃ msg, P msg ∧ PingPacket d.bytes msg

theorem ident_callback (m : Pinger) (rx : Option Arrival) (cb : Callback) :
    (m.callback rx cb).1.ident = m.ident := by
  cases cb with
  | subCb named w₁ w₂ => simp [Pinger.callback, subCb_eq, Pinger.ident]
  | ptmCb named w₁ w₂ =>
      simp only [Pinger.callback, Pinger.ptmCb]
      split <;> rfl
  | sigallCb => rfl

structure Pinger.Turned (P : SvcPing → Prop) (m : Pinger) (cb : Callback)
    (rx : Option Arrival) (r : Pinger × List Arrival) (tx : List Tx) : Prop where
  tidy : r.1.Tidy
  ident : r.1.ident = m.ident
  out : r.2 = tx.map fun t => ⟨t.dgram, m.addr⟩
  turns : m.Turns P r.1 rx tx cb.Obliging

section Fair

variable {P : SvcPing → Prop} (hfair : ∀ msg, P msg → msg.Fair)

include hfair

theorem Pinger.Tidy.subCb {m : Pinger} (h : m.Tidy) {rx : Option Arrival}
    (hfits : m.lib.us.nrd ≠ 0 → rx = none) (hrx : ∀ d ∈ rx, PingArrival P d)
    (named : Bool) (w₁ : SendRes)
    {w₂ : SendRes} (hw₂ : w₂.Atomic) :
    (Pinger.subCb (m.env rx named w₁ w₂) m).1.Tidy ∧
      m.Turns P (Pinger.subCb (m.env rx named w₁ w₂) m).1 rx
        (Pinger.subCb (m.env rx named w₁ w₂) m).2 (named = true ∧ w₂ = .full) := by
  rw [subCb_eq]
  by_cases hidle : m.lib.us.nrd = 0
  · cases rx with
    | none =>
        have hnone := udChckPing_quiet
          (udChckMsg_none (e := m.env none named w₁ w₂) hidle rfl)
        rw [hnone]
        exact ⟨⟨h.knows.congr rfl, h.used⟩,
          .rest rfl rfl (by simp [printed]) le_rfl⟩
    | some d =>
        obtain ⟨msg, hmsg, hpacket⟩ := hrx d rfl
        obtain ⟨hlen, hclear⟩ := hfair msg hmsg
        have hchecks := h.knows.checks hidle hpacket hlen hclear named w₁ hw₂
        refine ⟨⟨hchecks.knows.congr rfl, hchecks.used⟩, ?_⟩
        exact .read d msg rfl hmsg hpacket rfl (by rw [hchecks.lines]) hchecks.pong
          hchecks.silent
  · rw [hfits hidle]
    have hend := udChckPing_quiet
      (udChckMsg_end (m.env none named w₁ w₂) h.used hidle)
    have hsane := udChckPing_sane (m.env none named w₁ w₂) h.knows.sane
    rw [hend] at hsane ⊢
    exact ⟨⟨Knows.congr ⟨hsane, h.knows.npk, h.knows.po⟩ rfl, le_rfl⟩,
      .rest rfl rfl (by simp [printed]) le_rfl⟩

omit hfair in
theorem Pinger.Tidy.ptmCb {m : Pinger} (h : m.Tidy) (hloop : m.looping = true)
    (named : Bool) (w₁ : SendRes) {w₂ : SendRes} (hw₂ : w₂.Atomic) :
    (Pinger.ptmCb (m.env none named w₁ w₂) m).1.Tidy ∧
      m.Turns P (Pinger.ptmCb (m.env none named w₁ w₂) m).1 none
        (Pinger.ptmCb (m.env none named w₁ w₂) m).2
        (named = true ∧ w₂ = .full) := by
  by_cases hcnt : m.cnt = 0
  · rw [Pinger.ptmCb, if_pos hcnt]
    exact ⟨⟨h.knows.congr rfl, h.used⟩, .rest rfl rfl rfl (by simp [ticks])⟩
  · have hpacks := h.knows.packs 0 none named w₁ hw₂
    obtain ⟨-, hnrd, hnck, -⟩ := Sock.eq_of_inbox hpacks.inbox
    rw [Pinger.ptmCb, if_neg hcnt]
    refine ⟨⟨hpacks.knows.congr rfl, ?_⟩, .tick rfl ?_ rfl hpacks.tx⟩
    · exact (hnrd.trans_le h.used).trans_eq hnck.symm
    · have hpos : m.cnt.toNat ≠ 0 := fun hzero =>
        hcnt (UInt32.toNat_inj.mp hzero)
      have hone : 1 ≤ m.cnt := UInt32.le_iff_toNat_le.mpr (by simp; omega)
      have hsub := UInt32.toNat_sub_of_le m.cnt 1 hone
      simp only [ticks, hloop, if_true, hsub]
      simp; omega

theorem Pinger.Tidy.turn {m : Pinger} (h : m.Tidy) {cb : Callback}
    (hcb : cb.Atomic) {rx : Option Arrival} (hfits : pinger.Fits m cb rx)
    (hrx : ∀ d ∈ rx, PingArrival P d) :
    ∃ tx, m.Turned P cb rx (pinger.step m cb rx) tx := by
  cases hloop : m.looping with
  | false =>
      have hnone : rx = none := hfits (by cases cb <;> simp [pinger, hloop])
      refine ⟨[], ?_⟩
      simp only [pinger, hloop, Bool.false_eq_true, if_false]
      exact ⟨h, rfl, rfl, .rest hnone rfl rfl le_rfl⟩
  | true =>
      have hident := ident_callback m rx cb
      refine ⟨(m.callback rx cb).2, ?_⟩
      simp only [pinger, hloop, if_true]
      cases cb with
      | subCb named w₁ w₂ =>
          obtain ⟨htidy, hturns⟩ := h.subCb hfair
            (fun hne => hfits (by simp [pinger, hne])) hrx named w₁ hcb
          exact ⟨htidy, hident, rfl, hturns⟩
      | ptmCb named w₁ w₂ =>
          have hnone : rx = none := hfits rfl
          subst hnone
          obtain ⟨htidy, hturns⟩ := h.ptmCb hloop named w₁ hcb
          exact ⟨htidy, hident, rfl, hturns⟩
      | sigallCb =>
          have hnone : rx = none := hfits rfl
          exact ⟨⟨h.knows.congr rfl, h.used⟩, hident, rfl,
            .rest hnone rfl rfl (by simp [callback, sigallCb, ticks])⟩

end Fair

/-! ## Groups of processes -/

structure PingHost where
  addr : SockaddrIn6
  hostname : Bytes
  pid : Int32
  count : Option UInt32

def PingHost.start (h : PingHost) : Pinger :=
  .start h.addr h.hostname h.pid h.count

def PingHost.pings (h : PingHost) : Nat := (h.count.getD (-1)).toNat

def pinging {ι : Type*} (hosts : ι → PingHost) : Group ι Pinger Arrival :=
  ⟨fun i => (hosts i).start, fun _ => []⟩

theorem PingHost.start_tidy (h : PingHost) : h.start.Tidy where
  knows := ⟨Lib.fresh_sane, rfl, fun hne => absurd rfl hne⟩
  used := le_rfl

section Group

variable {ι : Type*} (hosts : ι → PingHost)

def Theirs (msg : SvcPing) : Prop := ∃ j what, msg = (hosts j).start.po what

theorem Theirs.fair {msg : SvcPing} (h : Theirs hosts msg) : msg.Fair := by
  obtain ⟨j, what, rfl⟩ := h
  exact Pinger.po_fair _ what

structure Truthful (m : Pinger) : Prop where
  tidy : m.Tidy
  ident : ∃ j, m.ident = (hosts j).start.ident
  out : ∀ line ∈ m.out, ∃ msg, Theirs hosts msg ∧ line ∈ msg.line

theorem Pinger.Says.pingArrival {m : Pinger} {what : PingWhat} {tx : List Tx}
    (h : m.Says what tx) {j : ι} (hident : m.ident = (hosts j).start.ident)
    (addr : SockaddrIn6) :
    ∀ d ∈ tx.map (fun t => (⟨t.dgram, addr⟩ : Arrival)),
      PingArrival (Theirs hosts) d := by
  obtain ⟨dgram, rfl, hpacket⟩ := h
  intro d hd
  obtain ⟨t, ht, rfl⟩ := List.mem_map.mp hd
  rw [List.mem_singleton.mp ht]
  exact ⟨m.po what, ⟨j, what, po_congr hident what⟩, hpacket⟩

theorem pinger_keeps :
    pinger.Keeps Callback.Atomic (Truthful hosts) (PingArrival (Theirs hosts)) := by
  constructor
  · intro m cb rx hcb hfits hm hrx
    obtain ⟨tx, hturn⟩ := hm.tidy.turn (fun _ h => h.fair) hcb hfits hrx
    refine ⟨hturn.tidy, ?_, ?_⟩
    · obtain ⟨j, hj⟩ := hm.ident
      exact ⟨j, hturn.ident.trans hj⟩
    · cases hturn.turns with
      | rest _ _ hout _ | tick _ _ hout _ =>
          rw [hout]
          exact hm.out
      | read d msg _ hmsg _ _ hout _ _ =>
          intro line hline
          rw [hout] at hline
          rcases List.mem_append.mp hline with hold | hnew
          · exact hm.out line hold
          · exact ⟨msg, hmsg, hnew⟩
  · intro m cb rx hcb hfits hm hrx d hd
    obtain ⟨tx, hturn⟩ := hm.tidy.turn (fun _ h => h.fair) hcb hfits hrx
    obtain ⟨j, hj⟩ := hm.ident
    rw [hturn.out] at hd
    have hspoke : tx = [] ∨ ∃ what, m.Says what tx := by
      cases hturn.turns with
      | rest _ htx _ _ => exact .inl htx
      | tick _ _ _ htx => exact htx.imp And.left fun h => ⟨_, h⟩
      | read d' msg _ _ _ _ _ hpong hsilent =>
          by_cases hwhat : msg.what = .ping
          · exact (hpong hwhat).imp And.left fun h => ⟨_, h⟩
          · exact .inl (hsilent hwhat)
    rcases hspoke with rfl | ⟨what, hspoke⟩
    · simp at hd
    · exact hspoke.pingArrival hosts hj m.addr d hd

/-! ## Traffic -/

def Arrival.isPing (d : Arrival) : Bool := hdrCmd d.bytes == svcPing

theorem PingPacket.isPing {d : Arrival} {msg : SvcPing}
    (h : PingPacket d.bytes msg) : d.isPing = true ↔ msg.what = .ping := by
  rw [Arrival.isPing, beq_iff_eq]
  exact h.cmd

def pingWeight (d : Arrival) : Nat := if d.isPing then 1 else 0

theorem Pinger.Says.weigh {m : Pinger} {what : PingWhat} {tx : List Tx}
    (h : m.Says what tx) (addr : SockaddrIn6) :
    (tx.map fun t => (⟨t.dgram, addr⟩ : Arrival)).length = 1 ∧
      Foundation.weigh pingWeight (tx.map fun t => ⟨t.dgram, addr⟩) =
        if what = .ping then 1 else 0 := by
  obtain ⟨dgram, rfl, hpacket⟩ := h
  have hping : (⟨dgram, addr⟩ : Arrival).isPing = true ↔ what = .ping :=
    PingPacket.isPing (d := ⟨dgram, addr⟩) hpacket
  simp [Foundation.weigh, pingWeight, Tx.dgram, hping]

/-- A tick pays for a PING and for the PONGs of all processes. -/
def Pinger.charge (n : Nat) (m : Pinger) : Nat := m.ticks * (1 + n)

theorem pinger_pays (n : Nat) :
    pinger.PaysWhile Callback.Atomic (Truthful hosts)
      (PingArrival (Theirs hosts)) pingWeight (Pinger.charge n) n := by
  intro m cb rx hcb hfits hm hrx
  obtain ⟨tx, hturn⟩ := hm.tidy.turn (fun _ h => h.fair) hcb hfits hrx
  rw [hturn.out, Pinger.charge, Pinger.charge]
  cases hturn.turns with
  | rest _ htx _ hticks =>
      have hmul := Nat.mul_le_mul_right (1 + n) hticks
      simp only [htx, List.map_nil, List.length_nil, weigh, List.sum_nil]
      omega
  | tick hrx' hticks _ htx =>
      have hmul := Nat.mul_le_mul_right (1 + n) hticks
      rw [Nat.add_mul] at hmul
      rcases htx with ⟨rfl, -⟩ | hspoke
      · simp only [List.map_nil, List.length_nil, weigh, List.sum_nil]
        omega
      · obtain ⟨hlen, hweigh⟩ := hspoke.weigh m.addr
        rw [hlen, hweigh, if_pos rfl, Nat.mul_one]
        omega
  | read d msg hrx' _ hpacket hticks _ hpong hsilent =>
      have hping := PingPacket.isPing hpacket
      rw [hticks, hrx']
      by_cases hwhat : msg.what = .ping
      · have hweight : pingWeight d = 1 := by simp [pingWeight, hping.mpr hwhat]
        simp only [Option.elim_some, hweight]
        rcases hpong hwhat with ⟨rfl, -⟩ | hspoke
        · simp [weigh]
        · obtain ⟨hlen, hweigh⟩ := hspoke.weigh m.addr
          rw [hlen, hweigh]
          simp
      · simp [hsilent hwhat, weigh]

theorem pinging_meets :
    (pinging hosts).Meets (Truthful hosts) (PingArrival (Theirs hosts)) where
  node i := ⟨(hosts i).start_tidy, ⟨i, rfl⟩, fun _ hline => by
    simp [pinging, PingHost.start, Pinger.start] at hline⟩
  queue _ _ hm := by simp [pinging] at hm

/--
However the callbacks of the processes are interleaved and whatever the network
does, the processes together send no more than a PING, and a PONG by each of
them, for every PING they were told to send.
-/
theorem pings_bounded [Fintype ι] [DecidableEq ι]
    {moves : List (Move ι Callback)}
    (h : ∀ move ∈ moves, move.Allowed Callback.Atomic) :
    ((pinger.group.events (pinging hosts) moves).map
        fun e => e.output.length).sum ≤
      ∑ i, (hosts i).pings * (1 + Fintype.card ι) := by
  have hbudget := Node.sends_le_budget_while (pinger_keeps hosts)
    (pinger_pays hosts (Fintype.card ι)) (pinging_meets hosts) h
  simpa [Group.budget, pinging, weigh, Pinger.charge, PingHost.start,
    Pinger.start, Pinger.ticks, PingHost.pings] using hbudget

/-! ## Output -/

def Arrival.lines (d : Arrival) : List Line :=
  let seen := readPing (hdrCmd d.bytes) (d.bytes.drop (hdrSize + 2))
  if seen.what = .pong ∧ seen.hostnlen ≤ 58 then [⟨seen.pid, seen.hostname⟩]
  else []

omit hosts in
theorem PingPacket.lines {d : Arrival} {msg : SvcPing}
    (h : PingPacket d.bytes msg) (hfair : msg.Fair) : d.lines = msg.line := by
  obtain ⟨pno, cmd, hcmd, hbytes⟩ := h
  have hhnz := hnzOf_toNat msg.hostname.length
  have hlen := hfair.1
  have hrec : (record (pingData msg)).drop 2 = pingData msg := rfl
  have hdata : d.bytes.drop (hdrSize + 2) = pingData msg := by
    rw [hbytes, ← List.drop_drop, ← length_udHdr pno cmd, List.drop_left, hrec]
  rw [Nat.mod_eq_of_lt (by omega)] at hhnz
  have hcmd' : hdrCmd d.bytes = cmd := by rw [hbytes, hdrCmd_udHdr]
  simp only [Arrival.lines, hdata, hcmd', readPing_pingData,
    (isPing_of_pingCmd hcmd).2, SvcPing.line]
  by_cases hlong : 58 < msg.hostname.length
  · rw [if_pos hlong] at hhnz
    simp [hhnz, hlong]
  · rw [if_neg hlong] at hhnz
    simp [hhnz, Nat.le_of_not_lt hlong]

omit hosts in
theorem SvcPing.line_ping {msg : SvcPing} (h : msg.what = .ping) :
    msg.line = [] := by
  simp [SvcPing.line, h]

def Pinger.line (m : Pinger) : List Line := (m.po .pong).line

/--
What a process printed are the lines of the packets it read, and it sent no more
PONGs than it read PINGs; just as many if the system is obliging.
-/
structure Recorded (sure : Prop) (l : Diary Pinger Arrival) : Prop where
  truthful : Truthful hosts l.state
  out : l.state.out = l.took.flatMap Arrival.lines
  pongs : ∃ n ≤ l.took.countP Arrival.isPing,
    (sure → n = l.took.countP Arrival.isPing) ∧
      l.sent.flatMap Arrival.lines = (List.replicate n l.state.line).flatten

omit hosts in
theorem Pinger.Says.lines {m : Pinger} {what : PingWhat} {tx : List Tx}
    (h : m.Says what tx) (addr : SockaddrIn6) :
    (tx.map fun t => (⟨t.dgram, addr⟩ : Arrival)).flatMap Arrival.lines =
      (m.po what).line := by
  obtain ⟨dgram, rfl, hpacket⟩ := h
  have hlines := PingPacket.lines (d := ⟨dgram, addr⟩) hpacket (m.po_fair what)
  simpa [Tx.dgram] using hlines

omit hosts in
theorem Pinger.Turned.lines {P : SvcPing → Prop}
    (hfair : ∀ msg, P msg → msg.Fair) {m : Pinger} {cb : Callback}
    {rx : Option Arrival} {r : Pinger × List Arrival} {tx : List Tx}
    (h : m.Turned P cb rx r tx) :
    r.1.out = m.out ++ rx.toList.flatMap Arrival.lines ∧
      ∃ n ≤ rx.toList.countP Arrival.isPing,
        (cb.Obliging → n = rx.toList.countP Arrival.isPing) ∧
          r.2.flatMap Arrival.lines = (List.replicate n m.line).flatten := by
  rw [h.out]
  cases h.turns with
  | rest hrx htx hout _ =>
      refine ⟨by simp [hrx, hout], 0, Nat.zero_le _, fun _ => by simp [hrx], ?_⟩
      simp [htx]
  | tick hrx _ hout htx =>
      refine ⟨by simp [hrx, hout], 0, Nat.zero_le _, fun _ => by simp [hrx], ?_⟩
      rcases htx with ⟨rfl, -⟩ | hspoke
      · rfl
      · rw [hspoke.lines m.addr, SvcPing.line_ping rfl]
        rfl
  | read d msg hrx hmsg hpacket _ hout hpong hsilent =>
      have hping := PingPacket.isPing hpacket
      refine ⟨by simp [hrx, hout, PingPacket.lines hpacket (hfair msg hmsg)], ?_⟩
      by_cases hwhat : msg.what = .ping
      · have hcount : rx.toList.countP Arrival.isPing = 1 := by
          simp [hrx, hping.mpr hwhat]
        rw [hcount]
        rcases hpong hwhat with ⟨rfl, hsure⟩ | hspoke
        · exact ⟨0, Nat.zero_le _, fun h => absurd h hsure, rfl⟩
        · exact ⟨1, le_rfl, fun _ => rfl, by simp [hspoke.lines, Pinger.line]⟩
      · refine ⟨0, Nat.zero_le _, fun _ => by simp [hrx, hping, hwhat], ?_⟩
        simp [hsilent hwhat]

theorem recorded_keeps (sure : Prop) :
    pinger.logged.Keeps (fun cb => cb.Atomic ∧ (sure → cb.Obliging))
      (Recorded hosts sure) (PingArrival (Theirs hosts)) := by
  constructor
  · intro l cb rx hcb hfits hl hrx
    obtain ⟨tx, hturn⟩ := hl.truthful.tidy.turn (fun _ h => h.fair) hcb.1 hfits hrx
    obtain ⟨hout, k, hk, hsure', hmore⟩ := hturn.lines fun _ h => h.fair
    obtain ⟨n, hn, hsure, hpongs⟩ := hl.pongs
    refine ⟨(pinger_keeps hosts).state l.state cb rx hcb.1 hfits hl.truthful hrx,
      ?_, n + k, ?_, ?_, ?_⟩
    · simp [Node.logged, hout, hl.out]
    · simpa [Node.logged] using Nat.add_le_add hn hk
    · intro h
      simp [Node.logged, hsure h, hsure' (hcb.2 h)]
    · have hline : (pinger.step l.state cb rx).1.line = l.state.line := by
        rw [Pinger.line, po_congr hturn.ident, Pinger.line]
      rw [List.replicate_add, List.flatten_append]
      simp [Node.logged, hpongs, hmore, hline]
  · intro l cb rx hcb hfits hl hrx
    exact (pinger_keeps hosts).sent l.state cb rx hcb.1 hfits hl.truthful hrx

theorem recorded_meets (sure : Prop) :
    (pinging hosts).logged.Meets (Recorded hosts sure)
      (PingArrival (Theirs hosts)) where
  node i := ⟨(pinging_meets hosts).node i, rfl, 0, Nat.zero_le _, fun _ => rfl, rfl⟩
  queue i := (pinging_meets hosts).queue i

variable [Fintype ι] [DecidableEq ι]

def pingsSent (moves : List (Move ι Callback)) : Nat :=
  (pinger.group.outputs (pinging hosts) moves).flatten.countP Arrival.isPing

def PingHost.line (h : PingHost) : List Line := h.start.line

theorem pinger_ident (m : Pinger) (cb : Callback) (rx : Option Arrival) :
    (pinger.step m cb rx).1.ident = m.ident := by
  cases hloop : m.looping with
  | false => simp [pinger, hloop]
  | true => simpa [pinger, hloop] using ident_callback m rx cb

omit [Fintype ι] in
theorem line_run (moves : List (Move ι Callback)) (j : ι) :
    ((pinger.logged.group.run (pinging hosts).logged moves).node j).state.line =
      (hosts j).line :=
  Node.fixed_run (N := pinger.logged) (f := fun l => l.state.line)
    (fun l cb rx => by
      rw [Pinger.line, Pinger.line]
      exact congrArg _ (po_congr (pinger_ident l.state cb rx) .pong)) _ moves j

theorem countP_told (moves : List (Move ι Callback)) :
    Multiset.countP (fun d => d.isPing = true)
      ((pinger.logged.group.run (pinging hosts).logged moves).told Diary.sent) =
        pingsSent hosts moves := by
  have hzero : (pinging hosts).logged.told Diary.sent = 0 := by
    simp [Group.told, Group.logged]
  have hlogs := (pinger.logged_run (pinging hosts) moves).2
  rw [Node.told_run pinger.logged_books, hzero, zero_add, hlogs, pingsSent]
  simp

theorem replicate_le {n m : Nat} (h : n ≤ m) (lines : List Line) :
    ((List.replicate n lines).flatten : Multiset Line) ≤
      (List.replicate m lines).flatten := by
  obtain ⟨k, rfl⟩ := Nat.exists_eq_add_of_le h
  rw [List.replicate_add, List.flatten_append, ← Multiset.coe_add]
  exact Multiset.le_add_right _ _

/--
However the callbacks are interleaved and whatever is lost or reordered, a line
printed tells of one of the processes, and a process is told of no more often
than PINGs were sent; one whose hostname is too long is never told of.
-/
theorem ping_lines_le {moves : List (Move ι Callback)}
    (h : ∀ move ∈ moves, move.Allowed Callback.Atomic) (i : ι) :
    (((pinger.group.run (pinging hosts) moves).node i).out : Multiset Line) ≤
      ∑ j, ((List.replicate (pingsSent hosts moves) (hosts j).line).flatten :
        Multiset Line) := by
  have hlogs := (pinger.logged_run (pinging hosts) moves).1
  have hallowed : ∀ move ∈ moves,
      move.Allowed fun cb => cb.Atomic ∧ (False → cb.Obliging) := by
    intro move hmove
    have hatomic := h move hmove
    cases move with
    | act i pick cb => exact ⟨hatomic, fun hfalse => hfalse.elim⟩
    | lose i pick => trivial
  have hmeets := Node.meets_run (recorded_keeps hosts False)
    (recorded_meets hosts False) hallowed
  have hhad := Node.had_le_told pinger.logged_books
    (g := (pinging hosts).logged)
    (fun k => by simp [Group.had, Group.logged, pinging]) moves
  have hline := line_run hosts moves
  rw [← hlogs.node i, ← countP_told]
  generalize pinger.logged.group.run (pinging hosts).logged moves = g at *
  have htook : ∀ k, ((g.node k).took : Multiset Arrival) ≤ g.told Diary.sent :=
    fun k => (Multiset.le_add_right _ _).trans (hhad k)
  calc ((g.node i).state.out : Multiset Line)
      = opened Arrival.lines (g.node i).took := by
        rw [(hmeets.node i).out, opened_coe]
    _ ≤ opened Arrival.lines (g.told Diary.sent) := opened_mono _ (htook i)
    _ = ∑ j, (((g.node j).sent.flatMap Arrival.lines : List Line) :
          Multiset Line) := opened_told _ _ _
    _ ≤ _ := by
        refine Finset.sum_le_sum fun j _ => ?_
        obtain ⟨n, hn, -, hpongs⟩ := (hmeets.node j).pongs
        rw [hpongs, hline j]
        refine replicate_le (hn.trans ?_) _
        simpa using Multiset.countP_le_of_le (fun d => d.isPing = true) (htook j)

/--
When nothing is lost, the system obliges and all packets have been read, every
process has printed, for each PING sent by anyone, one line for each process
whose hostname is short enough.
-/
theorem ping_lines_eq {moves : List (Move ι Callback)}
    (h : ∀ move ∈ moves, move.Allowed Callback.Obliging)
    (hlossless : ∀ move ∈ moves, move.Lossless)
    (hqueue : ∀ k, (pinger.group.run (pinging hosts) moves).queue k = []) (i : ι) :
    (((pinger.group.run (pinging hosts) moves).node i).out : Multiset Line) =
      ∑ j, ((List.replicate (pingsSent hosts moves) (hosts j).line).flatten :
        Multiset Line) := by
  have hlogs := (pinger.logged_run (pinging hosts) moves).1
  have hallowed : ∀ move ∈ moves,
      move.Allowed fun cb => cb.Atomic ∧ (True → cb.Obliging) := by
    intro move hmove
    have hobliging := h move hmove
    cases move with
    | act i pick cb => exact ⟨hobliging.atomic, fun _ => hobliging⟩
    | lose i pick => trivial
  have hmeets := Node.meets_run (recorded_keeps hosts True)
    (recorded_meets hosts True) hallowed
  have hhad := Node.had_eq_told pinger.logged_books
    (g := (pinging hosts).logged)
    (fun k => by simp [Group.had, Group.told, Group.logged, pinging]) hlossless
  have hline := line_run hosts moves
  rw [← hlogs.node i, ← countP_told]
  have hnone : ∀ k, (pinger.logged.group.run (pinging hosts).logged moves).queue k =
      [] := fun k => (hlogs.queue k).trans (hqueue k)
  generalize pinger.logged.group.run (pinging hosts).logged moves = g at *
  have htook : ∀ k, ((g.node k).took : Multiset Arrival) = g.told Diary.sent := by
    intro k
    simpa [Group.had, hnone k] using hhad k
  calc ((g.node i).state.out : Multiset Line)
      = opened Arrival.lines (g.node i).took := by
        rw [(hmeets.node i).out, opened_coe]
    _ = opened Arrival.lines (g.told Diary.sent) := by rw [htook i]
    _ = ∑ j, (((g.node j).sent.flatMap Arrival.lines : List Line) :
          Multiset Line) := opened_told _ _ _
    _ = _ := by
        refine Finset.sum_congr rfl fun j _ => ?_
        obtain ⟨n, -, hsure, hpongs⟩ := (hmeets.node j).pongs
        rw [hpongs, hline j, hsure trivial, ← htook j]
        simp

end Group

def twoHosts : Bool → PingHost
  | false => ⟨Vector.replicate 28 0, [0x61], 7, some 1⟩
  | true => ⟨Vector.replicate 28 1, [0x62, 0x63], 8, none⟩

def onePing : List (Move Bool Callback) :=
  .act false 0 (.ptmCb true .full .full) ::
    (List.replicate 5 (.act false 0 (.subCb true .full .full)) ++
      List.replicate 5 (.act true 0 (.subCb true .full .full)) ++
      List.replicate 2 (.act false 0 (.subCb true .full .full)))

theorem onePing_obliging : ∀ move ∈ onePing, move.Allowed Callback.Obliging := by
  simp [onePing, Move.Allowed, Callback.Obliging]

theorem onePing_atomic : ∀ move ∈ onePing, move.Allowed Callback.Atomic := by
  simp [onePing, Move.Allowed, Callback.Atomic, SendRes.Atomic]

theorem pings_bounded_witness :
    ((pinger.group.events (pinging twoHosts) onePing).map
        fun e => e.output.length).sum ≤
      ∑ i, (twoHosts i).pings * (1 + Fintype.card Bool) :=
  pings_bounded twoHosts onePing_atomic

theorem ping_lines_le_witness :
    (((pinger.group.run (pinging twoHosts) onePing).node false).out : Multiset Line) ≤
      ∑ j, ((List.replicate (pingsSent twoHosts onePing)
        (twoHosts j).line).flatten : Multiset Line) :=
  ping_lines_le twoHosts onePing_atomic false

theorem ping_lines_eq_witness :
    (([⟨7, [0x61]⟩, ⟨8, [0x62, 0x63]⟩] : List Line) : Multiset Line) =
      ∑ j, ((List.replicate (pingsSent twoHosts onePing)
        (twoHosts j).line).flatten : Multiset Line) := by
  have hout : ((pinger.group.run (pinging twoHosts) onePing).node false).out =
      [⟨7, [0x61]⟩, ⟨8, [0x62, 0x63]⟩] := by
    decide +kernel
  rw [← hout]
  exact ping_lines_eq twoHosts onePing_obliging
    (by simp [onePing, Move.Lossless]) (by decide +kernel) false

end Unserding
