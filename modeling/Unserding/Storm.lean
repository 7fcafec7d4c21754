import Unserding.Replies
import Unserding.Foundation.Multicast

/-!
# Sockets of one multicast group

Replies to a PING are multicast and reach the sender, and a reply also flushes
the pending packet, which may be a PING itself.  The replies still end: each one
uses up a visit to a PING that is in a buffer or under way, and a socket that is
only checked has one pending packet at most.
-/

namespace Unserding

open Foundation

/-! ## What is left to do -/

def Sock.visits (us : Sock) : Nat :=
  if hdrCmd us.recv = svcPing then us.nrd - us.nck else 0

def Arrival.visits (d : Arrival) : Nat :=
  if hdrSize ≤ d.nrd ∧ hdrCmd d.bytes = svcPing then d.nrd - hdrSize else 0

def Sock.armed (us : Sock) : Nat := if 0 < us.npk then 1 else 0

theorem Arrival.visits_le (d : Arrival) : d.visits ≤ ethMtu - hdrSize := by
  unfold Arrival.visits Arrival.nrd
  split <;> omega

theorem armed_congr {us us' : Sock} (htray : us'.tray = us.tray) :
    us'.armed = us.armed := by
  obtain ⟨-, -, hnpk, -⟩ := Sock.eq_of_tray htray
  rw [Sock.armed, Sock.armed, hnpk]

theorem visits_congr {us us' : Sock} (hinbox : us'.inbox = us.inbox) :
    us'.visits = us.visits := by
  obtain ⟨-, hnrd, hnck, hrecv⟩ := Sock.eq_of_inbox hinbox
  rw [Sock.visits, Sock.visits, hnrd, hnck, hrecv]

theorem visits_of_nrd_eq_zero {us : Sock} (h : us.nrd = 0) : us.visits = 0 := by
  rw [Sock.visits, h, Nat.zero_sub, ite_self]

theorem refill_visits (rx : Option Arrival) (us : Sock) :
    (refill rx us).visits ≤ us.visits + rx.elim 0 Arrival.visits := by
  unfold refill
  split
  · rcases udDscrd_cases rx us with ⟨-, heq⟩ | ⟨hnrd, -, heq⟩ |
      ⟨hnrd, d, -, -, heq⟩ | ⟨-, d, hrx, hd, heq⟩
    · rw [heq, visits_of_nrd_eq_zero rfl]
      exact Nat.zero_le _
    · rw [heq, visits_of_nrd_eq_zero hnrd]
      exact Nat.zero_le _
    · rw [heq, visits_of_nrd_eq_zero (show (recvfrom d us).nrd = 0 from hnrd)]
      exact Nat.zero_le _
    · have hload : (load d us).visits = d.visits := by
        have hcmd : hdrCmd (load d us).recv = hdrCmd d.bytes :=
          hdrCmd_recvfrom us hd.1
        rw [Sock.visits, Arrival.visits, hcmd]
        by_cases hping : hdrCmd d.bytes = svcPing
        · rw [if_pos hping, if_pos ⟨hd.1, hping⟩]
          rfl
        · rw [if_neg hping, if_neg fun h => hping h.2]
      rw [heq, hload, hrx]
      exact Nat.le_add_left _ _
  · exact Nat.le_add_right _ _

theorem takeMsg_visits (svc : UInt16) {us : Sock} (h : us.nck < us.nrd) :
    (takeMsg svc us).2.visits +
        (if hdrCmd us.recv = svcPing then 1 else 0) ≤ us.visits := by
  simp only [takeMsg]
  split
  · rw [visits_of_nrd_eq_zero rfl, Sock.visits]
    split <;> omega
  · simp only [Sock.visits]
    split <;> omega

/-! ## What a check sends -/

theorem hdrCmd_sendto {w : SendRes} {b dgram : Bytes}
    (h : sendto w b = some dgram) (hlen : hdrSize ≤ dgram.length) :
    hdrCmd dgram = hdrCmd b := by
  cases w with
  | fail => contradiction
  | full =>
      cases h
      rfl
  | short nwr =>
      cases h
      rw [List.length_take] at hlen
      unfold hdrSize at hlen
      exact be16At_congr (List.getElem?_take_of_lt (by omega))
        (List.getElem?_take_of_lt (by omega))

theorem visits_pong {w : SendRes} {pno : Nat} {msg : UdMsg} {dgram : Bytes}
    (hsvc : msg.svc = svcPong) (h : sendto w (ctrlPacket pno msg) = some dgram)
    (addr : SockaddrIn6) : Arrival.visits ⟨dgram, addr⟩ = 0 := by
  refine if_neg ?_
  rintro ⟨hlen, hcmd⟩
  have hwhole : hdrSize ≤ dgram.length := hlen.trans (Nat.min_le_left _ _)
  change hdrCmd dgram = svcPing at hcmd
  rw [hdrCmd_sendto h hwhole, ctrlPacket, hdrCmd_udHdr, hsvc] at hcmd
  contradiction

theorem udFlush_armed (w : SendRes) (us : Sock) :
    (udFlush w us).tx.length + (udFlush w us).st.armed ≤ us.armed := by
  rcases udFlush_cases w us with
    ⟨hnpk, heq⟩ | ⟨-, -, heq⟩ | ⟨hnpk, dgram, -, heq⟩
  · rw [heq]
    exact Nat.le_of_eq (Nat.zero_add _)
  · rw [heq]
    exact Nat.le_of_eq (Nat.zero_add _)
  · rw [heq, Sock.armed, Sock.armed, if_pos hnpk]
    exact Nat.le_refl _

/--
What is sent in a call falls into the pending packet, which is then gone, and at
most `visits` PONGs.
-/
def Spends (tx : List Tx) (us us' : Sock) (visits : Nat) : Prop :=
  ∃ flushed replied, tx = flushed ++ replied ∧
    flushed.length + us'.armed ≤ us.armed ∧ replied.length ≤ visits ∧
    ∀ t ∈ replied, ∀ addr, Arrival.visits ⟨t.dgram, addr⟩ = 0

theorem Spends.none (us : Sock) (visits : Nat) : Spends [] us us visits :=
  ⟨[], [], rfl, Nat.le_of_eq (Nat.zero_add _), Nat.zero_le _, by simp⟩

theorem reply_spends (e : Env) {s : Lib} (hs : s.Sane) :
    Spends (reply e s).2 s.us (reply e s).1.us
      (if hdrCmd s.us.recv = svcPing then 1 else 0) := by
  unfold reply
  split
  · rcases udPackPong_cases e hs with ⟨-, heq⟩ | ⟨msg, hsvc, htx, hnpk, -⟩
    · rw [heq]
      exact .none _ _
    · have harmed : (udPackPong 1 e s).st.us.armed =
          (udFlush e.w₁ s.us).st.armed := by
        rw [Sock.armed, Sock.armed, hnpk]
      refine ⟨_, _, htx, ?_, ?_, ?_⟩
      · rw [harmed]
        exact udFlush_armed e.w₁ s.us
      · exact Option.length_toList_le
      · intro t ht addr
        obtain ⟨dgram, hsend, rfl⟩ :=
          Option.map_eq_some_iff.mp (Option.mem_toList.mp ht)
        exact visits_pong hsvc hsend addr
  · exact .none _ _

theorem udChckMsg_spends (e : Env) {s : Lib} (hs : s.Sane) :
    ∃ visits, Spends (udChckMsg e s).tx s.us (udChckMsg e s).st.us visits ∧
      (udChckMsg e s).st.us.visits + visits ≤
        s.us.visits + e.rx.elim 0 Arrival.visits := by
  have hrefill := refill_visits e.rx s.us
  have htray := refill_tray e.rx s.us
  rw [udChckMsg_eq]
  split
  · rename_i hmore
    have hinbox := reply_inbox e { s with us := refill e.rx s.us }
    have hvisits := visits_congr hinbox
    obtain ⟨flushed, replied, htx, hflushed, hreplied, hpong⟩ :=
      reply_spends e (hs.refill e.rx)
    rw [armed_congr htray] at hflushed
    rw [chckMsg_eq]
    refine ⟨_, ⟨flushed, replied, htx, ?_, hreplied, hpong⟩, ?_⟩
    · rw [armed_congr (takeMsg_tray _ _)]
      exact hflushed
    · obtain ⟨-, hnrd, hnck, hrecv⟩ := Sock.eq_of_inbox hinbox
      have hleft : (reply e { s with us := refill e.rx s.us }).1.us.nck <
          (reply e { s with us := refill e.rx s.us }).1.us.nrd := by
        rw [hnrd, hnck]
        exact hmore
      have htake := takeMsg_visits (hdrCmd (refill e.rx s.us).recv) hleft
      rw [hrecv, hvisits] at htake
      exact htake.trans hrefill
  · refine ⟨0, ⟨[], [], rfl, ?_, Nat.zero_le _, by simp⟩, hrefill⟩
    rw [armed_congr htray]
    exact Nat.le_of_eq (Nat.zero_add _)

/-! ## The group -/

structure Member where
  addr : SockaddrIn6
  past : List Call

def Member.lib (m : Member) : Lib := api.run Lib.fresh m.past

theorem Member.sane (m : Member) : m.lib.Sane := run_sane m.past

/--
What happens to a member: its application calls `ud_chck_msg`, or another socket
of its process leaves the static variables changed.
-/
inductive Turn where
  | check (e : Env)
  | elsewhere (g : Statics) (sane : g.Sane)

def Turn.call (rx : Option Arrival) : Turn → Call
  | .check e => .udChckMsg { e with rx := rx }
  | .elsewhere g sane => .elsewhere g sane

def Member.reads (m : Member) : Turn → Bool
  | .check _ => m.lib.us.nrd == 0
  | .elsewhere _ _ => false

def member : Node Member Turn Arrival where
  reads := Member.reads
  step m turn rx :=
    ({ m with past := m.past ++ [turn.call rx] },
      (api.step m.lib (turn.call rx)).2.tx.map fun t => ⟨t.dgram, m.addr⟩)

theorem member_lib (m : Member) (turn : Turn) (rx : Option Arrival) :
    (member.step m turn rx).1.lib = (api.step m.lib (turn.call rx)).1 :=
  System.run_append api _ _ _

/--
What a member of a group of `n` can still send: a PONG for each visit left, and
its pending packet, which may be a PING for every member.
-/
def Member.charge (n : Nat) (m : Member) : Nat :=
  m.lib.us.visits + m.lib.us.armed * (1 + n * (ethMtu - hdrSize))

theorem weigh_sent {tx : List Tx} {us us' : Sock} {visits : Nat}
    (h : Spends tx us us' visits) (addr : SockaddrIn6) (n : Nat) :
    us'.armed * (1 + n * (ethMtu - hdrSize)) + tx.length +
        n * weigh Arrival.visits (tx.map fun t => ⟨t.dgram, addr⟩) ≤
      us.armed * (1 + n * (ethMtu - hdrSize)) + visits := by
  obtain ⟨flushed, replied, rfl, hflushed, hreplied, hpong⟩ := h
  have hheavy : weigh Arrival.visits
      (flushed.map fun t => ⟨t.dgram, addr⟩) ≤
        flushed.length * (ethMtu - hdrSize) := by
    refine (weigh_le fun d _ => d.visits_le).trans ?_
    rw [List.length_map]
  have hlight : weigh Arrival.visits
      (replied.map fun t => ⟨t.dgram, addr⟩) = 0 := by
    refine Nat.le_zero.mp ((@weigh_le _ _ _ 0 ?_).trans (Nat.zero_le _))
    intro d hd
    obtain ⟨t, ht, rfl⟩ := List.mem_map.mp hd
    exact Nat.le_of_eq (hpong t ht addr)
  have hpaid := Nat.mul_le_mul_right (1 + n * (ethMtu - hdrSize)) hflushed
  have hspread := Nat.mul_le_mul_left n hheavy
  rw [List.map_append, weigh_append, hlight, List.length_append, Nat.add_zero]
  calc us'.armed * (1 + n * (ethMtu - hdrSize)) +
        (flushed.length + replied.length) +
        n * weigh Arrival.visits (flushed.map fun t => ⟨t.dgram, addr⟩)
      ≤ us'.armed * (1 + n * (ethMtu - hdrSize)) +
        (flushed.length + replied.length) +
        n * (flushed.length * (ethMtu - hdrSize)) := by omega
    _ = (flushed.length + us'.armed) * (1 + n * (ethMtu - hdrSize)) +
        replied.length := by ring
    _ ≤ us.armed * (1 + n * (ethMtu - hdrSize)) + visits := by omega

theorem member_pays (n : Nat) : member.Pays Arrival.visits (Member.charge n) n := by
  intro m turn rx
  have hlib := member_lib m turn rx
  cases turn with
  | check e =>
      have hout : (member.step m (.check e) rx).2 =
          (udChckMsg { e with rx := rx } m.lib).tx.map
            fun t => ⟨t.dgram, m.addr⟩ := rfl
      obtain ⟨visits, hspends, hvisits⟩ :=
        udChckMsg_spends { e with rx := rx } m.sane
      have hsent := weigh_sent hspends m.addr n
      change (member.step m (.check e) rx).1.lib =
        (udChckMsg { e with rx := rx } m.lib).st at hlib
      rw [Member.charge, Member.charge, hlib, hout, List.length_map]
      simp only at hvisits
      omega
  | elsewhere g sane =>
      have hout : (member.step m (.elsewhere g sane) rx).2 = [] := rfl
      have hus : (member.step m (.elsewhere g sane) rx).1.lib.us = m.lib.us := by
        rw [hlib]
        rfl
      rw [Member.charge, Member.charge, hus, hout]
      exact Nat.le_add_right _ _

theorem udChckMsg_sends_on_ping {calls : List Call} {e : Env}
    (h : (udChckMsg e (api.run Lib.fresh calls)).tx ≠ []) :
    ∃ d, Trace.lastRead (api.events Lib.fresh (calls ++ [.udChckMsg e])) =
        some d ∧
      hdrAccepted d.bytes = true ∧ hdrCmd d.bytes = svcPing := by
  have hlast := (run_holdsLast calls).refilled (run_sane calls).recv e.rx
  rw [System.events_append]
  rw [udChckMsg_eq] at h
  split at h
  · rename_i hmore
    obtain ⟨d, hd, hcur⟩ := hlast (Nat.lt_of_le_of_lt (Nat.zero_le _) hmore)
    refine ⟨d, (Trace.lastRead_append _ _ (.udChckMsg e)).trans hd,
      hcur.accepted, ?_⟩
    rw [← hcur.hdrCmd]
    by_contra hcmd
    rw [chckMsg_eq, reply, if_neg hcmd] at h
    exact h rfl
  · exact absurd rfl h

theorem group_sends_on_ping {ι : Type*} [DecidableEq ι]
    (g : Group ι Member Arrival) (move : Move ι Turn)
    (h : (member.group.step g move).2 ≠ []) :
    ∃ i pick e, move = .act i pick (.check e) ∧
      ∃ d, Trace.lastRead (api.events Lib.fresh
          ((member.group.step g move).1.node i).past) = some d ∧
        hdrAccepted d.bytes = true ∧ hdrCmd d.bytes = svcPing := by
  cases move with
  | lose i pick => exact absurd rfl h
  | act i pick turn =>
      cases turn with
      | elsewhere g' sane => exact absurd rfl h
      | check e =>
          refine ⟨i, pick, e, rfl, ?_⟩
          have htx : (udChckMsg
              { e with rx := (member.take g i pick (.check e)).1 }
              (api.run Lib.fresh (g.node i).past)).tx ≠ [] :=
            fun hnil => h (congrArg (List.map _) hnil)
          have hpast : ((member.group.step g
              (.act i pick (.check e))).1.node i).past = (g.node i).past ++
                [.udChckMsg
                  { e with rx := (member.take g i pick (.check e)).1 }] := by
            simp [Node.group, Group.cast, Group.set, member, Turn.call]
          rw [hpast]
          exact udChckMsg_sends_on_ping htx

/--
From any reachable sockets and any datagrams under way, no run in which the
members are only checked sends more datagrams than the starting state accounts
for, whatever is lost or reordered; and a member that sends is checking a PING.
-/
theorem no_packet_storm {ι : Type*} [Fintype ι] [DecidableEq ι]
    (g : Group ι Member Arrival) (moves : List (Move ι Turn)) :
    ((member.group.events g moves).map fun e => e.output.length).sum ≤
        g.budget Arrival.visits (Member.charge (Fintype.card ι)) ∧
      ∀ ev ∈ member.group.events g moves, ev.output ≠ [] →
        ∃ i pick e, ev.input = .act i pick (.check e) ∧
          ∃ d, Trace.lastRead
              (api.events Lib.fresh (ev.post.node i).past) = some d ∧
            hdrAccepted d.bytes = true ∧ hdrCmd d.bytes = svcPing := by
  refine ⟨Node.sends_le_budget (member_pays _) g moves, ?_⟩
  intro ev hev hsent
  have heq := System.eq_event_of_mem member.group hev
  rw [heq] at hsent ⊢
  exact group_sends_on_ping ev.pre ev.input hsent

end Unserding
