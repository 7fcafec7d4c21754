import Unserding.Peers
import Unserding.Transcript

/-!
# Recording a group

The monitor as a member of a multicast group: what its log tells of the members'
messages, whatever becomes of their datagrams on the way.
-/

namespace Unserding

open Foundation

/-! ## Headings -/

/-- `inet_ntop` reads no more than the address, which has 16 bytes or fewer. -/
def InetNtop.Local (inet : InetNtop) : Prop :=
  ∀ fam addr room, inet.ntop fam addr room = inet.ntop fam (addr.take 16) room

structure Heading where
  addr : Bytes
  port : Nat
  svc : Nat
  deriving DecidableEq

def Entry.heading (e : Entry) : Heading := ⟨e.addr, e.port, e.svc⟩

def Letter.heading (inet : InetNtop) (letter : Letter) : Heading where
  addr := (inet.ntop (udSockaddrFam letter.src) (udSockaddrAddr letter.src) 128).getD []
  port := (udSockaddrPort letter.src).toNat
  svc := letter.msg.svc.toNat

theorem heading_take {inet : InetNtop} (hlocal : inet.Local) (sa : Bytes)
    (msg : Handed) :
    (Letter.mk (sa.take sockaddrIn6Size) msg).heading inet =
      (Letter.mk sa msg).heading inet := by
  have hfam : udSockaddrFam (sa.take sockaddrIn6Size) = udSockaddrFam sa := by
    simp [udSockaddrFam, window, List.take_take, sockaddrIn6Size]
  have hport : udSockaddrPort (sa.take sockaddrIn6Size) = udSockaddrPort sa :=
    be16At_congr (List.getElem?_take_of_lt (by decide))
      (List.getElem?_take_of_lt (by decide))
  have haddr : (udSockaddrAddr (sa.take sockaddrIn6Size)).take 16 =
      (udSockaddrAddr sa).take 16 := by
    simp [udSockaddrAddr, List.drop_take, List.take_take, sockaddrIn6Size]
  simp only [Letter.heading, hfam, hport]
  rw [hlocal _ (udSockaddrAddr (sa.take sockaddrIn6Size)), haddr, ← hlocal]

/-! ## Rounds and checks -/

def Round.call {κ : Type*} (i : Round κ) : Call := .udChckMsg i.e

section Rounds

variable {inet : InetNtop} (hlocal : inet.Local) (decmap : Decmap Decoder)

include hlocal

theorem round_heard (m : Unsermon Unit) (i : Round Unit) :
    ((m.round inet decmap i).2.map Entry.heading) =
      (heardNow (api.event ⟨m.g, m.socks ()⟩ i.call)).map (Letter.heading inet) := by
  cases hval : (udChckMsg i.e ⟨m.g, m.socks ()⟩).val with
  | none =>
      obtain ⟨-, hout⟩ := round_none inet decmap (m := m) (i := i) hval
      have hfound : found (api.event ⟨m.g, m.socks ()⟩ i.call) = none :=
        found_none hval
      simp [hout, heardNow, hfound]
  | some msg =>
      obtain ⟨hpos, hsvc⟩ := udChckMsg_some hval
      have hfound := found_some hval
      have haux : udGetAux (udChckMsg i.e ⟨m.g, m.socks ()⟩).st.us =
          some ⟨(udChckMsg i.e ⟨m.g, m.socks ()⟩).st.us.src.sa,
            hdrPno (udChckMsg i.e ⟨m.g, m.socks ()⟩).st.us.recv, msg.svc,
            UInt32.ofNat (udChckMsg i.e ⟨m.g, m.socks ()⟩).st.us.nrd⟩ := by
        rw [udGetAux, if_neg (Nat.ne_of_gt hpos), hsvc]
      have hpost : (api.event ⟨m.g, m.socks ()⟩ (.udChckMsg i.e)).post.us =
          (udChckMsg i.e ⟨m.g, m.socks ()⟩).st.us := rfl
      have hround : (m.round inet decmap i).2.map Entry.heading =
          some ((Letter.mk (udChckMsg i.e ⟨m.g, m.socks ()⟩).st.us.src.sa
            ⟨msg.svc, msg.dlen,
              (udChckMsg i.e ⟨m.g, m.socks ()⟩).st.us.deref msg⟩).heading inet) := by
        simp only [Unsermon.round, hval, haux, Option.map_some]
        rfl
      rw [hround, ← heading_take hlocal, heardNow, Round.call, hfound,
        Option.bind_some, hpost, haux]
      rfl

theorem rounds_heard (m : Unsermon Unit) (rounds : List (Round Unit)) :
    ((monitoring inet decmap).outputs m rounds).reduceOption.map Entry.heading =
      (Trace.heard (api.events ⟨m.g, m.socks ()⟩ (rounds.map Round.call))).map
        (Letter.heading inet) := by
  induction rounds generalizing m with
  | nil => rfl
  | cons i rounds ih =>
      obtain ⟨hg, hsocks⟩ := round_socks inet decmap m i
      have hstate : (⟨(m.round inet decmap i).1.g,
          (m.round inet decmap i).1.socks ()⟩ : Lib) =
            (api.step ⟨m.g, m.socks ()⟩ i.call).1 := by
        rw [hg, hsocks]
        exact congrArg _ (Function.update_self ..)
      have hhead := round_heard hlocal decmap m i
      have htail := ih (m.round inet decmap i).1
      rw [hstate] at htail
      rw [List.map_cons, System.events_cons, System.outputs_cons]
      cases hheard : heardNow (api.event ⟨m.g, m.socks ()⟩ i.call) with
      | none =>
          rw [hheard, Option.map_none, Option.map_eq_none_iff] at hhead
          simp only [monitoring, hhead, List.reduceOption_cons_of_none,
            Trace.heard, List.filterMap_cons_none hheard]
          exact htail
      | some letter =>
          rw [hheard, Option.map_some] at hhead
          obtain ⟨e, hout, hsame⟩ := Option.map_eq_some_iff.mp hhead
          simp only [monitoring, hout, List.reduceOption_cons_of_some,
            Trace.heard, List.filterMap_cons_some hheard, List.map_cons, hsame]
          exact congrArg _ htail

end Rounds

/-! ## The log of a member -/

def logged (inet : InetNtop) (decmap : Decmap Decoder) (rounds : List (Round Unit)) :
    List Entry :=
  (linesOf ((monitoring inet decmap).run (Unsermon.start Unit) rounds).monout).filterMap
    Entry.read

/-- No decoder prints a newline in these rounds. -/
def Unbroken (inet : InetNtop) (decmap : Decmap Decoder) (rounds : List (Round Unit)) :
    Prop :=
  ∀ e ∈ ((monitoring inet decmap).outputs (Unsermon.start Unit) rounds).reduceOption,
    newline ∉ e.text

theorem logged_eq {inet : InetNtop} {decmap : Decmap Decoder}
    {rounds : List (Round Unit)} (h : Unbroken inet decmap rounds) :
    logged inet decmap rounds =
      ((monitoring inet decmap).outputs (Unsermon.start Unit) rounds).reduceOption := by
  obtain ⟨hlog, hclean⟩ := monitoring_logs inet decmap (Unsermon.start Unit) rounds
  have hread := (entries_read_back_iff hclean).mpr h
  generalize ((monitoring inet decmap).outputs (Unsermon.start Unit)
    rounds).reduceOption = entries at *
  have hfilter := congrArg (List.filterMap id) hread
  rw [logged, hlog]
  simpa [List.filterMap_map, Function.comp_def, Unsermon.start] using hfilter

section Group

variable {ι : Type*} [Fintype ι] [DecidableEq ι] {inet : InetNtop}
  {decmap : Decmap Decoder}

theorem logged_heard (hlocal : inet.Local) {rounds : List (Round Unit)}
    (hrounds : Unbroken inet decmap rounds) {m : Member}
    (hpast : m.past = rounds.map Round.call) :
    ((logged inet decmap rounds).map Entry.heading : Multiset Heading) =
      (m.heard : Multiset Letter).map (Letter.heading inet) := by
  rw [logged_eq hrounds, rounds_heard hlocal, Member.heard, Member.trace, hpast,
    Multiset.map_coe]
  rfl

/--
Whatever happens to the datagrams of a group, the log of a member that monitors it
has a line for a message only if the message was said, under its service, from the
address in the line, and no more lines than it was said.
-/
theorem logged_le_said (addr : ι → SockaddrIn6) {moves : List (Move ι Call)}
    (h : ∀ move ∈ moves, move.Allowed Call.Proper) (i : ι) (hlocal : inet.Local)
    {rounds : List (Round Unit)} (hrounds : Unbroken inet decmap rounds)
    (hpast : ((peer.group.run (gathering addr) moves).node i).past =
      rounds.map Round.call) :
    ((logged inet decmap rounds).map Entry.heading : Multiset Heading) ≤
      ∑ j, (((peer.group.run (gathering addr) moves).node j).said :
        Multiset Letter).map (Letter.heading inet) := by
  rw [logged_heard hlocal hrounds hpast]
  have hsaid := (heard_le_told addr h i).trans
    (Finset.sum_le_sum fun j _ => told_le_said addr h j)
  refine (Multiset.map_le_map hsaid).trans_eq ?_
  exact map_sum (Multiset.mapAddMonoidHom (Letter.heading inet)) _ Finset.univ

/--
When nothing is lost and the monitor has read all datagrams and printed all
messages, while nobody has a packet pending, its log has exactly one line for
everything that was said.
-/
theorem logged_eq_said (addr : ι → SockaddrIn6) {moves : List (Move ι Call)}
    (h : ∀ move ∈ moves, move.Allowed Call.Proper)
    (hwhole : ∀ move ∈ moves, move.Allowed fun c => ¬ c.Discards)
    (hlossless : ∀ move ∈ moves, move.Lossless) {i : ι}
    (hqueue : (peer.group.run (gathering addr) moves).queue i = [])
    (hnrd : ((peer.group.run (gathering addr) moves).node i).lib.us.nrd = 0)
    (hnpk : ∀ j,
      ((peer.group.run (gathering addr) moves).node j).lib.us.npk = 0)
    (hlocal : inet.Local) {rounds : List (Round Unit)}
    (hrounds : Unbroken inet decmap rounds)
    (hpast : ((peer.group.run (gathering addr) moves).node i).past =
      rounds.map Round.call) :
    ((logged inet decmap rounds).map Entry.heading : Multiset Heading) =
      ∑ j, (((peer.group.run (gathering addr) moves).node j).said :
        Multiset Letter).map (Letter.heading inet) := by
  have hsaid := (heard_eq_told addr h hwhole hlossless hqueue hnrd).trans
    (Finset.sum_congr rfl fun j _ => told_eq_said addr h (hnpk j))
  rw [logged_heard hlocal hrounds hpast, hsaid]
  exact map_sum (Multiset.mapAddMonoidHom (Letter.heading inet)) _ Finset.univ

end Group

/-! ## A monitor without decoders -/

theorem round_text {m : Unsermon Unit} {inet : InetNtop} {decmap : Decmap Decoder}
    {i : Round Unit} {e : Entry} (h : (m.round inet decmap i).2 = some e) :
    ∃ svc msg c, e.text = msgText decmap svc msg c := by
  cases hval : (udChckMsg i.e ⟨m.g, m.socks ()⟩).val with
  | none =>
      rw [(round_none inet decmap (m := m) (i := i) hval).2] at h
      contradiction
  | some msg =>
      simp only [Unsermon.round, hval] at h
      obtain ⟨aux, -, rfl⟩ := Option.map_eq_some_iff.mp h
      exact ⟨_, _, _, rfl⟩

theorem unbroken_empty (inet : InetNtop) (rounds : List (Round Unit)) :
    Unbroken inet Pages.empty rounds := by
  intro e he
  obtain ⟨ev, hev, hout⟩ := List.mem_map.mp (List.reduceOption_mem_iff.mp he)
  rw [System.eq_event_of_mem _ hev] at hout
  obtain ⟨svc, msg, c, htext⟩ := round_text hout
  have hname : msgText Pages.empty svc msg c = (ctrlName svc).getD [] := by
    have hnone : (mondec svc (Pages.empty : Decmap Decoder)).1 = none := rfl
    rw [msgText, hnone]
  rw [htext, hname]
  cases hctrl : ctrlName svc with
  | none => exact List.not_mem_nil
  | some name => exact newline_not_mem_ctrlName hctrl

def noFamily : InetNtop := ⟨fun _ _ _ => none, by simp, by simp⟩

def chatRounds : List (Round Unit) :=
  let round (rx : Option Arrival) : Round Unit :=
    ⟨(), ⟨rx, none, 0, .full, .full⟩, ⟨0, 1, by decide⟩, Vector.replicate lineSize 0⟩
  [round (some ⟨udHdr 0 7 ++ record [1, 2], Vector.replicate 28 0⟩), round none,
    round (some ⟨udHdr 1 0xff06 ++ record [4], Vector.replicate 28 0⟩), round none]

theorem chat_past : (chatted.node 1).past = chatRounds.map Round.call := rfl

theorem logged_le_said_witness :
    ((logged noFamily Pages.empty chatRounds).map Entry.heading : Multiset Heading) ≤
      ∑ j, ((chatted.node j).said : Multiset Letter).map (Letter.heading noFamily) :=
  logged_le_said _ chat_proper 1 (fun _ _ _ => rfl) (unbroken_empty _ _) chat_past

theorem logged_eq_said_witness :
    ((logged noFamily Pages.empty chatRounds).map Entry.heading : Multiset Heading) =
      ∑ j, ((chatted.node j).said : Multiset Letter).map (Letter.heading noFamily) :=
  logged_eq_said _ chat_proper (by simp [chat, Move.Allowed, Call.Discards])
    (by simp [chat, Move.Lossless]) (by decide +kernel) (by decide +kernel)
    (by decide +kernel) (fun _ _ _ => rfl) (unbroken_empty _ _) chat_past

end Unserding
