import Unserding.Conn
import Unserding.Monitor
import Unserding.MonitorPing
import Unserding.Registry
import Unserding.Foundation.Cursor
import Unserding.Foundation.Text

/-!
# Lines of the monitor

`mon_pkt_cb` of `unsermon.c` prints a line for every message into a buffer and
writes it out.  Whatever comes before the text of a decoder can be read back
from the line, and so can the text.
-/

namespace Unserding

open Foundation

/-! ## Printing a message -/

def dot : UInt8 := 0x2e

def openBracket : UInt8 := 0x5b

def ascii (s : String) : Bytes := s.toList.map fun c => UInt8.ofNat c.toNat

def lineSize : Nat := 8192

def decSize : Nat := 512

structure Timespec where
  tvSec : Int64
  tvNsec : Nat
  lt : tvNsec < 1000000000

/--
`inet_ntop` for a family and the memory an address is in, into so many bytes:
digits, colons and dots and a NUL, or nothing.
-/
structure InetNtop where
  ntop : Bytes → Bytes → Nat → Option Bytes
  chars : ∀ {fam addr room text}, ntop fam addr room = some text →
    ∀ c ∈ text, IsDigit c ∨ c = colon ∨ c = dot
  room : ∀ {fam addr room text}, ntop fam addr room = some text →
    text.length < room

/-- `ud_mondec_f`: it gets the memory it may print to, and keeps to its size. -/
structure Decoder where
  cb : Bytes → Nat → UInt16 → MonMsg → Decoded
  fits : ∀ {p : Bytes} (svc : UInt16) (m : MonMsg), decSize ≤ p.length →
    (cb p decSize svc m).p.length = p.length ∧ (cb p decSize svc m).len ≤ decSize

-- `struct sockaddr` has the family first, in the byte order of the host
def udSockaddrFam (sa : Bytes) : Bytes := window sa 0 2

def udSockaddrPort (sa : Bytes) : UInt16 := be16At sa 2

def udSockaddrAddr (sa : Bytes) : Bytes := sa.drop 8

def udSvcCmd : UInt16 := 0x00

def udSvcTime : UInt16 := 0x02

def ctrlName (svc : UInt16) : Option Bytes :=
  if svc = udCtrlSvc udSvcCmd then some (ascii "CMD request")
  else if svc = udCtrlSvc (udSvcCmd + 1) then some (ascii "CMD announce")
  else if svc = udCtrlSvc udSvcTime then some (ascii "TIME request")
  else if svc = udCtrlSvc (udSvcTime + 1) then some (ascii "TIME announce")
  else if svc = udCtrlSvc udSvcPing then some (ascii "PING")
  else if svc = udCtrlSvc (udSvcPing + 1) then some (ascii "PONG")
  else none

def hrclockPrint (now : Timespec) : Bytes :=
  signed 10 now.tvSec.toInt ++ dot :: padded 9 10 now.tvNsec

def putc (c : UInt8) : Cursor UInt8 → Cursor UInt8 := Cursor.write [c] []

/-- `epi += snprintf(epi, room, ...)`. -/
def printf (room : Nat) (text : Bytes) (c : Cursor UInt8) : Cursor UInt8 :=
  let r := snprintf c.buf c.epi room text
  ⟨r.1, c.epi + r.2⟩

def printAux (inet : InetNtop) (aux : UdAuxmsg) (c : Cursor UInt8) :
    Cursor UInt8 :=
  let c := putc openBracket c
  let c :=
    match inet.ntop (udSockaddrFam aux.src) (udSockaddrAddr aux.src) 128 with
    | some addr => c.write addr [0]
    | none => c
  let c := putc bracket c
  let c := printf 16 (colon :: numeral 10 (udSockaddrPort aux.src).toNat) c
  printf 256 (tab :: padded 4 16 aux.len.toNat ++ tab ::
    padded 4 16 aux.pno.toNat ++ tab :: padded 4 16 aux.svc.toNat ++ [tab]) c

def printMsg (decmap : Decmap Decoder) (svc : UInt16) (m : MonMsg)
    (c : Cursor UInt8) : Cursor UInt8 :=
  match (mondec svc decmap).1 with
  | some dec =>
      c.through fun p =>
        let r := dec.cb p decSize svc m
        (r.p, r.len)
  | none =>
      match ctrlName svc with
      | some name => printf 256 name c
      | none => c

/-- The buffer and its end when it is written out; `stack` is what is in it first. -/
def Unsermon.monPktCb (inet : InetNtop) (decmap : Decmap Decoder)
    (now : Timespec) (stack : Bytes) (us : Sock) (msg : MsgRef) : Cursor UInt8 :=
  let c := putc tab (printf lineSize (hrclockPrint now) ⟨stack, 0⟩)
  let c :=
    match udGetAux us with
    | none => putc questionMark c
    | some aux =>
        printMsg decmap aux.svc (msg.shown us) (printAux inet aux c)
  (putc newline c).write [] [0]

/-- The line is made of the packet that `Unserding.monPktCb` stands for and of the
bytes of its message. -/
theorem Unsermon.monPktCb_congr {us us' : Sock} {msg msg' : MsgRef}
    (hpkt : Unserding.monPktCb us msg = Unserding.monPktCb us' msg')
    (hshown : msg.shown us = msg'.shown us') (inet : InetNtop)
    (decmap : Decmap Decoder) (now : Timespec) (stack : Bytes) :
    Unsermon.monPktCb inet decmap now stack us msg =
      Unsermon.monPktCb inet decmap now stack us' msg' := by
  have haux : udGetAux us = udGetAux us' := congrArg MonPkt.aux hpkt
  simp only [Unsermon.monPktCb, haux, hshown]

/-! ## What a line tells -/

structure Entry where
  sec : Int
  nsec : Nat
  addr : Bytes
  port : Nat
  len : Nat
  pno : Nat
  svc : Nat
  text : Bytes
  deriving DecidableEq

def Entry.head (e : Entry) : Bytes :=
  signed 10 e.sec ++ dot :: (padded 9 10 e.nsec ++ tab :: openBracket ::
    (e.addr ++ bracket :: colon :: (numeral 10 e.port ++ tab ::
      (padded 4 16 e.len ++ tab :: (padded 4 16 e.pno ++ tab ::
        (padded 4 16 e.svc ++ [tab]))))))

def Entry.body (e : Entry) : Bytes := e.head ++ e.text

def Entry.read (line : Bytes) : Option Entry := do
  let (sec, line) ← cutAt dot line
  let (nsec, line) ← cutAt tab line
  let (_, line) ← cutAt openBracket line
  let (addr, line) ← cutAt bracket line
  let (_, line) ← cutAt colon line
  let (port, line) ← cutAt tab line
  let (len, line) ← cutAt tab line
  let (pno, line) ← cutAt tab line
  let (svc, text) ← cutAt tab line
  some ⟨readSigned 10 sec, readNumeral 10 nsec, addr, readNumeral 10 port,
    readNumeral 16 len, readNumeral 16 pno, readNumeral 16 svc, text⟩

theorem not_mem_of_digits {c : UInt8} (hc : ¬ IsDigit c) {text : Bytes}
    (h : ∀ d ∈ text, IsDigit d) : c ∉ text :=
  fun hmem => hc (h c hmem)

def Entry.Clean (e : Entry) : Prop :=
  ∀ c ∈ e.addr, IsDigit c ∨ c = colon ∨ c = dot

theorem Entry.Clean.not_mem {e : Entry} (h : e.Clean) {c : UInt8}
    (hdigit : ¬ IsDigit c) (hcolon : c ≠ colon) (hdot : c ≠ dot) : c ∉ e.addr := by
  intro hmem
  rcases h c hmem with h | h | h
  · exact hdigit h
  · exact hcolon h
  · exact hdot h

theorem Entry.read_body {e : Entry} (h : e.Clean) :
    Entry.read e.body = some e := by
  have haddr : bracket ∉ e.addr := h.not_mem (by decide) (by decide) (by decide)
  have hten : (1 : Nat) < 10 ∧ 10 ≤ 16 := by decide
  have hsec : dot ∉ signed 10 e.sec := by
    intro hmem
    rcases mem_signed hten.1 hten.2 e.sec dot hmem with hminus | hdigit
    · exact absurd hminus (by decide)
    · exact absurd hdigit (by decide)
  have hnsec : tab ∉ padded 9 10 e.nsec :=
    not_mem_of_digits (by decide) (isDigit_of_mem_padded hten.1 hten.2 9 e.nsec)
  have hport : tab ∉ numeral 10 e.port :=
    not_mem_of_digits (by decide) (isDigit_of_mem_numeral hten.1 hten.2 e.port)
  have hhex : ∀ n, tab ∉ padded 4 16 n := fun n =>
    not_mem_of_digits (by decide) (isDigit_of_mem_padded (by decide) le_rfl 4 n)
  have hopen (line : Bytes) : cutAt openBracket (openBracket :: line) =
      some ([], line) := cutAt_append (List.not_mem_nil) line
  have hcolon (line : Bytes) : cutAt colon (colon :: line) = some ([], line) :=
    cutAt_append (List.not_mem_nil) line
  simp only [read, body, head, List.append_assoc, List.cons_append,
    List.nil_append, cutAt_append hsec, cutAt_append hnsec, hopen,
    cutAt_append haddr, hcolon, cutAt_append hport, cutAt_append (hhex _),
    Option.bind_eq_bind, Option.bind_some, readSigned_signed hten.1 hten.2,
    readNumeral_padded hten.1 hten.2, readNumeral_numeral hten.1 hten.2,
    readNumeral_padded (show 1 < 16 by decide) le_rfl]

theorem Entry.newline_mem_body {e : Entry} (h : e.Clean) :
    newline ∈ e.body ↔ newline ∈ e.text := by
  have haddr : newline ∉ e.addr := h.not_mem (by decide) (by decide) (by decide)
  have hsec : newline ∉ signed 10 e.sec := by
    intro hmem
    rcases mem_signed (by decide) (by decide) e.sec newline hmem with
      hminus | hdigit
    · exact absurd hminus (by decide)
    · exact absurd hdigit (by decide)
  have hport : newline ∉ numeral 10 e.port :=
    not_mem_of_digits (by decide)
      (isDigit_of_mem_numeral (by decide) (by decide) e.port)
  have hnsec : newline ∉ padded 9 10 e.nsec :=
    not_mem_of_digits (by decide)
      (isDigit_of_mem_padded (by decide) (by decide) 9 e.nsec)
  have hhex : ∀ n, newline ∉ padded 4 16 n := fun n =>
    not_mem_of_digits (by decide) (isDigit_of_mem_padded (by decide) le_rfl 4 n)
  have hsep : newline ≠ dot ∧ newline ≠ tab ∧ newline ≠ openBracket ∧
      newline ≠ bracket ∧ newline ≠ colon := by decide
  simp [body, head, hsec, hnsec, haddr, hport, hhex, hsep]

/-! ## What is printed -/

theorem printf_eq {room : Nat} {text : Bytes} (h : text.length < room)
    (c : Cursor UInt8) : printf room text c = c.write text [0] := by
  have hroom : room ≠ 0 := by omega
  have htext : text.take (room - 1) = text := List.take_of_length_le (by omega)
  simp [printf, snprintf, hroom, htext, Cursor.write]

section Wrote

variable {c : Cursor UInt8} {size : Nat} {text : Bytes} (h : c.Wrote size text)

include h

theorem wrote_putc (ch : UInt8) (hroom : text.length + 1 ≤ size) :
    (putc ch c).Wrote size (text ++ [ch]) :=
  h.write (by simpa using hroom)

theorem wrote_printf (room : Nat) {more : Bytes} (hmore : more.length < room)
    (hroom : text.length + more.length + 1 ≤ size) :
    (printf room more c).Wrote size (text ++ more) := by
  rw [printf_eq hmore]
  exact h.write (by simpa using hroom)

end Wrote

theorem length_signed_le {b : Nat} (hb : 1 < b) {n : Int} {k : Nat} (hk : 0 < k)
    (h : n.natAbs < b ^ k) : (signed b n).length ≤ k + 1 := by
  have hlen := length_numeral_le hb hk h
  unfold signed
  split
  · simpa using hlen
  · exact Nat.le_succ_of_le hlen

theorem length_hrclockPrint_le (now : Timespec) :
    (hrclockPrint now).length ≤ 30 := by
  have hlow := now.tvSec.le_toInt
  have hhigh := now.tvSec.toInt_lt
  have hsec : (signed 10 now.tvSec.toInt).length ≤ 20 :=
    length_signed_le (by decide) (by decide) (by omega)
  have hnsec : (padded 9 10 now.tvNsec).length ≤ 9 :=
    length_padded_le (by decide) (by decide) now.lt le_rfl
  rw [hrclockPrint, List.length_append, List.length_cons]
  omega

theorem length_ctrlName_le {svc : UInt16} {name : Bytes}
    (h : ctrlName svc = some name) : name.length ≤ 13 := by
  unfold ctrlName at h
  repeat' split at h
  all_goals first
    | contradiction
    | (cases h; decide)

def auxText (addr : Bytes) (aux : UdAuxmsg) : Bytes :=
  openBracket :: (addr ++ bracket :: colon ::
    (numeral 10 (udSockaddrPort aux.src).toNat ++ tab ::
      (padded 4 16 aux.len.toNat ++ tab :: (padded 4 16 aux.pno.toNat ++ tab ::
        (padded 4 16 aux.svc.toNat ++ [tab])))))

def InetNtop.addr (inet : InetNtop) (aux : UdAuxmsg) : Bytes :=
  (inet.ntop (udSockaddrFam aux.src) (udSockaddrAddr aux.src) 128).getD []

theorem InetNtop.addr_spec (inet : InetNtop) (aux : UdAuxmsg) :
    (inet.addr aux).length < 128 ∧
      ∀ c ∈ inet.addr aux, IsDigit c ∨ c = colon ∨ c = dot := by
  unfold addr
  cases haddr : inet.ntop (udSockaddrFam aux.src) (udSockaddrAddr aux.src) 128 with
  | none => simp
  | some text => exact ⟨inet.room haddr, inet.chars haddr⟩

theorem length_auxFields_le (aux : UdAuxmsg) :
    (numeral 10 (udSockaddrPort aux.src).toNat).length ≤ 5 ∧
      (padded 4 16 aux.len.toNat).length ≤ 8 ∧
      (padded 4 16 aux.pno.toNat).length ≤ 4 ∧
      (padded 4 16 aux.svc.toNat).length ≤ 4 := by
  have hport := (udSockaddrPort aux.src).toNat_lt
  have hlen := aux.len.toNat_lt
  have hpno := aux.pno.toNat_lt
  have hsvc := aux.svc.toNat_lt
  refine ⟨?_, ?_, ?_, ?_⟩
  · exact length_numeral_le (by decide) (by decide) (by omega)
  · exact length_padded_le (by decide) (by decide) (by omega) (by decide)
  · exact length_padded_le (by decide) (by decide) (by omega) le_rfl
  · exact length_padded_le (by decide) (by decide) (by omega) le_rfl

theorem wrote_ntop (inet : InetNtop) (aux : UdAuxmsg) {c : Cursor UInt8}
    {size : Nat} {text : Bytes} (h : c.Wrote size text)
    (hroom : text.length + 128 ≤ size) :
    Cursor.Wrote
      (match inet.ntop (udSockaddrFam aux.src) (udSockaddrAddr aux.src) 128 with
        | some addr => c.write addr [0]
        | none => c)
      size (text ++ inet.addr aux) := by
  have haddr := (inet.addr_spec aux).1
  unfold InetNtop.addr at haddr ⊢
  cases hread : inet.ntop (udSockaddrFam aux.src) (udSockaddrAddr aux.src) 128 with
  | none => simpa using h
  | some addr =>
      rw [hread, Option.getD_some] at haddr
      refine h.write ?_
      rw [List.length_singleton]
      omega

theorem wrote_printAux {inet : InetNtop} {aux : UdAuxmsg} {c : Cursor UInt8}
    {size : Nat} {text : Bytes} (h : c.Wrote size text)
    (hroom : text.length + 160 ≤ size) :
    (printAux inet aux c).Wrote size (text ++ auxText (inet.addr aux) aux) ∧
      (auxText (inet.addr aux) aux).length ≤ 159 := by
  obtain ⟨hport, hlen, hpno, hsvc⟩ := length_auxFields_le aux
  have haddr := (inet.addr_spec aux).1
  have hopen := wrote_putc h openBracket (by omega)
  have hntop := wrote_ntop inet aux hopen (by
    rw [List.length_append, List.length_singleton]
    omega)
  have hclose := wrote_putc hntop bracket (by
    simp only [List.length_append, List.length_cons, List.length_nil]
    omega)
  have hshort : (colon :: numeral 10 (udSockaddrPort aux.src).toNat).length <
      16 := by
    rw [List.length_cons]
    omega
  have hcolon := wrote_printf hclose 16 hshort (by
    simp only [List.length_append, List.length_cons, List.length_nil]
    omega)
  have hfields : (tab :: padded 4 16 aux.len.toNat ++ tab ::
      padded 4 16 aux.pno.toNat ++ tab :: padded 4 16 aux.svc.toNat ++
        [tab]).length < 256 := by
    simp only [List.length_append, List.length_cons, List.length_nil]
    omega
  have hall := wrote_printf hcolon 256 hfields (by
    simp only [List.length_append, List.length_cons, List.length_nil]
    omega)
  constructor
  · have hsame : text ++ auxText (inet.addr aux) aux =
        text ++ [openBracket] ++ inet.addr aux ++ [bracket] ++
          (colon :: numeral 10 (udSockaddrPort aux.src).toNat) ++
          (tab :: padded 4 16 aux.len.toNat ++ tab ::
            padded 4 16 aux.pno.toNat ++ tab :: padded 4 16 aux.svc.toNat ++
              [tab]) := by
      simp [auxText]
    rw [hsame]
    exact hall
  · simp only [auxText, List.length_append, List.length_cons, List.length_nil]
    omega

def msgText (decmap : Decmap Decoder) (svc : UInt16) (m : MonMsg)
    (c : Cursor UInt8) : Bytes :=
  match (mondec svc decmap).1 with
  | some dec => (dec.cb (c.buf.drop c.epi) decSize svc m).text
  | none => (ctrlName svc).getD []

theorem wrote_printMsg (decmap : Decmap Decoder) (svc : UInt16) (m : MonMsg)
    {c : Cursor UInt8} {size : Nat} {text : Bytes} (h : c.Wrote size text)
    (hroom : text.length + decSize ≤ size) :
    (printMsg decmap svc m c).Wrote size (text ++ msgText decmap svc m c) ∧
      (msgText decmap svc m c).length ≤ decSize := by
  unfold decSize at hroom
  cases hdec : (mondec svc decmap).1 with
  | some dec =>
      have hrest : decSize ≤ (c.buf.drop c.epi).length := by
        rw [List.length_drop, h.length, h.epi]
        unfold decSize
        omega
      obtain ⟨hlen, hle⟩ := dec.fits svc m hrest
      simp only [printMsg, msgText, hdec]
      refine ⟨h.through hlen (hle.trans hrest), ?_⟩
      exact (List.length_take_le _ _).trans hle
  | none =>
      cases hname : ctrlName svc with
      | none =>
          simp only [printMsg, msgText, hdec, hname, Option.getD_none,
            List.append_nil]
          exact ⟨h, Nat.zero_le _⟩
      | some name =>
          have hlen := length_ctrlName_le hname
          simp only [printMsg, msgText, hdec, hname, Option.getD_some]
          refine ⟨wrote_printf h 256 (by omega) (by omega), ?_⟩
          unfold decSize
          omega

def Unsermon.entry (inet : InetNtop) (decmap : Decmap Decoder) (now : Timespec)
    (stack : Bytes) (us : Sock) (msg : MsgRef) (aux : UdAuxmsg) : Entry where
  sec := now.tvSec.toInt
  nsec := now.tvNsec
  addr := inet.addr aux
  port := (udSockaddrPort aux.src).toNat
  len := aux.len.toNat
  pno := aux.pno.toNat
  svc := aux.svc.toNat
  text := msgText decmap aux.svc (msg.shown us) (printAux inet aux
    (putc tab (printf lineSize (hrclockPrint now) ⟨stack, 0⟩)))

theorem wrote_stamp (now : Timespec) {stack : Bytes}
    (hstack : stack.length = lineSize) :
    (putc tab (printf lineSize (hrclockPrint now) ⟨stack, 0⟩)).Wrote lineSize
        (hrclockPrint now ++ [tab]) ∧
      (hrclockPrint now ++ [tab]).length ≤ 31 := by
  have hclock := length_hrclockPrint_le now
  have hsize : lineSize = 8192 := rfl
  have hempty := Cursor.wrote_nothing stack
  rw [hstack] at hempty
  have hfits : (hrclockPrint now).length < lineSize := by omega
  have hstamp := wrote_printf hempty lineSize hfits (by
    rw [List.length_nil]
    omega)
  rw [List.nil_append] at hstamp
  refine ⟨wrote_putc hstamp tab (by omega), ?_⟩
  rw [List.length_append, List.length_singleton]
  omega

theorem wrote_end {c : Cursor UInt8} {size : Nat} {text : Bytes}
    (h : c.Wrote size text) (hroom : text.length + 2 ≤ size) :
    ((putc newline c).write [] [0]).Wrote size (text ++ [newline]) := by
  have hline := wrote_putc h newline (by omega)
  have hend := @Cursor.Wrote.write _ _ _ _ hline [] [0] (by
    simp only [List.length_append, List.length_cons, List.length_nil]
    omega)
  rwa [List.append_nil] at hend

theorem wrote_monPktCb (inet : InetNtop) (decmap : Decmap Decoder)
    (now : Timespec) {stack : Bytes} (hstack : stack.length = lineSize)
    {us : Sock} (msg : MsgRef) {aux : UdAuxmsg} (haux : udGetAux us = some aux) :
    (Unsermon.monPktCb inet decmap now stack us msg).Wrote lineSize
      ((Unsermon.entry inet decmap now stack us msg aux).body ++ [newline]) := by
  have hsize : lineSize = 8192 := rfl
  have hdec : decSize = 512 := rfl
  obtain ⟨hstamp, hfirst⟩ := wrote_stamp now hstack
  obtain ⟨haddr, hshort⟩ := @wrote_printAux inet aux _ _ _ hstamp (by omega)
  obtain ⟨hmsg, htext⟩ := wrote_printMsg decmap aux.svc (msg.shown us) haddr (by
    rw [List.length_append]
    omega)
  have hline := wrote_end hmsg (by
    rw [List.length_append, List.length_append]
    omega)
  have hsame : (Unsermon.entry inet decmap now stack us msg aux).body =
      hrclockPrint now ++ [tab] ++ auxText (inet.addr aux) aux ++
        msgText decmap aux.svc (msg.shown us) (printAux inet aux
          (putc tab (printf lineSize (hrclockPrint now) ⟨stack, 0⟩))) := by
    simp [Entry.body, Entry.head, Unsermon.entry, auxText, hrclockPrint]
  rw [hsame]
  simpa only [Unsermon.monPktCb, haux] using hline

theorem wrote_unknown (inet : InetNtop) (decmap : Decmap Decoder)
    (now : Timespec) {stack : Bytes} (hstack : stack.length = lineSize)
    {us : Sock} (msg : MsgRef) (haux : udGetAux us = none) :
    (Unsermon.monPktCb inet decmap now stack us msg).Wrote lineSize
      (hrclockPrint now ++ [tab, questionMark, newline]) := by
  have hsize : lineSize = 8192 := rfl
  obtain ⟨hstamp, hfirst⟩ := wrote_stamp now hstack
  have hmark := wrote_putc hstamp questionMark (by omega)
  have hline := wrote_end hmark (by
    rw [List.length_append, List.length_singleton]
    omega)
  simpa [Unsermon.monPktCb, haux] using hline

/--
Whatever the socket is at and whatever is on the stack, a line is printed whole
and nothing is written outside of the buffer.
-/
theorem line_within_buffer (inet : InetNtop) (decmap : Decmap Decoder)
    (now : Timespec) (stack : Vector UInt8 lineSize) (us : Sock) (msg : MsgRef) :
    (Unsermon.monPktCb inet decmap now stack.toList us msg).Wrote lineSize
      (match udGetAux us with
        | none => hrclockPrint now ++ [tab, questionMark, newline]
        | some aux => (Unsermon.entry inet decmap now stack.toList us msg aux).body ++
            [newline]) := by
  cases haux : udGetAux us with
  | none => exact wrote_unknown inet decmap now stack.length_toList msg haux
  | some aux => exact wrote_monPktCb inet decmap now stack.length_toList msg haux

end Unserding
