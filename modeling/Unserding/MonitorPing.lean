import Unserding.Ping

/-!
# Pings in the monitor

The decoder for PING and PONG messages that `svc-pong.c` registers with the
monitor.  It takes a message for a whole `__msg` of 64 bytes, which is what
`ud_pack_ping` sends only where it clamps the hostname.
-/

namespace Unserding

open Foundation

/-! ## The decoder for pings -/

/--
A `struct ud_msg_s` that comes to a decoder, with the memory from its data
pointer on; the pointer may be NULL.
-/
structure MonMsg where
  data : Option Bytes
  dlen : Nat

def MsgRef.shown (msg : MsgRef) (us : Sock) : MonMsg :=
  ⟨some (us.mem.drop (hdrSize + msg.data)), msg.dlen⟩

structure Decoded where
  p : Bytes
  len : Nat
  -- the spans of the message that were read, as offsets and lengths
  reads : List (Nat × Nat)

def Decoded.text (r : Decoded) : Bytes := r.p.take r.len

def tab : UInt8 := 0x09

def questionMark : UInt8 := 0x3f

def decimal (n : UInt32) : Bytes :=
  (Nat.toDigits 10 n.toNat).map fun c => UInt8.ofNat c.toNat

def sizeSub (z q : Nat) : Nat := (z + 2 ^ 64 - q) % 2 ^ 64

theorem sizeSub_eq {z q : Nat} (h : q ≤ z) (hz : z < 2 ^ 64) :
    sizeSub z q = z - q := by
  unfold sizeSub
  omega

/-- Print `text` and a NUL to offset `q`; it is cut at the room left. -/
def snprintf (p : Bytes) (q room : Nat) (text : Bytes) : Bytes × Nat :=
  (if room = 0 then p else blit p q (text.take (room - 1) ++ [0]), text.length)

def pingName (svc : UInt16) : Option Bytes :=
  if svc = svcPing then some [0x50, 0x49, 0x4e, 0x47]
  else if svc = svcPong then some [0x50, 0x4f, 0x4e, 0x47]
  else none

def monDecPing (p : Bytes) (z : Nat) (svc : UInt16) (m : MonMsg) : Decoded :=
  match pingName svc with
  | none => ⟨p, 0, []⟩
  | some name =>
      -- the tab goes where the NUL of the name was
      let q := name.length + 1
      let p := blit (blit p 0 (name ++ [0])) (q - 1) [tab]
      match m.data with
      | none => ⟨blit p q [questionMark], q + 1, []⟩
      | some wire =>
          if m.dlen ≠ pingMsgSize then
            ⟨blit p q [questionMark], q + 1, []⟩
          else
            let printed := snprintf p q (sizeSub z q)
              (decimal (be32At wire 0) ++ [tab])
            let q := q + printed.2
            let hnz := (hnzAt wire).toNat
            ⟨blit printed.1 q (window wire hnOffset hnz), q + hnz,
              [(0, 4), (4, 1), (hnOffset, hnz)]⟩

def SvcPing.name (msg : SvcPing) : Bytes :=
  ((pingCmd msg.what).bind pingName).getD []

def rendition (msg : SvcPing) : Bytes :=
  msg.name ++ tab :: (decimal msg.pid.toUInt32 ++ tab :: msg.hostname)

def unknown (msg : SvcPing) : Bytes := msg.name ++ [tab, questionMark]

theorem length_decimal_le (n : UInt32) : (decimal n).length ≤ 10 := by
  have hn := n.toNat_lt
  rw [decimal, List.length_map,
    Nat.length_toDigits_le_iff (by decide) (by decide)]
  omega

theorem pingName_of_isPing {svc : UInt16} (h : IsPing svc) :
    ∃ name, pingName svc = some name ∧ name.length = 4 := by
  rcases h with rfl | rfl
  · exact ⟨_, rfl, rfl⟩
  · exact ⟨_, rfl, rfl⟩

section Decoder

variable {p : Bytes} {z : Nat} {svc : UInt16} {m : MonMsg} {name : Bytes}
  (hname : pingName svc = some name)

theorem take_named (p : Bytes) (name : Bytes)
    (hroom : name.length + 1 ≤ p.length) :
    (blit (blit p 0 (name ++ [0])) name.length [tab]).take (name.length + 1) =
      name ++ [tab] ∧
    p.length ≤ (blit (blit p 0 (name ++ [0])) name.length [tab]).length := by
  have hnul := @le_length_blit _ p (name ++ [0]) 0 (Nat.zero_le _)
  have hhead := @take_blit _ p name [0] 0 (Nat.zero_le _)
  have htab := @take_blit _ (blit p 0 (name ++ [0])) [tab] [] name.length
    (by omega)
  rw [Nat.zero_add, List.take_zero, List.nil_append] at hhead
  rw [List.append_nil, hhead] at htab
  have hlen := @le_length_blit _ (blit p 0 (name ++ [0])) [tab] name.length
    (by omega)
  exact ⟨htab, by omega⟩

include hname

theorem monDecPing_unknown (hroom : name.length + 1 ≤ p.length)
    (h : m.data = none ∨ m.dlen ≠ pingMsgSize) :
    (monDecPing p z svc m).text = name ++ [tab, questionMark] ∧
      (monDecPing p z svc m).reads = [] := by
  obtain ⟨htake, hlen⟩ := take_named p name hroom
  have hmark := @take_blit _ (blit (blit p 0 (name ++ [0])) name.length [tab])
    [questionMark] [] (name.length + 1) (by omega)
  rw [List.append_nil, htake, List.append_assoc] at hmark
  cases hdata : m.data with
  | none =>
      simp only [monDecPing, hname, hdata, Decoded.text, Nat.add_sub_cancel]
      exact ⟨hmark, trivial⟩
  | some wire =>
      have hdlen := h.resolve_left (by rw [hdata]; exact Option.some_ne_none _)
      simp only [monDecPing, hname, hdata, if_pos hdlen, Decoded.text,
        Nat.add_sub_cancel]
      exact ⟨hmark, trivial⟩

theorem monDecPing_whole (hz : name.length + 13 ≤ z) (hsize : z < 2 ^ 64)
    (hroom : z ≤ p.length) {wire : Bytes} (hdata : m.data = some wire)
    (hdlen : m.dlen = pingMsgSize)
    (hhost : hnOffset + (hnzAt wire).toNat ≤ wire.length) :
    (monDecPing p z svc m).text = name ++ tab ::
        (decimal (be32At wire 0) ++ tab ::
          window wire hnOffset (hnzAt wire).toNat) ∧
      (monDecPing p z svc m).reads =
        [(0, 4), (4, 1), (hnOffset, (hnzAt wire).toNat)] := by
  obtain ⟨htake, hlen⟩ := take_named p name (by omega)
  have hdigits := length_decimal_le (be32At wire 0)
  have hwrap : sizeSub z (name.length + 1) = z - (name.length + 1) :=
    sizeSub_eq (by omega) hsize
  generalize hp : blit (blit p 0 (name ++ [0])) name.length [tab] = q at *
  generalize hnum : decimal (be32At wire 0) ++ [tab] = num at *
  have hnumlen : num.length ≤ 11 := by
    rw [← hnum, List.length_append, List.length_singleton]
    omega
  have hcut : num.take (z - (name.length + 1) - 1) = num :=
    List.take_of_length_le (by omega)
  have hprinted := @take_blit _ q num [0] (name.length + 1) (by omega)
  have hqlen := @le_length_blit _ q (num ++ [0]) (name.length + 1) (by omega)
  have hname' := @take_blit _ (blit q (name.length + 1) (num ++ [0]))
    (window wire hnOffset (hnzAt wire).toNat) []
    (name.length + 1 + num.length) (by omega)
  rw [List.append_nil, hprinted, htake, length_window hhost] at hname'
  have hpos : z - (name.length + 1) ≠ 0 := by omega
  simp only [monDecPing, hname, hdata, hdlen, ne_eq, not_true, if_false,
    Nat.add_sub_cancel, hp, hwrap, snprintf, hpos, hnum, hcut, Decoded.text]
  refine ⟨?_, trivial⟩
  refine hname'.trans ?_
  rw [← hnum, List.append_assoc, List.append_assoc, List.append_assoc]
  rfl

end Decoder

/-! ## What the monitor reads -/

def Decoded.Within (r : Decoded) (m : MonMsg) : Prop :=
  ∀ span ∈ r.reads, span.1 + span.2 ≤ m.dlen

/-- A whole message that announces more hostname than it can hold. -/
def Overlong (svc : UInt16) (m : MonMsg) : Prop :=
  IsPing svc ∧ m.dlen = pingMsgSize ∧
    ∃ wire, m.data = some wire ∧ pingMsgSize - hnOffset < (hnzAt wire).toNat

theorem monDecPing_within_iff (p : Bytes) (z : Nat) (svc : UInt16)
    (m : MonMsg) : (monDecPing p z svc m).Within m ↔ ¬ Overlong svc m := by
  cases hname : pingName svc with
  | none =>
      have hsvc : ¬ IsPing svc := by
        intro h
        obtain ⟨name, hsome, -⟩ := pingName_of_isPing h
        rw [hname] at hsome
        contradiction
      simp only [monDecPing, hname, Decoded.Within]
      exact ⟨fun _ h => hsvc h.1, fun _ span hspan => by contradiction⟩
  | some name =>
      have hsvc : IsPing svc := by
        unfold pingName at hname
        split at hname
        · exact .inl ‹_›
        · split at hname
          · exact .inr ‹_›
          · contradiction
      cases hdata : m.data with
      | none =>
          simp only [monDecPing, hname, hdata, Decoded.Within, Overlong]
          simp
      | some wire =>
          by_cases hdlen : m.dlen = pingMsgSize
          · simp only [monDecPing, hname, hdata, hdlen, ne_eq, not_true,
              if_false, Decoded.Within, Overlong, hsvc, true_and,
              Option.some.injEq, exists_eq_left']
            unfold pingMsgSize hnOffset
            simp
            omega
          · simp [monDecPing, hname, hdata, hdlen, Decoded.Within, Overlong]

/-! ## What the monitor shows -/

theorem unknown_ne_rendition (msg : SvcPing) : unknown msg ≠ rendition msg := by
  intro h
  have hdigits : 0 < (decimal msg.pid.toUInt32).length := by
    rw [decimal, List.length_map]
    exact Nat.length_toDigits_pos
  have hlen := congrArg List.length h
  simp only [unknown, rendition, List.length_append, List.length_cons,
    List.length_nil] at hlen
  omega

def SvcPing.cut (msg : SvcPing) : SvcPing :=
  { msg with hostname := msg.hostname.take (pingMsgSize - hnOffset) }

section Shown

variable {us : Sock} {m : MsgRef} {msg : SvcPing} {cmd : UInt16}
  (hcmd : pingCmd msg.what = some cmd) (hderef : us.deref m = pingData msg)
  (hdlen : m.dlen = (pingData msg).length) {p : Bytes} {z : Nat}
  (hz : 512 ≤ z) (hsize : z < 2 ^ 64) (hroom : z ≤ p.length)

include hcmd hderef hdlen hz hsize hroom

theorem monDecPing_shown :
    (monDecPing p z cmd (m.shown us)).text =
      if 58 < msg.hostname.length % 256 then rendition msg.cut
      else unknown msg := by
  have hlen := length_pingData msg
  have hhnz := hnzOf_toNat msg.hostname.length
  obtain ⟨name, hname, hfour⟩ := pingName_of_isPing (isPing_of_pingCmd hcmd).1
  have hcall : msg.name = name := by simp [SvcPing.name, hcmd, hname]
  by_cases hlong : 58 < msg.hostname.length % 256
  · rw [if_pos hlong] at hhnz ⊢
    rw [hhnz] at hlen
    have htake : (us.mem.drop (hdrSize + m.data)).take m.dlen = pingData msg :=
      hderef
    have hwire : ∀ i < (pingData msg).length,
        (us.mem.drop (hdrSize + m.data))[i]? = (pingData msg)[i]? := by
      intro i hi
      rw [← htake, List.getElem?_take_of_lt (by omega)]
    have hsame : hnzAt (us.mem.drop (hdrSize + m.data)) =
        hnzOf msg.hostname.length :=
      hnzAt_congr (hwire 4 (by rw [hlen]; decide))
    have hpid : be32At (us.mem.drop (hdrSize + m.data)) 0 =
        msg.pid.toUInt32 := by
      rw [be32At_congr fun i hi => hwire (0 + i)
        (by rw [hlen]; unfold hnOffset; omega)]
      exact be32At_htobe32 msg.pid.toUInt32 _
    have hhost : window (us.mem.drop (hdrSize + m.data)) hnOffset 59 =
        msg.hostname.take 59 := by
      rw [window, List.take_drop, show hnOffset + 59 = m.dlen by omega, htake]
      change msg.hostname.take (hnzOf msg.hostname.length).toNat = _
      rw [hhnz]
    have hfit : hnOffset + 59 ≤ (us.mem.drop (hdrSize + m.data)).length := by
      have hcount := congrArg List.length htake
      rw [List.length_take, hlen] at hcount
      omega
    obtain ⟨htext, -⟩ := monDecPing_whole (m := m.shown us) hname
      (by omega) hsize hroom rfl (hdlen.trans hlen)
      (by rw [hsame, hhnz]; exact hfit)
    rw [htext, hsame, hhnz, hpid, hhost, ← hcall]
    rfl
  · have hsize : (m.shown us).dlen ≠ pingMsgSize := by
      change m.dlen ≠ pingMsgSize
      rw [hdlen, hlen, hhnz, if_neg hlong]
      unfold hnOffset pingMsgSize
      omega
    obtain ⟨htext, -⟩ := @monDecPing_unknown p z cmd (m.shown us) name hname
      (by omega) (.inr hsize)
    rw [htext, if_neg hlong, unknown, hcall]

end Shown

def Prints (e : Env) (s : Lib) (p : Bytes) (z : Nat) (text : Bytes) : Prop :=
  ∃ m aux, (udChckMsg e s).val = some m ∧
    udGetAux (udChckMsg e s).st.us = some aux ∧
    (monDecPing p z aux.svc (m.shown (udChckMsg e s).st.us)).text = text

theorem prints_iff {s : Lib} (hs : s.Sane) (hidle : s.us.nrd = 0) {e : Env}
    {d : Arrival} (hrx : e.rx = some d) {pno : Nat} {msg : SvcPing}
    {cmd : UInt16} (hcmd : pingCmd msg.what = some cmd)
    (hbytes : d.bytes = udHdr pno cmd ++ record (pingData msg)) {p : Bytes}
    {z : Nat} (hz : 512 ≤ z) (hsize : z < 2 ^ 64) (hroom : z ≤ p.length)
    (text : Bytes) :
    Prints e s p z text ↔
      text = if 58 < msg.hostname.length % 256 then rendition msg.cut
        else unknown msg := by
  have hle := hnzOf_le msg.hostname.length
  have hlen := length_pingData msg
  unfold pingMsgSize hnOffset at hle
  unfold hnOffset at hlen
  obtain ⟨hval, ⟨m, hm, -, -, hderef⟩, -⟩ :=
    udChckMsg_single hs hidle hrx (by omega) hbytes
  obtain ⟨hpos, hsvc⟩ := udChckMsg_some hm
  rw [hval] at hm
  cases hm
  have haux : udGetAux (udChckMsg e s).st.us = some
      ⟨(udChckMsg e s).st.us.src.sa, hdrPno (udChckMsg e s).st.us.recv, cmd,
        UInt32.ofNat (udChckMsg e s).st.us.nrd⟩ := by
    rw [udGetAux, if_neg (Nat.ne_of_gt hpos), ← hsvc]
  have hshown := monDecPing_shown hcmd hderef rfl hz hsize hroom
  constructor
  · rintro ⟨m', aux', hm', haux', htext⟩
    rw [hval] at hm'
    rw [haux] at haux'
    cases hm'
    cases haux'
    rw [← htext, hshown]
  · rintro rfl
    exact ⟨_, _, hval, haux, hshown⟩

theorem SvcPing.cut_eq {msg : SvcPing}
    (h : msg.hostname.length ≤ pingMsgSize - hnOffset) : msg.cut = msg := by
  rw [cut, List.take_of_length_le h]

theorem prints_rendition_iff {e : Env} {s : Lib} {p : Bytes} {z : Nat}
    {msg : SvcPing}
    (h : ∀ text, Prints e s p z text ↔
      text = if 58 < msg.hostname.length % 256 then rendition msg.cut
        else unknown msg) :
    Prints e s p z (rendition msg.cut) ↔ 58 < msg.hostname.length % 256 := by
  rw [h]
  by_cases hlong : 58 < msg.hostname.length % 256
  · exact iff_of_true (if_pos hlong).symm hlong
  · rw [if_neg hlong]
    exact iff_of_false (unknown_ne_rendition msg.cut).symm hlong

/--
The monitor shows a ping only where the packer's clamp made its message 64
bytes long; with a hostname of at most 58 bytes it shows a question mark.  And
it reads past a message if and only if that is overlong.
-/
theorem monitor_decodes_iff (calls : List Call) {msg : SvcPing}
    (hwhat : msg.what = .ping ∨ msg.what = .pong) :
    (∃ dgram,
      (udPackPing .full .full msg (api.run Lib.fresh calls)).val = 0 ∧
      (udPackPing .full .full msg (api.run Lib.fresh calls)).tx =
        (udFlush .full (api.run Lib.fresh calls).us).tx ++ [.ctrl dgram] ∧
      ∀ (calls' : List Call) (e : Env) (d : Arrival) (p : Bytes) (z : Nat),
        (api.run Lib.fresh calls').us.nrd = 0 → d.bytes = dgram →
        e.rx = some d → 512 ≤ z → z < 2 ^ 64 → z ≤ p.length →
        (Prints e (api.run Lib.fresh calls') p z (rendition msg.cut) ↔
          58 < msg.hostname.length % 256) ∧
        (msg.hostname.length ≤ maxHnz.toNat →
          Prints e (api.run Lib.fresh calls') p z (unknown msg) ∧
          ¬ Prints e (api.run Lib.fresh calls') p z (rendition msg))) ∧
    ∀ (p : Bytes) (z : Nat) (svc : UInt16) (m : MonMsg),
      (monDecPing p z svc m).Within m ↔ ¬ Overlong svc m := by
  obtain ⟨cmd, hcmd⟩ := exists_pingCmd hwhat
  obtain ⟨hval, htx⟩ := udPackPing_sent (run_sane calls) hcmd
  refine ⟨⟨_, hval, htx, ?_⟩, monDecPing_within_iff⟩
  intro calls' e d p z hidle hbytes hrx hz hsize hroom
  have hprints := prints_iff (run_sane calls') hidle hrx hcmd hbytes hz hsize
    hroom
  have hiff := prints_rendition_iff hprints
  refine ⟨hiff, fun hshort => ?_⟩
  have hmax : maxHnz.toNat = 58 := by decide
  rw [hmax] at hshort
  have hlow : ¬ 58 < msg.hostname.length % 256 := by omega
  refine ⟨(hprints _).mpr (if_neg hlow).symm, ?_⟩
  rw [SvcPing.cut_eq (Nat.le_succ_of_le hshort)] at hiff
  exact fun hshows => hlow (hiff.mp hshows)

theorem monitor_decodes_iff_witness :
    ∃ dgram, ∀ e : Env, e.rx = some ⟨dgram, Vector.replicate 28 0⟩ →
      Prints e Lib.fresh (List.replicate 512 0) 512
        (unknown ⟨[0x68, 0x6f], 7, .pong⟩) := by
  obtain ⟨⟨dgram, -, -, hshow⟩, -⟩ :=
    @monitor_decodes_iff [] ⟨[0x68, 0x6f], 7, .pong⟩ (.inr rfl)
  exact ⟨dgram, fun e hrx =>
    ((hshow [] e ⟨dgram, Vector.replicate 28 0⟩ (List.replicate 512 0) 512 rfl
      rfl hrx (by decide) (by decide) List.length_replicate.ge).2
        (by decide)).1⟩

/--
A PONG for a hostname of two bytes is shown as unknown; and a message of 64
bytes that announces 60 bytes of hostname is read past its end.
-/
theorem not_monitor_decodes :
    ¬ (∀ (e : Env) (d : Arrival) (msg : SvcPing) (dgram : Bytes),
        (udPackPing .full .full msg Lib.fresh).tx = [.ctrl dgram] →
        msg.hostname.length ≤ maxHnz.toNat → d.bytes = dgram →
        e.rx = some d →
        Prints e Lib.fresh (List.replicate 512 0) 512 (rendition msg)) ∧
    ¬ ∀ (p : Bytes) (z : Nat) (svc : UInt16) (m : MonMsg),
      (monDecPing p z svc m).Within m := by
  constructor
  · intro h
    let msg : SvcPing := ⟨[0x68, 0x6f], 7, .pong⟩
    let d : Arrival := ⟨udHdr 0 svcPong ++ record (pingData msg),
      Vector.replicate 28 0⟩
    have htx := (udPackPing_sent (s := Lib.fresh) Lib.fresh_sane
      (show pingCmd msg.what = some svcPong from rfl)).2
    have hflush : (udFlush .full Lib.fresh.us).tx = [] := rfl
    rw [hflush, List.nil_append] at htx
    have hshows := h ⟨some d, none, 0, .full, .full⟩ d msg _ htx (by decide) rfl
      rfl
    have hprints := prints_iff (z := 512) (p := List.replicate 512 0)
      Lib.fresh_sane rfl (e := ⟨some d, none, 0, .full, .full⟩) rfl
      (show pingCmd msg.what = some svcPong from rfl)
      (show d.bytes = udHdr 0 svcPong ++ record (pingData msg) from rfl)
      (by decide) (by decide) List.length_replicate.ge
    exact absurd ((prints_rendition_iff hprints).mp hshows) (by decide)
  · intro h
    refine (monDecPing_within_iff [] 512 svcPong
      ⟨some ([0, 0, 0, 7, 60] ++ List.replicate 59 0), pingMsgSize⟩).mp
        (h _ _ _ _) ?_
    exact ⟨.inr rfl, rfl, _, rfl, by decide⟩

end Unserding
