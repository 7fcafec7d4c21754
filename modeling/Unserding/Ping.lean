import Unserding.Containment
import Unserding.Control

/-!
# Pings on the wire

The packet of `ud_pack_ping` and what `ud_chck_ping` makes of a packet.  The
decoder works in a static buffer that it shares with the encoder and with every
other socket, so what it reports comes from the message only if the message
holds every byte the decoder looks at.
-/

namespace Unserding

open Foundation

/-! ## What a caller sees -/

def PingRef.hostname (ref : PingRef) : Bytes := ref.hn.take ref.hostnlen

def PingRef.Terminated (ref : PingRef) : Prop := ref.hn[ref.hostnlen]? = some 0

structure Seen where
  pid : Int32
  what : PingWhat
  hostnlen : Nat
  hostname : Bytes
  deriving DecidableEq

def PingRef.seen (ref : PingRef) : Seen :=
  ⟨ref.pid, ref.what, ref.hostnlen, ref.hostname⟩

def hnzAt (buf : Bytes) : UInt8 := buf.getD 4 0

def readPing (svc : UInt16) (buf : Bytes) : Seen where
  pid := (be32At buf 0).toInt32
  what := if svc &&& 0x01 ≠ 0 then .pong else .ping
  hostnlen := (hnzAt buf).toNat
  hostname := window buf hnOffset (hnzAt buf).toNat

theorem hnzAt_congr {buf buf' : Bytes} (h : buf[4]? = buf'[4]?) :
    hnzAt buf = hnzAt buf' := by
  simp [hnzAt, List.getD_eq_getElem?_getD, h]

theorem readPing_congr {buf buf' : Bytes} {n : Nat}
    (h : ∀ i < n, buf[i]? = buf'[i]?)
    (hn : hnOffset + (hnzAt buf').toNat ≤ n) (svc : UInt16) :
    readPing svc buf = readPing svc buf' := by
  unfold hnOffset at hn
  have hhnz : hnzAt buf = hnzAt buf' := hnzAt_congr (h 4 (by omega))
  have hpid : be32At buf 0 = be32At buf' 0 :=
    be32At_congr fun i hi => h (0 + i) (by omega)
  have hhost : window buf hnOffset (hnzAt buf').toNat =
      window buf' hnOffset (hnzAt buf').toNat := by
    apply List.ext_getElem?
    intro i
    rw [getElem?_window, getElem?_window]
    split
    · exact h (hnOffset + i) (by unfold hnOffset; omega)
    · rfl
  rw [readPing, readPing, hpid, hhnz, hhost]

section Inspect

variable {msg : MsgRef} {data buf : Bytes}

theorem inspectPing_none (h : maxHnz < hnzAt (blit buf 0 data)) :
    (inspectPing msg data buf).1 = none := by
  unfold hnzAt at h
  simp only [inspectPing, gt_iff_lt, if_pos h]

theorem inspectPing_some (hbuf : buf.length = pingMsgSize)
    (hdata : data.length ≤ pingMsgSize)
    (h : ¬ maxHnz < hnzAt (blit buf 0 data)) :
    ∃ ref, (inspectPing msg data buf).1 = some ref ∧
      ref.seen = readPing msg.svc (blit buf 0 data) ∧ ref.Terminated := by
  have hlen : (blit buf 0 data).length = pingMsgSize := by
    rw [length_blit (by omega), hbuf]
  have hmax : (hnzAt (blit buf 0 data)).toNat ≤ 58 :=
    UInt8.le_iff_toNat_le.mp (UInt8.not_lt.mp h)
  have hnul : hnOffset + (hnzAt (blit buf 0 data)).toNat ≤
      (blit buf 0 data).length := by
    rw [hlen]
    unfold pingMsgSize hnOffset
    omega
  generalize hseen : blit buf 0 data = seen at *
  have hread : readPing msg.svc
      (blit seen (hnOffset + (hnzAt seen).toNat) [0]) =
        readPing msg.svc seen := by
    refine readPing_congr (fun i hi => ?_) (Nat.le_refl _) _
    rw [getElem?_blit hnul, if_neg (by omega)]
  have hhnz : hnzAt (blit seen (hnOffset + (hnzAt seen).toNat) [0]) =
      hnzAt seen := by
    refine hnzAt_congr ?_
    rw [getElem?_blit hnul, if_neg (by unfold hnOffset; omega)]
  refine ⟨⟨(blit seen (hnOffset + (hnzAt seen).toNat) [0]).drop hnOffset,
    (hnzAt seen).toNat,
    (be32At (blit seen (hnOffset + (hnzAt seen).toNat) [0]) 0).toInt32,
    if msg.svc &&& 0x01 ≠ 0 then .pong else .ping⟩, ?_, ?_, ?_⟩
  · have hle := h
    unfold hnzAt at hle
    simp only [inspectPing, hseen, if_neg hle]
    rfl
  · rw [← hread, readPing, hhnz]
    rfl
  · rw [PingRef.Terminated, List.getElem?_drop, getElem?_blit hnul,
      if_pos ⟨Nat.le_refl _, by simp⟩]
    simp

end Inspect

/-! ## Checked messages -/

/-- `ud_chck_msg` gives a message that lies inside its datagram. -/
def Gives (e : Env) (s : Lib) (svc : UInt16) (data : Bytes) : Prop :=
  ∃ msg, (udChckMsg e s).val = some msg ∧
    msg.Within (udChckMsg e s).st.us ∧ msg.svc = svc ∧
    (udChckMsg e s).st.us.deref msg = data

def IsPing (svc : UInt16) : Prop := svc = svcPing ∨ svc = svcPong

theorem Sock.RecvSane.length_deref {us : Sock} (h : us.RecvSane) {msg : MsgRef}
    (hin : msg.Within us) : (us.deref msg).length = msg.dlen := by
  have hlen := h.recv_length
  have hle := h.nrd_le
  have hend := hin.2
  refine length_window ?_
  simp only [Sock.mem, List.length_append, hlen]
  unfold ethMtu hdrSize at *
  omega

theorem udChckPing_val {e : Env} {s : Lib} {msg : MsgRef}
    (hval : (udChckMsg e s).val = some msg) (hsvc : IsPing msg.svc) :
    (udChckPing e s).val =
      if pingMsgSize < msg.dlen then none
      else (inspectPing msg ((udChckMsg e s).st.us.deref msg)
        (udChckMsg e s).st.g.msg).1 := by
  have hmask : ¬ msg.svc &&& 0xfffe ≠ udCtrlSvc udSvcPing := by
    rcases hsvc with h | h <;> rw [h] <;> decide
  simp only [udChckPing, hval, gt_iff_lt, if_neg hmask]
  split <;> rfl

/--
The message is refused for its length or its hostname length, or it holds all
the bytes `ud_chck_ping` looks at.
-/
def CompletePing (data : Bytes) : Prop :=
  pingMsgSize < data.length ∨ ∃ hnz, data[4]? = some hnz ∧
    (maxHnz < hnz ∨ hnOffset + hnz.toNat ≤ data.length)

theorem udChckPing_complete {e : Env} {s : Lib} (hs : s.Sane) {svc : UInt16}
    {data : Bytes} (hgives : Gives e s svc data) (hsvc : IsPing svc)
    (hdata : CompletePing data) :
    (udChckPing e s).val.map PingRef.seen =
      if pingMsgSize < data.length ∨ maxHnz < hnzAt data then none
      else some (readPing svc data) := by
  obtain ⟨msg, hval, hin, rfl, rfl⟩ := hgives
  have hsane := udChckMsg_sane e hs
  have hlen := hsane.recv.length_deref hin
  generalize hmsg : (udChckMsg e s).st.us.deref msg = data at *
  rw [udChckPing_val hval hsvc, hmsg, ← hlen]
  rcases hdata with hlong | ⟨hnz, hget, hhost⟩
  · rw [if_pos hlong, if_pos (.inl hlong)]
    rfl
  · have hfour : 4 < data.length := (List.getElem?_eq_some_iff.mp hget).1
    have hhnz : hnzAt data = hnz := by
      simp [hnzAt, List.getD_eq_getElem?_getD, hget]
    by_cases hlong : pingMsgSize < data.length
    · rw [if_pos hlong, if_pos (.inl hlong)]
      rfl
    · have hcover : ∀ i < data.length,
          (blit (udChckMsg e s).st.g.msg 0 data)[i]? = data[i]? := by
        intro i hi
        rw [getElem?_blit (Nat.zero_le _), if_pos ⟨Nat.zero_le _, by omega⟩,
          Nat.sub_zero]
      have hsame := hnzAt_congr (hcover 4 hfour)
      by_cases hmax : maxHnz < hnzAt data
      · rw [if_neg hlong, if_pos (.inr hmax),
          inspectPing_none (by rw [hsame]; exact hmax)]
        rfl
      · have hroom : hnOffset + (hnzAt data).toNat ≤ data.length := by
          rcases hhost with hbig | hroom
          · exact absurd (hhnz ▸ hbig) hmax
          · exact hhnz ▸ hroom
        obtain ⟨ref, href, hseen, -⟩ := @inspectPing_some msg data _
          hsane.g.msg_length (Nat.le_of_not_lt hlong)
          (by rw [hsame]; exact hmax)
        rw [if_neg hlong, if_neg (not_or.mpr ⟨hlong, hmax⟩), href,
          Option.map_some, hseen, readPing_congr hcover hroom]

theorem udChckPing_terminated {e : Env} {s : Lib} (hs : s.Sane) {svc : UInt16}
    {data : Bytes} (hgives : Gives e s svc data) (hsvc : IsPing svc)
    {ref : PingRef} (href : (udChckPing e s).val = some ref) :
    ref.Terminated := by
  obtain ⟨msg, hval, hin, rfl, rfl⟩ := hgives
  have hsane := udChckMsg_sane e hs
  have hlen := hsane.recv.length_deref hin
  rw [udChckPing_val hval hsvc] at href
  split at href
  · contradiction
  · rename_i hshort
    by_cases hmax : maxHnz < hnzAt (blit (udChckMsg e s).st.g.msg 0
        ((udChckMsg e s).st.us.deref msg))
    · rw [inspectPing_none hmax] at href
      contradiction
    · obtain ⟨ref', href', -, hterm⟩ := @inspectPing_some msg _ _
        hsane.g.msg_length (by omega) hmax
      rw [href'] at href
      cases href
      exact hterm

/-! ## A packet of one record -/

section Single

variable {s : Lib} (hs : s.Sane) (hidle : s.us.nrd = 0) {e : Env} {d : Arrival}
  (hrx : e.rx = some d) {pno : Nat} {svc : UInt16} {data : Bytes}
  (hdata : data.length < 256) (hbytes : d.bytes = udHdr pno svc ++ record data)

include hs hidle hrx hdata hbytes

theorem udChckMsg_single :
    (udChckMsg e s).val = some ⟨svc, 2, data.length⟩ ∧
      Gives e s svc data ∧
      (udChckMsg e s).st.g =
        (reply e { s with us := load d s.us }).1.g := by
  have hd : d.Accepted := Arrival.accepted_of_bytes hbytes (length_udHdr pno svc)
    (by rw [hbytes, hdrAccepted_udHdr])
  have hpayload : d.payload = record data :=
    Arrival.payload_of_bytes hbytes (length_udHdr pno svc) (by
      rw [length_record]
      unfold ethMtu hdrSize
      omega)
  have hne : d.payload ≠ [] := by
    rw [hpayload]
    exact List.cons_ne_nil _ _
  have heq := udChckMsg_load hd hidle hrx hne
  have hsane := hs.load d
  have hrec := record_of_lt hdata
  have hunread : (load d s.us).unread =
      udpcTypeData :: UInt8.ofNat data.length :: (data ++ []) := by
    rw [load_unread, hpayload, hrec, List.append_nil]
  have hb : isData udpcTypeData = true := by decide
  have hl : recLen udpcTypeData (UInt8.ofNat data.length) = data.length := by
    rw [recLen, UInt8.toNat_ofNat', Nat.mod_eq_of_lt hdata]
    exact Nat.zero_add _
  have hread := udChckMsg_record e hsane hunread hb
  obtain ⟨hderef, -, hin⟩ := udChckMsg_complete e hsane hunread hb hl
  have hcmd : hdrCmd (load d s.us).recv = svc := by
    rw [show hdrCmd (load d s.us).recv = hdrCmd d.bytes from
      hdrCmd_recvfrom s.us hd.1, hbytes, hdrCmd_udHdr]
  have hval : (udChckMsg e s).val = some ⟨svc, 2, data.length⟩ := by
    rw [heq, hread.val, hl, hcmd]
    rfl
  refine ⟨hval, ⟨_, hval, ⟨Nat.le_refl _, ?_⟩, rfl, ?_⟩, ?_⟩
  · have hnrd := hread.nrd
    rw [hl] at hin
    change 2 + data.length ≤ (udChckMsg e s).st.us.nrd
    rw [heq, hnrd]
    exact hin
  · rw [hl, hcmd] at hderef
    rw [heq]
    exact hderef
  · have hmore := hsane.recv.more_of_unread hunread
    rw [heq, udChckMsg_more e hmore, chckMsg_eq]

end Single

/-! ## The encoder -/

theorem hnzOf_toNat (hostnlen : Nat) :
    (hnzOf hostnlen).toNat =
      if 58 < hostnlen % 256 then 59 else hostnlen % 256 := by
  have hval : (UInt8.ofNat hostnlen).toNat = hostnlen % 256 :=
    UInt8.toNat_ofNat'
  have hmax : maxHnz.toNat = 58 := by decide
  have hiff : UInt8.ofNat hostnlen > maxHnz ↔ 58 < hostnlen % 256 := by
    rw [gt_iff_lt, UInt8.lt_iff_toNat_lt, hval, hmax]
  by_cases hlong : 58 < hostnlen % 256
  · rw [hnzOf, if_pos (hiff.mpr hlong), if_pos hlong]
    rfl
  · rw [hnzOf, if_neg (fun h => hlong (hiff.mp h)), if_neg hlong, hval]

theorem hnzOf_le_self (hostnlen : Nat) : (hnzOf hostnlen).toNat ≤ hostnlen := by
  have hle := Nat.mod_le hostnlen 256
  rw [hnzOf_toNat]
  split <;> omega

theorem exists_pingCmd {what : PingWhat} (h : what = .ping ∨ what = .pong) :
    ∃ cmd, pingCmd what = some cmd := by
  rcases h with rfl | rfl
  · exact ⟨_, rfl⟩
  · exact ⟨_, rfl⟩

theorem isPing_of_pingCmd {what : PingWhat} {cmd : UInt16}
    (h : pingCmd what = some cmd) :
    IsPing cmd ∧ (if cmd &&& 0x01 ≠ 0 then PingWhat.pong else .ping) = what := by
  cases what with
  | ping =>
      cases h
      exact ⟨.inl rfl, by decide⟩
  | pong =>
      cases h
      exact ⟨.inr rfl, by decide⟩
  | other what => contradiction

def pingData (msg : SvcPing) : Bytes :=
  htobe32 msg.pid.toUInt32 ++ hnzOf msg.hostname.length ::
    msg.hostname.take (hnzOf msg.hostname.length).toNat

theorem length_pingData (msg : SvcPing) :
    (pingData msg).length =
      hnOffset + (hnzOf msg.hostname.length).toNat := by
  have hle := hnzOf_le_self msg.hostname.length
  simp only [pingData, List.length_append, length_htobe32, List.length_cons,
    List.length_take_of_le hle]
  unfold hnOffset
  omega

theorem getElem?_pingData (msg : SvcPing) :
    (pingData msg)[4]? = some (hnzOf msg.hostname.length) := rfl

theorem hnzAt_pingData (msg : SvcPing) :
    hnzAt (pingData msg) = hnzOf msg.hostname.length := rfl

theorem readPing_pingData (svc : UInt16) (msg : SvcPing) :
    readPing svc (pingData msg) =
      ⟨msg.pid, if svc &&& 0x01 ≠ 0 then .pong else .ping,
        (hnzOf msg.hostname.length).toNat,
        msg.hostname.take (hnzOf msg.hostname.length).toNat⟩ := by
  have hpid : be32At (pingData msg) 0 = msg.pid.toUInt32 :=
    be32At_htobe32 msg.pid.toUInt32 _
  have hhost : window (pingData msg) hnOffset
      (hnzOf msg.hostname.length).toNat =
        msg.hostname.take (hnzOf msg.hostname.length).toNat := by
    have hdrop : (pingData msg).drop hnOffset =
        msg.hostname.take (hnzOf msg.hostname.length).toNat := rfl
    rw [window, hdrop, List.take_take, Nat.min_self]
  rw [readPing, hpid, hnzAt_pingData, hhost, Int32.toInt32_toUInt32]

theorem completePing_pingData (msg : SvcPing) : CompletePing (pingData msg) := by
  refine .inr ⟨hnzOf msg.hostname.length, getElem?_pingData msg, .inr ?_⟩
  rw [length_pingData]

theorem pingMsg_data (cmd : UInt16) (msg : SvcPing) (buf : Bytes) :
    (pingMsg cmd (hnzOf msg.hostname.length) (putPing msg buf)).data =
      pingData msg := by
  have hput : putPing msg buf = blit buf 0 (pingData msg) := by
    have hhead := @blit_blit _ buf (htobe32 msg.pid.toUInt32)
      [hnzOf msg.hostname.length] 0 (Nat.zero_le _)
    have hall := @blit_blit _ buf
      (htobe32 msg.pid.toUInt32 ++ [hnzOf msg.hostname.length])
      (msg.hostname.take (hnzOf msg.hostname.length).toNat) 0 (Nat.zero_le _)
    rw [← hhead, List.append_assoc] at hall
    exact hall
  have hself := @window_blit_self _ buf (pingData msg) 0 (Nat.zero_le _)
  rw [window_from_zero, length_pingData, ← hput] at hself
  exact hself

def pingControl (cmd : UInt16) (msg : SvcPing) : UdMsg where
  svc := cmd
  data := pingData msg
  dlen_lt := by
    have hhnz := (hnzOf msg.hostname.length).toNat_lt
    rw [length_pingData]
    unfold hnOffset
    omega

theorem pingMsg_eq (cmd : UInt16) (msg : SvcPing) (buf : Bytes) :
    pingMsg cmd (hnzOf msg.hostname.length) (putPing msg buf) =
      pingControl cmd msg := by
  have hdata := pingMsg_data cmd msg buf
  simp only [pingMsg] at hdata
  simp only [pingMsg, pingControl, hdata]

theorem dlen_pingControl_le (cmd : UInt16) (msg : SvcPing) :
    (pingControl cmd msg).dlen ≤ pingMsgSize := by
  have hhnz := hnzOf_le msg.hostname.length
  have hlen := length_pingData msg
  unfold pingMsgSize hnOffset at hhnz
  unfold hnOffset at hlen
  simp only [UdMsg.dlen, pingControl, hlen]
  unfold pingMsgSize
  omega

theorem ctrlPacket_pingControl (pno : Nat) (cmd : UInt16) (msg : SvcPing) :
    ctrlPacket pno (pingControl cmd msg) = udHdr pno cmd ++ record (pingData msg) := by
  have hlen := dlen_pingControl_le cmd msg
  rw [ctrlPacket, ctrlWire_eq_record (Nat.lt_of_le_of_lt hlen (by decide))]
  rfl

theorem pingControl_fits (cmd : UInt16) (msg : SvcPing) :
    ¬ ((pingControl cmd msg).dlen + 2) % 2 ^ 64 > ctrlMtu - hdrSize := by
  have hlen := dlen_pingControl_le cmd msg
  rw [ctrl_size_iff]
  unfold pingMsgSize at hlen
  omega

theorem udPackPing_sent {s : Lib} (hs : s.Sane) {msg : SvcPing} {cmd : UInt16}
    (hcmd : pingCmd msg.what = some cmd) :
    (udPackPing .full .full msg s).val = 0 ∧
      (udPackPing .full .full msg s).tx = (udFlush .full s.us).tx ++
        [.ctrl (udHdr (udFlush .full s.us).st.pno cmd ++
          record (pingData msg))] := by
  simp only [udPackPing, hcmd, pingMsg_eq]
  rcases udPackCmsg_cases .full (pingControl cmd msg)
      (s := ⟨{ s.g with msg := putPing msg s.g.msg }, (udFlush .full s.us).st⟩)
      hs.g.ctrl_length with
    ⟨hlong, -⟩ | ⟨-, ctrl, -, ⟨hnone, -⟩ | ⟨dgram, hsend, heq⟩⟩
  · exact absurd hlong (pingControl_fits cmd msg)
  · contradiction
  · rw [heq, ← Option.some.inj hsend, ctrlPacket_pingControl]
    exact ⟨rfl, rfl⟩

/-! ## There and back -/

def ReadsBack (e : Env) (s : Lib) (msg : SvcPing) : Prop :=
  ∃ ref, (udChckPing e s).val = some ref ∧ ref.what = msg.what ∧
    ref.pid = msg.pid ∧
    ref.hostnlen = min msg.hostname.length maxHnz.toNat ∧
    ref.hostname = msg.hostname.take maxHnz.toNat ∧ ref.Terminated

theorem readsBack_iff {s : Lib} (hs : s.Sane) (hidle : s.us.nrd = 0) {e : Env}
    {d : Arrival} (hrx : e.rx = some d) {pno : Nat} {msg : SvcPing}
    {cmd : UInt16} (hcmd : pingCmd msg.what = some cmd)
    (hbytes : d.bytes = udHdr pno cmd ++ record (pingData msg)) :
    ReadsBack e s msg ↔
      msg.hostname.length ≤ 58 ∨ msg.hostname.length % 256 = 58 := by
  have hhnz := hnzOf_toNat msg.hostname.length
  have hle := hnzOf_le msg.hostname.length
  have hlen := length_pingData msg
  have hmax : maxHnz.toNat = 58 := by decide
  unfold pingMsgSize hnOffset at hle
  unfold hnOffset at hlen
  obtain ⟨-, hgives, -⟩ := udChckMsg_single hs hidle hrx (by omega) hbytes
  have hping := isPing_of_pingCmd hcmd
  have hseen := udChckPing_complete hs hgives hping.1 (completePing_pingData msg)
  rw [hnzAt_pingData, readPing_pingData, hping.2] at hseen
  by_cases hlong : 58 < msg.hostname.length % 256
  · have hbig : maxHnz < hnzOf msg.hostname.length := by
      rw [UInt8.lt_iff_toNat_lt, hmax, hhnz, if_pos hlong]
      decide
    rw [if_pos (.inr hbig), Option.map_eq_none_iff] at hseen
    constructor
    · rintro ⟨ref, href, -⟩
      rw [hseen] at href
      contradiction
    · rintro (hshort | hmod) <;> omega
  · have hsmall : ¬ maxHnz < hnzOf msg.hostname.length := by
      rw [UInt8.lt_iff_toNat_lt, hmax, hhnz, if_neg hlong]
      exact hlong
    rw [if_neg hlong] at hhnz
    have hfit : ¬ (pingMsgSize < (pingData msg).length ∨
        maxHnz < hnzOf msg.hostname.length) := by
      rw [hlen]
      unfold pingMsgSize
      exact not_or.mpr ⟨by omega, hsmall⟩
    rw [if_neg hfit] at hseen
    obtain ⟨ref, href, hsame⟩ := Option.map_eq_some_iff.mp hseen
    obtain ⟨hpid, hwhat, hnlen, hname⟩ := Seen.mk.inj hsame
    constructor
    · rintro ⟨ref', href', -, -, hnlen', -⟩
      rw [href] at href'
      cases href'
      omega
    · intro hgood
      have hcut : min msg.hostname.length 58 = msg.hostname.length % 256 := by
        omega
      refine ⟨ref, href, hwhat, hpid, ?_, ?_,
        udChckPing_terminated hs hgives hping.1 href⟩
      · rw [hnlen, hhnz, hmax, hcut]
      · rw [hname, hhnz, hmax, ← hcut, List.take_eq_take_iff]
        omega

/--
The packet of `ud_pack_ping` is read back by an idle socket if and only if the
hostname has at most 58 bytes, or a length of 58 modulo 256.  Else the clamp to
59 makes the receiver refuse it, or the length is cut to its lower 8 bits.
-/
theorem ping_round_trip_iff (calls : List Call) {msg : SvcPing}
    (hwhat : msg.what = .ping ∨ msg.what = .pong) :
    ∃ dgram,
      (udPackPing .full .full msg (api.run Lib.fresh calls)).val = 0 ∧
      (udPackPing .full .full msg (api.run Lib.fresh calls)).tx =
        (udFlush .full (api.run Lib.fresh calls).us).tx ++ [.ctrl dgram] ∧
      ∀ (calls' : List Call) (e : Env) (d : Arrival),
        (api.run Lib.fresh calls').us.nrd = 0 → d.bytes = dgram →
        e.rx = some d →
        (ReadsBack e (api.run Lib.fresh calls') msg ↔
          msg.hostname.length ≤ 58 ∨ msg.hostname.length % 256 = 58) := by
  obtain ⟨cmd, hcmd⟩ := exists_pingCmd hwhat
  obtain ⟨hval, htx⟩ := udPackPing_sent (run_sane calls) hcmd
  refine ⟨_, hval, htx, ?_⟩
  intro calls' e d hidle hbytes hrx
  exact readsBack_iff (run_sane calls') hidle hrx hcmd hbytes

theorem ping_round_trip_iff_witness :
    ∃ dgram, ∀ e : Env, e.rx = some ⟨dgram, Vector.replicate 28 0⟩ →
      ReadsBack e Lib.fresh ⟨[0x68, 0x6f], 7, .pong⟩ := by
  obtain ⟨dgram, -, -, hread⟩ :=
    @ping_round_trip_iff [] ⟨[0x68, 0x6f], 7, .pong⟩ (.inr rfl)
  exact ⟨dgram, fun e hrx =>
    (hread [] e ⟨dgram, Vector.replicate 28 0⟩ rfl rfl hrx).mpr
      (.inl (by decide))⟩

/-- The packet for a hostname of 59 bytes is refused. -/
theorem not_ping_round_trip :
    ¬ ∀ (calls calls' : List Call) (msg : SvcPing) (dgram : Bytes) (e : Env)
      (d : Arrival), msg.what = .ping ∨ msg.what = .pong →
      (udPackPing .full .full msg (api.run Lib.fresh calls)).tx =
        (udFlush .full (api.run Lib.fresh calls).us).tx ++ [.ctrl dgram] →
      (api.run Lib.fresh calls').us.nrd = 0 → d.bytes = dgram →
      e.rx = some d → ReadsBack e (api.run Lib.fresh calls') msg := by
  intro h
  let msg : SvcPing := ⟨List.replicate 59 0x61, 7, .pong⟩
  have hcmd : pingCmd msg.what = some svcPong := rfl
  obtain ⟨-, htx⟩ := udPackPing_sent (run_sane []) hcmd
  let d : Arrival := ⟨udHdr 0 svcPong ++ record (pingData msg),
    Vector.replicate 28 0⟩
  have hread := h [] [] msg _ ⟨some d, none, 0, .full, .full⟩ d (.inr rfl) htx
    rfl rfl rfl
  have hcond := (readsBack_iff (run_sane []) rfl rfl hcmd
    (show d.bytes = udHdr 0 svcPong ++ record (pingData msg) from rfl)).mp hread
  exact absurd hcond (by decide)

/-! ## What is left in the buffer -/

/--
Two runs that check the same message report the same, whatever calls came
before on this socket or on others of its process.
-/
def DependsOnMessage (svc : UInt16) (data : Bytes) : Prop :=
  ∀ (calls calls' : List Call) (e e' : Env),
    Gives e (api.run Lib.fresh calls) svc data →
    Gives e' (api.run Lib.fresh calls') svc data →
    (udChckPing e (api.run Lib.fresh calls)).val.map PingRef.seen =
      (udChckPing e' (api.run Lib.fresh calls')).val.map PingRef.seen

theorem reply_silent {e : Env} {s : Lib} (he : e.hostname = none)
    (hpo : s.g.po.hostname = []) : (reply e s).1.g = s.g := by
  unfold reply
  split
  · simp [udPackPong, hpo, he]
  · rfl

section Stale

variable {svc : UInt16} {data : Bytes} (hsvc : IsPing svc)
  (hshort : ¬ pingMsgSize < data.length)

-- a socket whose process has no hostname to answer with, and the packet
def silent (svc : UInt16) (data : Bytes) : Env :=
  ⟨some ⟨udHdr 0 svc ++ record data, Vector.replicate 28 0⟩, none, 0, .full,
    .full⟩

include hshort

theorem silent_gives {s : Lib} (hs : s.Sane) (hidle : s.us.nrd = 0) :
    Gives (silent svc data) s svc data := by
  unfold pingMsgSize at hshort
  exact (udChckMsg_single hs hidle rfl (by omega) rfl).2.1

include hsvc

theorem udChckPing_silent {s : Lib} (hs : s.Sane) (hidle : s.us.nrd = 0)
    (hpo : s.g.po.hostname = []) {b : UInt8}
    (hg : s.g.msg = List.replicate pingMsgSize b) :
    (udChckPing (silent svc data) s).val =
      (inspectPing ⟨svc, 2, data.length⟩ data
        (List.replicate pingMsgSize b)).1 := by
  have hlen : data.length < 256 := by
    unfold pingMsgSize at hshort
    omega
  obtain ⟨hval, ⟨msg, hmsg, -, -, hderef⟩, hst⟩ :=
    @udChckMsg_single s hs hidle (silent svc data) _ rfl 0 svc data hlen rfl
  have hquiet := @reply_silent (silent svc data)
    { s with us := load ⟨udHdr 0 svc ++ record data, Vector.replicate 28 0⟩ s.us }
    rfl hpo
  rw [hval] at hmsg
  cases hmsg
  rw [udChckPing_val hval hsvc, if_neg hshort, hderef, hst, hquiet, hg]

end Stale

theorem getElem?_stale {data : Bytes} {i : Nat} (hi : data.length ≤ i)
    (hsize : i < pingMsgSize) (b : UInt8) :
    (blit (List.replicate pingMsgSize b) 0 data)[i]? = some b := by
  rw [getElem?_blit (Nat.zero_le _), if_neg (by omega),
    List.getElem?_replicate, if_pos hsize]

theorem inspectPing_stale_length {msg : MsgRef} {data : Bytes}
    (h : data.length ≤ 4) :
    (inspectPing msg data (List.replicate pingMsgSize 0)).1.map PingRef.seen ≠
      (inspectPing msg data (List.replicate pingMsgSize 255)).1.map
        PingRef.seen := by
  have hsize : data.length ≤ pingMsgSize := h.trans (by decide)
  have hzero : hnzAt (blit (List.replicate pingMsgSize 0) 0 data) = 0 := by
    simp [hnzAt, List.getD_eq_getElem?_getD, getElem?_stale h (by decide)]
  have hones : hnzAt (blit (List.replicate pingMsgSize 255) 0 data) = 255 := by
    simp [hnzAt, List.getD_eq_getElem?_getD, getElem?_stale h (by decide)]
  obtain ⟨ref, href, -⟩ := @inspectPing_some msg data _
    (List.length_replicate (a := (0 : UInt8))) hsize (by rw [hzero]; decide)
  rw [href, inspectPing_none (by rw [hones]; decide), Option.map_some]
  exact Option.some_ne_none _

theorem inspectPing_stale_hostname {msg : MsgRef} {data : Bytes} {hnz : UInt8}
    (hget : data[4]? = some hnz) (hmax : ¬ maxHnz < hnz)
    (hlong : ¬ hnOffset + hnz.toNat ≤ data.length) :
    (inspectPing msg data (List.replicate pingMsgSize 0)).1.map PingRef.seen ≠
      (inspectPing msg data (List.replicate pingMsgSize 255)).1.map
        PingRef.seen := by
  obtain ⟨hfour, -⟩ := List.getElem?_eq_some_iff.mp hget
  have hle : hnz.toNat ≤ 58 := UInt8.le_iff_toNat_le.mp (UInt8.not_lt.mp hmax)
  have hroom : data.length < pingMsgSize := by
    unfold pingMsgSize hnOffset at *
    omega
  have hhnz : ∀ b, hnzAt (blit (List.replicate pingMsgSize b) 0 data) = hnz := by
    intro b
    rw [hnzAt, List.getD_eq_getElem?_getD, getElem?_blit (Nat.zero_le _),
      if_pos ⟨Nat.zero_le _, by omega⟩, Nat.sub_zero, hget]
    rfl
  have hseen : ∀ b, ∃ ref,
      (inspectPing msg data (List.replicate pingMsgSize b)).1 = some ref ∧
        ref.seen = readPing msg.svc
          (blit (List.replicate pingMsgSize b) 0 data) := by
    intro b
    obtain ⟨ref, href, hsame, -⟩ := @inspectPing_some msg data _
      (List.length_replicate (a := b)) hroom.le (by rw [hhnz]; exact hmax)
    exact ⟨ref, href, hsame⟩
  obtain ⟨ref, href, hzero⟩ := hseen 0
  obtain ⟨ref', href', hones⟩ := hseen 255
  intro heq
  rw [href, href', Option.map_some, Option.map_some, Option.some.injEq,
    hzero, hones] at heq
  -- the byte behind the message is one of the hostname
  have hname := congrArg (fun seen : Seen =>
    seen.hostname[data.length - hnOffset]?) heq
  have hoff : hnOffset + (data.length - hnOffset) = data.length := by
    unfold hnOffset
    omega
  simp only [readPing, getElem?_window, hhnz, hoff] at hname
  rw [if_pos (by unfold hnOffset at *; omega),
    if_pos (by unfold hnOffset at *; omega),
    getElem?_stale (Nat.le_refl _) hroom,
    getElem?_stale (Nat.le_refl _) hroom] at hname
  contradiction

/--
Of a message that is not complete the decoder reads a byte it did not bring,
so that zeros and ones left in the buffer make a difference.
-/
theorem inspectPing_stale {msg : MsgRef} {data : Bytes}
    (hdata : ¬ CompletePing data) :
    (inspectPing msg data (List.replicate pingMsgSize 0)).1.map PingRef.seen ≠
      (inspectPing msg data (List.replicate pingMsgSize 255)).1.map
        PingRef.seen := by
  obtain ⟨-, hhost⟩ := not_or.mp hdata
  by_cases hfour : data.length ≤ 4
  · exact inspectPing_stale_length hfour
  · have hget : data[4]? = some (data.get ⟨4, by omega⟩) :=
      List.getElem?_eq_getElem (by omega)
    exact inspectPing_stale_hostname hget
      (fun h => hhost ⟨_, hget, .inl h⟩) fun h => hhost ⟨_, hget, .inr h⟩

def leaveOnes : List Call :=
  [.udChckPing (silent svcPong (List.replicate pingMsgSize 255)), .udDscrd none]

theorem completePing_of_depends {svc : UInt16} {data : Bytes}
    (hsvc : IsPing svc) (hdepends : DependsOnMessage svc data) :
    CompletePing data := by
  by_contra hdata
  have hshort := (not_or.mp hdata).1
  have hs := run_sane leaveOnes
  have hidle : (api.run Lib.fresh leaveOnes).us.nrd = 0 := by decide
  have hsame := hdepends [] leaveOnes _ _
    (silent_gives hshort Lib.fresh_sane rfl) (silent_gives hshort hs hidle)
  have hzeros := udChckPing_silent (b := 0) hsvc hshort Lib.fresh_sane rfl rfl rfl
  have hones := udChckPing_silent (b := 255) hsvc hshort hs hidle (by decide)
    (by decide)
  rw [System.run_nil, hzeros, hones] at hsame
  exact inspectPing_stale hdata hsame

/--
What `ud_chck_ping` reports depends on the message alone if and only if the
message is too long, announces too long a hostname, or holds its whole hostname.
-/
theorem ping_depends_on_message_iff {svc : UInt16} {data : Bytes}
    (hsvc : IsPing svc) : DependsOnMessage svc data ↔ CompletePing data := by
  refine ⟨completePing_of_depends hsvc, ?_⟩
  intro hdata calls calls' e e' hgives hgives'
  rw [udChckPing_complete (run_sane calls) hgives hsvc hdata,
    udChckPing_complete (run_sane calls') hgives' hsvc hdata]

theorem ping_depends_on_message_iff_witness :
    DependsOnMessage svcPong [0, 0, 0, 7, 2, 0x68, 0x6f] :=
  (ping_depends_on_message_iff (.inr rfl)).mpr
    (.inr ⟨2, rfl, .inr (by decide)⟩)

/-- A PONG that announces one byte of hostname and holds none. -/
theorem not_ping_depends_on_message :
    ¬ ∀ (svc : UInt16) (data : Bytes), IsPing svc →
      DependsOnMessage svc data := by
  intro h
  rcases completePing_of_depends (.inr rfl)
      (h svcPong [0, 0, 0, 7, 1] (.inr rfl)) with hlong | ⟨hnz, hget, hbad⟩
  · contradiction
  · cases hget
    revert hbad
    decide

end Unserding
