import Unserding.Delivery
import Unserding.Ping
import Unserding.Storm
import Unserding.Foundation.Traffic

/-!
# Peers of one multicast group

Every member of a group packs, flushes, pings and checks as it likes.  Datagrams
may be lost, kept back and overtaken, and replies to PINGs go out in between.
What a member is handed was said by a member, under that service, with these
bytes and from that address, and no more often than it was said.
-/

namespace Unserding

open Foundation

/-! ## Letters -/

structure Letter where
  src : Bytes
  msg : Handed
  deriving DecidableEq

def blobsOf : Nat → Bytes → List Bytes
  | fuel + 1, b :: l :: rest =>
      if isData b ∧ recLen b l ≤ rest.length then
        rest.take (recLen b l) :: blobsOf fuel (rest.drop (recLen b l))
      else []
  | _, _ => []

def Arrival.letter (d : Arrival) (blob : Bytes) : Letter :=
  ⟨d.src.toList, handed (hdrCmd d.bytes) blob⟩

def Arrival.letters (d : Arrival) : List Letter :=
  (blobsOf d.payload.length d.payload).map d.letter

theorem blobsOf_records {blobs : List Bytes} {fuel : Nat}
    (hblobs : ∀ blob ∈ blobs, blob.length < 256)
    (hfuel : (blobs.flatMap record).length ≤ fuel) :
    blobsOf fuel (blobs.flatMap record) = blobs := by
  induction blobs generalizing fuel with
  | nil => cases fuel <;> rfl
  | cons blob blobs ih =>
      have hblob := hblobs blob List.mem_cons_self
      simp only [List.flatMap_cons, List.length_append, length_record] at hfuel
      cases fuel with
      | zero => omega
      | succ fuel =>
          have hdata : isData udpcTypeData = true := by decide
          have hlen : recLen udpcTypeData (UInt8.ofNat blob.length) =
              blob.length := by
            simpa [Nat.div_eq_of_lt hblob, Nat.mod_eq_of_lt hblob] using
              @recLen_record blob (by omega)
          have htail := @ih fuel
            (fun b hb => hblobs b (List.mem_cons_of_mem _ hb)) (by omega)
          rw [List.flatMap_cons, record_of_lt hblob]
          simp [blobsOf, hdata, hlen, htail]

theorem Bears.letters {d : Arrival} {batch : List Handed} (h : Bears d batch) :
    d.letters = batch.map (Letter.mk d.src.toList) := by
  obtain ⟨-, blobs, -, hblobs, hpayload, rfl⟩ := h
  rw [Arrival.letters, hpayload, blobsOf_records hblobs le_rfl, List.map_map]
  rfl

def UdMsg.letter (addr : SockaddrIn6) (msg : UdMsg) : Letter :=
  ⟨addr.toList, msg.handed⟩

theorem Published.letters {d : Arrival} {msgs : List UdMsg}
    (h : Published d.bytes msgs) : d.letters = msgs.map (UdMsg.letter d.src) := by
  rw [h.bears.letters, List.map_map]
  rfl

/-! ## What a call says -/

def SvcPing.control (msg : SvcPing) : Option UdMsg :=
  (pingCmd msg.what).map fun cmd => pingControl cmd msg

def pongOf (pongp : Nat) (e : Env) (g : Statics) : Option SvcPing :=
  let po? :=
    if g.po.hostname.length = 0 then
      e.hostname.map fun name =>
        { g.po with hostname := hname name, pid := e.pid }
    else some g.po
  po?.map fun po => { po with what := if pongp ≠ 0 then .pong else .ping }

def pongControl (pongp : Nat) (e : Env) (s : Lib) : Option UdMsg :=
  if (udPackPong pongp e s).val = 0 then
    (pongOf pongp e s.g).bind SvcPing.control
  else none

/--
The control message a call packs, where packing it returned 0.  A check packs
one if there is a PING in the receive buffer.
-/
def Call.control (s : Lib) : Call → Option UdMsg
  | .udPackCmsg w msg =>
      if (Unserding.udPackCmsg w msg s).val = 0 then some msg else none
  | .udPackPing w₁ w₂ msg =>
      if (Unserding.udPackPing w₁ w₂ msg s).val = 0 then msg.control else none
  | .udPackPong pongp e => pongControl pongp e s
  | .udChckMsg e | .udChck _ e | .udChckPing e =>
      let us := refill e.rx s.us
      if us.nck < us.nrd ∧ hdrCmd us.recv = svcPing then
        pongControl 1 e { s with us := us }
      else none
  | _ => none

def Trace.controls (trace : Trace) : List UdMsg :=
  trace.filterMap fun ev => ev.input.control ev.pre

/-- The messages that were packed, control messages last. -/
def Trace.said (addr : SockaddrIn6) (trace : Trace) : List Letter :=
  (trace.packed ++ trace.controls).map (UdMsg.letter addr)

theorem udPackPong_eq (pongp : Nat) (e : Env) (s : Lib) :
    udPackPong pongp e s = (pongOf pongp e s.g).elim ⟨-1, s, []⟩ fun po =>
      udPackPing e.w₁ e.w₂ po { s with g := { s.g with po := po } } := by
  simp only [udPackPong, pongOf]
  split <;> rename_i h <;> rw [h] <;> rfl

/-! ## What a call sends -/

def controlSent (txs : List Tx) : List Bytes :=
  txs.filterMap fun
    | .data _ => none
    | .ctrl dgram => some dgram

@[simp] theorem dataSent_append (first second : List Tx) :
    dataSent (first ++ second) = dataSent first ++ dataSent second :=
  List.filterMap_append

@[simp] theorem controlSent_append (first second : List Tx) :
    controlSent (first ++ second) = controlSent first ++ controlSent second :=
  List.filterMap_append

def Controls (tx : List Tx) (msgs : List UdMsg) : Prop :=
  List.Forall₂ (fun dgram msg => Published dgram [msg]) (controlSent tx) msgs

theorem Controls.append {tx tx' : List Tx} {msgs msgs' : List UdMsg}
    (h : Controls tx msgs) (h' : Controls tx' msgs') :
    Controls (tx ++ tx') (msgs ++ msgs') := by
  rw [Controls, controlSent_append]
  exact List.rel_append h h'

theorem published_ctrlPacket (pno : Nat) {msg : UdMsg} (hdlen : msg.dlen ≤ 255) :
    Published (ctrlPacket pno msg) [msg] := by
  have hwire : msg.ctrlWire = wires [msg] := by
    rw [UdMsg.ctrlWire, wires, List.flatMap_singleton,
      UdMsg.wire_eq_record (by omega)]
    exact (record_of_lt
      (show msg.data.length < 256 from Nat.lt_succ_of_le hdlen)).symm
  refine ⟨⟨by simp, pno, msg.svc, by rw [ctrlPacket, hwire]⟩, ?_,
    by simpa using hdlen, ?_⟩
  · simp [ctrlPacket]
  · simp only [ctrlPacket, UdMsg.ctrlWire, List.length_append, length_udHdr,
      List.length_cons]
    unfold UdMsg.dlen at hdlen
    unfold ethMtu hdrSize
    omega

/--
A call that sends the pending packet, these control messages and nothing else,
and that leaves no packet pending without a service.
-/
structure Posts (us us' : Sock) (tx : List Tx) (msgs : List UdMsg) : Prop where
  labelled : us.Labelled → us'.Labelled
  packets : ∀ dgram ∈ dataSent tx, dgram = us.packet
  controls : Controls tx msgs

theorem Sock.Labelled.congr {us us' : Sock} (h : us.Labelled)
    (htray : us'.tray = us.tray) : us'.Labelled := by
  obtain ⟨-, hsvc, hnpk, -⟩ := Sock.eq_of_tray htray
  simpa [Sock.Labelled, hsvc, hnpk] using h

theorem Posts.quiet {us us' : Sock} (htray : us'.tray = us.tray) :
    Posts us us' [] [] :=
  ⟨fun h => h.congr htray, by simp [dataSent], .nil⟩

theorem sendto_whole {w : SendRes} (hw : w.Atomic) {b dgram : Bytes}
    (h : sendto w b = some dgram) : dgram = b := by
  rcases hw.sendto b with hnone | hall <;> simp_all

theorem udFlush_posts {w : SendRes} (hw : w.Atomic) (us : Sock) :
    Posts us (udFlush w us).st (udFlush w us).tx [] := by
  rcases udFlush_cases w us with
    ⟨hnpk, heq⟩ | ⟨-, -, heq⟩ | ⟨-, dgram, hsend, heq⟩ <;> rw [heq]
  · exact ⟨fun _ hpos => absurd hnpk (Nat.ne_of_gt hpos), by simp [dataSent], .nil⟩
  · exact ⟨id, by simp [dataSent], .nil⟩
  · exact ⟨fun _ hpos => absurd hpos (Nat.lt_irrefl 0),
      by simp [dataSent, sendto_whole hw hsend], .nil⟩

theorem udPackMsg_posts {w : SendRes} (hw : w.Atomic) {msg : UdMsg}
    (hsvc : msg.svc ≠ 0) (us : Sock) :
    Posts us (udPackMsg w msg us).st (udPackMsg w msg us).tx [] := by
  rcases udPackMsg_cases w msg us with ⟨-, -, heq⟩ |
    ⟨-, ⟨-, heq⟩ | ⟨-, -, heq⟩ | ⟨-, dgram, hsend, heq⟩⟩ <;> rw [heq]
  · exact ⟨fun _ _ => hsvc, by simp [dataSent], .nil⟩
  · exact ⟨fun _ _ => hsvc, by simp [dataSent], .nil⟩
  · exact ⟨id, by simp [dataSent], .nil⟩
  · exact ⟨fun _ _ => hsvc, by simp [dataSent, sendto_whole hw hsend], .nil⟩

theorem udPackCmsg_posts {w : SendRes} (hw : w.Atomic) {msg : UdMsg}
    (hdlen : msg.dlen ≤ 255) {s : Lib} (hg : s.g.Sane) :
    Posts s.us (udPackCmsg w msg s).st.us (udPackCmsg w msg s).tx
      (if (udPackCmsg w msg s).val = 0 then some msg else none).toList := by
  rcases udPackCmsg_cases w msg hg.ctrl_length with
    ⟨-, heq⟩ | ⟨-, ctrl, -, ⟨-, heq⟩ | ⟨dgram, hsend, heq⟩⟩ <;> rw [heq]
  · exact .quiet rfl
  · exact .quiet rfl
  · refine ⟨id, by simp [dataSent], .cons ?_ .nil⟩
    rw [sendto_whole hw hsend]
    exact published_ctrlPacket s.us.pno hdlen

theorem udPackCmsg_dataSent (w : SendRes) (msg : UdMsg) {s : Lib}
    (hg : s.g.Sane) : dataSent (udPackCmsg w msg s).tx = [] := by
  rcases udPackCmsg_cases w msg hg.ctrl_length with
    ⟨-, heq⟩ | ⟨-, ctrl, -, ⟨-, heq⟩ | ⟨dgram, -, heq⟩⟩ <;> rw [heq] <;> rfl

theorem udPackPing_posts {w₁ w₂ : SendRes} (hw₁ : w₁.Atomic) (hw₂ : w₂.Atomic)
    (msg : SvcPing) {s : Lib} (hg : s.g.Sane) :
    Posts s.us (udPackPing w₁ w₂ msg s).st.us (udPackPing w₁ w₂ msg s).tx
      (if (udPackPing w₁ w₂ msg s).val = 0 then msg.control else none).toList := by
  unfold udPackPing SvcPing.control
  cases pingCmd msg.what with
  | none => exact .quiet rfl
  | some cmd =>
      have hflush := udFlush_posts hw₁ s.us
      let s' : Lib :=
        ⟨{ s.g with msg := putPing msg s.g.msg }, (udFlush w₁ s.us).st⟩
      have hg' : s'.g.Sane := ⟨length_putPing msg hg.msg_length, hg.ctrl_length⟩
      have hdlen := dlen_pingControl_le cmd msg
      have hcmsg := udPackCmsg_posts hw₂
        (hdlen.trans (by decide : pingMsgSize ≤ 255)) hg'
      simp only [pingMsg_eq, Option.map_some]
      refine ⟨fun h => hcmsg.labelled (hflush.labelled h), ?_,
        hflush.controls.append hcmsg.controls⟩
      rw [dataSent_append, udPackCmsg_dataSent w₂ _ hg', List.append_nil]
      exact hflush.packets

theorem udPackPong_posts {e : Env} (hw₁ : e.w₁.Atomic) (hw₂ : e.w₂.Atomic)
    (pongp : Nat) {s : Lib} (hg : s.g.Sane) :
    Posts s.us (udPackPong pongp e s).st.us (udPackPong pongp e s).tx
      (pongControl pongp e s).toList := by
  rw [pongControl, udPackPong_eq]
  cases pongOf pongp e s.g with
  | none => exact .quiet rfl
  | some po =>
      exact udPackPing_posts hw₁ hw₂ po (s := ⟨{ s.g with po := po }, s.us⟩)
        ⟨hg.msg_length, hg.ctrl_length⟩

theorem udChckMsg_posts {e : Env} (hw₁ : e.w₁.Atomic) (hw₂ : e.w₂.Atomic)
    {s : Lib} (hg : s.g.Sane) :
    Posts s.us (udChckMsg e s).st.us (udChckMsg e s).tx
      ((Call.udChckMsg e).control s).toList := by
  have htray := refill_tray e.rx s.us
  simp only [Call.control]
  rw [udChckMsg_eq]
  split
  · rename_i hmore
    rw [chckMsg_eq]
    have hreply : Posts (refill e.rx s.us)
        (reply e { s with us := refill e.rx s.us }).1.us
        (reply e { s with us := refill e.rx s.us }).2
        (if (refill e.rx s.us).nck < (refill e.rx s.us).nrd ∧
            hdrCmd (refill e.rx s.us).recv = svcPing then
          pongControl 1 e { s with us := refill e.rx s.us } else none).toList := by
      unfold reply
      by_cases hping : hdrCmd (refill e.rx s.us).recv = svcPing
      · rw [if_pos hping, if_pos ⟨hmore, hping⟩]
        exact udPackPong_posts hw₁ hw₂ 1 (s := ⟨s.g, refill e.rx s.us⟩) hg
      · rw [if_neg hping, if_neg fun h => hping h.2]
        exact .quiet rfl
    have hpacket : (refill e.rx s.us).packet = s.us.packet := by
      obtain ⟨hpno, hsvc, hnpk, hsend⟩ := Sock.eq_of_tray htray
      rw [Sock.packet, Sock.packet, Sock.pending, Sock.pending, hpno, hsvc, hnpk,
        hsend]
    refine ⟨fun h => ?_, hpacket ▸ hreply.packets, hreply.controls⟩
    exact (hreply.labelled (h.congr htray)).congr (takeMsg_tray _ _)
  · rename_i hmore
    rw [if_neg fun h => hmore h.1]
    exact .quiet htray

/-- A call whose sends are atomic and whose messages have a service and a length
of one octet. -/
def Call.Proper (c : Call) : Prop :=
  c.Atomic ∧
    match c with
    | .udPackMsg _ msg => msg.svc ≠ 0 ∧ msg.dlen ≤ 255
    | .udPackCmsg _ msg => msg.dlen ≤ 255
    | _ => True

theorem call_posts {s : Lib} (hs : s.Sane) {c : Call} (hc : c.Proper) :
    Posts s.us (api.step s c).1.us (api.step s c).2.tx
      (c.control s).toList := by
  obtain ⟨hatomic, hproper⟩ := hc
  cases c with
  | udPackMsg w msg => exact udPackMsg_posts hatomic hproper.1 s.us
  | udFlush w => exact udFlush_posts hatomic s.us
  | udPackCmsg w msg => exact udPackCmsg_posts hatomic hproper hs.g
  | udPackPing w₁ w₂ msg => exact udPackPing_posts hatomic.1 hatomic.2 msg hs.g
  | udPackPong pongp e => exact udPackPong_posts hatomic.1 hatomic.2 pongp hs.g
  | udChckMsg e => exact udChckMsg_posts hatomic.1 hatomic.2 hs.g
  | udChck tsz e => exact udChckMsg_posts hatomic.1 hatomic.2 hs.g
  | udChckPing e =>
      obtain ⟨hus, htx⟩ := udChckPing_st_us e s
      have hposts := udChckMsg_posts hatomic.1 hatomic.2 (s := s) hs.g
      rw [← hus, ← htx] at hposts
      exact hposts
  | udDscrd rx =>
      have htx : (udDscrd rx s.us).tx = [] := by
        rcases udDscrd_cases rx s.us with
          ⟨-, heq⟩ | ⟨-, -, heq⟩ | ⟨-, d, -, -, heq⟩ | ⟨-, d, -, -, heq⟩ <;>
          rw [heq]
      change Posts s.us (udDscrd rx s.us).st (udDscrd rx s.us).tx []
      rw [htx]
      exact .quiet (udDscrd_tray rx s.us)
  | elsewhere g sane => exact .quiet rfl

/-! ## What a run says and sends -/

def Tx.letters (addr : SockaddrIn6) (t : Tx) : List Letter :=
  Arrival.letters ⟨t.dgram, addr⟩

structure PostRun (trace : Trace) (s : Lib) : Prop where
  sane : s.Sane
  labelled : s.us.Labelled
  keeps : ∀ e ∈ trace, e.input.KeepsService e.pre
  packets : ∀ dgram ∈ dataSent trace.sent, dgram.length ≤ ethMtu
  controls : Controls trace.sent trace.controls

theorem Call.Proper.keeps {s : Lib} (hl : s.us.Labelled) (c : Call)
    (hc : c.Proper) : c.KeepsService s := by
  cases c with
  | udPackMsg w msg => exact fun h => hl h.1 h.2.1
  | _ => trivial

theorem Trace.controls_snoc (trace : Trace) (s : Lib) (c : Call) :
    Trace.controls (trace ++ [api.event s c]) =
      trace.controls ++ (c.control s).toList := by
  cases h : c.control s <;> simp [Trace.controls, System.event, h]

theorem run_posts {calls : List Call} (h : ∀ c ∈ calls, c.Proper) :
    PostRun (api.events Lib.fresh calls) (api.run Lib.fresh calls) := by
  refine System.history (S := api) (G := fun _ c => c.Proper) (H := PostRun) ?_
    ⟨Lib.fresh_sane, fun hpos => absurd hpos (Nat.lt_irrefl 0), by simp,
      by simp [Trace.sent, dataSent], .nil⟩ calls
    (fun e he => h _ (System.input_mem_of_mem api he))
  rintro trace s c hrun hc
  have hposts := call_posts hrun.sane hc
  have hsent : Trace.sent [api.event s c] = (api.step s c).2.tx := by
    simp [Trace.sent, System.event]
  refine ⟨call_sane s c hrun.sane, hposts.labelled hrun.labelled, ?_, ?_, ?_⟩
  · intro e he
    rcases List.mem_append.mp he with hold | hnew
    · exact hrun.keeps e hold
    · rw [List.mem_singleton.mp hnew]
      exact hc.keeps hrun.labelled
  · intro dgram hdgram
    rw [Trace.sent_append, dataSent_append, hsent] at hdgram
    rcases List.mem_append.mp hdgram with hold | hnew
    · exact hrun.packets dgram hold
    · rw [hposts.packets dgram hnew]
      exact hrun.sane.send.length_packet_le
  · rw [Trace.sent_append, Trace.controls_snoc, hsent]
    exact hrun.controls.append hposts.controls

theorem sent_perm (addr : SockaddrIn6) (txs : List Tx) :
    (txs.flatMap (Tx.letters addr)).Perm
      ((dataSent txs).flatMap (fun dgram => Arrival.letters ⟨dgram, addr⟩) ++
        (controlSent txs).flatMap fun dgram => Arrival.letters ⟨dgram, addr⟩) := by
  induction txs with
  | nil => simp [dataSent, controlSent]
  | cons t txs ih =>
      cases t with
      | data dgram =>
          simpa [dataSent, controlSent, Tx.letters, Tx.dgram] using
            ih.append_left (Arrival.letters ⟨dgram, addr⟩)
      | ctrl dgram =>
          refine (ih.append_left _).trans ?_
          simpa [dataSent, controlSent, Tx.letters, Tx.dgram] using
            List.perm_append_comm_assoc _ _ _

theorem letters_of_published (addr : SockaddrIn6) {dgrams : List Bytes}
    {batches : List (List UdMsg)} (h : List.Forall₂ Published dgrams batches) :
    dgrams.flatMap (fun dgram => Arrival.letters ⟨dgram, addr⟩) =
      batches.flatten.map (UdMsg.letter addr) := by
  induction h with
  | nil => rfl
  | @cons dgram msgs _ _ hhead _ ih =>
      have hletters := Published.letters (d := ⟨dgram, addr⟩) hhead
      simp [ih, hletters]

theorem Controls.letters {tx : List Tx} {msgs : List UdMsg} (h : Controls tx msgs)
    (addr : SockaddrIn6) :
    (controlSent tx).flatMap (fun dgram => Arrival.letters ⟨dgram, addr⟩) =
      msgs.map (UdMsg.letter addr) := by
  have hsingle : List.Forall₂ Published (controlSent tx)
      (msgs.map fun msg => [msg]) := List.forall₂_map_right_iff.mpr h
  rw [letters_of_published addr hsingle, ← List.flatMap_def,
    List.flatMap_singleton']

theorem Call.Proper.oneOctet {c : Call} (h : c.Proper) : c.OneOctet := by
  cases c with
  | udPackMsg w msg => exact h.2.2
  | _ => trivial

/--
Every datagram of a run of proper calls is made of whole messages, and together
they carry what was said, except for the messages still pending.
-/
theorem run_said {calls : List Call} (h : ∀ c ∈ calls, c.Proper)
    (addr : SockaddrIn6) :
    (∀ t ∈ Trace.sent (api.events Lib.fresh calls),
        ∃ msgs, Published t.dgram msgs) ∧
      ∃ pending : List Letter,
        ((Trace.sent (api.events Lib.fresh calls)).flatMap (Tx.letters addr) ++
            pending).Perm (Trace.said addr (api.events Lib.fresh calls)) ∧
          ((api.run Lib.fresh calls).us.npk = 0 → pending = []) := by
  have hrun := run_posts h
  obtain ⟨o, hheld, hpath⟩ := run_sends False (fun c hc => (h c hc).1)
    (fun _ => hrun.keeps)
  obtain ⟨batches, hflat, hcarry⟩ := hpath.batches (by simp [SendBox.fresh])
  have hflat' : batches.flatten ++ o.pending =
      Trace.packed (api.events Lib.fresh calls) := hflat
  have hshort : ∀ msg ∈ Trace.packed (api.events Lib.fresh calls),
      msg.dlen ≤ 255 :=
    packed_oneOctet fun e he => (h _ (System.input_mem_of_mem api he)).oneOctet
  have hpub : List.Forall₂ Published
      (dataSent (Trace.sent (api.events Lib.fresh calls))) batches := by
    refine List.forall₂_iff_zip.mpr ⟨hcarry.length_eq, fun {dgram msgs} hmem => ?_⟩
    obtain ⟨hcarries, hkeyed⟩ := (List.forall₂_iff_zip.mp hcarry).2 hmem
    obtain ⟨hdgram, hmsgs⟩ := List.of_mem_zip hmem
    refine ⟨hcarries, hkeyed not_false, fun msg hmsg => hshort msg ?_, ?_⟩
    · rw [← hflat']
      exact List.mem_append_left _ (List.mem_flatten.mpr ⟨msgs, hmsgs, hmsg⟩)
    · exact hrun.packets dgram hdgram
  constructor
  · intro t ht
    cases t with
    | data dgram =>
        obtain ⟨msgs, -, hmsgs⟩ :=
          exists_of_forall₂ hpub (List.mem_filterMap.mpr ⟨_, ht, rfl⟩)
        exact ⟨msgs, hmsgs⟩
    | ctrl dgram =>
        obtain ⟨msg, -, hmsg⟩ :=
          exists_of_forall₂ hrun.controls (List.mem_filterMap.mpr ⟨_, ht, rfl⟩)
        exact ⟨[msg], hmsg⟩
  · refine ⟨o.pending.map (UdMsg.letter addr), ?_, ?_⟩
    · have hsent := sent_perm addr (Trace.sent (api.events Lib.fresh calls))
      rw [letters_of_published addr hpub, hrun.controls.letters] at hsent
      refine (hsent.append_right _).trans ?_
      rw [Trace.said, ← hflat', List.map_append, List.map_append,
        List.append_assoc, List.append_assoc]
      exact List.perm_append_comm.append_left _
    · intro hnpk
      rw [(hheld.pending_eq_nil_iff hrun.sane.send).mpr hnpk, List.map_nil]

/-! ## What a run hears -/

def heardNow (ev : Event Lib Call Obs) : Option Letter :=
  (found ev).bind fun msg => (udGetAux ev.post.us).map fun aux =>
    ⟨aux.src.take sockaddrIn6Size, msg⟩

def Trace.heard (trace : Trace) : List Letter := trace.filterMap heardNow

inductive Unheard (us : Sock) : List Letter → Prop where
  | idle (hnrd : us.nrd = 0) : Unheard us []
  | reading {d : Arrival} {blobs : List Bytes} (hcur : Current d us)
      (hnrd : us.nrd ≠ 0) (hunread : us.unread = blobs.flatMap record)
      (hblobs : ∀ blob ∈ blobs, blob.length < 256) :
      Unheard us (blobs.map d.letter)

theorem Unheard.congr {us us' : Sock} {rest : List Letter} (h : Unheard us rest)
    (hinbox : us'.inbox = us.inbox) : Unheard us' rest := by
  obtain ⟨hsrc, hnrd, -, hrecv⟩ := Sock.eq_of_inbox hinbox
  cases h with
  | idle hzero => exact .idle (hnrd.trans hzero)
  | reading hcur hne hunread hblobs =>
      exact .reading (hcur.congr hrecv hsrc hnrd) (hnrd ▸ hne)
        ((unread_congr hinbox).trans hunread) hblobs

theorem Unheard.load {d : Arrival} {batch : List Handed} (h : Bears d batch)
    {us : Sock} (hs : us.RecvSane) : Unheard (load d us) d.letters := by
  obtain ⟨hd, blobs, hne, hblobs, hpayload, -⟩ := h
  rw [Arrival.letters, hpayload, blobsOf_records hblobs le_rfl]
  refine .reading (load_current hd hs) (load_nrd_ne_zero us ?_)
    ((load_unread d us).trans hpayload) hblobs
  cases blobs with
  | nil => exact absurd rfl hne
  | cons blob blobs => simp [hpayload, record]

theorem heardNow_some {e : Env} {s : Lib} {d : Arrival} {msg : Handed}
    (hfound : found (api.event s (.udChckMsg e)) = some msg)
    (hnrd : (udChckMsg e s).st.us.nrd ≠ 0)
    (hcur : Current d (udChckMsg e s).st.us) :
    heardNow (api.event s (.udChckMsg e)) = some ⟨d.src.toList, msg⟩ := by
  have haux : udGetAux (api.event s (.udChckMsg e)).post.us =
      some ⟨(udChckMsg e s).st.us.src.sa, hdrPno (udChckMsg e s).st.us.recv,
        hdrCmd (udChckMsg e s).st.us.recv,
        UInt32.ofNat (udChckMsg e s).st.us.nrd⟩ := if_neg hnrd
  simp [heardNow, hfound, haux, hcur.src]

theorem udChckMsg_hears (e : Env) {s : Lib} (hs : s.Sane) {d : Arrival}
    {blobs : List Bytes} (hcur : Current d s.us) (hnrd : s.us.nrd ≠ 0)
    (hunread : s.us.unread = blobs.flatMap record)
    (hblobs : ∀ blob ∈ blobs, blob.length < 256) :
    ∃ rest, Unheard (udChckMsg e s).st.us rest ∧
      (heardNow (api.event s (.udChckMsg e))).toList ++ rest =
        blobs.map d.letter := by
  cases blobs with
  | nil =>
      have hlen := hs.recv.length_unread
      rw [hunread, List.flatMap_nil, List.length_nil] at hlen
      have hend := udChckMsg_end e (s := s) (by omega) hnrd
      refine ⟨[], by rw [hend]; exact .idle rfl, ?_⟩
      simp [heardNow, found_none (congrArg Res.val hend)]
  | cons blob blobs =>
      obtain ⟨hfound, hrest, hnrd', hrecv⟩ :=
        udChckMsg_blob e hs (hblobs blob List.mem_cons_self) hunread
      have hlast : HoldsLast (some d) s.us := fun _ => ⟨d, rfl, hcur⟩
      have hnone : (readNow s.us e.rx).or (some d) = some d := by
        simp [readNow, hnrd]
      obtain ⟨d', hd', hcur'⟩ := hlast.checked hs.recv e
        (by rw [hnrd']; exact Nat.pos_of_ne_zero hnrd)
      rw [hnone] at hd'
      cases hd'
      have hne : (udChckMsg e s).st.us.nrd ≠ 0 := by rw [hnrd']; exact hnrd
      have hheard := heardNow_some hfound hne hcur'
      refine ⟨blobs.map d.letter, .reading hcur' hne hrest
        (fun b hb => hblobs b (List.mem_cons_of_mem _ hb)), ?_⟩
      rw [hheard, hcur.hdrCmd]
      rfl

theorem udChckMsg_unheard (e : Env) {s : Lib} (hs : s.Sane) {rest : List Letter}
    (h : Unheard s.us rest) (hrx : ∀ d ∈ e.rx, ∃ batch, Bears d batch) :
    ∃ rest', Unheard (udChckMsg e s).st.us rest' ∧
      (heardNow (api.event s (.udChckMsg e))).toList ++ rest' =
        rest ++ (readNow s.us e.rx).toList.flatMap Arrival.letters := by
  cases h with
  | reading hcur hnrd hunread hblobs =>
      simpa [readNow, hnrd] using udChckMsg_hears e hs hcur hnrd hunread hblobs
  | idle hnrd =>
      cases hread : e.rx with
      | none =>
          have hnone := udChckMsg_none hnrd hread
          refine ⟨[], by rw [hnone]; exact .idle hnrd, ?_⟩
          simp [heardNow, found_none (congrArg Res.val hnone), readNow]
      | some d =>
          obtain ⟨batch, hbears⟩ := hrx d hread
          obtain ⟨hd, blobs, hne, hblobs, hpayload, -⟩ := hbears
          have hfull : d.payload ≠ [] := by
            cases blobs with
            | nil => exact absurd rfl hne
            | cons blob blobs => simp [hpayload, record]
          have heq := udChckMsg_load hd hnrd hread hfull
          obtain ⟨rest', hrest', hheard⟩ := udChckMsg_hears e (hs.load d)
            (load_current hd hs.recv) (load_nrd_ne_zero s.us hfull)
            ((load_unread d s.us).trans hpayload) hblobs
          refine ⟨rest', heq ▸ hrest', ?_⟩
          have hevent : heardNow (api.event s (.udChckMsg e)) = heardNow
              (api.event { s with us := load d s.us } (.udChckMsg e)) := by
            simp only [heardNow, found, System.event, api, Call.step, heq]
          rw [hevent, hheard]
          simp [readNow, hnrd, Arrival.letters, hpayload,
            blobsOf_records hblobs]

/-- Calls that may take messages without handing them out by `ud_chck_msg`. -/
def Call.Discards : Call → Prop
  | .udChck _ _ | .udChckPing _ | .udDscrd _ => True
  | _ => False

structure Hears (s : Lib) (c : Call) (rest rest' : List Letter) : Prop where
  unheard : Unheard (api.step s c).1.us rest'
  sublist : ((heardNow (api.event s c)).toList ++ rest').Sublist
    (rest ++ (readNow s.us c.rx).toList.flatMap Arrival.letters)
  whole : ¬ c.Discards → (heardNow (api.event s c)).toList ++ rest' =
    rest ++ (readNow s.us c.rx).toList.flatMap Arrival.letters

theorem Hears.quiet {s : Lib} {c : Call} {rest : List Letter}
    (h : Unheard s.us rest) (hrx : c.rx = none)
    (hfound : found (api.event s c) = none)
    (hinbox : (api.step s c).1.us.inbox = s.us.inbox) : Hears s c rest rest := by
  have hnone : readNow s.us c.rx = none := by simp [readNow, hrx]
  refine ⟨h.congr hinbox, ?_, ?_⟩ <;> simp [heardNow, hfound, hnone]

theorem Hears.discarding {s : Lib} {c : Call} {e : Env} {rest rest' : List Letter}
    (hunheard : Unheard (udChckMsg e s).st.us rest')
    (hheard : (heardNow (api.event s (.udChckMsg e))).toList ++ rest' =
      rest ++ (readNow s.us e.rx).toList.flatMap Arrival.letters)
    (hrx : c.rx = e.rx) (hus : (api.step s c).1.us = (udChckMsg e s).st.us)
    (hfound : found (api.event s c) = none) (hc : c.Discards) :
    Hears s c rest rest' := by
  refine ⟨hus ▸ hunheard, ?_, fun h => absurd hc h⟩
  rw [hrx, ← hheard]
  simp [heardNow, hfound]

theorem udDscrd_hears (rx : Option Arrival) {s : Lib} (hs : s.Sane)
    {rest : List Letter} (h : Unheard s.us rest)
    (hrx : ∀ d ∈ rx, ∃ batch, Bears d batch) :
    ∃ rest', Hears s (.udDscrd rx) rest rest' := by
  have hfound : found (api.event s (.udDscrd rx)) = none := rfl
  have hus : (api.step s (.udDscrd rx)).1.us = (udDscrd rx s.us).st := rfl
  rcases udDscrd_cases rx s.us with ⟨hnrd, heq⟩ | ⟨hnrd, rfl, heq⟩ |
    ⟨hnrd, d, rfl, hrej, -⟩ | ⟨hnrd, d, rfl, -, heq⟩
  · refine ⟨[], by rw [hus, heq]; exact .idle rfl, ?_, fun hd => absurd trivial hd⟩
    simp [heardNow, hfound]
  · refine ⟨rest, by rw [hus, heq]; exact h, ?_, fun hd => absurd trivial hd⟩
    simp [heardNow, hfound]
  · obtain ⟨batch, hbears⟩ := hrx d rfl
    exact absurd hbears.accepted hrej
  · obtain ⟨batch, hbears⟩ := hrx d rfl
    refine ⟨d.letters, by rw [hus, heq]; exact .load hbears hs.recv, ?_,
      fun hd => absurd trivial hd⟩
    simp [heardNow, hfound, readNow, hnrd, Call.rx]

theorem call_hears {s : Lib} (hs : s.Sane) {rest : List Letter}
    (h : Unheard s.us rest) (c : Call)
    (hrx : ∀ d ∈ c.rx, ∃ batch, Bears d batch) :
    ∃ rest', Hears s c rest rest' := by
  cases c with
  | udPackMsg w msg => exact ⟨rest, .quiet h rfl rfl (udPackMsg_inbox w msg s.us)⟩
  | udFlush w => exact ⟨rest, .quiet h rfl rfl (udFlush_inbox w s.us)⟩
  | udPackCmsg w msg => exact ⟨rest, .quiet h rfl rfl (udPackCmsg_inbox w msg s)⟩
  | udPackPing w₁ w₂ msg =>
      exact ⟨rest, .quiet h rfl rfl (udPackPing_inbox w₁ w₂ msg s)⟩
  | udPackPong pongp e =>
      exact ⟨rest, .quiet h rfl rfl (udPackPong_inbox pongp e s)⟩
  | elsewhere g sane => exact ⟨rest, .quiet h rfl rfl rfl⟩
  | udDscrd rx => exact udDscrd_hears rx hs h hrx
  | udChckMsg e =>
      obtain ⟨rest', hunheard, hheard⟩ := udChckMsg_unheard e hs h hrx
      exact ⟨rest', hunheard, by simp [Call.rx, hheard], fun _ => hheard⟩
  | udChck tsz e =>
      obtain ⟨rest', hunheard, hheard⟩ := udChckMsg_unheard e hs h hrx
      exact ⟨rest', .discarding hunheard hheard rfl rfl rfl trivial⟩
  | udChckPing e =>
      obtain ⟨rest', hunheard, hheard⟩ := udChckMsg_unheard e hs h hrx
      exact ⟨rest', .discarding hunheard hheard rfl (udChckPing_st_us e s).1 rfl
        trivial⟩

theorem run_heard {calls : List Call}
    (h : ∀ c ∈ calls, ∀ d ∈ c.rx, ∃ batch, Bears d batch) :
    ∃ rest, Unheard (api.run Lib.fresh calls).us rest ∧
      (Trace.heard (api.events Lib.fresh calls) ++ rest).Sublist
        ((Trace.reads (api.events Lib.fresh calls)).flatMap Arrival.letters) ∧
      ((∀ c ∈ calls, ¬ c.Discards) →
        Trace.heard (api.events Lib.fresh calls) ++ rest =
          (Trace.reads (api.events Lib.fresh calls)).flatMap Arrival.letters) := by
  refine (System.history (S := api)
    (G := fun _ c => c ∈ calls) (H := fun es s => s.Sane ∧ ∃ rest,
      Unheard s.us rest ∧
      (Trace.heard es ++ rest).Sublist
        ((Trace.reads es).flatMap Arrival.letters) ∧
      ((∀ c ∈ calls, ¬ c.Discards) →
        Trace.heard es ++ rest = (Trace.reads es).flatMap Arrival.letters))
    ?_ ⟨Lib.fresh_sane, [], .idle rfl, by simp [Trace.heard, Trace.reads],
      fun _ => rfl⟩ calls
    (fun e he => System.input_mem_of_mem api he)).2
  rintro es s c ⟨hs, rest, hunheard, hsub, hwhole⟩ hc
  obtain ⟨rest', hrest', hsub', hwhole'⟩ := call_hears hs hunheard c (h c hc)
  have hheard : Trace.heard (es ++ [api.event s c]) =
      Trace.heard es ++ (heardNow (api.event s c)).toList := by
    cases hnow : heardNow (api.event s c) <;>
      simp [Trace.heard, List.filterMap_append, hnow]
  refine ⟨call_sane s c hs, rest', hrest', ?_, ?_⟩
  · rw [hheard, Trace.reads_append, Trace.reads_singleton, List.flatMap_append,
      List.append_assoc]
    refine (hsub'.append_left _).trans ?_
    rw [← List.append_assoc]
    exact hsub.append_right _
  · intro hall
    rw [hheard, Trace.reads_append, Trace.reads_singleton, List.flatMap_append,
      List.append_assoc, hwhole' (hall c hc), ← List.append_assoc, hwhole hall]

/-! ## The group -/

def Call.checks : Call → Bool
  | .udChckMsg _ | .udChck _ _ | .udChckPing _ | .udDscrd _ => true
  | _ => false

/--
A member of the group whose application makes any calls.  `recvfrom` is called
by the checking calls when nothing is left in the buffer.
-/
def peer : Node Member Call Arrival where
  reads m c := c.checks && m.lib.us.nrd == 0
  step m c rx :=
    ({ m with past := m.past ++ [c.withRx rx] },
      (api.step m.lib (c.withRx rx)).2.tx.map fun t => ⟨t.dgram, m.addr⟩)

def Member.trace (m : Member) : Trace := api.events Lib.fresh m.past

def Member.heard (m : Member) : List Letter := m.trace.heard

def Member.said (m : Member) : List Letter := m.trace.said m.addr

def Member.sentArrivals (m : Member) : List Arrival :=
  m.trace.sent.map fun t => ⟨t.dgram, m.addr⟩

theorem peer_trace (m : Member) (c : Call) (rx : Option Arrival) :
    (peer.step m c rx).1.trace = m.trace ++ [api.event m.lib (c.withRx rx)] :=
  System.events_append api _ _ _

theorem rx_withRx (rx : Option Arrival) (c : Call) :
    (c.withRx rx).rx = if c.checks then rx else none := by
  cases c <;> rfl

theorem peer_books :
    peer.Books (fun m => m.trace.reads) Member.sentArrivals where
  took m c rx hfits := by
    have hread : readNow m.lib.us (c.withRx rx).rx = rx := by
      rw [rx_withRx, readNow]
      by_cases hreads : c.checks = true ∧ m.lib.us.nrd = 0
      · simp [hreads]
      · have hnone : rx = none := hfits (by simpa [peer] using hreads)
        simp [hnone]
    rw [peer_trace, Trace.reads_append, Trace.reads_singleton, hread]
  sent m c rx _ := by
    rw [Member.sentArrivals, peer_trace, Trace.sent_append, List.map_append]
    simp [Member.sentArrivals, Trace.sent, System.event, peer]

def Arrival.Whole (d : Arrival) : Prop := ∃ msgs, Published d.bytes msgs

def Member.Proper (m : Member) : Prop :=
  ∀ c ∈ m.past, c.Proper ∧ ∀ d ∈ c.rx, d.Whole

theorem Call.Proper.withRx {c : Call} (h : c.Proper) (rx : Option Arrival) :
    (c.withRx rx).Proper := by
  cases c <;> exact h

theorem peer_keeps : peer.Keeps Call.Proper Member.Proper Arrival.Whole := by
  have hstate : ∀ (m : Member) (c : Call) (rx : Option Arrival), c.Proper →
      m.Proper → (∀ d ∈ rx, d.Whole) → (peer.step m c rx).1.Proper := by
    intro m c rx hc hm hrx c' hc'
    rcases List.mem_append.mp hc' with hold | hnew
    · exact hm c' hold
    · rw [List.mem_singleton.mp hnew]
      refine ⟨hc.withRx rx, fun d hd => hrx d ?_⟩
      rw [rx_withRx] at hd
      split at hd
      · exact hd
      · contradiction
  constructor
  · intro m c rx hc _ hm hrx
    exact hstate m c rx hc hm hrx
  · intro m c rx hc _ hm hrx d hd
    have hpast := hstate m c rx hc hm hrx
    have hsaid := (run_said (fun c' hc' => (hpast c' hc').1) m.addr).1
    obtain ⟨t, ht, rfl⟩ := List.mem_map.mp hd
    refine hsaid t ?_
    change t ∈ (peer.step m c rx).1.trace.sent
    rw [peer_trace, Trace.sent_append]
    exact List.mem_append_right _ (by simpa [Trace.sent, System.event] using ht)

theorem peer_keeps_whole :
    peer.Keeps (fun c => ¬ c.Discards) (fun m => ∀ c ∈ m.past, ¬ c.Discards)
      (fun _ => True) where
  state m c rx hc _ hm _ c' hc' := by
    rcases List.mem_append.mp hc' with hold | hnew
    · exact hm c' hold
    · rw [List.mem_singleton.mp hnew]
      cases c <;> exact hc
  sent _ _ _ _ _ _ _ _ _ := trivial

def gathering {ι : Type*} (addr : ι → SockaddrIn6) : Group ι Member Arrival :=
  ⟨fun i => ⟨addr i, []⟩, fun _ => []⟩

theorem gathering_meets {ι : Type*} (addr : ι → SockaddrIn6) :
    (gathering addr).Meets Member.Proper Arrival.Whole :=
  ⟨fun _ _ hc => by simp [gathering] at hc, fun _ _ hm => by
    simp [gathering] at hm⟩

theorem Member.Proper.said {m : Member} (h : m.Proper) :
    ∃ pending : List Letter,
      (m.sentArrivals.flatMap Arrival.letters ++ pending).Perm m.said ∧
        (m.lib.us.npk = 0 → pending = []) := by
  have hsaid := (run_said (fun c hc => (h c hc).1) m.addr).2
  rw [Member.sentArrivals, List.flatMap_map]
  exact hsaid

theorem Member.Proper.heard {m : Member} (h : m.Proper) :
    ∃ rest, Unheard m.lib.us rest ∧
      (m.heard ++ rest).Sublist (m.trace.reads.flatMap Arrival.letters) ∧
      ((∀ c ∈ m.past, ¬ c.Discards) →
        m.heard ++ rest = m.trace.reads.flatMap Arrival.letters) :=
  run_heard fun c hc d hd => by
    obtain ⟨msgs, hmsgs⟩ := (h c hc).2 d hd
    exact ⟨_, hmsgs.bears⟩

section Group

variable {ι : Type*} [Fintype ι] [DecidableEq ι]

section Told

variable (addr : ι → SockaddrIn6) {moves : List (Move ι Call)}
  (h : ∀ move ∈ moves, move.Allowed Call.Proper)

include h

theorem heard_le_told (i : ι) :
    (((peer.group.run (gathering addr) moves).node i).heard : Multiset Letter) ≤
      ∑ j, (((peer.group.run (gathering addr) moves).node j).sentArrivals.flatMap
        Arrival.letters : Multiset Letter) := by
  have hmeets := Node.meets_run peer_keeps (gathering_meets addr) h
  have hhad := Node.had_le_told peer_books (g := gathering addr)
    (fun k => by simp [Group.had, gathering, Member.trace, Trace.reads]) moves i
  obtain ⟨rest, -, hsub, -⟩ := (hmeets.node i).heard
  generalize peer.group.run (gathering addr) moves = g at *
  calc ((g.node i).heard : Multiset Letter)
      ≤ ((g.node i).trace.reads.flatMap Arrival.letters : List Letter) :=
        Multiset.coe_le.mpr ((List.sublist_append_left _ _).trans hsub).subperm
    _ = opened Arrival.letters (g.node i).trace.reads := by simp
    _ ≤ opened Arrival.letters (g.told Member.sentArrivals) :=
        opened_mono _ ((Multiset.le_add_right _ _).trans hhad)
    _ = ∑ j, (((g.node j).sentArrivals.flatMap Arrival.letters : List Letter) :
          Multiset Letter) := opened_told _ _ _

omit [Fintype ι] in
theorem told_le_said (j : ι) :
    (((peer.group.run (gathering addr) moves).node j).sentArrivals.flatMap
        Arrival.letters : Multiset Letter) ≤
      ((peer.group.run (gathering addr) moves).node j).said := by
  obtain ⟨pending, hperm, -⟩ :=
    ((Node.meets_run peer_keeps (gathering_meets addr) h).node j).said
  rw [← Multiset.coe_eq_coe.mpr hperm, ← Multiset.coe_add]
  exact Multiset.le_add_right _ _

omit [Fintype ι] in
theorem told_eq_said {j : ι}
    (hnpk : ((peer.group.run (gathering addr) moves).node j).lib.us.npk = 0) :
    (((peer.group.run (gathering addr) moves).node j).sentArrivals.flatMap
        Arrival.letters : Multiset Letter) =
      ((peer.group.run (gathering addr) moves).node j).said := by
  obtain ⟨pending, hperm, hnil⟩ :=
    ((Node.meets_run peer_keeps (gathering_meets addr) h).node j).said
  rw [← Multiset.coe_eq_coe.mpr hperm, hnil hnpk, List.append_nil]

theorem heard_eq_told
    (hwhole : ∀ move ∈ moves, move.Allowed fun c => ¬ c.Discards)
    (hlossless : ∀ move ∈ moves, move.Lossless) {i : ι}
    (hqueue : (peer.group.run (gathering addr) moves).queue i = [])
    (hnrd : ((peer.group.run (gathering addr) moves).node i).lib.us.nrd = 0) :
    (((peer.group.run (gathering addr) moves).node i).heard : Multiset Letter) =
      ∑ j, (((peer.group.run (gathering addr) moves).node j).sentArrivals.flatMap
        Arrival.letters : Multiset Letter) := by
  have hmeets := Node.meets_run peer_keeps (gathering_meets addr) h
  have hpast := Node.meets_run peer_keeps_whole (g := gathering addr)
    ⟨fun _ _ hc => by simp [gathering] at hc, fun _ _ _ => trivial⟩ hwhole
  have hhad := Node.had_eq_told peer_books (g := gathering addr)
    (fun k => by
      simp [Group.had, Group.told, gathering, Member.trace, Trace.reads,
        Member.sentArrivals, Trace.sent]) hlossless i
  obtain ⟨rest, hunheard, -, hall⟩ := (hmeets.node i).heard
  have hall := hall (hpast.node i)
  have hrest : rest = [] := by
    cases hunheard with
    | idle _ => rfl
    | reading _ hne _ _ => exact absurd hnrd hne
  generalize peer.group.run (gathering addr) moves = g at *
  calc ((g.node i).heard : Multiset Letter)
      = ((g.node i).trace.reads.flatMap Arrival.letters : List Letter) := by
        rw [← hall, hrest, List.append_nil]
    _ = opened Arrival.letters (g.node i).trace.reads := by simp
    _ = opened Arrival.letters (g.told Member.sentArrivals) := by
        rw [← hhad, Group.had, hqueue]
        simp
    _ = ∑ j, (((g.node j).sentArrivals.flatMap Arrival.letters : List Letter) :
          Multiset Letter) := opened_told _ _ _

end Told

/--
However the members' proper calls are interleaved and whatever is lost or
reordered, what a member is handed was said by members, each letter with its
address, its service and its bytes, and no more often than it was said.
-/
theorem heard_le_said (addr : ι → SockaddrIn6) {moves : List (Move ι Call)}
    (h : ∀ move ∈ moves, move.Allowed Call.Proper) (i : ι) :
    ((peer.group.run (gathering addr) moves).node i).heard ≤
      ∑ j, (((peer.group.run (gathering addr) moves).node j).said :
        Multiset Letter) :=
  (heard_le_told addr h i).trans
    (Finset.sum_le_sum fun j _ => told_le_said addr h j)

/--
When nothing is lost and the members, whose calls are proper, check by
`ud_chck_msg` only, a member that has read all datagrams and handed out all
letters, while nobody has a packet pending, was handed everything that was said,
each letter just as often.
-/
theorem heard_eq_said (addr : ι → SockaddrIn6) {moves : List (Move ι Call)}
    (h : ∀ move ∈ moves, move.Allowed Call.Proper)
    (hwhole : ∀ move ∈ moves, move.Allowed fun c => ¬ c.Discards)
    (hlossless : ∀ move ∈ moves, move.Lossless) {i : ι}
    (hqueue : (peer.group.run (gathering addr) moves).queue i = [])
    (hnrd : ((peer.group.run (gathering addr) moves).node i).lib.us.nrd = 0)
    (hnpk : ∀ j,
      ((peer.group.run (gathering addr) moves).node j).lib.us.npk = 0) :
    ((peer.group.run (gathering addr) moves).node i).heard =
      ∑ j, (((peer.group.run (gathering addr) moves).node j).said :
        Multiset Letter) :=
  (heard_eq_told addr h hwhole hlossless hqueue hnrd).trans
    (Finset.sum_congr rfl fun j _ => told_eq_said addr h (hnpk j))

end Group

def chat : List (Move (Fin 2) Call) :=
  let e : Env := ⟨none, none, 0, .full, .full⟩
  [.act 0 0 (.udPackMsg .full ⟨7, [1, 2], by decide⟩), .act 0 0 (.udFlush .full),
    .act 0 0 (.udPackCmsg .full ⟨0xff06, [4], by decide⟩), .act 1 0 (.udChckMsg e),
    .act 1 0 (.udChckMsg e), .act 1 0 (.udChckMsg e), .act 1 0 (.udChckMsg e)]

def chatted : Group (Fin 2) Member Arrival :=
  peer.group.run (gathering fun _ => Vector.replicate 28 0) chat

theorem chat_proper : ∀ move ∈ chat, move.Allowed Call.Proper := by
  simp [chat, Move.Allowed, Call.Proper, Call.Atomic, SendRes.Atomic, UdMsg.dlen]

theorem heard_le_said_witness :
    ((chatted.node 1).heard : Multiset Letter) ≤
      ∑ j, ((chatted.node j).said : Multiset Letter) :=
  heard_le_said _ chat_proper 1

theorem heard_eq_said_witness :
    ∑ j, ((chatted.node j).said : Multiset Letter) =
      ([⟨List.replicate 28 0, 7, 2, [1, 2]⟩,
        ⟨List.replicate 28 0, 0xff06, 1, [4]⟩] : List Letter) := by
  have hheard : (chatted.node 1).heard = [⟨List.replicate 28 0, 7, 2, [1, 2]⟩,
      ⟨List.replicate 28 0, 0xff06, 1, [4]⟩] := by
    decide +kernel
  rw [← hheard]
  exact (heard_eq_said _ chat_proper
    (by simp [chat, Move.Allowed, Call.Discards]) (by simp [chat, Move.Lossless])
    (by decide +kernel) (by decide +kernel) (by decide +kernel)).symm

end Unserding
