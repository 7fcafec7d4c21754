import Unserding.Refinement

/-!
# What the sending side guarantees

Packet numbers, conservation of the packed bytes, the service a record is
published under and the carriage of whole messages, over every run of calls.
-/

namespace Unserding

open Foundation

def payload (dgram : Bytes) : Bytes := dgram.drop hdrSize

@[simp] theorem payload_udHdr (pno : Nat) (cmd : UInt16) (rest : Bytes) :
    payload (udHdr pno cmd ++ rest) = rest := by
  rw [payload, ← length_udHdr pno cmd, List.drop_left]

/-! ## Packet numbers -/

theorem hdrPno_parcelTx (parcel : Parcel UInt16 UdMsg) :
    hdrPno (parcelTx parcel).dgram = UInt16.ofNat parcel.seq := by
  cases parcel with
  | batch seq key msgs => exact hdrPno_udHdr seq key _
  | single seq msg => exact hdrPno_udHdr seq msg.svc _

theorem Sends.pno {loose : Prop} {o o' : SendBox} {tx : List Tx}
    {packed : List UdMsg} (h : Sends loose o tx packed o') :
    (∀ i (hi : i < tx.length),
        hdrPno tx[i].dgram = UInt16.ofNat (o.seq + i)) ∧
      o'.seq = o.seq + tx.length := by
  obtain ⟨acts, -, rfl, rfl, -⟩ := h
  obtain ⟨hseq, hrun⟩ := Outbox.parcels_seq UdMsg.svc 0 o acts
  refine ⟨?_, by rw [List.length_map]; exact hrun⟩
  intro i hi
  have hi' : i < (o.parcels acts).length := by simpa using hi
  have hget := congrArg (fun seqs : List Nat => seqs[i]?) hseq
  simp only [List.getElem?_map, List.getElem?_eq_getElem hi',
    Option.map_some, List.getElem?_range' hi', Nat.one_mul,
    Option.some.injEq] at hget
  rw [List.getElem_map, hdrPno_parcelTx, hget]

/--
The `i`-th datagram that leaves the socket carries number `i` modulo 2^16, and
the counter is the number of datagrams sent, so that failed sends use none up.
-/
theorem pno_gap_free (calls : List Call) (hatomic : ∀ c ∈ calls, c.Atomic) :
    (∀ i (hi : i < (Trace.sent (api.events Lib.fresh calls)).length),
      (hdrPno (Trace.sent (api.events Lib.fresh calls))[i].dgram).toNat =
        i % 65536) ∧
    (api.run Lib.fresh calls).us.pno =
      (Trace.sent (api.events Lib.fresh calls)).length := by
  obtain ⟨o, hheld, hpath⟩ := run_sends True hatomic
    (fun hloose => absurd trivial hloose)
  obtain ⟨hpno, hseq⟩ := hpath.pno
  constructor
  · intro i hi
    rw [hpno i hi]
    simp [SendBox.fresh]
  · rw [hheld.pno, hseq]
    exact Nat.zero_add _

theorem pno_gap_free_witness :
    let calls : List Call :=
      [.udPackMsg .full ⟨7, [1], by decide⟩, .udFlush .full,
        .udPackMsg .full ⟨7, [2], by decide⟩, .udFlush .fail,
        .udFlush .full, .udPackCmsg .full ⟨0xff04, [3], by decide⟩]
    (api.run Lib.fresh calls).us.pno =
      (Trace.sent (api.events Lib.fresh calls)).length :=
  (pno_gap_free _ (by simp [Call.Atomic, SendRes.Atomic])).2

/-! ## Batches -/

theorem forall₂_dataSent {P : Bytes → List UdMsg → Prop}
    {parcels : List (Parcel UInt16 UdMsg)}
    (h : ∀ seq key msgs, .batch seq key msgs ∈ parcels →
      P (udHdr seq key ++ wires msgs) msgs) :
    List.Forall₂ P (dataSent (parcels.map parcelTx))
      (Parcel.batched parcels) := by
  induction parcels with
  | nil => exact .nil
  | cons parcel rest ih =>
      have htail := ih fun seq key msgs hmem =>
        h seq key msgs (List.mem_cons_of_mem _ hmem)
      cases parcel with
      | batch seq key msgs =>
          exact .cons (h seq key msgs List.mem_cons_self) htail
      | single seq msg => exact htail

def Carries (dgram : Bytes) (msgs : List UdMsg) : Prop :=
  msgs ≠ [] ∧ ∃ pno svc, dgram = udHdr pno svc ++ wires msgs

/--
The datagrams of a path are its batches.  On a strict path every message of a
batch has the service in the header.
-/
theorem Sends.batches {loose : Prop} {o o' : SendBox} {tx : List Tx}
    {packed : List UdMsg} (h : Sends loose o tx packed o')
    (hpending : ∀ msg ∈ o.pending, msg.svc = o.key) :
    ∃ batches : List (List UdMsg),
      batches.flatten ++ o'.pending = o.pending ++ packed ∧
      List.Forall₂ (fun dgram msgs => Carries dgram msgs ∧
        (¬ loose → ∀ msg ∈ msgs, msg.svc = hdrCmd dgram))
        (dataSent tx) batches := by
  obtain ⟨acts, hguard, rfl, rfl, rfl⟩ := h
  refine ⟨Parcel.batched (o.parcels acts),
    Outbox.batched_flatten UdMsg.svc 0 o acts, forall₂_dataSent ?_⟩
  intro seq key msgs hmem
  refine ⟨⟨?_, seq, key, rfl⟩, ?_⟩
  · exact Outbox.batched_ne_nil UdMsg.svc 0 hguard msgs
      (Parcel.mem_batched hmem)
  · intro hstrict
    rw [hdrCmd_udHdr]
    rw [eq_false hstrict] at hguard
    exact Outbox.batch_keyed UdMsg.svc 0 hguard hpending seq key msgs hmem

theorem Carries.payload {dgram : Bytes} {msgs : List UdMsg}
    (h : Carries dgram msgs) : payload dgram = wires msgs := by
  obtain ⟨-, pno, svc, rfl⟩ := h
  exact payload_udHdr pno svc _

theorem payloads_of_carries {dgrams : List Bytes}
    {batches : List (List UdMsg)} (h : List.Forall₂ Carries dgrams batches) :
    dgrams.flatMap payload = wires batches.flatten := by
  induction h with
  | nil => rfl
  | cons hhead _ ih =>
      rw [List.flatMap_cons, ih, hhead.payload, List.flatten_cons,
        wires_append]

theorem exists_of_forall₂ {α β : Type*} {R : α → β → Prop} {as : List α}
    {bs : List β} (h : List.Forall₂ R as bs) {a : α} (hmem : a ∈ as) :
    ∃ b ∈ bs, R a b := by
  induction h with
  | nil => simp at hmem
  | cons hhead _ ih =>
      rcases List.mem_cons.mp hmem with rfl | hrest
      · exact ⟨_, List.mem_cons_self, hhead⟩
      · obtain ⟨b, hb, hR⟩ := ih hrest
        exact ⟨b, List.mem_cons_of_mem _ hb, hR⟩

/-! ## Conservation -/

def records (msgs : List UdMsg) : Bytes :=
  msgs.flatMap fun msg => record msg.data

theorem wires_eq_records {msgs : List UdMsg}
    (h : ∀ msg ∈ msgs, msg.dlen ≤ 255) : wires msgs = records msgs := by
  induction msgs with
  | nil => rfl
  | cons msg rest ih =>
      have hhead : msg.wire = record msg.data :=
        UdMsg.wire_eq_record (by have := h msg List.mem_cons_self; omega)
      have htail := ih fun m hm => h m (List.mem_cons_of_mem _ hm)
      simp only [wires, records, List.flatMap_cons] at htail ⊢
      rw [hhead, htail]

def Call.OneOctet : Call → Prop
  | .udPackMsg _ msg => msg.dlen ≤ 255
  | _ => True

theorem packed_oneOctet {trace : Trace}
    (h : ∀ e ∈ trace, e.input.OneOctet) :
    ∀ msg ∈ trace.packed, msg.dlen ≤ 255 := by
  intro msg hmsg
  obtain ⟨e, he, hpacked⟩ := List.mem_filterMap.mp hmsg
  obtain ⟨w, hinput⟩ := Call.eq_of_packed hpacked
  have hcall := h e he
  rw [hinput] at hcall
  exact hcall

theorem udFlush_failed {w : SendRes} {us : Sock}
    (h : (udFlush w us).val = -1) : (udFlush w us).st = us.stamped := by
  rcases udFlush_cases w us with ⟨-, heq⟩ | ⟨-, -, heq⟩ | ⟨-, dgram, -, heq⟩
  · rw [heq] at h
    contradiction
  · rw [heq]
  · rw [heq] at h
    contradiction

theorem udPackMsg_failed {w : SendRes} {msg : UdMsg} {us : Sock}
    (h : (udPackMsg w msg us).val = -1) :
    (udPackMsg w msg us).st = us.stamped := by
  rcases udPackMsg_cases w msg us with ⟨-, -, heq⟩ |
    ⟨-, ⟨-, heq⟩ | ⟨-, -, heq⟩ | ⟨-, dgram, -, heq⟩⟩
  · rw [heq] at h
    contradiction
  · rw [heq] at h
    contradiction
  · rw [heq]
  · rw [heq] at h
    contradiction

structure SameUnsent (us us' : Sock) : Prop where
  pending : us'.pending = us.pending
  npk : us'.npk = us.npk
  svc : us'.svc = us.svc
  pno : us'.pno = us.pno

theorem SameUnsent.stamped (us : Sock) : SameUnsent us us.stamped :=
  ⟨us.stamped_pending, rfl, rfl, rfl⟩

/--
Whatever sends fail, the records sent and the bytes still pending are the
records of the accepted messages, in order; the packed bytes stay inside the
send buffer; data datagrams hold whole records; failed calls change nothing.
-/
theorem pack_conserves (calls : List Call) (hatomic : ∀ c ∈ calls, c.Atomic)
    (hdlen : ∀ c ∈ calls, c.OneOctet) :
    let trace : Trace := api.events Lib.fresh calls
    let us := (api.run Lib.fresh calls).us
    (dataSent trace.sent).flatMap payload ++ us.pending =
        records trace.packed ∧
      us.npk ≤ 1432 ∧ us.send.length = ethMtu ∧
      us.pending.length = us.npk ∧
      (∀ dgram ∈ dataSent trace.sent,
        ∃ msgs ≠ [], payload dgram = records msgs) ∧
      (∀ w msg, (udPackMsg w msg us).val = -1 →
        SameUnsent us (udPackMsg w msg us).st) ∧
      (∀ w, (udFlush w us).val = -1 → SameUnsent us (udFlush w us).st) := by
  intro trace us
  have hsane := (run_sane calls).send
  obtain ⟨o, hheld, hpath⟩ := run_sends True hatomic
    (fun hloose => absurd trivial hloose)
  obtain ⟨batches, hflat, hcarry⟩ := hpath.batches
    (by simp [SendBox.fresh])
  have hshort : ∀ msg ∈ trace.packed, msg.dlen ≤ 255 :=
    packed_oneOctet fun e he => hdlen _ (System.input_mem_of_mem api he)
  have hparts : batches.flatten ++ o.pending = trace.packed := hflat
  have hcarries : List.Forall₂ Carries (dataSent trace.sent) batches :=
    hcarry.imp fun _ _ h => h.1
  refine ⟨?_, hsane.npk_le, hsane.send_length, hsane.length_pending, ?_,
    fun w msg h => ?_, fun w h => ?_⟩
  · rw [payloads_of_carries hcarries, hheld.pending, ← wires_append, hparts,
      wires_eq_records hshort]
  · intro dgram hdgram
    obtain ⟨msgs, hmsgs, hcarry⟩ := exists_of_forall₂ hcarries hdgram
    refine ⟨msgs, hcarry.1, ?_⟩
    rw [hcarry.payload, wires_eq_records]
    intro msg hmsg
    refine hshort msg ?_
    rw [← hparts]
    exact List.mem_append_left _ (List.mem_flatten.mpr ⟨msgs, hmsgs, hmsg⟩)
  · rw [udPackMsg_failed h]
    exact .stamped us
  · rw [udFlush_failed h]
    exact .stamped us

theorem pack_conserves_witness :
    let calls : List Call :=
      [.udPackMsg .full ⟨7, [1, 2], by decide⟩, .udPackMsg .fail ⟨8, [3], by decide⟩,
        .udPackMsg .full ⟨8, [4], by decide⟩]
    let trace : Trace := api.events Lib.fresh calls
    (dataSent trace.sent).flatMap payload ++
        (api.run Lib.fresh calls).us.pending = records trace.packed :=
  (pack_conserves _ (by simp [Call.Atomic, SendRes.Atomic])
    (by simp [Call.OneOctet, UdMsg.dlen])).1

/-! ## Services -/

/--
The data datagrams of a run account for the accepted messages in order, and
each record is published under the service its message was packed with.
-/
def Attributed (trace : Trace) : Prop :=
  ∃ batches : List (List UdMsg),
    batches.flatten <+: trace.packed ∧
    List.Forall₂ (fun dgram msgs => payload dgram = wires msgs ∧
      ∀ msg ∈ msgs, msg.svc = hdrCmd dgram) (dataSent trace.sent) batches

/--
No message is published under another message's service as long as no message
of another service is put behind pending messages of service 0.
-/
theorem services_attributed (calls : List Call)
    (hatomic : ∀ c ∈ calls, c.Atomic)
    (hkeep : ∀ e ∈ api.events Lib.fresh calls, e.input.KeepsService e.pre) :
    Attributed (api.events Lib.fresh calls) := by
  obtain ⟨o, hheld, hpath⟩ := run_sends False hatomic
    (fun _ => hkeep)
  obtain ⟨batches, hflat, hcarry⟩ := hpath.batches
    (by simp [SendBox.fresh])
  refine ⟨batches, ⟨o.pending, hflat⟩, hcarry.imp ?_⟩
  rintro dgram msgs ⟨hcarries, hkeyed⟩
  exact ⟨hcarries.payload, hkeyed not_false⟩

/-- Messages of three services, those of service 0 flushed before the next. -/
theorem services_attributed_witness :
    Attributed (api.events Lib.fresh
      [.udPackMsg .full ⟨0, [1], by decide⟩, .udPackMsg .full ⟨0, [2], by decide⟩,
        .udFlush .full, .udPackMsg .full ⟨5, [3], by decide⟩,
        .udPackMsg .full ⟨5, [4], by decide⟩, .udPackMsg .full ⟨7, [5], by decide⟩,
        .udFlush .full]) := by
  refine services_attributed _ (by simp [Call.Atomic, SendRes.Atomic]) ?_
  simp only [System.events_cons, System.events_nil, List.forall_mem_cons,
    List.not_mem_nil, IsEmpty.forall_iff, implies_true, and_true, System.event,
    Call.KeepsService, Sock.KeepsService]
  decide +kernel

/-- A message of service 0 leaves under the service of the one packed next. -/
theorem services_not_attributed :
    ¬ ∀ calls : List Call,
      (∀ c ∈ calls, (∃ w msg, c = .udPackMsg w msg) ∨ ∃ w, c = .udFlush w) →
      (∀ c ∈ calls, c.Atomic) → Attributed (api.events Lib.fresh calls) := by
  intro h
  obtain ⟨batches, ⟨rest, hpacked⟩, hcarry⟩ := h
    [.udPackMsg .full ⟨0, [1], by decide⟩,
      .udPackMsg .full ⟨5, [2], by decide⟩, .udFlush .full]
    (by simp) (by simp [Call.Atomic, SendRes.Atomic])
  change List.Forall₂ _ [udHdr 0 5 ++ [0x0c, 1, 1, 0x0c, 1, 2]] batches
    at hcarry
  obtain ⟨msgs, others, ⟨hpayload, hsvc⟩, -, rfl⟩ :=
    List.forall₂_cons_left_iff.mp hcarry
  cases msgs with
  | nil =>
      rw [payload_udHdr] at hpayload
      contradiction
  | cons msg tail =>
      have hmsg : msg = ⟨0, [1], by decide⟩ := (List.cons.inj hpacked).1
      have hcmd := hsvc msg List.mem_cons_self
      rw [hdrCmd_udHdr, hmsg] at hcmd
      contradiction

/-! ## Whole messages -/

/--
The packer refuses the message, or appends one record with all its bytes and
its length in 12 bits to what was pending, which a flush may have emptied.
-/
def PacksWhole (w : SendRes) (msg : UdMsg) (us : Sock) : Prop :=
  (udPackMsg w msg us).val = -1 ∨
    ((udPackMsg w msg us).val = 0 ∧ msg.dlen < 2 ^ 12 ∧
      (udPackMsg w msg us).st.pending =
        (if (udPackMsg w msg us).tx = [] then us.pending else []) ++
          record msg.data)

theorem sendto_eq_none_iff {w : SendRes} {b : Bytes} :
    sendto w b = none ↔ w = .fail := by
  cases w <;> simp [sendto]

theorem wire_eq_record_iff (msg : UdMsg) :
    msg.wire = record msg.data ↔ msg.dlen < 256 := by
  constructor
  · intro h
    have hlen := congrArg List.length h
    rw [msg.length_wire, msg.z_toNat, length_record] at hlen
    have hmod := Nat.mod_lt msg.dlen (by omega : 256 > 0)
    unfold UdMsg.dlen at *
    omega
  · exact UdMsg.wire_eq_record

theorem packsWhole_iff_of_sane {us : Sock} (hs : us.SendSane) (w : SendRes)
    (msg : UdMsg) :
    PacksWhole w msg us ↔ msg.dlen < 256 ∨
      (¬ (msgFits us msg.z.toNat = true ∧ svcSame us msg.svc = true) ∧
        0 < us.npk ∧ w = .fail) := by
  have hwire := wire_eq_record_iff msg
  have happend : ∀ base : Bytes,
      (msg.dlen < 2 ^ 12 ∧ base ++ msg.wire = base ++ record msg.data) ↔
        msg.dlen < 256 := by
    intro base
    rw [List.append_cancel_left_eq, hwire]
    omega
  rcases udPackMsg_cases w msg us with ⟨hfits, hsame, heq⟩ |
    ⟨hflush, ⟨hnpk, heq⟩ | ⟨hnpk, hsend, heq⟩ | ⟨hnpk, dgram, hsend, heq⟩⟩
  · have hstay : ¬ (¬ (msgFits us msg.z.toNat = true ∧
        svcSame us msg.svc = true) ∧ 0 < us.npk ∧ w = .fail) :=
      fun h => h.1 ⟨hfits, hsame⟩
    simp only [PacksWhole, heq, putMsg_pending hs hfits, hstay, or_false]
    simpa using happend us.pending
  · have hfits : msgFits us.cleared msg.z.toNat = true :=
      msgFits_of_npk_eq_zero hnpk msg.z
    have hempty : ¬ (¬ (msgFits us msg.z.toNat = true ∧
        svcSame us msg.svc = true) ∧ 0 < us.npk ∧ w = .fail) :=
      fun h => by omega
    simp only [PacksWhole, heq, putMsg_pending hs.cleared hfits, hempty,
      or_false]
    simpa using happend us.pending
  · simp only [PacksWhole, heq, true_or, true_iff]
    exact .inr ⟨hflush, hnpk, sendto_eq_none_iff.mp hsend⟩
  · have hfits : msgFits us.shipped msg.z.toNat = true :=
      msgFits_of_npk_eq_zero rfl msg.z
    have hsent : ¬ (¬ (msgFits us msg.z.toNat = true ∧
        svcSame us msg.svc = true) ∧ 0 < us.npk ∧ w = .fail) := fun h => by
      rw [sendto_eq_none_iff.mpr h.2.2] at hsend
      contradiction
    simp only [PacksWhole, heq, putMsg_pending hs.shipped hfits, hsent,
      or_false]
    simpa using happend []

/--
A message is carried whole exactly when its length fits one octet, or when it
is refused because the flush it needs fails.
-/
theorem packsWhole_iff (calls : List Call) (w : SendRes) (msg : UdMsg) :
    let us := (api.run Lib.fresh calls).us
    PacksWhole w msg us ↔ msg.dlen < 256 ∨
      (¬ (msgFits us msg.z.toNat = true ∧ svcSame us msg.svc = true) ∧
        0 < us.npk ∧ w = .fail) :=
  packsWhole_iff_of_sane (run_sane calls).send w msg

/-- A message of 256 bytes is accepted and none of its bytes is packed. -/
theorem not_packsWhole :
    ¬ ∀ (calls : List Call) (w : SendRes) (msg : UdMsg),
      PacksWhole w msg (api.run Lib.fresh calls).us := by
  intro h
  have hwhole := h [] .full
    ⟨7, List.replicate 256 1, by rw [List.length_replicate]; omega⟩
  have hiff := packsWhole_iff_of_sane (run_sane []).send .full
    ⟨7, List.replicate 256 1, by rw [List.length_replicate]; omega⟩
  rcases hiff.mp hwhole with hshort | ⟨-, -, hfail⟩
  · rw [UdMsg.dlen, List.length_replicate] at hshort
    omega
  · contradiction

end Unserding
