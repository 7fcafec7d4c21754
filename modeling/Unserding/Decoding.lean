import Unserding.Records

/-!
# Polling a datagram

Successive calls of `ud_chck_msg` on a datagram made of records.  The records
come back as they were written when every length fits one octet; from 256 bytes
on the decoder adds the upper 4 bits of the length to the lower 8.
-/

namespace Unserding

open Foundation

structure Handed where
  svc : UInt16
  dlen : Nat
  bytes : Bytes
  deriving DecidableEq

/-- What a poll with `ud_chck_msg` found, `none` where it returned -1. -/
def found (ev : Event Lib Call Obs) : Option Handed :=
  match ev.output.ans with
  | .msg (some msg) => some ⟨msg.svc, msg.dlen, ev.post.us.deref msg⟩
  | _ => none

def polls (s : Lib) (es : List Env) : List (Option Handed) :=
  (api.events s (es.map .udChckMsg)).map found

@[simp] theorem polls_nil (s : Lib) : polls s [] = [] := rfl

theorem polls_cons (e : Env) (es : List Env) (s : Lib) :
    polls s (e :: es) =
      found (api.event s (.udChckMsg e)) :: polls (udChckMsg e s).st es := rfl

theorem found_none {e : Env} {s : Lib} (h : (udChckMsg e s).val = none) :
    found (api.event s (.udChckMsg e)) = none := by
  simp [found, System.event, api, Call.step, h]

theorem found_some {e : Env} {s : Lib} {msg : MsgRef}
    (h : (udChckMsg e s).val = some msg) :
    found (api.event s (.udChckMsg e)) =
      some ⟨msg.svc, msg.dlen, (udChckMsg e s).st.us.deref msg⟩ := by
  simp [found, System.event, api, Call.step, h]

theorem found_congr {e : Env} {s s' : Lib}
    (h : udChckMsg e s = udChckMsg e s') :
    found (api.event s (.udChckMsg e)) = found (api.event s' (.udChckMsg e)) := by
  simp only [found, System.event, api, Call.step, h]

def handed (svc : UInt16) (blob : Bytes) : Handed := ⟨svc, blob.length, blob⟩

theorem udChckMsg_blob (e : Env) {s : Lib} (hs : s.Sane) {blob rest : Bytes}
    (hblob : blob.length < 256) (hunread : s.us.unread = record blob ++ rest) :
    found (api.event s (.udChckMsg e)) =
        some (handed (hdrCmd s.us.recv) blob) ∧
      (udChckMsg e s).st.us.unread = rest ∧
      (udChckMsg e s).st.us.nrd = s.us.nrd ∧
      (udChckMsg e s).st.us.recv = s.us.recv := by
  have hlen := @recLen_record blob (by omega)
  rw [Nat.div_eq_of_lt hblob, Nat.zero_add] at hlen
  have hl := hlen.trans (Nat.mod_eq_of_lt hblob)
  rw [record, Nat.div_eq_of_lt hblob] at hunread
  have hread := udChckMsg_record e hs hunread (isData_record 0)
  obtain ⟨hderef, hrest, -⟩ :=
    udChckMsg_complete e hs hunread (isData_record 0) hl
  refine ⟨?_, hrest, hread.nrd, hread.recv⟩
  rw [found_some hread.val, hderef, hl]
  rfl

theorem found_blob_ne (e : Env) {s : Lib} (hs : s.Sane) {blob rest : Bytes}
    (hblob : 256 ≤ blob.length) (hmax : blob.length < 4096)
    (hunread : s.us.unread = record blob ++ rest) (svc : UInt16) :
    found (api.event s (.udChckMsg e)) ≠ some (handed svc blob) := by
  have hread := udChckMsg_record e hs hunread (isData_record _)
  rw [found_some hread.val]
  intro h
  have hdlen := congrArg Handed.dlen (Option.some.inj h)
  simp only [handed] at hdlen
  rw [recLen_record hmax] at hdlen
  omega

/--
Records are read back exactly when their lengths fit one octet.  The induction
is on the records, and the cursor stands at the first of them.
-/
theorem polls_records_iff {s : Lib} (hs : s.Sane) (hnrd : s.us.nrd ≠ 0)
    {blobs : List Bytes} (hunread : s.us.unread = blobs.flatMap record)
    {es : List Env} (hes : es.length = blobs.length + 1) :
    polls s es = blobs.map (some ∘ handed (hdrCmd s.us.recv)) ++ [none] ↔
      ∀ blob ∈ blobs, blob.length < 256 := by
  have hlen := hs.recv.length_unread
  have hle := hs.recv.nrd_le
  rw [hunread] at hlen
  obtain ⟨e, es, rfl⟩ := List.exists_cons_of_length_eq_add_one hes
  rw [List.length_cons, Nat.add_right_cancel_iff] at hes
  induction blobs generalizing s e es with
  | nil =>
      rw [List.length_eq_zero_iff.mp hes, polls_cons]
      have hend := udChckMsg_end e (s := s)
        (by simp only [List.flatMap_nil, List.length_nil] at hlen; omega) hnrd
      simp [found_none (congrArg Res.val hend)]
  | cons blob blobs ih =>
      obtain ⟨e', es, rfl⟩ := List.exists_cons_of_length_eq_add_one hes
      rw [List.length_cons, List.length_cons, Nat.add_right_cancel_iff] at hes
      rw [List.flatMap_cons] at hunread
      rw [polls_cons, List.map_cons, List.cons_append, List.cons.injEq,
        List.forall_mem_cons]
      have hmax : blob.length < 4096 := by
        simp only [List.flatMap_cons, List.length_append, length_record] at hlen
        unfold ethMtu hdrSize at hle
        omega
      by_cases hblob : blob.length < 256
      · obtain ⟨hfound, hrest, hnrd', hrecv⟩ :=
          udChckMsg_blob e hs hblob hunread
        have hsane := udChckMsg_sane e hs
        have htail := ih hsane (by rw [hnrd']; exact hnrd) hrest
          (by rw [← hrest]; exact hsane.recv.length_unread)
          hsane.recv.nrd_le e' es hes
        rw [hrecv] at htail
        refine and_congr ?_ htail
        simp [hfound, hblob]
      · have hne := found_blob_ne e hs (Nat.le_of_not_lt hblob) hmax hunread
          (hdrCmd s.us.recv)
        simp [hne, hblob]

theorem polls_datagram_iff {s : Lib} (hs : s.Sane) (hnrd : s.us.nrd = 0)
    {d : Arrival} (hd : d.Accepted) {blobs : List Bytes}
    (hpayload : d.payload = blobs.flatMap record) {e : Env}
    (hrx : e.rx = some d) {es : List Env} (hes : es.length = blobs.length) :
    polls s (e :: es) = blobs.map (some ∘ handed (hdrCmd d.bytes)) ++ [none] ↔
      ∀ blob ∈ blobs, blob.length < 256 := by
  cases blobs with
  | nil =>
      have hempty := udChckMsg_empty hd hnrd hrx hpayload
      rw [List.length_eq_zero_iff.mp hes, polls_cons]
      simp [found_none (congrArg Res.val hempty)]
  | cons blob blobs =>
      have hne : d.payload ≠ [] := by
        rw [hpayload]
        exact List.cons_ne_nil _ _
      have hpolls := polls_records_iff (hs.load d)
        (load_nrd_ne_zero s.us hne)
        ((load_unread d s.us).trans hpayload)
        (show (e :: es).length = _ by rw [List.length_cons, hes])
      have hcmd : hdrCmd (load d s.us).recv = hdrCmd d.bytes :=
        hdrCmd_recvfrom s.us hd.1
      have heq := udChckMsg_load hd hnrd hrx hne
      rw [hcmd] at hpolls
      rw [polls_cons, found_congr heq, heq, ← polls_cons]
      exact hpolls

/--
A datagram of records that arrives at an idle socket is read as exactly its
blobs, and then -1, if and only if every blob is shorter than 256 bytes.
-/
theorem decodes_records_iff (calls : List Call)
    (hidle : (api.run Lib.fresh calls).us.nrd = 0) {d : Arrival} {hdr : Bytes}
    {blobs : List Bytes} (hbytes : d.bytes = hdr ++ blobs.flatMap record)
    (hhdr : hdr.length = hdrSize) (hacc : hdrAccepted d.bytes = true)
    (htotal : (blobs.flatMap record).length ≤ 1432) {e : Env}
    (hrx : e.rx = some d) {es : List Env} (hes : es.length = blobs.length) :
    polls (api.run Lib.fresh calls) (e :: es) =
        blobs.map (some ∘ handed (hdrCmd d.bytes)) ++ [none] ↔
      ∀ blob ∈ blobs, blob.length < 256 :=
  polls_datagram_iff (run_sane calls) hidle
    (Arrival.accepted_of_bytes hbytes hhdr hacc)
    (Arrival.payload_of_bytes hbytes hhdr htotal) hrx hes

theorem decodes_records_iff_witness :
    let e : Env := ⟨some ⟨udHdr 0 1 ++ [[0x41], [], [0x42, 0x43]].flatMap record,
      Vector.replicate 28 0⟩, none, 0, .full, .full⟩
    polls Lib.fresh [e, e, e, e] =
      [some ⟨1, 1, [0x41]⟩, some ⟨1, 0, []⟩, some ⟨1, 2, [0x42, 0x43]⟩,
        none] := by
  intro e
  have hacc : hdrAccepted (udHdr 0 1 ++
      [[0x41], [], [0x42, 0x43]].flatMap record) = true :=
    hdrAccepted_udHdr 0 1 _
  exact (@decodes_records_iff [] rfl ⟨_, Vector.replicate 28 0⟩ _ _ rfl
    (length_udHdr 0 1) hacc (by decide) e rfl [e, e, e] rfl).mpr (by decide)

/-- A blob of 256 bytes is not read back. -/
theorem not_decodes_records :
    ¬ ∀ (calls : List Call) (d : Arrival) (hdr : Bytes) (blobs : List Bytes)
      (e : Env) (es : List Env), (api.run Lib.fresh calls).us.nrd = 0 →
      d.bytes = hdr ++ blobs.flatMap record → hdr.length = hdrSize →
      hdrAccepted d.bytes = true → (∀ blob ∈ blobs, blob.length ≤ 4095) →
      (blobs.flatMap record).length ≤ 1432 → e.rx = some d →
      es.length = blobs.length →
      polls (api.run Lib.fresh calls) (e :: es) =
        blobs.map (some ∘ handed (hdrCmd d.bytes)) ++ [none] := by
  intro h
  have hblob : (List.replicate 256 (0 : UInt8)).length = 256 :=
    List.length_replicate
  generalize List.replicate 256 (0 : UInt8) = blob at hblob
  let d : Arrival := ⟨udHdr 0 1 ++ [blob].flatMap record, Vector.replicate 28 0⟩
  let e : Env := ⟨some d, none, 0, .full, .full⟩
  have hacc : hdrAccepted d.bytes = true := hdrAccepted_udHdr 0 1 _
  have htotal : ([blob].flatMap record).length ≤ ethMtu - hdrSize := by
    simp [hblob, ethMtu, hdrSize]
  have hread := h [] d (udHdr 0 1) [blob] e [e] rfl rfl rfl hacc
    (by simp [hblob]) htotal rfl rfl
  have hshort := (polls_datagram_iff (run_sane []) rfl
    (Arrival.accepted_of_bytes rfl (length_udHdr 0 1) hacc)
    (Arrival.payload_of_bytes rfl (length_udHdr 0 1) htotal) rfl rfl).mp hread
  simp [hblob] at hshort

end Unserding
