import Unserding.Records

/-!
# Messages and the payload they come from

The cursor of `ud_chck_msg` is compared with the end of the payload before a
record is read, the end of the record itself is not.  Messages lie inside the
payload as long as the datagrams read hold whole records, and every datagram
that breaks a record off makes the socket hand out a message that does not.
-/

namespace Unserding

open Foundation

def MsgRef.Within (msg : MsgRef) (us : Sock) : Prop :=
  2 ≤ msg.data ∧ msg.data + msg.dlen ≤ us.nrd

def Sock.received (us : Sock) : Bytes := window us.recv hdrSize us.nrd

/--
A payload whose records end inside it, up to its end or to the first byte that
starts no data record.
-/
inductive Intact : Bytes → Prop where
  | done : Intact []
  | junk {b : UInt8} {rest : Bytes} (hb : isData b = false) :
      Intact (b :: rest)
  | record {b l : UInt8} {blob rest : Bytes} (hb : isData b = true)
      (hlen : recLen b l = blob.length) (hrest : Intact rest) :
      Intact (b :: l :: (blob ++ rest))

/-! ## One checking call -/

theorem Current.received {d : Arrival} {us : Sock} (h : Current d us) :
    us.received = d.payload := by
  have hdrop := congrArg (List.drop hdrSize) h.recv
  rw [List.drop_take, Nat.add_sub_cancel] at hdrop
  exact hdrop

theorem Sock.RecvSane.deref_infix {us : Sock} (h : us.RecvSane) {msg : MsgRef}
    (hin : msg.data + msg.dlen ≤ us.nrd) : us.deref msg <:+: us.received := by
  have hlen := h.recv_length
  have hle := h.nrd_le
  have hmem : us.deref msg = window us.recv (hdrSize + msg.data) msg.dlen := by
    rw [Sock.deref, Sock.mem, List.append_assoc, List.append_assoc]
    exact window_append_left (by unfold ethMtu hdrSize at *; omega)
  rw [hmem, ← window_window hin]
  exact (List.take_prefix _ _).isInfix.trans (List.drop_suffix _ _).isInfix

theorem unread_of_nrd_eq_zero {us : Sock} (h : us.nrd = 0) :
    us.unread = [] := by
  rw [Sock.unread, h, Nat.zero_sub, window_zero]

def ReadsIntact (us : Sock) (rx : Option Arrival) : Prop :=
  ∀ d, readNow us rx = some d → d.Accepted → Intact d.payload

theorem udDscrd_intact {us : Sock} {rx : Option Arrival}
    (hrx : ReadsIntact us rx) : Intact (udDscrd rx us).st.unread := by
  rcases udDscrd_cases rx us with ⟨-, heq⟩ | ⟨hnrd, -, heq⟩ |
    ⟨hnrd, d, -, -, heq⟩ | ⟨hnrd, d, hd, hacc, heq⟩
  · rw [heq, unread_of_nrd_eq_zero rfl]
    exact .done
  · rw [heq, unread_of_nrd_eq_zero hnrd]
    exact .done
  · rw [heq, unread_of_nrd_eq_zero (show (recvfrom d us).nrd = 0 from hnrd)]
    exact .done
  · rw [heq, load_unread]
    exact hrx d (by rw [readNow, if_pos hnrd, hd]) hacc

theorem refill_intact {us : Sock} {rx : Option Arrival}
    (h : Intact us.unread) (hrx : ReadsIntact us rx) :
    Intact (refill rx us).unread := by
  unfold refill
  split
  · exact udDscrd_intact hrx
  · exact h

theorem takeMsg_intact (svc : UInt16) {us : Sock} (hs : us.RecvSane)
    (h : Intact us.unread) (hmore : us.nck < us.nrd) :
    Intact (takeMsg svc us).2.unread ∧
      ∀ msg, (takeMsg svc us).1 = some msg → msg.Within (takeMsg svc us).2 := by
  generalize hunread : us.unread = bytes at h
  cases h with
  | done =>
      have hlen := hs.length_unread
      rw [hunread, List.length_nil] at hlen
      omega
  | junk hb =>
      rw [takeMsg_junk hs svc hunread hb]
      refine ⟨?_, fun msg hmsg => by contradiction⟩
      rw [unread_of_nrd_eq_zero rfl]
      exact .done
  | record hb hlen hrest =>
      obtain ⟨hval, -, hleft, hin⟩ := takeMsg_record hs svc hunread hb hlen
      refine ⟨by rw [hleft]; exact hrest, ?_⟩
      intro msg hmsg
      rw [hval] at hmsg
      cases hmsg
      rw [takeMsg_data hs svc hunread hb]
      exact ⟨Nat.le_add_left _ _, hin⟩

theorem udChckMsg_intact (e : Env) {s : Lib} (hs : s.Sane)
    (h : Intact s.us.unread) (hrx : ReadsIntact s.us e.rx) :
    Intact (udChckMsg e s).st.us.unread ∧
      ∀ msg, (udChckMsg e s).val = some msg →
        msg.Within (udChckMsg e s).st.us := by
  have hrefill := refill_intact h hrx
  have hsane := refill_recvSane e.rx hs.recv
  rw [udChckMsg_eq]
  split
  · rename_i hmore
    have hinbox := reply_inbox e { s with us := refill e.rx s.us }
    have hunread := unread_congr hinbox
    have hrecv := hsane.congr hinbox
    obtain ⟨-, hnrd, hnck, -⟩ := Sock.eq_of_inbox hinbox
    rw [chckMsg_eq]
    exact takeMsg_intact _ hrecv (by rw [hunread]; exact hrefill)
      (by rw [hnrd, hnck]; exact hmore)
  · exact ⟨hrefill, fun msg hmsg => by contradiction⟩

/-! ## Runs -/

theorem call_intact {s : Lib} (hs : s.Sane) (h : Intact s.us.unread) {c : Call}
    (hrx : ReadsIntact s.us c.rx) : Intact (api.step s c).1.us.unread := by
  rcases call_receives s c with ⟨-, hinbox⟩ | ⟨e, hcall, hus⟩ | hus
  · rw [unread_congr hinbox]
    exact h
  · rw [hus]
    exact (udChckMsg_intact e hs h (hcall ▸ hrx)).1
  · rw [hus]
    exact udDscrd_intact hrx

def LeavesIntact (last : Option Arrival) (us : Sock) : Prop :=
  ∀ d, last = some d → Intact d.payload → Intact us.unread

theorem LeavesIntact.before {last : Option Arrival} {us : Sock}
    (h : LeavesIntact last us) {rx : Option Arrival} {d : Arrival}
    (hlast : (readNow us rx).or last = some d) (hd : Intact d.payload) :
    Intact us.unread ∧ ReadsIntact us rx := by
  cases hread : readNow us rx with
  | none =>
      rw [hread, Option.none_or] at hlast
      exact ⟨h d hlast hd, fun d' hd' => by rw [hread] at hd'; contradiction⟩
  | some d' =>
      rw [hread, Option.some_or] at hlast
      cases hlast
      have hnrd : us.nrd = 0 := by
        by_contra hne
        rw [readNow, if_neg hne] at hread
        contradiction
      refine ⟨by rw [unread_of_nrd_eq_zero hnrd]; exact .done, ?_⟩
      intro d' hd' _
      rw [hread] at hd'
      cases hd'
      exact hd

theorem run_leavesIntact (calls : List Call) :
    LeavesIntact (Trace.lastRead (api.events Lib.fresh calls))
      (api.run Lib.fresh calls).us := by
  refine (System.history (S := api) (G := fun _ _ => True)
    (H := fun es s => s.Sane ∧ LeavesIntact (Trace.lastRead es) s.us) ?_
    ⟨Lib.fresh_sane, fun d hlast => by contradiction⟩ calls
    (fun _ _ => trivial)).2
  rintro es s c ⟨hs, hleaves⟩ -
  refine ⟨call_sane s c hs, ?_⟩
  intro d hlast hd
  rw [Trace.lastRead_append] at hlast
  obtain ⟨hunread, hrx⟩ := hleaves.before hlast hd
  exact call_intact hs hunread hrx

theorem run_within {calls : List Call} {e : Env} {msg : MsgRef} {d : Arrival}
    (hmsg : (udChckMsg e (api.run Lib.fresh calls)).val = some msg)
    (hlast : Trace.lastRead
      (api.events Lib.fresh (calls ++ [.udChckMsg e])) = some d)
    (hd : Intact d.payload) :
    msg.Within (udChckMsg e (api.run Lib.fresh calls)).st.us := by
  rw [System.events_append] at hlast
  obtain ⟨hunread, hrx⟩ := (run_leavesIntact calls).before
    ((Trace.lastRead_append _ _ (.udChckMsg e)).symm.trans hlast) hd
  exact (udChckMsg_intact e (run_sane calls) hunread hrx).2 msg hmsg

/-! ## Torn payloads -/

def Exposes (ev : Event Lib Call Obs) : Prop :=
  ∃ msg, ev.output.ans = .msg (some msg) ∧ ¬ msg.Within ev.post.us

theorem not_within_of_broken {s : Lib} (hs : s.Sane) {b : UInt8} {rest : Bytes}
    (hunread : s.us.unread = b :: rest) (hb : isData b = true)
    (hbroken : ¬ ∃ l blob left, rest = l :: (blob ++ left) ∧
      recLen b l = blob.length) (e : Env) :
    ∃ msg, (udChckMsg e s).val = some msg ∧
      ¬ msg.Within (udChckMsg e s).st.us := by
  have hlen := hs.recv.length_unread
  have hfirst := udChckMsg_first e hs hunread hb
  rw [hunread] at hlen
  refine ⟨_, hfirst.val, ?_⟩
  rintro ⟨-, hin⟩
  change s.us.nck + 2 + recLen b _ ≤ (udChckMsg e s).st.us.nrd at hin
  rw [hfirst.nrd] at hin
  refine hbroken ?_
  cases rest with
  | nil =>
      simp only [List.length_cons, List.length_nil] at hlen
      omega
  | cons l rest =>
      have hrecord := udChckMsg_record e hs hunread hb
      have hl := hfirst.val.symm.trans hrecord.val
      simp only [Option.some.injEq, MsgRef.mk.injEq, true_and] at hl
      simp only [List.length_cons] at hlen
      rw [hl] at hin
      refine ⟨l, rest.take (recLen b l), rest.drop (recLen b l),
        by rw [List.take_append_drop], ?_⟩
      rw [List.length_take]
      omega

/--
Polling a payload that breaks a record off ends up outside of it.  The induction
is on the polls: a record that is whole leaves a shorter torn payload.
-/
theorem exposes_of_torn {s : Lib} (hs : s.Sane) (h : ¬ Intact s.us.unread)
    (es : List Env) (hes : s.us.unread.length ≤ es.length) :
    ∃ ev ∈ api.events s (es.map .udChckMsg), Exposes ev := by
  induction es generalizing s with
  | nil =>
      rw [List.eq_nil_of_length_eq_zero (Nat.le_zero.mp hes)] at h
      exact absurd .done h
  | cons e es ih =>
      generalize hunread : s.us.unread = bytes at h hes
      cases bytes with
      | nil => exact absurd .done h
      | cons b rest =>
          have hb : isData b = true := by
            cases hb : isData b with
            | false => exact absurd (.junk hb) h
            | true => rfl
          by_cases hwhole : ∃ l blob left, rest = l :: (blob ++ left) ∧
              recLen b l = blob.length
          · obtain ⟨l, blob, left, rfl, hl⟩ := hwhole
            obtain ⟨-, hleft, -⟩ := udChckMsg_complete e hs hunread hb hl
            have htorn : ¬ Intact (udChckMsg e s).st.us.unread := by
              rw [hleft]
              exact fun hrest => h (.record hb hl hrest)
            obtain ⟨ev, hev, hexposes⟩ := ih (udChckMsg_sane e hs) htorn
              (by
                rw [hleft]
                simp only [List.length_cons, List.length_append] at hes
                omega)
            exact ⟨ev, List.mem_cons_of_mem _ hev, hexposes⟩
          · obtain ⟨msg, hmsg, hout⟩ :=
              not_within_of_broken hs hunread hb hwhole e
            exact ⟨_, List.mem_cons_self, msg, congrArg Answer.msg hmsg, hout⟩

theorem exposes_of_torn_payload {s : Lib} (hs : s.Sane) (hnrd : s.us.nrd = 0)
    {d : Arrival} (hd : d.Accepted) (h : ¬ Intact d.payload) {e : Env}
    (hrx : e.rx = some d) {es : List Env} (hes : ethMtu ≤ es.length) :
    ∃ ev ∈ api.events s ((e :: es).map .udChckMsg), Exposes ev := by
  have hpayload : d.payload ≠ [] := fun hnil => h (hnil ▸ .done)
  have heq := udChckMsg_load hd hnrd hrx hpayload
  have hlen := length_payload d
  obtain ⟨ev, hev, hexposes⟩ := exposes_of_torn (hs.load d)
    (by rw [load_unread]; exact h) (e :: es)
    (by
      rw [load_unread, hlen, List.length_cons]
      unfold Arrival.nrd
      omega)
  rcases List.mem_cons.mp hev with rfl | hrest
  · obtain ⟨msg, hmsg, hout⟩ := hexposes
    refine ⟨_, List.mem_cons_self, msg, ?_, ?_⟩
    · change Answer.msg (udChckMsg e s).val = _
      rw [heq]
      exact hmsg
    · change ¬ msg.Within (udChckMsg e s).st.us
      rw [heq]
      exact hout
  · refine ⟨ev, List.mem_cons_of_mem _ ?_, hexposes⟩
    change ev ∈ api.events (udChckMsg e s).st (es.map .udChckMsg)
    rw [heq]
    exact hrest

/--
A message, and the bytes copied out of it, lie in the payload of the last
datagram read if that datagram holds whole records.  Every other datagram makes
an idle socket that is polled hand out bytes which did not arrive in it.
-/
theorem messages_contained (calls : List Call) :
    (∀ e msg, (udChckMsg e (api.run Lib.fresh calls)).val = some msg →
      ∃ d, Trace.lastRead (api.events Lib.fresh (calls ++ [.udChckMsg e])) =
          some d ∧
        (udChckMsg e (api.run Lib.fresh calls)).st.us.received = d.payload ∧
        (Intact d.payload →
          msg.Within (udChckMsg e (api.run Lib.fresh calls)).st.us)) ∧
    (∀ tsz e svc bytes,
      (udChck tsz e (api.run Lib.fresh calls)).val = some (svc, bytes) →
      ∃ d, Trace.lastRead (api.events Lib.fresh (calls ++ [.udChck tsz e])) =
          some d ∧
        (Intact d.payload → bytes <:+: d.payload)) ∧
    (∀ d e es, (api.run Lib.fresh calls).us.nrd = 0 → d.Accepted →
      ¬ Intact d.payload → e.rx = some d → ethMtu ≤ es.length →
      ∃ ev ∈ api.events (api.run Lib.fresh calls) ((e :: es).map .udChckMsg),
        Exposes ev) := by
  have hsane := run_sane calls
  refine ⟨?_, ?_, ?_⟩
  · intro e msg hmsg
    obtain ⟨d, hd, hcur⟩ := run_current hmsg
    exact ⟨d, hd, hcur.received, run_within hmsg hd⟩
  · intro tsz e svc bytes hcopy
    obtain ⟨msg, hmsg, hbytes⟩ := Option.map_eq_some_iff.mp hcopy
    obtain ⟨-, rfl⟩ := Prod.mk.inj hbytes
    obtain ⟨d, hd, hcur⟩ := run_current hmsg
    refine ⟨d, ?_, fun hintact => ?_⟩
    · rw [← hd, System.events_append, System.events_append]
      exact (Trace.lastRead_append _ _ (.udChck tsz e)).trans
        (Trace.lastRead_append _ _ (.udChckMsg e)).symm
    · have hin := run_within hmsg hd hintact
      have hcut : min msg.dlen tsz ≤ msg.dlen := Nat.min_le_left _ _
      rw [← hcur.received]
      exact (udChckMsg_sane e hsane).recv.deref_infix
        (Nat.le_trans (Nat.add_le_add_left hcut _) hin.2)
  · intro d e es hnrd hd htorn hrx hes
    exact exposes_of_torn_payload hsane hnrd hd htorn hrx hes

theorem messages_contained_witness :
    let d : Arrival := ⟨udHdr 0 1 ++ record [0x41] ++ record [] ++
      record [0x42, 0x43], Vector.replicate 28 0⟩
    let e (rx : Option Arrival) : Env := ⟨rx, none, 0, .full, .full⟩
    let calls : List Call := [.udChckMsg (e (some d)), .udChckMsg (e none)]
    MsgRef.Within ⟨1, 7, 2⟩
      (udChckMsg (e none) (api.run Lib.fresh calls)).st.us := by
  intro d e calls
  obtain ⟨d', hd, -, hwithin⟩ :=
    (messages_contained calls).1 (e none) ⟨1, 7, 2⟩ (by decide +kernel)
  have hlast : Trace.lastRead (api.events Lib.fresh
      (calls ++ [.udChckMsg (e none)])) = some d := by decide +kernel
  apply hwithin
  rw [← Option.some.inj (hlast.symm.trans hd)]
  have hthird : Intact (record [0x42, 0x43]) :=
    @Intact.record 0x0c 2 [0x42, 0x43] [] (by decide) (by decide) .done
  have hsecond : Intact (record [] ++ record [0x42, 0x43]) :=
    @Intact.record 0x0c 0 [] _ (by decide) (by decide) hthird
  exact @Intact.record 0x0c 1 [0x41] _ (by decide) (by decide) hsecond

/-- A record of 255 bytes whose datagram ends behind its header is handed out. -/
theorem message_not_contained :
    ¬ ∀ (calls : List Call) (e : Env) (msg : MsgRef),
      (udChckMsg e (api.run Lib.fresh calls)).val = some msg →
      msg.Within (udChckMsg e (api.run Lib.fresh calls)).st.us := by
  intro h
  have hin := h [] ⟨some ⟨udHdr 0 1 ++ [0x0c, 0xff], Vector.replicate 28 0⟩,
    none, 0, .full, .full⟩ ⟨1, 2, 255⟩ (by decide)
  exact absurd hin.2 (by decide)

end Unserding
