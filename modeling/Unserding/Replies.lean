import Unserding.Records

/-!
# Replies to a PING

Every visit of `ud_chck_msg` to a datagram whose header says PING runs into
`ud_pack_pong`, which flushes the pending packet and sends one PONG.  How often
a PING is answered is therefore the number of visits its payload takes.
-/

namespace Unserding

open Foundation

theorem dlen_pingMsg_le (cmd : UInt16) (hnz : UInt8) {buf : Bytes}
    (h : buf.length = pingMsgSize) : (pingMsg cmd hnz buf).dlen ≤ pingMsgSize := by
  rw [← h]
  exact List.length_take_le' _ _

theorem udPackPong_cases (e : Env) {s : Lib} (hs : s.Sane) :
    (e.hostname = none ∧ udPackPong 1 e s = ⟨-1, s, []⟩) ∨
    ∃ msg : UdMsg, msg.svc = svcPong ∧
      (udPackPong 1 e s).tx = (udFlush e.w₁ s.us).tx ++
        ((sendto e.w₂ (ctrlPacket (udFlush e.w₁ s.us).st.pno msg)).map
          Tx.ctrl).toList ∧
      (udPackPong 1 e s).st.us.npk = (udFlush e.w₁ s.us).st.npk ∧
      (udPackPong 1 e s).st.us.svc = (udFlush e.w₁ s.us).st.svc := by
  simp only [udPackPong]
  split
  · rename_i hpo
    split at hpo
    · exact .inl ⟨Option.map_eq_none_iff.mp hpo, rfl⟩
    · contradiction
  · rename_i po hpo
    simp only [if_pos (show (1 : Nat) ≠ 0 from Nat.one_ne_zero), udPackPing,
      pingCmd]
    have hbuf := length_putPing { po with what := .pong } hs.g.msg_length
    have hdlen := dlen_pingMsg_le (udCtrlSvc (udSvcPing + 1))
      (hnzOf po.hostname.length) hbuf
    refine .inr ⟨pingMsg (udCtrlSvc (udSvcPing + 1))
      (hnzOf po.hostname.length) (putPing { po with what := .pong } s.g.msg),
      rfl, ?_⟩
    rcases udPackCmsg_cases e.w₂ (pingMsg (udCtrlSvc (udSvcPing + 1))
        (hnzOf po.hostname.length) (putPing { po with what := .pong } s.g.msg))
        (s := ⟨{ s.g with
          po := { po with what := .pong }
          msg := putPing { po with what := .pong } s.g.msg },
          (udFlush e.w₁ s.us).st⟩) hs.g.ctrl_length with
      ⟨hsize, -⟩ | ⟨-, ctrl, -, ⟨hsend, heq⟩ | ⟨dgram, hsend, heq⟩⟩
    · unfold pingMsgSize at hdlen
      unfold ctrlMtu hdrSize at hsize
      omega
    · rw [heq, hsend]
      exact ⟨rfl, rfl, rfl⟩
    · rw [heq, hsend]
      exact ⟨rfl, rfl, rfl⟩

/-! ## Counting PONGs -/

def isPong (tx : Tx) : Bool := hdrCmd tx.dgram == svcPong

def pongs (txs : List Tx) : Nat := txs.countP isPong

@[simp] theorem pongs_nil : pongs [] = 0 := rfl

@[simp] theorem pongs_append (first second : List Tx) :
    pongs (first ++ second) = pongs first + pongs second :=
  List.countP_append

def Sock.PendingPong (us : Sock) : Prop := 0 < us.npk ∧ us.svc = svcPong

instance (us : Sock) : Decidable us.PendingPong := by
  unfold Sock.PendingPong
  infer_instance

structure Env.Obliging (e : Env) : Prop where
  hostname : e.hostname ≠ none
  w₁ : e.w₁ = .full
  w₂ : e.w₂ = .full

theorem udFlush_pongs (us : Sock) :
    pongs (udFlush .full us).tx = if us.PendingPong then 1 else 0 := by
  rcases udFlush_cases .full us with
    ⟨hnpk, heq⟩ | ⟨-, hsend, -⟩ | ⟨hnpk, dgram, hsend, heq⟩
  · rw [heq, if_neg (fun h : us.PendingPong => by have := h.1; omega)]
    rfl
  · contradiction
  · have hdgram : dgram = us.packet := (Option.some.inj hsend).symm
    have hcmd : hdrCmd dgram = us.svc := by
      rw [hdgram, Sock.packet, hdrCmd_udHdr]
    rw [heq]
    by_cases hsvc : us.svc = svcPong
    · rw [if_pos ⟨hnpk, hsvc⟩]
      simp [pongs, isPong, Tx.dgram, hcmd, hsvc]
    · rw [if_neg (fun h : us.PendingPong => hsvc h.2)]
      simp [pongs, isPong, Tx.dgram, hcmd, hsvc]

theorem reply_pongs {e : Env} (he : e.Obliging) {s : Lib} (hs : s.Sane)
    (hcmd : hdrCmd s.us.recv = svcPing) :
    pongs (reply e s).2 = (if s.us.PendingPong then 1 else 0) + 1 ∧
      (reply e s).1.us.npk = 0 := by
  rw [reply, if_pos hcmd]
  rcases udPackPong_cases e hs with ⟨hnone, -⟩ | ⟨msg, hsvc, htx, hempty, -⟩
  · exact absurd hnone he.hostname
  · rw [he.w₁, he.w₂] at htx
    rw [he.w₁, udFlush_full_npk] at hempty
    refine ⟨?_, hempty⟩
    have hpong : isPong (.ctrl (ctrlPacket (udFlush .full s.us).st.pno msg)) =
        true := by
      simp [isPong, Tx.dgram, ctrlPacket, hsvc]
    rw [htx, pongs_append, udFlush_pongs]
    simp [pongs, sendto, hpong]

/-! ## Draining -/

def drain : List Env → Lib → Option (Lib × List Tx)
  | [], _ => none
  | e :: es, s =>
      let r := udChckMsg e s
      match r.val with
      | none => some (r.st, r.tx)
      | some _ => (drain es r.st).map fun (last, tx) => (last, r.tx ++ tx)

theorem drain_none {e : Env} {es : List Env} {s : Lib}
    (h : (udChckMsg e s).val = none) :
    drain (e :: es) s = some ((udChckMsg e s).st, (udChckMsg e s).tx) := by
  simp [drain, h]

theorem drain_some {e : Env} {es : List Env} {s : Lib} {msg : MsgRef}
    (h : (udChckMsg e s).val = some msg) :
    drain (e :: es) s = (drain es (udChckMsg e s).st).map
      fun (last, tx) => (last, (udChckMsg e s).tx ++ tx) := by
  simp [drain, h]

theorem drain_first {e : Env} {es : List Env} {s last : Lib} {tx : List Tx}
    (h : drain (e :: es) s = some (last, tx)) :
    pongs (udChckMsg e s).tx ≤ pongs tx := by
  cases hval : (udChckMsg e s).val with
  | none =>
      rw [drain_none hval] at h
      cases h
      exact Nat.le_refl _
  | some msg =>
      rw [drain_some hval] at h
      obtain ⟨⟨last', tx'⟩, -, heq⟩ := Option.map_eq_some_iff.mp h
      cases heq
      rw [pongs_append]
      exact Nat.le_add_right _ _

/--
A drain ends: a call either finds nothing or moves the cursor on, so the induction
on the calls available goes along with the bytes still unread.
-/
theorem drain_ends {s : Lib} (hs : s.Sane) (hnrd : s.us.nrd ≠ 0)
    {es : List Env} (hes : s.us.unread.length < es.length) :
    ∃ last tx, drain es s = some (last, tx) := by
  induction es generalizing s with
  | nil => contradiction
  | cons e es ih =>
      cases hval : (udChckMsg e s).val with
      | none => exact ⟨_, _, drain_none hval⟩
      | some msg =>
          have hsane := udChckMsg_sane e hs
          have hlen := hs.recv.length_unread
          have hlen' := hsane.recv.length_unread
          obtain ⟨hleft, hsame, hmoved⟩ := udChckMsg_some_left hnrd hval
          obtain ⟨last, tx, hdrain⟩ := ih hsane (by rw [hsame]; exact hnrd)
            (by rw [List.length_cons] at hes; omega)
          exact ⟨last, (udChckMsg e s).tx ++ tx,
            by rw [drain_some hval, hdrain]; rfl⟩

theorem udChckMsg_visit (e : Env) {s : Lib} (h : s.us.nck < s.us.nrd) :
    (udChckMsg e s).tx = (reply e s).2 := by
  rw [udChckMsg_more e h, chckMsg_eq]

theorem drain_pongs_pos {s : Lib} (hs : s.Sane) (hmore : s.us.nck < s.us.nrd)
    (hcmd : hdrCmd s.us.recv = svcPing) {es : List Env}
    (hobl : ∀ e ∈ es, e.Obliging) {last : Lib} {tx : List Tx}
    (h : drain es s = some (last, tx)) : 0 < pongs tx := by
  cases es with
  | nil => contradiction
  | cons e es =>
      have hfirst := drain_first h
      have hpongs := reply_pongs (hobl e List.mem_cons_self) hs hcmd
      rw [udChckMsg_visit e hmore, hpongs.1] at hfirst
      omega

theorem drain_pongs_eq_one_iff {s : Lib} (hs : s.Sane)
    (hcmd : hdrCmd s.us.recv = svcPing) {blob : Bytes} {blobs : List Bytes}
    (hunread : s.us.unread = (blob :: blobs).flatMap record) {es : List Env}
    (hobl : ∀ e ∈ es, e.Obliging) {last : Lib} {tx : List Tx}
    (h : drain es s = some (last, tx)) :
    pongs tx = 1 ↔ (blob.length < 256 ∧ blobs = []) ∧ ¬ s.us.PendingPong := by
  cases es with
  | nil => contradiction
  | cons e es =>
      have hlen := hs.recv.length_unread
      have hle := hs.recv.nrd_le
      rw [hunread] at hlen
      rw [List.flatMap_cons, record] at hunread
      simp only [List.flatMap_cons, List.length_append, length_record] at hlen
      have hmore := hs.recv.more_of_unread hunread
      have hread := udChckMsg_record e hs hunread (isData_record _)
      have hdlen := @recLen_record blob (by
        unfold ethMtu hdrSize at hle
        omega)
      have hnck := hread.nck
      have hnrd := hread.nrd
      rw [hdlen] at hnck
      have hpongs := reply_pongs (hobl e List.mem_cons_self) hs hcmd
      rw [drain_some hread.val] at h
      obtain ⟨⟨last', tx'⟩, hrest, heq⟩ := Option.map_eq_some_iff.mp h
      cases heq
      rw [pongs_append, udChckMsg_visit e hmore, hpongs.1]
      by_cases hone : blob.length < 256 ∧ blobs = []
      · obtain ⟨hblob, rfl⟩ := hone
        have hquiet : pongs tx' = 0 := by
          cases es with
          | nil => contradiction
          | cons e' es =>
              have hend := udChckMsg_end e' (s := (udChckMsg e s).st)
                (by simp only [List.flatMap_nil, List.length_nil] at hlen; omega)
                (by omega)
              rw [drain_none (congrArg Res.val hend), hend] at hrest
              cases hrest
              rfl
        rw [hquiet]
        by_cases hpending : s.us.PendingPong <;> simp [hpending, hblob]
      · have hagain : 0 < pongs tx' := by
          refine drain_pongs_pos (udChckMsg_sane e hs) ?_
            (by rw [hread.recv]; exact hcmd)
            (fun e' he' => hobl e' (List.mem_cons_of_mem _ he')) hrest
          cases blobs with
          | nil =>
              have hlong : ¬ blob.length < 256 := fun h => hone ⟨h, rfl⟩
              omega
          | cons other blobs =>
              simp only [List.flatMap_cons, List.length_append, length_record]
                at hlen
              omega
        simp only [hone, false_and, iff_false]
        omega

/--
An idle socket that is drained after a PING of records came in sends exactly one
PONG if and only if the payload is a single record of less than 256 bytes and no
pending packet is labelled PONG.  In particular an empty payload is not answered.
-/
theorem ping_answered_once_iff (calls : List Call)
    (hidle : (api.run Lib.fresh calls).us.nrd = 0) {d : Arrival}
    (hd : d.Accepted) (hcmd : hdrCmd d.bytes = svcPing) {blobs : List Bytes}
    (hpayload : d.payload = blobs.flatMap record) {e : Env} {es : List Env}
    (hrx : e.rx = some d) (hobl : ∀ e' ∈ e :: es, e'.Obliging)
    (hes : ethMtu ≤ es.length) :
    ∃ last tx, drain (e :: es) (api.run Lib.fresh calls) = some (last, tx) ∧
      (pongs tx = 1 ↔ (∃ blob, blobs = [blob] ∧ blob.length < 256) ∧
        ¬ (api.run Lib.fresh calls).us.PendingPong) := by
  have hs := run_sane calls
  generalize api.run Lib.fresh calls = s at hidle hs
  cases blobs with
  | nil =>
      have hempty := udChckMsg_empty hd hidle hrx hpayload
      refine ⟨_, _, drain_none (congrArg Res.val hempty), ?_⟩
      simp [hempty]
  | cons blob blobs =>
      have hne : d.payload ≠ [] := by
        rw [hpayload]
        exact List.cons_ne_nil _ _
      have hunread := (load_unread d s.us).trans hpayload
      have hlen := length_payload d
      have hroom : (load d s.us).unread.length < (e :: es).length := by
        rw [load_unread, hlen, List.length_cons]
        unfold Arrival.nrd
        omega
      obtain ⟨last, tx, hdrain⟩ :=
        drain_ends (hs.load d) (load_nrd_ne_zero s.us hne) hroom
      have hiff := drain_pongs_eq_one_iff (hs.load d)
        ((hdrCmd_recvfrom s.us hd.1).trans hcmd) hunread hobl hdrain
      refine ⟨last, tx, ?_, ?_⟩
      · rw [← hdrain, drain, drain, udChckMsg_load hd hidle hrx hne]
      · rw [hiff]
        refine and_congr ?_ Iff.rfl
        constructor
        · rintro ⟨hblob, rfl⟩
          exact ⟨blob, rfl, hblob⟩
        · rintro ⟨blob', heq, hblob⟩
          cases heq
          exact ⟨hblob, rfl⟩

theorem Env.Obliging.polled {e : Env} (h : e.Obliging) (n : Nat) :
    ∀ e' ∈ e :: List.replicate n e, e'.Obliging := by
  intro e' he'
  rcases List.mem_cons.mp he' with rfl | hrest
  · exact h
  · rw [List.eq_of_mem_replicate hrest]
    exact h

theorem ping_answered_once_iff_witness :
    let d : Arrival := ⟨udHdr 0 svcPing ++ [[0x41]].flatMap record,
      Vector.replicate 28 0⟩
    let e : Env := ⟨some d, some [0x68], 0, .full, .full⟩
    ∃ last tx, drain (e :: List.replicate ethMtu e) Lib.fresh =
      some (last, tx) ∧ pongs tx = 1 := by
  intro d e
  have hobl : e.Obliging := ⟨by simp [e], rfl, rfl⟩
  have hacc : hdrAccepted d.bytes = true := hdrAccepted_udHdr 0 svcPing _
  have hpayload : d.payload = [[0x41]].flatMap record :=
    Arrival.payload_of_bytes rfl (length_udHdr 0 svcPing) (by decide)
  obtain ⟨last, tx, hdrain, hiff⟩ := ping_answered_once_iff [] rfl
    (Arrival.accepted_of_bytes rfl (length_udHdr 0 svcPing) hacc)
    (hdrCmd_udHdr 0 svcPing _) hpayload (show e.rx = some d from rfl)
    (hobl.polled ethMtu) (by rw [List.length_replicate])
  exact ⟨last, tx, hdrain, hiff.mpr ⟨⟨[0x41], rfl, by decide⟩,
    fun h => absurd h.1 (Nat.lt_irrefl 0)⟩⟩

/-- A PING without payload is not answered. -/
theorem ping_not_answered_once :
    ¬ ∀ (calls : List Call) (d : Arrival) (blobs : List Bytes) (e : Env)
      (es : List Env), (api.run Lib.fresh calls).us.nrd = 0 → d.Accepted →
      hdrCmd d.bytes = svcPing → d.payload = blobs.flatMap record →
      e.rx = some d → (∀ e' ∈ e :: es, e'.Obliging) → ethMtu ≤ es.length →
      ∃ last tx, drain (e :: es) (api.run Lib.fresh calls) = some (last, tx) ∧
        pongs tx = 1 := by
  intro h
  let d : Arrival := ⟨udHdr 0 svcPing, Vector.replicate 28 0⟩
  let e : Env := ⟨some d, some [0x68], 0, .full, .full⟩
  have hd : d.Accepted := by decide
  have hobl : e.Obliging := ⟨by simp [e], rfl, rfl⟩
  obtain ⟨last, tx, hdrain, hone⟩ := h [] d [] e (List.replicate ethMtu e) rfl hd
    (by decide) (by decide) rfl (hobl.polled ethMtu)
    (by rw [List.length_replicate])
  have hempty : udChckMsg e Lib.fresh =
      ⟨none, { Lib.fresh with us := load d Lib.fresh.us }, []⟩ :=
    udChckMsg_empty hd rfl rfl (by decide)
  rw [System.run_nil, drain_none (congrArg Res.val hempty), hempty] at hdrain
  obtain ⟨-, htx⟩ := Prod.mk.inj (Option.some.inj hdrain)
  rw [← htx] at hone
  contradiction

end Unserding
