import Unserding.Peers
import Unserding.Foundation.Gaps

/-!
# Lost packets

With every message `ud_get_aux` tells the number of the packet it came in.  From
these numbers an application can count the packets of a sender it has not got.
-/

namespace Unserding

open Foundation

/-! ## The numbers an application sees -/

/-- The number that comes with the message of a check, if `addr` has sent it. -/
def numberNow (addr : SockaddrIn6) (ev : Event Lib Call Obs) : Option UInt16 :=
  (found ev).bind fun _ => (udGetAux ev.post.us).bind fun aux =>
    if aux.src.take sockaddrIn6Size = addr.toList then some aux.pno else none

def Trace.numbersFrom (addr : SockaddrIn6) (trace : Trace) : List UInt16 :=
  trace.filterMap (numberNow addr)

def Trace.readsFrom (addr : SockaddrIn6) (trace : Trace) : List Arrival :=
  trace.reads.filter fun d => d.src = addr

theorem numberNow_none {addr : SockaddrIn6} {ev : Event Lib Call Obs}
    (h : found ev = none) : numberNow addr ev = none := by
  rw [numberNow, h]
  rfl

theorem numberNow_some {addr : SockaddrIn6} {e : Env} {s : Lib} {msg : MsgRef}
    {d : Arrival} (h : (udChckMsg e s).val = some msg)
    (hcur : Current d (udChckMsg e s).st.us) :
    numberNow addr (api.event s (.udChckMsg e)) =
      if d.src = addr then some (hdrPno d.bytes) else none := by
  have hpos := (udChckMsg_some h).1
  have hfound : ∃ m, found (api.event s (.udChckMsg e)) = some m := by
    simp [found, System.event, api, Call.step, h]
  obtain ⟨m, hm⟩ := hfound
  have haux : udGetAux (api.event s (.udChckMsg e)).post.us =
      some ⟨(udChckMsg e s).st.us.src.sa, hdrPno (udChckMsg e s).st.us.recv,
        hdrCmd (udChckMsg e s).st.us.recv,
        UInt32.ofNat (udChckMsg e s).st.us.nrd⟩ := if_neg (Nat.ne_of_gt hpos)
  simp [numberNow, hm, haux, hcur.src, hcur.hdrPno, Vector.toList_inj]

/-! ## Packets that begin with a record -/

/-- The first check of the packet finds a message, torn or not. -/
def Arrival.Opens (d : Arrival) : Prop :=
  d.Accepted ∧ ∃ b rest, d.payload = b :: rest ∧ isData b = true

theorem Arrival.opens_of_bytes {d : Arrival} {pno : Nat} {svc : UInt16} {b : UInt8}
    {rest : Bytes} (hbytes : d.bytes = udHdr pno svc ++ b :: rest)
    (hb : isData b = true) : d.Opens := by
  have hhdr := length_udHdr pno svc
  refine ⟨d.accepted_of_bytes hbytes hhdr (by rw [hbytes, hdrAccepted_udHdr]),
    b, rest.take (ethMtu - hdrSize - 1), ?_, hb⟩
  rw [Arrival.payload, hbytes, ← hhdr, List.take_append, List.take_of_length_le
    (by rw [hhdr]; decide), List.drop_left, hhdr]
  rfl

theorem parcelTx_opens {parcel : Parcel UInt16 UdMsg}
    (h : ∀ seq key msgs, parcel = .batch seq key msgs → msgs ≠ [])
    (addr : SockaddrIn6) : Arrival.Opens ⟨(parcelTx parcel).dgram, addr⟩ := by
  cases parcel with
  | batch seq key msgs =>
      cases msgs with
      | nil => exact absurd rfl (h seq key [] rfl)
      | cons msg rest =>
          exact Arrival.opens_of_bytes (d := ⟨_, addr⟩) rfl (by decide)
  | single seq msg =>
      exact Arrival.opens_of_bytes (d := ⟨_, addr⟩) rfl (by decide)

theorem sent_opens {calls : List Call} (h : ∀ c ∈ calls, c.Atomic) {t : Tx}
    (ht : t ∈ Trace.sent (api.events Lib.fresh calls)) (addr : SockaddrIn6) :
    Arrival.Opens ⟨t.dgram, addr⟩ := by
  obtain ⟨o, -, acts, hguard, -, htx, -⟩ :=
    run_sends True h (fun hloose => absurd trivial hloose)
  rw [← htx] at ht
  obtain ⟨parcel, hparcel, rfl⟩ := List.mem_map.mp ht
  refine parcelTx_opens (fun seq key msgs heq => ?_) addr
  exact Outbox.batched_ne_nil UdMsg.svc 0 hguard msgs
    (Parcel.mem_batched (heq ▸ hparcel))

theorem udChckMsg_opens {e : Env} {s : Lib} (hs : s.Sane) {d : Arrival}
    (h : d.Opens) (hread : readNow s.us e.rx = some d) :
    ∃ msg, (udChckMsg e s).val = some msg := by
  obtain ⟨hnrd, hrx⟩ : s.us.nrd = 0 ∧ e.rx = some d := by
    unfold readNow at hread
    split at hread
    · exact ⟨‹_›, hread⟩
    · contradiction
  obtain ⟨hd, b, rest, hpayload, hb⟩ := h
  have hfull : d.payload ≠ [] := by simp [hpayload]
  rw [udChckMsg_load hd hnrd hrx hfull]
  exact ⟨_, (udChckMsg_first e (hs.load d)
    ((load_unread d s.us).trans hpayload) hb).val⟩

/-! ## Runs -/

structure Numbered (addr : SockaddrIn6) (trace : Trace) (s : Lib) : Prop where
  sane : s.Sane
  holds : HoldsLast trace.lastRead s.us
  stutters : Stutters (trace.numbersFrom addr)
    ((trace.readsFrom addr).map fun d => hdrPno d.bytes)

theorem numbersFrom_snoc (addr : SockaddrIn6) (trace : Trace) (s : Lib) (c : Call) :
    Trace.numbersFrom addr (trace ++ [api.event s c]) =
      trace.numbersFrom addr ++ (numberNow addr (api.event s c)).toList := by
  cases h : numberNow addr (api.event s c) <;> simp [Trace.numbersFrom, h]

theorem readsFrom_snoc (addr : SockaddrIn6) (trace : Trace) (s : Lib) (c : Call) :
    Trace.readsFrom addr (trace ++ [api.event s c]) =
      trace.readsFrom addr ++
        (readNow s.us c.rx).toList.filter fun d => d.src = addr := by
  rw [Trace.readsFrom, Trace.reads_append, Trace.reads_singleton,
    List.filter_append, Trace.readsFrom]

theorem Call.quiet_of_not_discards {s : Lib} {c : Call} (h : ¬ c.Discards) :
    (∃ e, c = .udChckMsg e) ∨ (c.rx = none ∧ found (api.event s c) = none) := by
  cases c with
  | udChckMsg e => exact .inl ⟨e, rfl⟩
  | udChck tsz e => exact absurd trivial h
  | udChckPing e => exact absurd trivial h
  | udDscrd rx => exact absurd trivial h
  | _ => exact .inr ⟨rfl, rfl⟩

theorem readNow_of_none {addr : SockaddrIn6} {e : Env} {s : Lib} (hs : s.Sane)
    (hval : (udChckMsg e s).val = none)
    (hopens : ∀ d, readNow s.us e.rx = some d → d.src = addr → d.Opens) :
    ((readNow s.us e.rx).toList.filter fun d => d.src = addr) = [] := by
  cases hread : readNow s.us e.rx with
  | none => rfl
  | some d =>
      by_cases hsrc : d.src = addr
      · obtain ⟨msg, hmsg⟩ := udChckMsg_opens hs (hopens d hread hsrc) hread
        exact absurd (hval.symm.trans hmsg).symm (Option.some_ne_none msg)
      · simp [hsrc]

theorem Numbered.again {addr : SockaddrIn6} {trace : Trace} {s : Lib}
    (h : Numbered addr trace s) {d : Arrival} (hd : trace.lastRead = some d)
    (hsrc : d.src = addr) :
    Stutters (trace.numbersFrom addr ++ [hdrPno d.bytes])
      ((trace.readsFrom addr).map fun d => hdrPno d.bytes) := by
  obtain ⟨init, hinit⟩ : ∃ init, Trace.reads trace = init ++ [d] :=
    ⟨_, (List.dropLast_append_getLast? d hd).symm⟩
  have hlast : trace.readsFrom addr =
      (init.filter fun d => d.src = addr) ++ [d] := by
    rw [Trace.readsFrom, hinit]
    simp [hsrc]
  have hstutters := h.stutters
  rw [hlast, List.map_append] at hstutters ⊢
  exact hstutters.again

theorem udChckMsg_numbered {addr : SockaddrIn6} {trace : Trace} {s : Lib} {e : Env}
    (h : Numbered addr trace s)
    (hopens : ∀ d, readNow s.us e.rx = some d → d.src = addr → d.Opens) :
    Stutters
      (trace.numbersFrom addr ++
        (numberNow addr (api.event s (.udChckMsg e))).toList)
      ((trace.readsFrom addr).map (fun d => hdrPno d.bytes) ++
        ((readNow s.us e.rx).toList.filter fun d => d.src = addr).map
          fun d => hdrPno d.bytes) := by
  cases hval : (udChckMsg e s).val with
  | none =>
      have hfound : found (api.event s (.udChckMsg e)) = none := found_none hval
      rw [numberNow_none hfound, readNow_of_none h.sane hval hopens]
      simpa using h.stutters
  | some msg =>
      obtain ⟨d, hd, hcur⟩ :=
        call_holdsLast h.sane h.holds (.udChckMsg e) (udChckMsg_some hval).1
      rw [numberNow_some hval hcur]
      cases hread : readNow s.us e.rx with
      | some d' =>
          have hsame : d' = d := by
            rw [show readNow s.us (Call.udChckMsg e).rx = some d' from hread,
              Option.some_or] at hd
            exact Option.some.inj hd
          subst hsame
          by_cases hsrc : d'.src = addr
          · simpa [hsrc] using h.stutters.next (hdrPno d'.bytes)
          · simpa [hsrc] using h.stutters
      | none =>
          rw [show readNow s.us (Call.udChckMsg e).rx = none from hread,
            Option.none_or] at hd
          by_cases hsrc : d.src = addr
          · simpa [hsrc] using h.again hd hsrc
          · simpa [hsrc] using h.stutters

theorem call_numbered {addr : SockaddrIn6} {trace : Trace} {s : Lib} {c : Call}
    (h : Numbered addr trace s) (hc : ¬ c.Discards)
    (hopens : ∀ d, readNow s.us c.rx = some d → d.src = addr → d.Opens) :
    Numbered addr (trace ++ [api.event s c]) (api.step s c).1 := by
  have hholds := call_holdsLast h.sane h.holds c
  refine ⟨call_sane s c h.sane, by rwa [Trace.lastRead_append], ?_⟩
  rw [numbersFrom_snoc, readsFrom_snoc, List.map_append]
  rcases @Call.quiet_of_not_discards s c hc with ⟨e, rfl⟩ | ⟨hrx, hfound⟩
  · exact udChckMsg_numbered h hopens
  · rw [numberNow_none hfound]
    simpa [readNow, hrx] using h.stutters

theorem run_numbered {addr : SockaddrIn6} {calls : List Call}
    (hc : ∀ c ∈ calls, ¬ c.Discards)
    (hopens : ∀ d ∈ Trace.readsFrom addr (api.events Lib.fresh calls), d.Opens) :
    Numbered addr (api.events Lib.fresh calls) (api.run Lib.fresh calls) := by
  refine System.history (S := api) (H := Numbered addr)
    (G := fun s c => ¬ c.Discards ∧ ∀ d, readNow s.us c.rx = some d →
      d.src = addr → d.Opens)
    (fun _ _ _ h hG => call_numbered h hG.1 hG.2)
    ⟨Lib.fresh_sane, fun hpos => absurd hpos (Nat.lt_irrefl 0), .nil⟩ calls ?_
  intro ev hev
  refine ⟨hc _ (System.input_mem_of_mem api hev), fun d hread hsrc => ?_⟩
  apply hopens
  exact List.mem_filter.mpr
    ⟨List.mem_filterMap.mpr ⟨ev, hev, hread⟩, decide_eq_true hsrc⟩

/-! ## The packets of a sender -/

/-- The datagrams read are those sent as the packets `is`. -/
def SentAs (sent : List Tx) : List Arrival → List Nat → Prop :=
  List.Forall₂ fun d i => (sent[i]?).map Tx.dgram = some d.bytes

theorem SentAs.opens {calls : List Call} (h : ∀ c ∈ calls, c.Atomic)
    {reads : List Arrival} {is : List Nat}
    (hsent : SentAs (Trace.sent (api.events Lib.fresh calls)) reads is) :
    ∀ d ∈ reads, d.Opens := by
  intro d hd
  obtain ⟨i, -, hget⟩ := exists_of_forall₂ hsent hd
  obtain ⟨t, ht, hbytes⟩ := Option.map_eq_some_iff.mp hget
  have hopens := sent_opens h (List.mem_of_getElem? ht) d.src
  rwa [hbytes] at hopens

theorem SentAs.numbers {calls : List Call} (h : ∀ c ∈ calls, c.Atomic)
    {reads : List Arrival} {is : List Nat}
    (hsent : SentAs (Trace.sent (api.events Lib.fresh calls)) reads is) :
    (reads.map fun d => hdrPno d.bytes).map UInt16.toNat = is.map (· % 65536) := by
  obtain ⟨o, -, hpath⟩ := run_sends True h (fun hloose => absurd trivial hloose)
  obtain ⟨hpno, -⟩ := hpath.pno
  induction hsent with
  | nil => rfl
  | @cons d i reads is hhead htail ih =>
      obtain ⟨t, ht, hbytes⟩ := Option.map_eq_some_iff.mp hhead
      obtain ⟨hi, rfl⟩ := List.getElem?_eq_some_iff.mp ht
      have hnumber := hpno i hi
      rw [hbytes] at hnumber
      simp only [List.map_cons, ih, hnumber]
      simp [SendBox.fresh]

/--
However many packets of a sender are lost, and whatever else comes in, the numbers
that come with its messages tell how many have been lost between the first and the
last that was read, as long as no 65535 in a row are.
-/
theorem losses_counted (addr : SockaddrIn6) {said : List Call}
    (hsaid : ∀ c ∈ said, c.Atomic) {calls : List Call}
    (hcalls : ∀ c ∈ calls, ¬ c.Discards) {is : List Nat} (hne : is ≠ [])
    (hup : Upward 65536 is)
    (hreads : SentAs (Trace.sent (api.events Lib.fresh said))
      (Trace.readsFrom addr (api.events Lib.fresh calls)) is) :
    let numbers := Trace.numbersFrom addr (api.events Lib.fresh calls)
    is.head hne + (missed 65536 (numbers.map UInt16.toNat) + is.length) =
      is.getLast hne + 1 := by
  intro numbers
  have hrun := run_numbered hcalls (hreads.opens hsaid)
  have hseen := (hrun.stutters.map UInt16.toNat).missed (W := 65536)
  rw [hreads.numbers hsaid] at hseen
  rw [hseen]
  exact missed_add_length hup hne

def threeSent : List Call :=
  [.udPackMsg .full ⟨9, [1], by decide⟩, .udFlush .full,
    .udPackMsg .full ⟨9, [2], by decide⟩, .udFlush .full,
    .udPackMsg .full ⟨9, [3], by decide⟩, .udFlush .full]

def twoRead : List Call :=
  let e (bytes : Bytes) : Env :=
    ⟨some ⟨bytes, Vector.replicate 28 0⟩, none, 0, .full, .full⟩
  [.udChckMsg (e (udHdr 0 9 ++ record [1])), .udChckMsg (e []),
    .udChckMsg (e (udHdr 2 9 ++ record [3]))]

theorem losses_counted_witness :
    missed 65536 ((Trace.numbersFrom (Vector.replicate 28 0)
      (api.events Lib.fresh twoRead)).map UInt16.toNat) = 1 := by
  have hsent : SentAs (Trace.sent (api.events Lib.fresh threeSent))
      (Trace.readsFrom (Vector.replicate 28 0) (api.events Lib.fresh twoRead))
      [0, 2] := by
    have hreads : Trace.readsFrom (Vector.replicate 28 0)
        (api.events Lib.fresh twoRead) =
          [⟨udHdr 0 9 ++ record [1], Vector.replicate 28 0⟩,
            ⟨udHdr 2 9 ++ record [3], Vector.replicate 28 0⟩] := by
      decide +kernel
    rw [hreads]
    exact .cons (by decide +kernel) (.cons (by decide +kernel) .nil)
  have h := @losses_counted (Vector.replicate 28 0) threeSent
    (by simp [threeSent, Call.Atomic, SendRes.Atomic])
    twoRead (by simp [twoRead, Call.Discards]) [0, 2]
    (List.cons_ne_nil _ _) (by simp [Upward]) hsent
  simpa using h

end Unserding
