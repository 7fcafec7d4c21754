import Unserding.Sanity

/-!
# The current datagram

While anything is left in the receive buffer, the buffer holds the last
datagram read, and that datagram's header was accepted.  So the auxiliary data
of a message are those of the datagram it came from.
-/

namespace Unserding

open Foundation

/-! ## Datagrams read -/

/-- The datagram a checking call reads off the socket, if it reads one. -/
def readNow (us : Sock) (rx : Option Arrival) : Option Arrival :=
  if us.nrd = 0 then rx else none

theorem udDscrd_rx {us : Sock} {rx rx' : Option Arrival}
    (h : readNow us rx = readNow us rx') : udDscrd rx us = udDscrd rx' us := by
  unfold readNow at h
  split at h
  · rw [h]
  · rename_i hnrd
    simp only [udDscrd, if_neg hnrd]

theorem udChckMsg_rx {e : Env} {s : Lib} {rx rx' : Option Arrival}
    (h : readNow s.us rx = readNow s.us rx') :
    udChckMsg { e with rx := rx } s = udChckMsg { e with rx := rx' } s := by
  simp only [udChckMsg, udDscrd_rx h]
  rfl

/-- What `recvfrom` has to offer makes a difference only where it is read. -/
theorem step_withRx {s : Lib} {rx rx' : Option Arrival}
    (h : readNow s.us rx = readNow s.us rx') (c : Call) :
    api.step s (c.withRx rx) = api.step s (c.withRx rx') := by
  cases c with
  | udChckMsg e =>
      simp only [Call.withRx, api, Call.step, @udChckMsg_rx e s _ _ h]
  | udChck tsz e =>
      simp only [Call.withRx, api, Call.step, udChck, @udChckMsg_rx e s _ _ h]
  | udChckPing e =>
      simp only [Call.withRx, api, Call.step, udChckPing, @udChckMsg_rx e s _ _ h]
  | udDscrd rx => simp only [Call.withRx, api, Call.step, udDscrd_rx h]
  | _ => rfl

def Trace.reads (trace : Trace) : List Arrival :=
  trace.filterMap fun e => readNow e.pre.us e.input.rx

def Trace.lastRead (trace : Trace) : Option Arrival := trace.reads.getLast?

@[simp] theorem Trace.reads_append (first second : Trace) :
    Trace.reads (first ++ second) = first.reads ++ second.reads :=
  List.filterMap_append

theorem Trace.reads_singleton (s : Lib) (c : Call) :
    Trace.reads [api.event s c] = (readNow s.us c.rx).toList := by
  cases h : readNow s.us c.rx <;> simp [Trace.reads, System.event, h]

theorem Trace.lastRead_append (trace : Trace) (s : Lib) (c : Call) :
    Trace.lastRead (trace ++ [api.event s c]) =
      (readNow s.us c.rx).or trace.lastRead := by
  rw [lastRead, reads_append, reads_singleton, List.getLast?_append, lastRead]
  cases readNow s.us c.rx <;> rfl

/-- The receive buffer holds `d`, cut at the buffer, and `d` is taken. -/
structure Current (d : Arrival) (us : Sock) : Prop where
  nrd : us.nrd + hdrSize = d.nrd
  recv : us.recv.take (us.nrd + hdrSize) = d.bytes.take ethMtu
  accepted : hdrAccepted d.bytes = true
  src : us.src.sa.take sockaddrIn6Size = d.src.toList

theorem Current.congr {d : Arrival} {us us' : Sock} (h : Current d us)
    (hrecv : us'.recv = us.recv) (hsrc : us'.src = us.src)
    (hnrd : us'.nrd = us.nrd) : Current d us' := by
  refine ⟨?_, ?_, h.accepted, ?_⟩
  · rw [hnrd, h.nrd]
  · rw [hnrd, hrecv, h.recv]
  · rw [hsrc, h.src]

theorem Current.getElem? {d : Arrival} {us : Sock} (h : Current d us) {i : Nat}
    (hi : i < d.nrd) : us.recv[i]? = d.bytes[i]? := by
  have htake := congrArg (fun bytes : Bytes => bytes[i]?) h.recv
  have hmtu : i < ethMtu := by
    unfold Arrival.nrd at hi
    omega
  rwa [List.getElem?_take_of_lt (by rw [h.nrd]; exact hi),
    List.getElem?_take_of_lt hmtu] at htake

theorem Current.be16At {d : Arrival} {us : Sock} (h : Current d us) {off : Nat}
    (hoff : off + 1 < hdrSize) : be16At us.recv off = be16At d.bytes off := by
  have hnrd := h.nrd
  exact be16At_congr (h.getElem? (by omega)) (h.getElem? (by omega))

theorem Current.hdrCmd {d : Arrival} {us : Sock} (h : Current d us) :
    hdrCmd us.recv = hdrCmd d.bytes := h.be16At (by decide)

theorem Current.hdrPno {d : Arrival} {us : Sock} (h : Current d us) :
    hdrPno us.recv = hdrPno d.bytes := h.be16At (by decide)

theorem load_current {d : Arrival} (hd : d.Accepted) {us : Sock}
    (hs : us.RecvSane) : Current d (load d us) := by
  have hnrd : (load d us).nrd + hdrSize = d.nrd := Nat.sub_add_cancel hd.1
  have hlen : (d.bytes.take ethMtu).length = d.nrd := by
    rw [List.length_take, Nat.min_comm]
    rfl
  refine ⟨hnrd, ?_, hd.2, ?_⟩
  · rw [hnrd, ← hlen, ← window_from_zero]
    exact window_blit_self (Nat.zero_le _)
  · have hsz := hs.sz_ge
    have hcut : d.src.toList.take us.src.sz = d.src.toList :=
      List.take_of_length_le (by rw [Vector.length_toList]; exact hsz)
    have hroom := @window_blit_self _ us.src.sa d.src.toList 0 (Nat.zero_le _)
    rw [Vector.length_toList, window_from_zero] at hroom
    change (blit us.src.sa 0 (d.src.toList.take us.src.sz)).take _ = _
    rw [hcut]
    exact hroom

/-! ## The invariant -/

/-- While bytes are left, the buffer holds the last datagram read. -/
def HoldsLast (last : Option Arrival) (us : Sock) : Prop :=
  0 < us.nrd → ∃ d, last = some d ∧ Current d us

section Step

variable {last : Option Arrival} {us : Sock}

theorem HoldsLast.dscrd (h : us.RecvSane) (rx : Option Arrival) :
    HoldsLast ((readNow us rx).or last) (udDscrd rx us).st := by
  rcases udDscrd_cases rx us with ⟨-, heq⟩ | ⟨hnrd, -, heq⟩ |
    ⟨hnrd, d, -, -, heq⟩ | ⟨hnrd, d, hrx, hd, heq⟩
  · rw [heq]
    exact fun hpos => absurd hpos (Nat.lt_irrefl 0)
  · rw [heq]
    exact fun hpos => absurd hnrd (Nat.ne_of_gt hpos)
  · rw [heq]
    exact fun hpos => absurd hnrd (Nat.ne_of_gt hpos)
  · rw [heq]
    exact fun _ => ⟨d, by simp [readNow, hnrd, hrx], load_current hd h⟩

theorem HoldsLast.refilled (hlast : HoldsLast last us) (h : us.RecvSane)
    (rx : Option Arrival) :
    HoldsLast ((readNow us rx).or last) (refill rx us) := by
  unfold refill
  split
  · exact HoldsLast.dscrd h rx
  · rename_i hmore
    intro hpos
    obtain ⟨d, hd, hcur⟩ := hlast hpos
    exact ⟨d, by simpa [readNow, Nat.ne_of_gt hpos] using hd, hcur⟩

theorem HoldsLast.inbox {us' : Sock} (hlast : HoldsLast last us)
    (hinbox : us'.inbox = us.inbox) : HoldsLast last us' := by
  obtain ⟨hsrc, hnrd, -, hrecv⟩ := Sock.eq_of_inbox hinbox
  intro hpos
  obtain ⟨d, hd, hcur⟩ := hlast (hnrd ▸ hpos)
  exact ⟨d, hd, hcur.congr hrecv hsrc hnrd⟩

theorem HoldsLast.taken (hlast : HoldsLast last us) (svc : UInt16) :
    HoldsLast last (takeMsg svc us).2 := by
  simp only [takeMsg]
  split
  · exact fun hpos => absurd hpos (Nat.lt_irrefl 0)
  · intro hpos
    obtain ⟨d, hd, hcur⟩ := hlast hpos
    exact ⟨d, hd, hcur.congr rfl rfl rfl⟩

end Step

theorem HoldsLast.checked {last : Option Arrival} {s : Lib}
    (hlast : HoldsLast last s.us) (h : s.us.RecvSane) (e : Env) :
    HoldsLast ((readNow s.us e.rx).or last) (udChckMsg e s).st.us := by
  have hrefill := hlast.refilled h e.rx
  rw [udChckMsg_eq]
  split
  · rw [chckMsg_eq]
    exact (hrefill.inbox
      (reply_inbox e { s with us := refill e.rx s.us })).taken _
  · exact hrefill

theorem HoldsLast.sending {last : Option Arrival} {us us' : Sock}
    (hlast : HoldsLast last us) (hinbox : us'.inbox = us.inbox) :
    HoldsLast ((readNow us none).or last) us' := by
  have hnone : readNow us none = none := by simp [readNow]
  rw [hnone, Option.none_or]
  exact hlast.inbox hinbox

theorem call_holdsLast {last : Option Arrival} {s : Lib} (hs : s.Sane)
    (hlast : HoldsLast last s.us) (c : Call) :
    HoldsLast ((readNow s.us c.rx).or last) (api.step s c).1.us := by
  rcases call_receives s c with ⟨hrx, hinbox⟩ | ⟨e, hrx, hus⟩ | hus
  · rw [hrx]
    exact hlast.sending hinbox
  · rw [hrx, hus]
    exact hlast.checked hs.recv e
  · rw [hus]
    exact HoldsLast.dscrd hs.recv c.rx

theorem run_holdsLast (calls : List Call) :
    HoldsLast (Trace.lastRead (api.events Lib.fresh calls))
      (api.run Lib.fresh calls).us := by
  refine (System.history (S := api) (G := fun _ _ => True)
    (H := fun es s => s.Sane ∧ HoldsLast (Trace.lastRead es) s.us) ?_
    ⟨Lib.fresh_sane, fun hpos => absurd hpos (Nat.lt_irrefl 0)⟩ calls
    (fun _ _ => trivial)).2
  rintro es s c ⟨hs, hlast⟩ -
  rw [Trace.lastRead_append]
  exact ⟨call_sane s c hs, call_holdsLast hs hlast c⟩

/-! ## Messages and their datagram -/

theorem udChckMsg_some {e : Env} {s : Lib} {msg : MsgRef}
    (h : (udChckMsg e s).val = some msg) :
    0 < (udChckMsg e s).st.us.nrd ∧
      msg.svc = hdrCmd (udChckMsg e s).st.us.recv := by
  rw [udChckMsg_eq] at h ⊢
  split at h
  · rename_i hmore
    rw [if_pos hmore]
    have hinbox := reply_inbox e { s with us := refill e.rx s.us }
    obtain ⟨-, hnrd, -, hrecv⟩ := Sock.eq_of_inbox hinbox
    rw [chckMsg_eq] at h ⊢
    simp only [takeMsg] at h ⊢
    split at h
    · contradiction
    · rename_i hdata
      rw [if_neg hdata]
      cases h
      refine ⟨?_, ?_⟩
      · change 0 < (reply e { s with us := refill e.rx s.us }).1.us.nrd
        rw [hnrd]
        exact Nat.lt_of_le_of_lt (Nat.zero_le _) hmore
      · change hdrCmd (refill e.rx s.us).recv =
          hdrCmd (reply e { s with us := refill e.rx s.us }).1.us.recv
        rw [hrecv]
  · contradiction

theorem run_current {calls : List Call} {e : Env} {msg : MsgRef}
    (h : (udChckMsg e (api.run Lib.fresh calls)).val = some msg) :
    ∃ d, Trace.lastRead (api.events Lib.fresh (calls ++ [.udChckMsg e])) =
        some d ∧
      Current d (udChckMsg e (api.run Lib.fresh calls)).st.us := by
  have hlast := run_holdsLast (calls ++ [.udChckMsg e])
  rw [System.run_append] at hlast
  exact hlast (udChckMsg_some h).1

/--
In every reachable state the cursors are in range and a non-empty buffer holds
the last datagram read, whose header was accepted; and right after a message
was checked `ud_get_aux` reports its service and the number, payload length
and source of the datagram it came from.
-/
theorem receiver_invariant (calls : List Call) :
    let us := (api.run Lib.fresh calls).us
    us.nrd ≤ 1432 ∧ (us.nrd = 0 → us.nck = 0) ∧
      (0 < us.nrd → ∃ d,
        Trace.lastRead (api.events Lib.fresh calls) = some d ∧
        Current d us) ∧
      ∀ e msg, (udChckMsg e (api.run Lib.fresh calls)).val = some msg →
        ∃ d aux,
          Trace.lastRead (api.events Lib.fresh (calls ++ [.udChckMsg e])) =
            some d ∧
          udGetAux (udChckMsg e (api.run Lib.fresh calls)).st.us = some aux ∧
          aux.svc = msg.svc ∧ aux.svc = hdrCmd d.bytes ∧
          aux.pno = hdrPno d.bytes ∧
          aux.len.toNat + hdrSize = min d.bytes.length ethMtu ∧
          aux.src.take sockaddrIn6Size = d.src.toList := by
  intro us
  have hsane := (run_sane calls).recv
  refine ⟨hsane.nrd_le, hsane.nck_eq_zero, run_holdsLast calls, ?_⟩
  intro e msg hmsg
  obtain ⟨hpos, hsvc⟩ := udChckMsg_some hmsg
  obtain ⟨d, hd, hcur⟩ := run_current hmsg
  have hle := (udChckMsg_sane e (run_sane calls)).recv.nrd_le
  refine ⟨d, _, hd, by rw [udGetAux, if_neg (Nat.ne_of_gt hpos)], hsvc.symm,
    hcur.hdrCmd, hcur.hdrPno, ?_, hcur.src⟩
  have hmod : (UInt32.ofNat
      (udChckMsg e (api.run Lib.fresh calls)).st.us.nrd).toNat =
        (udChckMsg e (api.run Lib.fresh calls)).st.us.nrd := by
    rw [UInt32.toNat_ofNat']
    unfold ethMtu hdrSize at hle
    omega
  rw [hmod]
  exact hcur.nrd

end Unserding
