import Unserding.Receiver

/-!
# Reading records

One step of the cursor of `ud_chck_msg` over the unread bytes: what it does at
a complete record, at a record cut off by the end of the datagram and at a byte
that starts no record.
-/

namespace Unserding

open Foundation

/-! ## The unread bytes in memory -/

section Memory

variable {us : Sock} (h : us.RecvSane)

include h

theorem Sock.RecvSane.length_unread : us.unread.length = us.nrd - us.nck := by
  have hlen := h.recv_length
  have hle := h.nrd_le
  simp only [Sock.unread, window, List.length_take, List.length_drop, hlen]
  unfold ethMtu hdrSize at *
  omega

theorem Sock.RecvSane.more_of_unread {b : UInt8} {rest : Bytes}
    (hunread : us.unread = b :: rest) : us.nck < us.nrd := by
  have hlen := h.length_unread
  rw [hunread, List.length_cons] at hlen
  omega

theorem Sock.RecvSane.window_mem :
    window us.mem (hdrSize + us.nck) (us.nrd - us.nck) = us.unread := by
  have hlen := h.recv_length
  have hle := h.nrd_le
  by_cases hmore : us.nck ≤ us.nrd
  · rw [Sock.mem, List.append_assoc, List.append_assoc]
    exact window_append_left (by unfold ethMtu hdrSize at *; omega)
  · have hzero : us.nrd - us.nck = 0 := by omega
    rw [Sock.unread, hzero, window_zero, window_zero]

theorem Sock.RecvSane.plAt_first {b : UInt8} {rest : Bytes}
    (hunread : us.unread = b :: rest) : us.plAt us.nck = b := by
  rw [← h.window_mem] at hunread
  exact getD_eq_of_window_cons hunread

theorem Sock.RecvSane.plAt_second {b l : UInt8} {rest : Bytes}
    (hunread : us.unread = b :: l :: rest) : us.plAt (us.nck + 1) = l := by
  rw [← h.window_mem] at hunread
  exact getD_eq_of_window_cons (window_tail [b] hunread)

end Memory

/-! ## One step of the cursor -/

section Cursor

variable {us : Sock} (h : us.RecvSane) (svc : UInt16)

include h

theorem takeMsg_junk {b : UInt8} {rest : Bytes} (hunread : us.unread = b :: rest)
    (hb : isData b = false) :
    takeMsg svc us = (none, { us with nrd := 0, nck := 0 }) := by
  have hfirst := h.plAt_first hunread
  simp [takeMsg, hfirst, hb]

theorem takeMsg_first {b : UInt8} {rest : Bytes}
    (hunread : us.unread = b :: rest) (hb : isData b = true) :
    takeMsg svc us =
      (some ⟨svc, us.nck + 2, recLen b (us.plAt (us.nck + 1))⟩,
        { us with nck := us.nck + recLen b (us.plAt (us.nck + 1)) + 2 }) := by
  have hfirst := h.plAt_first hunread
  simp [takeMsg, hfirst, hb]

theorem takeMsg_data {b l : UInt8} {rest : Bytes}
    (hunread : us.unread = b :: l :: rest) (hb : isData b = true) :
    takeMsg svc us = (some ⟨svc, us.nck + 2, recLen b l⟩,
      { us with nck := us.nck + recLen b l + 2 }) := by
  have hsecond := h.plAt_second hunread
  rw [takeMsg_first h svc hunread hb, hsecond]

theorem takeMsg_record {b l : UInt8} {blob rest : Bytes}
    (hunread : us.unread = b :: l :: (blob ++ rest)) (hb : isData b = true)
    (hlen : recLen b l = blob.length) :
    (takeMsg svc us).1 = some ⟨svc, us.nck + 2, blob.length⟩ ∧
      us.deref ⟨svc, us.nck + 2, blob.length⟩ = blob ∧
      (takeMsg svc us).2.unread = rest ∧
      us.nck + 2 + blob.length ≤ us.nrd := by
  have htake := takeMsg_data h svc hunread hb
  have hmem := h.window_mem
  have hlength := h.length_unread
  rw [hunread] at hmem hlength
  simp only [List.length_cons, List.length_append] at hlength
  have hrest := window_tail [b, l] hmem
  refine ⟨by rw [htake, hlen], window_front hrest, ?_, by omega⟩
  have hrecv : window us.recv (hdrSize + us.nck) (us.nrd - us.nck) =
      [b, l] ++ blob ++ rest := hunread
  have htail := window_tail _ hrecv
  rw [htake, Sock.unread]
  simp only [List.length_append, List.length_cons, List.length_nil] at htail
  change window us.recv (hdrSize + (us.nck + recLen b l + 2))
    (us.nrd - (us.nck + recLen b l + 2)) = rest
  rw [← htail, hlen]
  congr 1 <;> omega

end Cursor

/-! ## Payloads -/

def Arrival.payload (d : Arrival) : Bytes :=
  (d.bytes.take ethMtu).drop hdrSize

theorem load_unread (d : Arrival) (us : Sock) :
    (load d us).unread = d.payload := by
  have hsrc := @window_blit_self _ us.recv (d.bytes.take ethMtu) 0
    (Nat.zero_le _)
  have hlen : (d.bytes.take ethMtu).length = d.nrd := by
    rw [List.length_take, Nat.min_comm]
    rfl
  rw [window_from_zero, hlen] at hsrc
  change window (blit us.recv 0 (d.bytes.take ethMtu)) (hdrSize + 0)
    (d.nrd - hdrSize - 0) = d.payload
  rw [window, Nat.add_zero, Nat.sub_zero, ← List.drop_take, hsrc]
  rfl

section Whole

variable {d : Arrival} {hdr rest : Bytes} (hbytes : d.bytes = hdr ++ rest)
  (hhdr : hdr.length = hdrSize)

include hbytes hhdr

theorem Arrival.accepted_of_bytes (hacc : hdrAccepted d.bytes = true) :
    d.Accepted := by
  refine ⟨?_, hacc⟩
  rw [Arrival.nrd, hbytes, List.length_append, hhdr]
  unfold ethMtu hdrSize
  omega

theorem Arrival.payload_of_bytes (hrest : rest.length ≤ ethMtu - hdrSize) :
    d.payload = rest := by
  have hfit : d.bytes.length ≤ ethMtu := by
    rw [hbytes, List.length_append, hhdr]
    unfold ethMtu hdrSize at *
    omega
  rw [Arrival.payload, List.take_of_length_le hfit, hbytes, ← hhdr,
    List.drop_left]

end Whole

theorem isData_record (n : Nat) :
    isData (udpcTypeData ||| UInt8.ofNat n <<< 4) = true := by
  have hall : ∀ i : Fin 256,
      isData (udpcTypeData ||| UInt8.ofNat i.val <<< 4) = true := by
    decide +kernel
  have hmod : UInt8.ofNat n = UInt8.ofNat (n % 256) := by
    apply UInt8.toNat_inj.mp
    simp
  rw [hmod]
  exact hall ⟨n % 256, Nat.mod_lt _ (by decide)⟩

/-- The upper 4 bits of the length are added to the lower 8. -/
theorem recLen_record {blob : Bytes} (h : blob.length < 4096) :
    recLen (udpcTypeData ||| UInt8.ofNat (blob.length / 256) <<< 4)
      (UInt8.ofNat (blob.length % 256)) =
        blob.length / 256 + blob.length % 256 := by
  have hall : ∀ i : Fin 16,
      (((udpcTypeData ||| UInt8.ofNat i.val <<< 4) &&& 0xf0) >>> 4).toNat =
        i.val := by decide
  have hhigh := hall ⟨blob.length / 256, by omega⟩
  rw [recLen, hhigh, UInt8.toNat_ofNat', Nat.mod_mod]

/-! ## One call -/

theorem udChckMsg_more (e : Env) {s : Lib} (h : s.us.nck < s.us.nrd) :
    udChckMsg e s = chckMsg e s := by
  have hrefill : refill e.rx s.us = s.us := if_neg (Nat.not_le.mpr h)
  rw [udChckMsg_eq, hrefill, if_pos h]

theorem udChckMsg_end (e : Env) {s : Lib} (h : s.us.nrd ≤ s.us.nck)
    (hnrd : s.us.nrd ≠ 0) :
    udChckMsg e s =
      ⟨none, { s with us := { s.us with nrd := 0, nck := 0 } }, []⟩ := by
  have hrefill : refill e.rx s.us = { s.us with nrd := 0, nck := 0 } := by
    simp [refill, h, udDscrd, hnrd]
  rw [udChckMsg_eq, hrefill]
  rfl

theorem udChckMsg_none {e : Env} {s : Lib} (h : s.us.nrd = 0)
    (hrx : e.rx = none) : udChckMsg e s = ⟨none, s, []⟩ := by
  have hrefill : refill e.rx s.us = s.us := by
    simp [refill, h, udDscrd, hrx]
  rw [udChckMsg_eq, hrefill, if_neg (by omega)]

theorem refill_load {d : Arrival} (hd : d.Accepted) {us : Sock}
    (h : us.nrd = 0) : refill (some d) us = load d us := by
  rcases udDscrd_cases (some d) us with ⟨hnrd, -⟩ | ⟨-, hrx, -⟩ |
    ⟨-, d', hrx, hrej, -⟩ | ⟨-, d', hrx, -, heq⟩
  · exact absurd h hnrd
  · contradiction
  · cases hrx
    exact absurd hd hrej
  · cases hrx
    rw [refill, if_pos (by omega), heq]

theorem length_payload (d : Arrival) : d.payload.length = d.nrd - hdrSize := by
  rw [Arrival.payload, List.length_drop, List.length_take, Nat.min_comm]
  rfl

theorem load_nrd_ne_zero {d : Arrival} (us : Sock) (h : d.payload ≠ []) :
    (load d us).nrd ≠ 0 := by
  have hlen := length_payload d
  have hpos := List.length_pos_iff.mpr h
  change d.nrd - hdrSize ≠ 0
  omega

theorem udChckMsg_load {e : Env} {s : Lib} {d : Arrival} (hd : d.Accepted)
    (h : s.us.nrd = 0) (hrx : e.rx = some d) (hpayload : d.payload ≠ []) :
    udChckMsg e s = udChckMsg e { s with us := load d s.us } := by
  have hmore : (load d s.us).nck < (load d s.us).nrd :=
    Nat.pos_of_ne_zero (load_nrd_ne_zero s.us hpayload)
  rw [udChckMsg_more e (s := { s with us := load d s.us }) hmore, udChckMsg_eq,
    hrx, refill_load hd h, if_pos hmore]

theorem udChckMsg_empty {e : Env} {s : Lib} {d : Arrival} (hd : d.Accepted)
    (h : s.us.nrd = 0) (hrx : e.rx = some d) (hpayload : d.payload = []) :
    udChckMsg e s = ⟨none, { s with us := load d s.us }, []⟩ := by
  have hlen := length_payload d
  rw [hpayload, List.length_nil] at hlen
  have hnone : ¬ (load d s.us).nck < (load d s.us).nrd := by
    change ¬ 0 < d.nrd - hdrSize
    omega
  rw [udChckMsg_eq, hrx, refill_load hd h, if_neg hnone]

theorem unread_congr {us us' : Sock} (hinbox : us'.inbox = us.inbox) :
    us'.unread = us.unread := by
  obtain ⟨-, hnrd, hnck, hrecv⟩ := Sock.eq_of_inbox hinbox
  rw [Sock.unread, Sock.unread, hnrd, hnck, hrecv]

structure ReadsRecord (e : Env) (s : Lib) (b l : UInt8) : Prop where
  val : (udChckMsg e s).val =
    some ⟨hdrCmd s.us.recv, s.us.nck + 2, recLen b l⟩
  recv : (udChckMsg e s).st.us.recv = s.us.recv
  nrd : (udChckMsg e s).st.us.nrd = s.us.nrd
  nck : (udChckMsg e s).st.us.nck = s.us.nck + recLen b l + 2

theorem udChckMsg_first (e : Env) {s : Lib} (hs : s.Sane) {b : UInt8}
    {rest : Bytes} (hunread : s.us.unread = b :: rest)
    (hb : isData b = true) :
    ReadsRecord e s b ((reply e s).1.us.plAt (s.us.nck + 1)) := by
  have hmore := hs.recv.more_of_unread hunread
  have hinbox := reply_inbox e s
  have htake := takeMsg_first (hs.recv.congr hinbox) (hdrCmd s.us.recv)
    ((unread_congr hinbox).trans hunread) hb
  obtain ⟨-, hnrd, hnck, hrecv⟩ := Sock.eq_of_inbox hinbox
  rw [hnck] at htake
  constructor <;> rw [udChckMsg_more e hmore, chckMsg_eq, htake]
  · exact hrecv
  · exact hnrd

theorem udChckMsg_record (e : Env) {s : Lib} (hs : s.Sane) {b l : UInt8}
    {rest : Bytes} (hunread : s.us.unread = b :: l :: rest)
    (hb : isData b = true) : ReadsRecord e s b l := by
  have hinbox := reply_inbox e s
  have hsecond := (hs.recv.congr hinbox).plAt_second
    ((unread_congr hinbox).trans hunread)
  have hfirst := udChckMsg_first e hs hunread hb
  obtain ⟨-, -, hnck, -⟩ := Sock.eq_of_inbox hinbox
  rw [hnck] at hsecond
  rwa [hsecond] at hfirst

theorem udChckMsg_complete (e : Env) {s : Lib} (hs : s.Sane) {b l : UInt8}
    {blob rest : Bytes} (hunread : s.us.unread = b :: l :: (blob ++ rest))
    (hb : isData b = true) (hlen : recLen b l = blob.length) :
    (udChckMsg e s).st.us.deref
        ⟨hdrCmd s.us.recv, s.us.nck + 2, recLen b l⟩ = blob ∧
      (udChckMsg e s).st.us.unread = rest ∧
      s.us.nck + 2 + recLen b l ≤ s.us.nrd := by
  have hmore := hs.recv.more_of_unread hunread
  have hinbox := reply_inbox e s
  have hreply : (reply e s).1.us.unread = b :: l :: (blob ++ rest) :=
    (unread_congr hinbox).trans hunread
  have hsane := hs.recv.congr hinbox
  obtain ⟨-, hderef, hrest, hin⟩ := takeMsg_record hsane (hdrCmd s.us.recv)
    hreply hb hlen
  have htake := takeMsg_data hsane (hdrCmd s.us.recv) hreply hb
  obtain ⟨-, hnrd, hnck, -⟩ := Sock.eq_of_inbox hinbox
  rw [hnck, hnrd] at hin
  rw [hnck] at hderef
  rw [udChckMsg_more e hmore, chckMsg_eq, hlen]
  refine ⟨?_, hrest, hin⟩
  rw [htake]
  exact hderef

theorem udChckMsg_some_advances {e : Env} {s : Lib} {msg : MsgRef}
    (h : (udChckMsg e s).val = some msg) :
    (refill e.rx s.us).nck < (refill e.rx s.us).nrd ∧
      (udChckMsg e s).st.us.nrd = (refill e.rx s.us).nrd ∧
      (refill e.rx s.us).nck + 2 ≤ (udChckMsg e s).st.us.nck := by
  rw [udChckMsg_eq] at h ⊢
  split at h
  · rename_i hmore
    obtain ⟨-, hnrd, hnck, -⟩ := Sock.eq_of_inbox
      (reply_inbox e { s with us := refill e.rx s.us })
    rw [if_pos hmore]
    rw [chckMsg_eq] at h ⊢
    refine ⟨hmore, ?_⟩
    simp only [takeMsg] at h ⊢
    split at h
    · contradiction
    · rename_i hdata
      rw [if_neg hdata]
      exact ⟨hnrd, by simp only [hnck]; omega⟩
  · contradiction

theorem udChckMsg_some_left {e : Env} {s : Lib} {msg : MsgRef}
    (hnrd : s.us.nrd ≠ 0) (h : (udChckMsg e s).val = some msg) :
    s.us.nck < s.us.nrd ∧ (udChckMsg e s).st.us.nrd = s.us.nrd ∧
      s.us.nck + 2 ≤ (udChckMsg e s).st.us.nck := by
  have hleft : s.us.nck < s.us.nrd := by
    by_contra hend
    rw [udChckMsg_end e (Nat.not_lt.mp hend) hnrd] at h
    contradiction
  have hsame : refill e.rx s.us = s.us := if_neg (Nat.not_le.mpr hleft)
  have hmoved := udChckMsg_some_advances h
  rwa [hsame] at hmoved

end Unserding
