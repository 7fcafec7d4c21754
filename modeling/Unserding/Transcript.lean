import Unserding.Lines
import Unserding.Monitor
import Mathlib.Data.List.ReduceOption

/-!
# What the monitor has written

The lines of a run of `unsermon`, from however many sockets, are read back one
by one where no decoder has printed a newline.  With the decoder for pings this
is up to the senders: a hostname is printed as it came.
-/

namespace Unserding

open Foundation

/-! ## The decoder for pings -/

theorem pingName_isPing {svc : UInt16} {name : Bytes}
    (h : pingName svc = some name) : IsPing svc ∧ name.length = 4 := by
  unfold pingName at h
  split at h
  · cases h
    exact ⟨.inl ‹_›, rfl⟩
  · split at h
    · cases h
      exact ⟨.inr ‹_›, rfl⟩
    · contradiction

theorem length_snprintf {p : Bytes} {q room : Nat} (text : Bytes)
    (h : q + room ≤ p.length) : (snprintf p q room text).1.length = p.length := by
  unfold snprintf
  split
  · rfl
  · apply length_blit
    rw [List.length_append, List.length_take, List.length_singleton]
    omega

theorem length_named {p name : Bytes} (hroom : name.length + 1 ≤ p.length) :
    (blit (blit p 0 (name ++ [0])) name.length [tab]).length = p.length := by
  have hfirst : (blit p 0 (name ++ [0])).length = p.length := by
    apply length_blit
    rw [List.length_append, List.length_singleton]
    omega
  rw [length_blit, hfirst]
  rw [hfirst, List.length_singleton]
  omega

theorem monDecPing_fits {p : Bytes} (svc : UInt16) (m : MonMsg)
    (h : decSize ≤ p.length) :
    (monDecPing p decSize svc m).p.length = p.length ∧
      (monDecPing p decSize svc m).len ≤ decSize := by
  unfold decSize at *
  cases hname : pingName svc with
  | none => simp [monDecPing, hname]
  | some name =>
      have hfour := (pingName_isPing hname).2
      have hnamed := @length_named p name (by omega)
      have hmark : (blit (blit (blit p 0 (name ++ [0])) name.length [tab])
          (name.length + 1) [questionMark]).length = p.length := by
        rw [length_blit, hnamed]
        rw [hnamed, List.length_singleton]
        omega
      cases hdata : m.data with
      | none =>
          simp only [monDecPing, hname, hdata, Nat.add_sub_cancel]
          exact ⟨hmark, by omega⟩
      | some wire =>
          by_cases hdlen : m.dlen ≠ pingMsgSize
          · simp only [monDecPing, hname, hdata, if_pos hdlen, Nat.add_sub_cancel]
            exact ⟨hmark, by omega⟩
          · have hdigits := length_decimal_le (be32At wire 0)
            have hhnz := (hnzAt wire).toNat_lt
            have hwindow : (window wire hnOffset (hnzAt wire).toNat).length ≤
                (hnzAt wire).toNat := by
              rw [window, List.length_take]
              exact Nat.min_le_left _ _
            have hroom : sizeSub 512 (name.length + 1) = 507 := by
              rw [hfour]
              decide
            simp only [monDecPing, hname, hdata, if_neg hdlen, Nat.add_sub_cancel,
              hroom]
            have hprinted := @length_snprintf _ (name.length + 1) 507
              (decimal (be32At wire 0) ++ [tab])
              (show name.length + 1 + 507 ≤ _ by rw [hnamed]; omega)
            have hsnd : ∀ (q : Bytes) (room : Nat) (text : Bytes),
                (snprintf q (name.length + 1) room text).2 = text.length :=
              fun _ _ _ => rfl
            rw [hsnd, List.length_append, List.length_singleton]
            refine ⟨?_, by omega⟩
            rw [length_blit, hprinted, hnamed]
            rw [hprinted, hnamed]
            omega

def pingDecoder : Decoder := ⟨monDecPing, monDecPing_fits⟩

/-- `ud_mondec_init` of `svc-pong.c`; `mmap` says whether a table can be allocated. -/
def udMondecInit (mmap : Bool) (decmap : Decmap Decoder) : Int × Decmap Decoder :=
  let r := udMondecReg (udCtrlSvc udSvcPing) (some pingDecoder) mmap decmap
  let r := udMondecReg (udCtrlSvc (udSvcPing + 1)) (some pingDecoder) mmap r.decmap
  (0, r.decmap)

theorem mondec_udMondecInit (svc : UInt16) :
    (mondec svc (udMondecInit true Pages.empty).2).1 =
      (pingName svc).map fun _ => pingDecoder := by
  have hempty : decoders (β := Decoder) Pages.empty = fun _ => none := rfl
  rw [mondec_fst, udMondecInit, udMondecReg_mmap, udMondecReg_mmap, hempty, pingName]
  change Function.update (Function.update _ svcPing _) svcPong _ svc = _
  by_cases hpong : svc = svcPong
  · subst hpong
    exact Function.update_self ..
  · rw [Function.update_of_ne hpong, if_neg hpong]
    by_cases hping : svc = svcPing
    · subst hping
      exact Function.update_self ..
    · rw [Function.update_of_ne hping, if_neg hping]
      rfl

theorem newline_not_mem_pingName {svc : UInt16} {name : Bytes}
    (h : pingName svc = some name) : newline ∉ name := by
  unfold pingName at h
  split at h
  · cases h
    decide
  · split at h
    · cases h
      decide
    · contradiction

theorem newline_not_mem_ctrlName {svc : UInt16} {name : Bytes}
    (h : ctrlName svc = some name) : newline ∉ name := by
  unfold ctrlName at h
  repeat' split at h
  all_goals first
    | contradiction
    | (cases h; decide)

def Forges (svc : UInt16) (m : MonMsg) : Prop :=
  IsPing svc ∧ m.dlen = pingMsgSize ∧
    ∃ wire, m.data = some wire ∧ newline ∈ window wire hnOffset (hnzAt wire).toNat

theorem msgText_of_pingName {svc : UInt16} {m : MonMsg} {c : Cursor UInt8}
    {name : Bytes} (hname : pingName svc = some name) :
    msgText (udMondecInit true Pages.empty).2 svc m c =
      (monDecPing (c.buf.drop c.epi) decSize svc m).text := by
  rw [msgText, mondec_udMondecInit, hname]
  rfl

theorem newline_not_mem_of_other {svc : UInt16} {m : MonMsg} {c : Cursor UInt8}
    (hname : pingName svc = none) :
    newline ∉ msgText (udMondecInit true Pages.empty).2 svc m c := by
  have htext : msgText (udMondecInit true Pages.empty).2 svc m c =
      (ctrlName svc).getD [] := by
    rw [msgText, mondec_udMondecInit, hname]
    rfl
  rw [htext]
  cases hctrl : ctrlName svc with
  | none => exact List.not_mem_nil
  | some text => exact newline_not_mem_ctrlName hctrl

theorem newline_mem_msgText {svc : UInt16} {m : MonMsg} {c : Cursor UInt8}
    (hroom : decSize ≤ (c.buf.drop c.epi).length)
    (hwire : ∀ wire, m.data = some wire →
      hnOffset + (hnzAt wire).toNat ≤ wire.length) :
    newline ∈ msgText (udMondecInit true Pages.empty).2 svc m c ↔ Forges svc m := by
  have hdec : decSize = 512 := rfl
  have hdecimal (n : UInt32) : newline ∉ decimal n :=
    not_mem_of_digits (by decide)
      (isDigit_of_mem_numeral (by decide) (by decide) n.toNat)
  have hsep : newline ≠ tab ∧ newline ≠ questionMark := by decide
  cases hname : pingName svc with
  | none =>
      refine iff_of_false (newline_not_mem_of_other hname) ?_
      rintro ⟨hping, -⟩
      obtain ⟨name, hsome, -⟩ := pingName_of_isPing hping
      exact Option.some_ne_none name (hsome.symm.trans hname)
  | some name =>
      obtain ⟨hping, hfour⟩ := pingName_isPing hname
      have hclean := newline_not_mem_pingName hname
      rw [msgText_of_pingName hname]
      by_cases hwhole : m.data ≠ none ∧ m.dlen = pingMsgSize
      · obtain ⟨hsome, hdlen⟩ := hwhole
        obtain ⟨wire, hdata⟩ := Option.ne_none_iff_exists'.mp hsome
        obtain ⟨hwhole, -⟩ := @monDecPing_whole (c.buf.drop c.epi) decSize svc m name
          hname (by omega) (by omega) hroom wire hdata hdlen (hwire wire hdata)
        rw [hwhole]
        simp [Forges, hping, hdlen, hdata, hclean, hsep, hdecimal]
      · have hbad : m.data = none ∨ m.dlen ≠ pingMsgSize := by
          simpa only [not_and_or, not_not] using hwhole
        obtain ⟨hmark, -⟩ :=
          @monDecPing_unknown (c.buf.drop c.epi) decSize svc m name
            hname (by omega) hbad
        rw [hmark]
        refine iff_of_false (by simp [hclean, hsep]) ?_
        rintro ⟨-, hdlen, wire, hdata, -⟩
        exact hwhole ⟨by rw [hdata]; exact Option.some_ne_none _, hdlen⟩

theorem Lib.Sane.length_mem {s : Lib} (h : s.Sane) :
    s.us.mem.length = 2 * ethMtu + 16 := by
  rw [Sock.mem, List.length_append, List.length_append, List.length_append,
    h.recv.recv_length, h.send.send_length]
  simp [sizeBytes]
  omega

theorem udChckMsg_some_data {e : Env} {s : Lib} (hs : s.Sane) {msg : MsgRef}
    (h : (udChckMsg e s).val = some msg) : msg.data ≤ ethMtu - hdrSize + 2 := by
  have hsane := (refill_recvSane e.rx hs.recv).nrd_le
  rw [udChckMsg_eq] at h
  split at h
  · rename_i hmore
    obtain ⟨-, hnrd, hnck, -⟩ := Sock.eq_of_inbox
      (reply_inbox e { s with us := refill e.rx s.us })
    rw [chckMsg_eq] at h
    simp only [takeMsg] at h
    split at h
    · contradiction
    · cases h
      simp only [hnck]
      omega
  · contradiction

theorem hostname_in_mem {s : Lib} (hs : s.Sane) {msg : MsgRef}
    (hdata : msg.data ≤ ethMtu - hdrSize + 2) :
    ∀ wire, (msg.shown s.us).data = some wire →
      hnOffset + (hnzAt wire).toNat ≤ wire.length := by
  intro wire hwire
  cases hwire
  have hlen := hs.length_mem
  have hhnz := (hnzAt (s.us.mem.drop (hdrSize + msg.data))).toNat_lt
  rw [List.length_drop, hlen]
  unfold ethMtu hdrSize hnOffset at *
  omega

/-! ## The log of a run -/

/-- The sockets of the monitor, the static buffers and what went to `monout`. -/
structure Unsermon (κ : Type*) where
  g : Statics
  socks : κ → Sock
  monout : Bytes

def Unsermon.start (κ : Type*) : Unsermon κ := ⟨Statics.init, fun _ => Sock.fresh, []⟩

/--
One round of the loop in `mon_beef_cb`, on the socket `k`; `stack` is what is in
the buffer of `mon_pkt_cb`.
-/
structure Round (κ : Type*) where
  k : κ
  e : Env
  now : Timespec
  stack : Vector UInt8 lineSize

variable {κ : Type*}

def Unsermon.Sane (m : Unsermon κ) : Prop := ∀ k, (⟨m.g, m.socks k⟩ : Lib).Sane

theorem Unsermon.start_sane : (Unsermon.start κ).Sane := fun _ => Lib.fresh_sane

def beefRounds (k : κ) (es : Nat → Env) (now : Nat → Timespec)
    (stack : Nat → Vector UInt8 lineSize) (n : Nat) : List (Round κ) :=
  (List.range n).map fun i => ⟨k, es i, now i, stack i⟩

theorem beefRounds_succ (k : κ) (es : Nat → Env) (now : Nat → Timespec)
    (stack : Nat → Vector UInt8 lineSize) (n : Nat) :
    beefRounds k es now stack (n + 1) = ⟨k, es 0, now 0, stack 0⟩ ::
      beefRounds k (fun i => es (i + 1)) (fun i => now (i + 1))
        (fun i => stack (i + 1)) n := by
  simp [beefRounds, List.range_succ_eq_map, Function.comp_def]

variable [DecidableEq κ]

/-- Answered is what was told to be printed, if anything. -/
def Unsermon.round (inet : InetNtop) (decmap : Decmap Decoder) (m : Unsermon κ)
    (i : Round κ) : Unsermon κ × Option Entry :=
  let r := udChckMsg i.e ⟨m.g, m.socks i.k⟩
  let us := r.st.us
  let m := { m with g := r.st.g, socks := Function.update m.socks i.k us }
  match r.val with
  | none => (m, none)
  | some msg =>
      let line := monPktCb inet decmap i.now i.stack.toList us msg
      ({ m with monout := m.monout ++ line.text },
        (udGetAux us).map (entry inet decmap i.now i.stack.toList us msg))

def monitoring (inet : InetNtop) (decmap : Decmap Decoder) :
    System (Unsermon κ) (Round κ) (Option Entry) :=
  ⟨Unsermon.round inet decmap⟩

section Rounds

variable (inet : InetNtop) (decmap : Decmap Decoder)

theorem round_none {m : Unsermon κ} {i : Round κ}
    (h : (udChckMsg i.e ⟨m.g, m.socks i.k⟩).val = none) :
    (m.round inet decmap i).1.monout = m.monout ∧
      (m.round inet decmap i).2 = none := by
  simp only [Unsermon.round, h]
  exact ⟨trivial, trivial⟩

theorem round_some {m : Unsermon κ} {i : Round κ} {msg : MsgRef}
    (h : (udChckMsg i.e ⟨m.g, m.socks i.k⟩).val = some msg) :
    ∃ e : Entry, (m.round inet decmap i).2 = some e ∧ e.Clean ∧
      (m.round inet decmap i).1.monout = m.monout ++ (e.body ++ [newline]) := by
  have hpos := (udChckMsg_some h).1
  have haux : ∃ aux, udGetAux (udChckMsg i.e ⟨m.g, m.socks i.k⟩).st.us =
      some aux := by
    rw [udGetAux, if_neg (Nat.ne_of_gt hpos)]
    exact ⟨_, rfl⟩
  obtain ⟨aux, haux⟩ := haux
  have hline := wrote_monPktCb inet decmap i.now i.stack.length_toList msg haux
  simp only [Unsermon.round, h, haux, Option.map_some]
  exact ⟨_, rfl, (inet.addr_spec aux).2, by rw [hline.reads]⟩

theorem round_socks (m : Unsermon κ) (i : Round κ) :
    let r := udChckMsg i.e ⟨m.g, m.socks i.k⟩
    (m.round inet decmap i).1.g = r.st.g ∧
      (m.round inet decmap i).1.socks = Function.update m.socks i.k r.st.us := by
  simp only [Unsermon.round]
  cases (udChckMsg i.e ⟨m.g, m.socks i.k⟩).val with
  | none => exact ⟨rfl, rfl⟩
  | some msg => exact ⟨rfl, rfl⟩

theorem round_sane {m : Unsermon κ} (i : Round κ) (h : m.Sane) :
    (m.round inet decmap i).1.Sane := by
  have hnext := udChckMsg_sane i.e (h i.k)
  obtain ⟨hg, hsocks⟩ := round_socks inet decmap m i
  intro k
  rw [hg, hsocks]
  by_cases hk : k = i.k
  · subst hk
    rw [Function.update_self]
    exact hnext
  · rw [Function.update_of_ne hk]
    exact ⟨hnext.g, (h k).send, (h k).recv⟩

theorem monitoring_logs (m : Unsermon κ) (rounds : List (Round κ)) :
    let entries := ((monitoring inet decmap).outputs m rounds).reduceOption
    ((monitoring inet decmap).run m rounds).monout =
        m.monout ++ asLines (entries.map Entry.body) ∧
      ∀ e ∈ entries, e.Clean := by
  induction rounds generalizing m with
  | nil => simp [asLines, List.reduceOption_nil]
  | cons i rounds ih =>
      obtain ⟨hlog, haddr⟩ := ih (m.round inet decmap i).1
      cases hval : (udChckMsg i.e ⟨m.g, m.socks i.k⟩).val with
      | none =>
          obtain ⟨hmonout, hout⟩ := round_none inet decmap hval
          simp only [System.run_cons, System.outputs_cons, monitoring, hout,
            hmonout, List.reduceOption_cons_of_none] at hlog haddr ⊢
          exact ⟨hlog, haddr⟩
      | some msg =>
          obtain ⟨e, hout, hclear, hmonout⟩ := round_some inet decmap hval
          simp only [System.run_cons, System.outputs_cons, monitoring, hout,
            hmonout, List.reduceOption_cons_of_some] at hlog haddr ⊢
          refine ⟨?_, List.forall_mem_cons.mpr ⟨hclear, haddr⟩⟩
          rw [hlog]
          simp [asLines]

theorem entries_read_back_iff {entries : List Entry} (h : ∀ e ∈ entries, e.Clean) :
    (linesOf (asLines (entries.map Entry.body))).map Entry.read =
        entries.map some ↔
      ∀ e ∈ entries, newline ∉ e.text := by
  have hread : ∀ e ∈ entries, Entry.read e.body = some e :=
    fun e he => Entry.read_body (h e he)
  refine (records_read_back_iff hread).trans (forall₂_congr fun e he => ?_)
  rw [Entry.newline_mem_body (h e he)]

/--
However the rounds on the sockets follow each other, what the monitor has written
reads back, line by line, as what it was to print if and only if no decoder
printed a newline.
-/
theorem log_reads_back_iff (rounds : List (Round κ)) :
    let entries := ((monitoring inet decmap).outputs
      (Unsermon.start κ) rounds).reduceOption
    (linesOf ((monitoring inet decmap).run
        (Unsermon.start κ) rounds).monout).map Entry.read = entries.map some ↔
      ∀ e ∈ entries, newline ∉ e.text := by
  intro entries
  obtain ⟨hlog, hclean⟩ := monitoring_logs inet decmap (Unsermon.start κ) rounds
  rw [hlog]
  exact entries_read_back_iff hclean

/-! ## The loop of the monitor -/

def Entry.Of (e : Entry) (p : MonPkt) : Prop :=
  ∃ aux, p.aux = some aux ∧ e.len = aux.len.toNat ∧ e.pno = aux.pno.toNat ∧
    e.svc = aux.svc.toNat

theorem round_of {m : Unsermon κ} {i : Round κ} {msg : MsgRef}
    (h : (udChckMsg i.e ⟨m.g, m.socks i.k⟩).val = some msg) :
    ∃ e, (m.round inet decmap i).2 = some e ∧
      e.Of (monPktCb (udChckMsg i.e ⟨m.g, m.socks i.k⟩).st.us msg) := by
  have hpos := (udChckMsg_some h).1
  simp only [Unsermon.round, h, udGetAux, if_neg (Nat.ne_of_gt hpos),
    Option.map_some, Option.some.injEq, exists_eq_left']
  exact ⟨_, by rw [monPktCb, udGetAux, if_neg (Nat.ne_of_gt hpos)], rfl, rfl, rfl⟩

/--
A call of `mon_beef_cb` is a run of rounds on its socket, with a line for every
packet that is printed.
-/
theorem monBeefCb_rounds {fuel : Nat} {m : Unsermon κ} {k : κ} {es : Nat → Env}
    (now : Nat → Timespec) (stack : Nat → Vector UInt8 lineSize)
    {r : Res Lib (List MonPkt)}
    (h : monBeefCb fuel es ⟨m.g, m.socks k⟩ = some r) :
    let S := monitoring inet decmap
    let rounds := beefRounds k es now stack (r.val.length + 1)
    (S.run m rounds).g = r.st.g ∧
      (S.run m rounds).socks = Function.update m.socks k r.st.us ∧
      List.Forall₂ Entry.Of (S.outputs m rounds).reduceOption r.val := by
  induction fuel generalizing m es now stack r with
  | zero => contradiction
  | succ fuel ih =>
      have hstate := round_socks inet decmap m ⟨k, es 0, now 0, stack 0⟩
      obtain ⟨hg, hsocks⟩ := hstate
      cases hval : (udChckMsg (es 0) ⟨m.g, m.socks k⟩).val with
      | none =>
          simp only [monBeefCb, hval, Option.some.injEq] at h
          subst h
          obtain ⟨-, hout⟩ :=
            @round_none _ _ inet decmap m ⟨k, es 0, now 0, stack 0⟩ hval
          refine ⟨hg, hsocks, ?_⟩
          simp only [List.length_nil, beefRounds_succ, System.outputs_cons,
            monitoring, hout, List.reduceOption_cons_of_none]
          exact .nil
      | some msg =>
          simp only [monBeefCb, hval] at h
          obtain ⟨rest, hrest, heq⟩ := Option.map_eq_some_iff.mp h
          subst heq
          obtain ⟨e, hout, hof⟩ :=
            @round_of _ _ inet decmap m ⟨k, es 0, now 0, stack 0⟩ msg hval
          have hnext : (⟨(m.round inet decmap ⟨k, es 0, now 0, stack 0⟩).1.g,
              (m.round inet decmap ⟨k, es 0, now 0, stack 0⟩).1.socks k⟩ : Lib) =
                (udChckMsg (es 0) ⟨m.g, m.socks k⟩).st := by
            rw [hg, hsocks, Function.update_self]
          rw [← hnext] at hrest
          obtain ⟨hg', hsocks', hlines⟩ :=
            ih (fun i => now (i + 1)) (fun i => stack (i + 1)) hrest
          simp only [List.length_cons]
          rw [beefRounds_succ, System.run_cons, System.outputs_cons]
          refine ⟨hg', ?_, ?_⟩
          · exact hsocks'.trans (by rw [hsocks, Function.update_idem])
          · simp only [monitoring, hout, List.reduceOption_cons_of_some]
            exact .cons hof hlines

/-! ## Forged lines -/

def Round.Forged (m : Unsermon κ) (i : Round κ) : Prop :=
  let r := udChckMsg i.e ⟨m.g, m.socks i.k⟩
  ∃ msg, r.val = some msg ∧ Forges msg.svc (msg.shown r.st.us)

theorem decSize_le_rest {c : Cursor UInt8} {text : Bytes}
    (h : c.Wrote lineSize text) (hroom : text.length + decSize ≤ lineSize) :
    decSize ≤ (c.buf.drop c.epi).length := by
  rw [List.length_drop, h.length, h.epi]
  omega

theorem newline_mem_entry (now : Timespec) {stack : Bytes}
    (hstack : stack.length = lineSize) {us : Sock} {msg : MsgRef} {aux : UdAuxmsg}
    (hwire : ∀ wire, (msg.shown us).data = some wire →
      hnOffset + (hnzAt wire).toNat ≤ wire.length) :
    newline ∈ (Unsermon.entry inet (udMondecInit true Pages.empty).2 now stack
        us msg aux).text ↔ Forges aux.svc (msg.shown us) := by
  have hsize : lineSize = 8192 := rfl
  have hdec : decSize = 512 := rfl
  obtain ⟨hstamp, hfirst⟩ := wrote_stamp now hstack
  obtain ⟨haddr, hshort⟩ := @wrote_printAux inet aux _ _ _ hstamp (by omega)
  refine newline_mem_msgText (decSize_le_rest haddr ?_) hwire
  rw [List.length_append]
  omega

theorem round_forged {m : Unsermon κ} (h : m.Sane) (i : Round κ) :
    (∃ e, (m.round inet (udMondecInit true Pages.empty).2 i).2 = some e ∧
      newline ∈ e.text) ↔ i.Forged m := by
  have hnext := udChckMsg_sane i.e (h i.k)
  cases hval : (udChckMsg i.e ⟨m.g, m.socks i.k⟩).val with
  | none =>
      obtain ⟨-, hout⟩ := round_none inet (udMondecInit true Pages.empty).2 hval
      simp [Round.Forged, hval, hout]
  | some msg =>
      obtain ⟨hpos, hsvc⟩ := udChckMsg_some hval
      have hdata := udChckMsg_some_data (h i.k) hval
      have hentry := @newline_mem_entry inet i.now _ i.stack.length_toList _ msg
        ⟨(udChckMsg i.e ⟨m.g, m.socks i.k⟩).st.us.src.sa,
          hdrPno (udChckMsg i.e ⟨m.g, m.socks i.k⟩).st.us.recv, msg.svc,
          UInt32.ofNat (udChckMsg i.e ⟨m.g, m.socks i.k⟩).st.us.nrd⟩
        (hostname_in_mem hnext hdata)
      simp only [Unsermon.round, hval, udGetAux, if_neg (Nat.ne_of_gt hpos), ← hsvc,
        Option.map_some, Option.some.injEq, exists_eq_left', Round.Forged]
      exact hentry

end Rounds

/--
With the decoder for pings, what the monitor has written reads back line by line
if and only if no packet held a whole ping with a newline in its hostname.
-/
theorem ping_log_reads_back_iff (inet : InetNtop) (rounds : List (Round κ)) :
    let S := monitoring inet (udMondecInit true Pages.empty).2
    let m := Unsermon.start κ
    (linesOf (S.run m rounds).monout).map Entry.read =
        (S.outputs m rounds).reduceOption.map some ↔
      ∀ ev ∈ S.events m rounds, ¬ ev.input.Forged ev.pre := by
  intro S m
  obtain ⟨hlog, hclean⟩ :=
    monitoring_logs inet (udMondecInit true Pages.empty).2 m rounds
  have hsane : ∀ ev ∈ S.events m rounds, ev.pre.Sane :=
    S.invariant_pre (J := Unsermon.Sane) (G := fun _ _ => True)
      (fun _ i h _ => round_sane inet _ i h) Unsermon.start_sane rounds
      fun _ _ => trivial
  have hforged : ∀ ev ∈ S.events m rounds,
      (∃ e, ev.output = some e ∧ newline ∈ e.text) ↔ ev.input.Forged ev.pre := by
    intro ev hev
    rw [← round_forged inet (hsane ev hev), System.eq_event_of_mem S hev]
    rfl
  rw [hlog]
  refine (entries_read_back_iff hclean).trans ⟨?_, ?_⟩
  · intro h ev hev hbad
    obtain ⟨e, hout, hmem⟩ := (hforged ev hev).mpr hbad
    exact h e (List.reduceOption_mem_iff.mpr
      (List.mem_map.mpr ⟨ev, hev, hout⟩)) hmem
  · intro h e he hmem
    obtain ⟨ev, hev, hout⟩ := List.mem_map.mp (List.reduceOption_mem_iff.mp he)
    exact h ev hev ((hforged ev hev).mp ⟨e, hout, hmem⟩)

end Unserding
