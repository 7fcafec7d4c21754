import Unserding.Records

/-!
# The monitor

The loop of `unsermon.c` that prints messages until `ud_chck_msg` fails.  Every
message moves the cursor on, and only the first call can find the socket idle,
so the loop ends within one datagram whatever is queued behind it.
-/

namespace Unserding

open Foundation

/-! ## The drain loop -/

/-- What `mon_pkt_cb` gets to print; the line it prints is `Unsermon.monPktCb`. -/
structure MonPkt where
  msg : MsgRef
  aux : Option UdAuxmsg

def monPktCb (us : Sock) (msg : MsgRef) : MonPkt := ⟨msg, udGetAux us⟩

/--
The loop of `mon_beef_cb` with at most `fuel` calls of `ud_chck_msg`, the n-th
of which meets the answers `es n`.
-/
def monBeefCb : Nat → (Nat → Env) → Lib → Option (Res Lib (List MonPkt))
  | 0, _, _ => none
  | fuel + 1, es, s =>
      let r := udChckMsg (es 0) s
      match r.val with
      | none => some ⟨[], r.st, r.tx⟩
      | some msg =>
          (monBeefCb fuel (fun n => es (n + 1)) r.st).map fun rest =>
            ⟨monPktCb r.st.us msg :: rest.val, rest.st, r.tx ++ rest.tx⟩

def Sock.budget (us : Sock) : Nat :=
  if us.nrd = 0 then (ethMtu - hdrSize) / 2 else (us.nrd - us.nck + 1) / 2

theorem Sock.RecvSane.budget_le {us : Sock} (h : us.RecvSane) :
    us.budget ≤ 716 := by
  have hle := h.nrd_le
  unfold budget
  unfold ethMtu hdrSize at *
  split <;> omega

theorem refill_used_up {rx : Option Arrival} {us : Sock}
    (h : ¬ (refill rx us).nck < (refill rx us).nrd) : (refill rx us).nrd = 0 := by
  unfold refill at *
  split at h
  · rename_i hdose
    rw [if_pos hdose]
    rcases udDscrd_cases rx us with ⟨-, heq⟩ | ⟨hnrd, -, heq⟩ |
      ⟨hnrd, d, -, -, heq⟩ | ⟨-, d, -, -, heq⟩
    · rw [heq]
    · rw [heq]
      exact hnrd
    · rw [heq]
      exact hnrd
    · rw [heq] at h ⊢
      exact Nat.eq_zero_of_not_pos h
  · rename_i hmore
    exact absurd (Nat.lt_of_not_ge hmore) h

theorem udChckMsg_none_idle {e : Env} {s : Lib} (hs : s.Sane)
    (h : (udChckMsg e s).val = none) :
    (udChckMsg e s).st.us.nrd = 0 ∧ (udChckMsg e s).st.us.nck = 0 := by
  have hidle : (udChckMsg e s).st.us.nrd = 0 := by
    rw [udChckMsg_eq] at h ⊢
    split at h
    · rename_i hmore
      rw [if_pos hmore]
      rw [chckMsg_eq] at h ⊢
      simp only [takeMsg] at h ⊢
      split at h
      · rename_i hjunk
        rw [if_pos hjunk]
      · contradiction
    · rename_i hnone
      rw [if_neg hnone]
      exact refill_used_up hnone
  exact ⟨hidle, (udChckMsg_sane e hs).recv.nck_eq_zero hidle⟩

theorem udChckMsg_some_budget {e : Env} {s : Lib} (hs : s.Sane) {msg : MsgRef}
    (h : (udChckMsg e s).val = some msg) :
    (udChckMsg e s).st.us.nrd ≠ 0 ∧
      (udChckMsg e s).st.us.budget < s.us.budget := by
  obtain ⟨hmore, hnrd, hnck⟩ := udChckMsg_some_advances h
  have hle := (refill_recvSane e.rx hs.recv).nrd_le
  have hpos : (udChckMsg e s).st.us.nrd ≠ 0 := by omega
  refine ⟨hpos, ?_⟩
  by_cases hidle : s.us.nrd = 0
  · rw [Sock.budget, if_neg hpos, Sock.budget, if_pos hidle]
    unfold ethMtu hdrSize at *
    omega
  · obtain ⟨hleft, hsame, hmoved⟩ := udChckMsg_some_left hidle h
    rw [Sock.budget, if_neg hpos, Sock.budget, if_neg hidle]
    omega

def loopCalls (es : Nat → Env) (n : Nat) : List Call :=
  (List.range n).map fun i => .udChckMsg (es i)

theorem loopCalls_succ (es : Nat → Env) (n : Nat) :
    loopCalls es (n + 1) =
      .udChckMsg (es 0) :: loopCalls (fun i => es (i + 1)) n := by
  simp [loopCalls, List.range_succ_eq_map, Function.comp_def]

/--
The loop ends within the budget of the socket it starts on.  The induction is
on the fuel; only the first call can meet an idle socket and read a datagram.
-/
theorem monBeefCb_run {fuel : Nat} (es : Nat → Env) {s : Lib} (hs : s.Sane)
    (hfuel : s.us.budget < fuel) :
    ∃ r, monBeefCb fuel es s = some r ∧
      r.val.length ≤ s.us.budget ∧
      r.st = api.run s (loopCalls es (r.val.length + 1)) ∧
      Trace.reads (api.events s (loopCalls es (r.val.length + 1))) =
        (readNow s.us (es 0).rx).toList ∧
      r.st.us.nrd = 0 ∧ r.st.us.nck = 0 := by
  induction fuel generalizing es s with
  | zero => exact absurd hfuel (Nat.not_lt_zero _)
  | succ fuel ih =>
      have hstep : ∀ calls, api.events s (.udChckMsg (es 0) :: calls) =
          [api.event s (.udChckMsg (es 0))] ++
            api.events (udChckMsg (es 0) s).st calls := fun _ => rfl
      cases hval : (udChckMsg (es 0) s).val with
      | none =>
          refine ⟨⟨[], (udChckMsg (es 0) s).st, (udChckMsg (es 0) s).tx⟩, ?_,
            Nat.zero_le _, rfl, ?_, udChckMsg_none_idle hs hval⟩
          · simp only [monBeefCb, hval]
          · exact Trace.reads_singleton s (.udChckMsg (es 0))
      | some msg =>
          obtain ⟨hbusy, hbudget⟩ := udChckMsg_some_budget hs hval
          obtain ⟨r, hr, hlen, hst, hreads, hidle⟩ :=
            ih (fun n => es (n + 1)) (udChckMsg_sane (es 0) hs) (by omega)
          refine ⟨⟨monPktCb (udChckMsg (es 0) s).st.us msg :: r.val, r.st,
            (udChckMsg (es 0) s).tx ++ r.tx⟩, ?_, ?_, ?_, ?_, hidle⟩
          · simp only [monBeefCb, hval, hr, Option.map_some]
          · rw [List.length_cons]
            omega
          · rw [List.length_cons, loopCalls_succ, System.run_cons]
            exact hst
          · rw [List.length_cons, loopCalls_succ, hstep, Trace.reads_append,
              hreads, readNow, if_neg hbusy, Trace.reads_singleton]
            exact List.append_nil _

/--
From every reachable state the drain loop of the monitor ends after at most 716
messages, whatever is queued.  It reads one datagram if it starts idle and one
is there, none else, and leaves the socket idle.
-/
theorem monitor_drains (calls : List Call) (es : Nat → Env) (more : Nat) :
    let s := api.run Lib.fresh calls
    ∃ r, monBeefCb (717 + more) es s = some r ∧ r.val.length ≤ 716 ∧
      r.st = api.run s (loopCalls es (r.val.length + 1)) ∧
      Trace.reads (api.events s (loopCalls es (r.val.length + 1))) =
        (if s.us.nrd = 0 then (es 0).rx else none).toList ∧
      r.st.us.nrd = 0 ∧ r.st.us.nck = 0 := by
  intro s
  have hs : s.Sane := run_sane calls
  have hbudget := hs.recv.budget_le
  obtain ⟨r, hr, hlen, hst, hreads, hidle⟩ :=
    @monBeefCb_run (717 + more) es s hs (by omega)
  exact ⟨r, hr, Nat.le_trans hlen hbudget, hst, hreads, hidle⟩

end Unserding
