import Unserding.Dealer

/-!
# The splice path

The pipe of `dlr_splc_cb` outlives its calls.  What a call leaves in it comes
out first in a later call, so after a call that falls short no other may hand
over anything without mixing packets up.
-/

namespace Unserding

open Foundation

/-- One call: where, what is received, and what the second splice does. -/
structure Splice where
  i : Nat
  rx : Option Bytes
  out : SendRes

def Splice.pkt (c : Splice) : Bytes := (c.rx.getD []).take fwdMtu

def Splice.moved (c : Splice) : Nat := c.out.moved c.pkt.length

def Splice.FallsShort (c : Splice) : Prop := c.moved < c.pkt.length

def splicing : System Dealer Splice Bytes :=
  ⟨fun d c => dlrSplcCb c.i c.rx c.out d⟩

theorem splcPkt_eq {β : Type*} (rx : Option (List β)) (out : SendRes)
    (pipe : List β) :
    splcPkt rx out pipe =
      ((pipe ++ (rx.getD []).take fwdMtu).drop
          (out.moved ((rx.getD []).take fwdMtu).length),
        (pipe ++ (rx.getD []).take fwdMtu).take
          (out.moved ((rx.getD []).take fwdMtu).length)) := by
  have hzero : out.moved 0 = 0 := Nat.le_zero.mp (out.moved_le 0)
  cases rx with
  | none => simp [splcPkt, hzero]
  | some pkt =>
      by_cases hnsp : (pkt.take fwdMtu).length = 0
      · have hnil := List.eq_nil_of_length_eq_zero hnsp
        simp [splcPkt, hnil, hzero]
      · simp only [splcPkt, if_neg hnsp, Option.getD_some]

/-! ## Marked bytes -/

/-- The pipe with every byte marked by the number of the call it came in. -/
structure Marked where
  count : Nat
  pipe : List (Nat × UInt8)

def Marked.step (m : Marked) (c : Splice) : Marked × List (Nat × UInt8) :=
  let r := splcPkt (c.rx.map (List.map (Prod.mk m.count))) c.out m.pipe
  (⟨m.count + 1, r.1⟩, r.2)

def marking : System Marked Splice (List (Nat × UInt8)) := ⟨Marked.step⟩

theorem marked_step_eq (m : Marked) (c : Splice) :
    m.step c =
      (⟨m.count + 1, (m.pipe ++ c.pkt.map (Prod.mk m.count)).drop c.moved⟩,
        (m.pipe ++ c.pkt.map (Prod.mk m.count)).take c.moved) := by
  have hpkt : ((c.rx.map (List.map (Prod.mk m.count))).getD []).take fwdMtu =
      c.pkt.map (Prod.mk m.count) := by
    cases hrx : c.rx <;> simp [Splice.pkt, hrx, List.map_take]
  rw [Marked.step, splcPkt_eq, hpkt, List.length_map]
  rfl

theorem outputs_marking {d : Dealer} {m : Marked}
    (h : d.pipe = m.pipe.map Prod.snd) (calls : List Splice) :
    splicing.outputs d calls =
      (marking.outputs m calls).map (List.map Prod.snd) := by
  induction calls generalizing d m with
  | nil => rfl
  | cons c calls ih =>
      have hjoin : d.pipe ++ c.pkt =
          (m.pipe ++ c.pkt.map (Prod.mk m.count)).map Prod.snd := by
        rw [List.map_append, ← h, List.map_map]
        simp [Function.comp_def]
      have hstep : splicing.step d c =
          ({ d.clo c.i with pipe := (d.pipe ++ c.pkt).drop c.moved },
            (d.pipe ++ c.pkt).take c.moved) := by
        change dlrSplcCb c.i c.rx c.out d = _
        rw [dlrSplcCb, splcPkt_eq]
        rfl
      rw [System.outputs_cons, System.outputs_cons, List.map_cons, hstep]
      change _ = (m.step c).2.map Prod.snd ::
        (marking.outputs (m.step c).1 calls).map (List.map Prod.snd)
      rw [marked_step_eq, List.map_take, ← hjoin]
      congr 1
      refine ih ?_
      rw [List.map_drop, ← hjoin]

/-! ## Packets kept apart -/

/-- All that a call hands over came in the same call. -/
def HandsOwn (ev : Event Marked Splice (List (Nat × UInt8))) : Prop :=
  ∀ b ∈ ev.output, b.1 = ev.pre.count

theorem handsOwn_backlog {m : Marked} (hpipe : m.pipe ≠ [])
    (hold : ∀ b ∈ m.pipe, b.1 < m.count) (calls : List Splice) :
    (∀ ev ∈ marking.events m calls, HandsOwn ev) ↔
      ∀ c ∈ calls, c.moved = 0 := by
  induction calls generalizing m with
  | nil => simp
  | cons c calls ih =>
      have hstep : marking.step m c = _ := marked_step_eq m c
      rw [System.events_cons, List.forall_mem_cons, List.forall_mem_cons]
      by_cases hmoved : c.moved = 0
      · rw [hmoved, List.drop_zero, List.take_zero] at hstep
        refine and_congr (iff_of_true ?_ hmoved) ?_
        · rw [HandsOwn, System.event, hstep]
          exact fun b hb => by contradiction
        · rw [hstep]
          refine ih (List.append_ne_nil_of_left_ne_nil hpipe _) fun b hb => ?_
          rcases List.mem_append.mp hb with hb | hb
          · exact Nat.lt_succ_of_lt (hold b hb)
          · obtain ⟨byte, -, rfl⟩ := List.mem_map.mp hb
            exact Nat.lt_succ_self _
      · refine iff_of_false (fun h => ?_) fun h => hmoved h.1
        obtain ⟨a, rest, hcons⟩ := List.exists_cons_of_ne_nil hpipe
        obtain ⟨k, hk⟩ := Nat.exists_eq_succ_of_ne_zero hmoved
        have hown := h.1 a (by
          rw [System.event, hstep, hcons, hk, List.cons_append,
            List.take_succ_cons]
          exact List.mem_cons_self)
        have holder := hold a (hcons ▸ List.mem_cons_self)
        exact absurd hown (Nat.ne_of_lt holder)

theorem handsOwn_fresh {m : Marked} (hpipe : m.pipe = [])
    (calls : List Splice) :
    (∀ ev ∈ marking.events m calls, HandsOwn ev) ↔
      calls.Pairwise fun c c' => c.FallsShort → c'.moved = 0 := by
  induction calls generalizing m with
  | nil => simp
  | cons c calls ih =>
      have hle : c.moved ≤ c.pkt.length := c.out.moved_le _
      have hstep : marking.step m c = _ := marked_step_eq m c
      rw [hpipe, List.nil_append] at hstep
      have hown : HandsOwn (marking.event m c) := by
        rw [HandsOwn, System.event, hstep]
        intro b hb
        obtain ⟨byte, -, rfl⟩ := List.mem_map.mp (List.mem_of_mem_take hb)
        rfl
      rw [System.events_cons, List.forall_mem_cons, List.pairwise_cons, hstep]
      by_cases hshort : c.FallsShort
      · have hleft : (c.pkt.map (Prod.mk m.count)).drop c.moved ≠ [] := by
          rw [ne_eq, List.drop_eq_nil_iff, List.length_map]
          exact Nat.not_le.mpr hshort
        rw [handsOwn_backlog hleft fun b hb => by
          obtain ⟨byte, -, rfl⟩ := List.mem_map.mp (List.mem_of_mem_drop hb)
          exact Nat.lt_succ_self _]
        constructor
        · rintro ⟨-, hquiet⟩
          refine ⟨fun c' hc' _ => hquiet c' hc', ?_⟩
          exact List.pairwise_of_forall_mem_list
            fun _ _ c' hc' _ => hquiet c' hc'
        · exact fun h => ⟨hown, fun c' hc' => h.1 c' hc' hshort⟩
      · have hall : (c.pkt.map (Prod.mk m.count)).drop c.moved = [] := by
          rw [List.drop_eq_nil_iff, List.length_map]
          exact Nat.not_lt.mp hshort
        rw [ih hall]
        exact and_congr (iff_of_true hown fun _ _ h => absurd h hshort) Iff.rfl

theorem forward_isPrefix (buf : Bytes) (left : Nat) (ws : Nat → SendRes) :
    ∀ part ∈ forward buf left ws, part <+: buf := by
  induction left generalizing ws with
  | zero => exact fun part hpart => by contradiction
  | succ left ih =>
      rw [forward]
      rcases sendto_cases (ws 0) buf with ⟨hnone, -⟩ | hsome
      · rw [hnone]
        exact ih _
      · rw [hsome]
        simp only
        split
        · rw [List.forall_mem_cons]
          exact ⟨List.take_prefix _ _, ih _⟩
        · rw [List.forall_mem_singleton]
          exact List.take_prefix _ _

/--
Whatever a call of `dlr_splc_cb` hands over came in the same call if and only
if no call hands over anything after one that fell short of its packet.  On the
copy path every send is made of the packet received.
-/
theorem splice_hands_own_iff (d : Dealer) (calls : List Splice) :
    splicing.outputs { d with pipe := [] } calls =
      (marking.outputs ⟨0, []⟩ calls).map (List.map Prod.snd) ∧
    ((∀ ev ∈ marking.events ⟨0, []⟩ calls, HandsOwn ev) ↔
      calls.Pairwise fun c c' => c.FallsShort → c'.moved = 0) ∧
    ∀ (i : Nat) (pkt : Bytes) (ws : Nat → SendRes),
      ∀ part ∈ (dlrDataCb i (some pkt) ws d).2, part <+: pkt := by
  refine ⟨outputs_marking rfl calls, handsOwn_fresh rfl calls, ?_⟩
  intro i pkt ws part hpart
  change part ∈ redirect (some pkt) ws at hpart
  rcases Nat.eq_zero_or_pos pkt.length with hzero | hpos
  · rw [List.eq_nil_of_length_eq_zero hzero] at hpart
    contradiction
  · rw [redirect_of_length hpos] at hpart
    exact (forward_isPrefix _ _ _ part hpart).trans (List.take_prefix _ _)

/-- The first splice to the destination fails and the second one is full. -/
theorem not_splice_hands_own :
    ¬ ∀ calls : List Splice,
      ∀ ev ∈ marking.events ⟨0, []⟩ calls, HandsOwn ev := by
  intro h
  have hpairs := (handsOwn_fresh rfl _).mp
    (h [⟨0, some [1], .fail⟩, ⟨0, some [2], .full⟩])
  have hmoved := (List.pairwise_cons.mp hpairs).1 _ List.mem_cons_self
    (show 0 < 1 by decide)
  exact absurd hmoved (by decide)

end Unserding
