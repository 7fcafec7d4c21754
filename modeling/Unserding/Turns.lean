import Unserding.Bridge
import Unserding.Slots

/-!
# Connections in turn

The slots of the dealer are filled round and round.  A connection whose peer
says nothing therefore stays until seven others have come, and the next one to
knock takes its place.
-/

namespace Unserding

open Foundation

def DealerCall.accepts : DealerCall → Bool
  | .dlrTcpCb false s => decide (0 ≤ s)
  | .dlrTcpCb true _ | .dlrDataCb _ _ _ | .dlrSplcCb _ _ _ => false

def accepts (calls : List DealerCall) : Nat := calls.countP DealerCall.accepts

def Dealer.Closed (d d' : Dealer) (i : Nat) : Prop :=
  ∃ wasOpen, .close (d.conns i).fd wasOpen ∈ d'.deeds.drop d.deeds.length

/-! ## What was done stays done -/

theorem Dealer.shutLive_deeds (d : Dealer) (i : Nat) :
    d.deeds <+: (d.shutLive i).deeds := by
  unfold Dealer.shutLive
  split
  · exact List.prefix_append _ _
  · exact List.prefix_rfl

theorem shutAll_deeds (slots : List Nat) (d : Dealer) :
    d.deeds <+: (slots.foldl (fun d i => d.shutLive i) d).deeds := by
  induction slots generalizing d with
  | nil => exact List.prefix_rfl
  | cons i slots ih => exact (d.shutLive_deeds i).trans (ih (d.shutLive i))

theorem Dealer.clo_deeds (d : Dealer) (i : Nat) :
    d.deeds <+: (d.clo i).deeds := by
  unfold Dealer.clo
  split
  · exact List.prefix_rfl
  · exact List.prefix_append _ _

theorem dealerCall_deeds (d : Dealer) (c : DealerCall) :
    d.deeds <+: (c.step d).1.deeds := by
  cases c with
  | dlrTcpCb down s =>
      simp only [DealerCall.step, dlrTcpCb]
      split
      · exact shutAll_deeds _ d
      · split
        · exact d.shutLive_deeds d.next
        · exact (d.shutLive_deeds d.next).trans (List.prefix_append _ _)
  | dlrDataCb i rx ws => exact d.clo_deeds i
  | dlrSplcCb i rx out => exact d.clo_deeds i

theorem dealing_deeds (d : Dealer) (calls : List DealerCall) :
    d.deeds <+: (dealing.run d calls).deeds := by
  induction calls generalizing d with
  | nil => exact List.prefix_rfl
  | cons c calls ih => exact (dealerCall_deeds d c).trans (ih (c.step d).1)

theorem Dealer.Closed.mono {d d' d'' : Dealer} {i : Nat} (h : d.Closed d' i)
    (hdeeds : d'.deeds <+: d''.deeds) : d.Closed d'' i := by
  obtain ⟨wasOpen, hmem⟩ := h
  exact ⟨wasOpen, (hdeeds.drop d.deeds.length).subset hmem⟩

theorem Dealer.Closed.not_stays {d d' : Dealer} {i : Nat} (h : d.Closed d' i) :
    ¬ d.Stays d' i := by
  obtain ⟨wasOpen, hmem⟩ := h
  exact fun hstays => hstays.deeds wasOpen hmem

theorem Dealer.Stays.closed {d d' d'' : Dealer} {i : Nat} (h : d.Stays d' i)
    (hdeeds : d.deeds <+: d'.deeds) (hclosed : d'.Closed d'' i) :
    d.Closed d'' i := by
  obtain ⟨wasOpen, hmem⟩ := hclosed
  rw [h.conns] at hmem
  exact ⟨wasOpen, List.drop_subset_drop_left _ hdeeds.length_le hmem⟩

theorem Dealer.Stays.trans {d d' d'' : Dealer} {i : Nat} (h : d.Stays d' i)
    (hdeeds : d.deeds <+: d'.deeds) (hdeeds' : d'.deeds <+: d''.deeds)
    (h' : d'.Stays d'' i) : d.Stays d'' i := by
  refine ⟨h'.conns.trans h.conns, h.conns ▸ h'.accepted, fun wasOpen hmem => ?_⟩
  obtain ⟨new, hnew⟩ := hdeeds
  obtain ⟨newer, hnewer⟩ := hdeeds'
  have hfirst := h.deeds wasOpen
  have hsecond := h'.deeds wasOpen
  rw [← hnew, List.drop_left] at hfirst
  rw [← hnewer, List.drop_left, h.conns] at hsecond
  rw [← hnewer, ← hnew, List.append_assoc, List.drop_left] at hmem
  rcases List.mem_append.mp hmem with hold | hlate
  · exact hfirst hold
  · exact hsecond hlate

/-! ## A connection and a call -/

theorem shut_closed (d : Dealer) (i : Nat) : d.Closed (d.shut i) i := by
  obtain ⟨wasOpen, hdeeds⟩ : ∃ wasOpen, (d.shut i).deeds =
      d.deeds ++ [.close (d.conns i).fd wasOpen] := ⟨_, rfl⟩
  refine ⟨wasOpen, ?_⟩
  rw [hdeeds, List.drop_left]
  exact List.mem_singleton_self _

theorem shutLive_closed {d : Dealer} {i : Nat} (hlive : d.Live i) :
    d.Closed (d.shutLive i) i := by
  have hshut : d.shutLive i = d.shut i := if_pos hlive
  rw [hshut]
  exact shut_closed d i

theorem shutAll_closed {slots : List Nat} {i : Nat} (hi : i ∈ slots) {d : Dealer}
    (hlive : d.Live i) :
    d.Closed (slots.foldl (fun d i => d.shutLive i) d) i := by
  induction slots generalizing d with
  | nil => contradiction
  | cons j slots ih =>
      by_cases hj : j = i
      · exact hj ▸ (shutLive_closed (hj ▸ hlive)).mono (shutAll_deeds slots _)
      · have hconns : (d.shutLive j).conns i = d.conns i := by
          unfold Dealer.shutLive
          split
          · exact Function.update_of_ne (Ne.symm hj) ..
          · rfl
        have hlive' : (d.shutLive j).Live i := by
          rw [Dealer.Live, hconns]
          exact hlive
        have hrest := (List.mem_cons.mp hi).resolve_left (Ne.symm hj)
        obtain ⟨wasOpen, hmem⟩ := ih hrest hlive'
        rw [hconns] at hmem
        exact ⟨wasOpen, List.drop_subset_drop_left _
          (d.shutLive_deeds j).length_le hmem⟩

theorem dlrTcpCb_closed {d : Dealer} (hlive : d.Live d.next) (s : Int) :
    d.Closed (dlrTcpCb false s d) d.next := by
  rw [dlrTcpCb, if_neg Bool.false_ne_true]
  apply (shutLive_closed hlive).mono
  split
  · exact List.prefix_rfl
  · exact List.prefix_append _ _

section Others

variable {d : Dealer} {R : Roster (Fin countofConns) Int} (h : d.Refines R)
  {i : Nat} (hi : i < countofConns) (hlive : d.Live i)

include h hi hlive

theorem Dealer.Refines.stays_shut {j : Nat} (hj : j < countofConns)
    (hne : j ≠ i) (hlive' : d.Live j) : d.Stays (d.shut j) i := by
  have hfd : (d.conns j).fd ≠ (d.conns i).fd := by
    intro heq
    have hslot := h.slot_eq_some ⟨i, hi⟩ hlive
    have hslot' := h.slot_eq_some ⟨j, hj⟩ hlive'
    exact hne (congrArg Fin.val (R.inj (heq ▸ hslot') hslot))
  refine ⟨Function.update_of_ne (Ne.symm hne) .., ?_, fun wasOpen hmem => ?_⟩
  · exact Finset.mem_erase_of_ne_of_mem (Ne.symm hfd)
      (h.stays_self hi hlive).accepted
  · simp only [Dealer.shut, evIoShut, List.drop_left, List.mem_singleton,
      Deed.close.injEq] at hmem
    exact hfd hmem.1.symm

theorem Dealer.Refines.stays_shutLive {j : Nat} (hj : j < countofConns)
    (hne : j ≠ i) : d.Stays (d.shutLive j) i := by
  unfold Dealer.shutLive
  split
  · exact h.stays_shut hi hlive hj hne ‹_›
  · exact h.stays_self hi hlive

theorem Dealer.Refines.stays_clo {j : Nat} (hj : j < countofConns)
    (hactive : (d.conns j).active = true) (hne : j ≠ i) :
    d.Stays (d.clo j) i := by
  rw [Dealer.clo, h.proto]
  exact h.stays_shut hi hlive hj hne ((h.serves ⟨j, hj⟩).active.mp hactive)

theorem Dealer.Refines.stays_incoming (hne : d.next ≠ i) (s : Int) :
    d.Stays (dlrTcpCb false s d) i := by
  have hstays := h.stays_shutLive hi hlive h.next_lt hne
  rw [dlrTcpCb, if_neg Bool.false_ne_true]
  split
  · exact hstays
  · obtain ⟨R', h', hfree⟩ := h.shutLive ⟨d.next, h.next_lt⟩
    have hnext : (d.shutLive d.next).next = d.next := by
      unfold Dealer.shutLive
      split <;> rfl
    have hidle : ¬ (d.shutLive d.next).Live (d.shutLive d.next).next := by
      intro hbusy
      rw [hnext] at hbusy
      have hslot := h'.slot_eq_some ⟨d.next, h.next_lt⟩ hbusy
      rw [hfree] at hslot
      contradiction
    have hlive' : (d.shutLive d.next).Live i := by
      rw [Dealer.Live, hstays.conns]
      exact hlive
    exact hstays.trans (d.shutLive_deeds d.next) (List.prefix_append _ _)
      (h'.stays_enroll hidle s hi hlive')

end Others

/-! ## The slot that is next -/

theorem Dealer.shutLive_next (d : Dealer) (i : Nat) :
    (d.shutLive i).next = d.next := by
  unfold Dealer.shutLive
  split <;> rfl

theorem shutAll_next (slots : List Nat) (d : Dealer) :
    (slots.foldl (fun d i => d.shutLive i) d).next = d.next := by
  induction slots generalizing d with
  | nil => rfl
  | cons i slots ih => exact (ih (d.shutLive i)).trans (d.shutLive_next i)

theorem Dealer.clo_next (d : Dealer) (i : Nat) : (d.clo i).next = d.next := by
  unfold Dealer.clo
  split <;> rfl

theorem dealerCall_next {d : Dealer} (hnext : d.next < countofConns)
    (c : DealerCall) :
    (c.step d).1.next =
      (d.next + if c.accepts then 1 else 0) % countofConns := by
  cases c with
  | dlrTcpCb down s =>
      cases down with
      | true =>
          simp [DealerCall.step, dlrTcpCb, DealerCall.accepts, shutAll_next,
            Nat.mod_eq_of_lt hnext]
      | false =>
          by_cases hs : s < 0
          · have hnot : ¬ 0 ≤ s := Int.not_le.mpr hs
            simp [DealerCall.step, dlrTcpCb, DealerCall.accepts, hs, hnot,
              Dealer.shutLive_next, Nat.mod_eq_of_lt hnext]
          · have hpos : 0 ≤ s := Int.not_lt.mp hs
            simp only [DealerCall.step, dlrTcpCb, DealerCall.accepts, hs, hpos,
              Dealer.enroll, Dealer.shutLive_next, decide_true, if_true, if_false,
              Bool.false_eq_true]
            unfold countofConns at *
            split <;> omega
  | dlrDataCb i rx ws =>
      simp [DealerCall.step, dlrDataCb, DealerCall.accepts, Dealer.clo_next,
        Nat.mod_eq_of_lt hnext]
  | dlrSplcCb i rx out =>
      simp [DealerCall.step, dlrSplcCb, DealerCall.accepts, Dealer.clo_next,
        Nat.mod_eq_of_lt hnext]

/-! ## Tenure -/

structure Tenure (d d' : Dealer) (i k : Nat) : Prop where
  stays : d.Stays d' i
  deeds : d.deeds <+: d'.deeds
  le : k < countofConns
  next : d'.next = (i + 1 + k) % countofConns

theorem tenure_step {d d' : Dealer} {i k : Nat} (hi : i < countofConns)
    (hlive : d.Live i) (h : Tenure d d' i k)
    {R : Roster (Fin countofConns) Int} (hR : d'.Refines R) {c : DealerCall}
    (hc : Allowed d' c) :
    d.Closed (c.step d').1 i ∨
      Tenure d (c.step d').1 i (k + if c.accepts then 1 else 0) := by
  have hlive' : d'.Live i := by
    rw [Dealer.Live, h.stays.conns]
    exact hlive
  have hclosed : d'.Closed (c.step d').1 i → d.Closed (c.step d').1 i :=
    h.stays.closed h.deeds
  have hnext := dealerCall_next hR.next_lt c
  have hkeep : d'.Stays (c.step d').1 i →
      k + (if c.accepts then 1 else 0) < countofConns →
      Tenure d (c.step d').1 i (k + if c.accepts then 1 else 0) := by
    intro hstays hle
    refine ⟨h.stays.trans h.deeds (dealerCall_deeds d' c) hstays,
      h.deeds.trans (dealerCall_deeds d' c), hle, ?_⟩
    rw [hnext, h.next, Nat.mod_add_mod, Nat.add_assoc]
  cases c with
  | dlrTcpCb down s =>
      cases down with
      | true =>
          exact .inl (hclosed (shutAll_closed (List.mem_range.mpr hi) hlive'))
      | false =>
          by_cases hturn : d'.next = i
          · have hout := dlrTcpCb_closed (hturn ▸ hlive') s
            rw [hturn] at hout
            exact .inl (hclosed hout)
          · refine .inr (hkeep (hR.stays_incoming hi hlive' hturn s) ?_)
            have hle := h.le
            rw [h.next] at hturn
            unfold countofConns at *
            split <;> omega
  | dlrDataCb j rx ws =>
      by_cases hj : j = i
      · left
        apply hclosed
        have hclo : (DealerCall.step d' (.dlrDataCb j rx ws)).1 = d'.shut i := by
          simp [DealerCall.step, dlrDataCb, Dealer.clo, hR.proto, hj]
        exact hclo ▸ shut_closed d' i
      · exact .inr (hkeep (hR.stays_clo hi hlive' hc.1 hc.2 hj) h.le)
  | dlrSplcCb j rx out =>
      by_cases hj : j = i
      · left
        apply hclosed
        obtain ⟨wasOpen, hmem⟩ := shut_closed d' i
        refine ⟨wasOpen, ?_⟩
        simpa [DealerCall.step, dlrSplcCb, Dealer.clo, hR.proto, hj] using hmem
      · obtain ⟨hconns, haccepted, hdeeds⟩ :=
          hR.stays_clo hi hlive' hc.1 hc.2 hj
        exact .inr (hkeep ⟨hconns, haccepted, hdeeds⟩ h.le)

theorem tenure_run {d d' : Dealer} {i k : Nat} (hi : i < countofConns)
    (hlive : d.Live i) (h : Tenure d d' i k)
    {R : Roster (Fin countofConns) Int} (hR : d'.Refines R)
    {calls : List DealerCall}
    (hcalls : ∀ ev ∈ dealing.events d' calls, Allowed ev.pre ev.input) :
    d.Closed (dealing.run d' calls) i ∨
      Tenure d (dealing.run d' calls) i (k + accepts calls) := by
  induction calls generalizing d' k R with
  | nil => exact .inr h
  | cons c calls ih =>
      rw [System.events_cons, List.forall_mem_cons] at hcalls
      obtain ⟨R', hR'⟩ := dealerCall_refines hR hcalls.1
      rcases tenure_step hi hlive h hR hcalls.1 with hclosed | hstill
      · exact .inl (hclosed.mono (dealing_deeds _ calls))
      · have hrest := ih hstill hR' hcalls.2
        rw [accepts, List.countP_cons, Nat.add_comm (calls.countP _),
          ← Nat.add_assoc]
        exact hrest

theorem Dealer.Refines.tenure_enrolled {d : Dealer}
    {R : Roster (Fin countofConns) Int} (h : d.Refines R) {s : Int} (hs : 0 ≤ s)
    (hallowed : Allowed d (.dlrTcpCb false s)) :
    (dlrTcpCb false s d).Live d.next ∧
      Tenure (dlrTcpCb false s d) (dlrTcpCb false s d) d.next 0 := by
  obtain ⟨R', h'⟩ := dlrTcpCb_refines h false s hallowed
  have hlive : (dlrTcpCb false s d).Live d.next := by
    rw [dlrTcpCb, if_neg Bool.false_ne_true, if_neg (Int.not_lt.mpr hs)]
    simp only [Dealer.Live, Dealer.enroll, Dealer.shutLive_next,
      Function.update_self]
    exact (hallowed rfl hs).1
  have hnext := dealerCall_next h.next_lt (.dlrTcpCb false s)
  simp only [DealerCall.accepts, hs, decide_true, if_true] at hnext
  exact ⟨hlive, h'.stays_self h.next_lt hlive, List.prefix_rfl, by decide, hnext⟩

/--
However the callbacks are interleaved, a connection that is still there has seen
at most seven others come after it, and the next one to knock has it closed if
and only if seven have come.
-/
theorem closed_in_turn {before since : List DealerCall} {s : Int} (hs : 0 ≤ s)
    (hcalls : ∀ ev ∈ dealing.events (Dealer.init .tcp)
      (before ++ .dlrTcpCb false s :: since), Allowed ev.pre ev.input) :
    let d := dealing.run (Dealer.init .tcp) before
    let come := dlrTcpCb false s d
    let here := dealing.run come since
    come.Stays here d.next →
      accepts since ≤ 7 ∧ ∀ s',
        come.Closed (dlrTcpCb false s' here) d.next ↔ accepts since = 7 := by
  intro d come here hstays
  obtain ⟨R'', hR''⟩ := dealing_refines _ hcalls
  rw [System.run_append] at hR''
  have hhere : here.Refines R'' := hR''
  simp only [System.events_append, System.events_cons, List.forall_mem_append,
    List.forall_mem_cons] at hcalls
  obtain ⟨hbefore, hcome, hsince⟩ := hcalls
  obtain ⟨R, hR⟩ := dealing_refines before hbefore
  obtain ⟨R', hR'⟩ := dlrTcpCb_refines hR false s hcome
  obtain ⟨hlive, hfirst⟩ := hR.tenure_enrolled hs hcome
  have htenure : Tenure come here d.next (accepts since) := by
    rcases tenure_run hR.next_lt hlive hfirst hR' hsince with hclosed | hstill
    · exact absurd hstays hclosed.not_stays
    · rwa [Nat.zero_add] at hstill
  have hlive' : here.Live d.next := by
    rw [Dealer.Live, hstays.conns]
    exact hlive
  have hle : accepts since < 8 := htenure.le
  have hlt : d.next < 8 := hR.next_lt
  have hnext : here.next = (d.next + 1 + accepts since) % 8 := htenure.next
  refine ⟨Nat.le_of_lt_succ hle, fun s' => ?_⟩
  by_cases hseven : accepts since = 7
  · refine iff_of_true ?_ hseven
    have hturn : here.next = d.next := by omega
    apply hstays.closed htenure.deeds
    exact hturn ▸ dlrTcpCb_closed (hturn.symm ▸ hlive') s'
  · refine iff_of_false (fun hclosed => hclosed.not_stays ?_) hseven
    have hturn : here.next ≠ d.next := by omega
    exact hstays.trans htenure.deeds
      (dealerCall_deeds here (.dlrTcpCb false s'))
      (hhere.stays_incoming hR.next_lt hlive' hturn s')

def sevenMore : List DealerCall :=
  [6, 7, 8, 9, 10, 11, 12].map (DealerCall.dlrTcpCb false)

theorem closed_in_turn_witness :
    let come := dlrTcpCb false 5 (Dealer.init .tcp)
    come.Closed (dlrTcpCb false 13 (dealing.run come sevenMore)) 0 := by
  have hcalls : ∀ ev ∈ dealing.events (Dealer.init .tcp)
      ([] ++ .dlrTcpCb false 5 :: sevenMore), Allowed ev.pre ev.input := by
    intro ev hev
    apply crowd_allowed ev
    have hcrowd : crowd ++ [.dlrTcpCb false 13] =
        ([] ++ .dlrTcpCb false 5 :: sevenMore) ++
          [.dlrDataCb 1 none fun _ => .full, .dlrTcpCb false 13] := rfl
    rw [hcrowd, System.events_append]
    exact List.mem_append_left _ hev
  exact ((closed_in_turn (by decide) hcalls
    ⟨by decide, by decide, by decide⟩).2 13).mpr (by decide)

/-! ## What becomes of the connections -/

def Deed.isClose : Deed → Bool
  | .close _ _ => true
  | .init _ _ => false

def Dealer.closes (d : Dealer) : Nat := d.deeds.countP Deed.isClose

/-- The sends of a data callback are those of a datagram socket. -/
def DealerCall.Atomic : DealerCall → Prop
  | .dlrTcpCb _ _ | .dlrSplcCb _ _ _ => True
  | .dlrDataCb _ _ ws => ∀ n, (ws n).Atomic

theorem exists_datagrams {ws : Nat → SendRes} (h : ∀ n, (ws n).Atomic) :
    ∃ ok, ws = datagrams ok ∧ ∀ n, ok n = true ↔ ws n = .full := by
  refine ⟨fun n => match ws n with | .full => true | _ => false, ?_, ?_⟩
  · funext n
    have hn := h n
    unfold datagrams
    cases hw : ws n <;> simp_all [SendRes.Atomic]
  · intro n
    cases hw : ws n <;> simp [hw]

theorem redirect_atomic (rx : Option Bytes) {ws : Nat → SendRes}
    (h : ∀ n, (ws n).Atomic) : (redirect rx ws).length ≤ 1 := by
  obtain ⟨ok, rfl, -⟩ := exists_datagrams h
  unfold redirect
  split
  · exact Nat.zero_le 1
  · rename_i buf _
    rcases forward_datagrams buf maxRetr ok with ⟨-, hnil⟩ | ⟨-, hone⟩
    · simp [hnil]
    · simp [hone]

def Dealer.Books (d d' : Dealer) (new : Nat) : Prop :=
  d'.closes + d'.accepted.card = d.closes + d.accepted.card + new

theorem Dealer.Books.refl (d : Dealer) : d.Books d 0 := rfl

theorem Dealer.Books.trans {d d' d'' : Dealer} {n m : Nat} (h : d.Books d' n)
    (h' : d'.Books d'' m) : d.Books d'' (n + m) := by
  unfold Dealer.Books at *
  omega

theorem Dealer.shut_closes (d : Dealer) (i : Nat) :
    (d.shut i).closes = d.closes + 1 := by
  simp [Dealer.shut, Dealer.closes, Deed.isClose]

section Books

variable {d : Dealer} {R : Roster (Fin countofConns) Int} (h : d.Refines R)

include h

theorem Dealer.Refines.shut_books {i : Nat} (hi : i < countofConns)
    (hlive : d.Live i) : d.Books (d.shut i) 0 := by
  have hcloses := d.shut_closes i
  have hmem := (h.stays_self hi hlive).accepted
  have hcard : (d.shut i).accepted.card + 1 = d.accepted.card :=
    Finset.card_erase_add_one hmem
  unfold Dealer.Books
  omega

theorem Dealer.Refines.shutLive_books {i : Nat} (hi : i < countofConns) :
    d.Books (d.shutLive i) 0 := by
  unfold Dealer.shutLive
  split
  · exact h.shut_books hi ‹_›
  · exact .refl d

theorem Dealer.Refines.shutAll_books (slots : List Nat)
    (hslots : ∀ i ∈ slots, i < countofConns) :
    d.Books (slots.foldl (fun d i => d.shutLive i) d) 0 := by
  induction slots generalizing d R with
  | nil => exact .refl d
  | cons i slots ih =>
      obtain ⟨hi, hrest⟩ := List.forall_mem_cons.mp hslots
      obtain ⟨R', h', -⟩ := h.shutLive ⟨i, hi⟩
      exact (h.shutLive_books hi).trans (ih h' hrest)

omit h in
theorem Dealer.enroll_books {s : Int} (hs : s ∉ d.accepted) :
    d.Books (d.enroll s) 1 := by
  have hcard : (d.enroll s).accepted.card = d.accepted.card + 1 :=
    Finset.card_insert_of_notMem hs
  have hcloses : (d.enroll s).closes = d.closes := by
    simp [Dealer.enroll, Dealer.closes, Deed.isClose]
  unfold Dealer.Books
  omega

theorem Dealer.Refines.call_books {c : DealerCall} (hc : Allowed d c) :
    d.Books (c.step d).1 (if c.accepts then 1 else 0) := by
  have hclo : ∀ i < countofConns, (d.conns i).active = true →
      d.Books (d.clo i) 0 := by
    intro i hi hactive
    rw [Dealer.clo, h.proto]
    exact h.shut_books hi ((h.serves ⟨i, hi⟩).active.mp hactive)
  cases c with
  | dlrTcpCb down s =>
      cases down with
      | true => exact h.shutAll_books _ fun i hi => List.mem_range.mp hi
      | false =>
          have hfirst := h.shutLive_books h.next_lt
          by_cases hs : s < 0
          · have hnot : ¬ 0 ≤ s := Int.not_le.mpr hs
            simpa [DealerCall.step, dlrTcpCb, DealerCall.accepts, hs, hnot]
              using hfirst
          · have hpos : 0 ≤ s := Int.not_lt.mp hs
            have henroll := hfirst.trans (Dealer.enroll_books (hc rfl hpos).2)
            simpa [DealerCall.step, dlrTcpCb, DealerCall.accepts, hs, hpos]
              using henroll
  | dlrDataCb i rx ws => exact hclo i hc.1 hc.2
  | dlrSplcCb i rx out => exact hclo i hc.1 hc.2

theorem Dealer.Refines.call_published {c : DealerCall} (hatomic : c.Atomic) :
    (c.step d).2.length + d.closes ≤ (c.step d).1.closes := by
  have hmono : d.closes ≤ (c.step d).1.closes :=
    (dealerCall_deeds d c).sublist.countP_le
  have hclo : ∀ i, (d.clo i).closes = d.closes + 1 := by
    intro i
    rw [Dealer.clo, h.proto]
    exact d.shut_closes i
  cases c with
  | dlrTcpCb down s =>
      rw [Nat.add_comm]
      exact hmono
  | dlrDataCb i rx ws =>
      have hone := redirect_atomic rx hatomic
      have hclosed := hclo i
      simp only [DealerCall.step, dlrDataCb]
      omega
  | dlrSplcCb i rx out =>
      have hclosed := hclo i
      change 1 + d.closes ≤ (d.clo i).closes
      omega

end Books

structure Dealer.Accounts (evs : List (Event Dealer DealerCall (List Bytes)))
    (d : Dealer) : Prop where
  refines : ∃ R, d.Refines R
  came : accepts (evs.map Event.input) = d.closes + d.accepted.card
  published : (evs.map Event.output).flatten.length ≤ d.closes

theorem dealing_accounts {calls : List DealerCall}
    (hcalls : ∀ ev ∈ dealing.events (Dealer.init .tcp) calls,
      Allowed ev.pre ev.input) (hatomic : ∀ c ∈ calls, c.Atomic) :
    Dealer.Accounts (dealing.events (Dealer.init .tcp) calls)
      (dealing.run (Dealer.init .tcp) calls) := by
  refine System.history (S := dealing) (H := Dealer.Accounts)
    (G := fun d c => Allowed d c ∧ c.Atomic) ?_
    ⟨⟨_, Dealer.init_refines⟩, rfl, Nat.zero_le _⟩ calls
    (fun ev hev => ⟨hcalls ev hev, hatomic _ (System.input_mem_of_mem _ hev)⟩)
  rintro evs d c ⟨⟨R, hR⟩, hcame, hpublished⟩ ⟨hallowed, hone⟩
  have hbooks := hR.call_books hallowed
  have hcall := hR.call_published hone
  refine ⟨dealerCall_refines hR hallowed, ?_, ?_⟩
  · unfold Dealer.Books at hbooks
    simp only [accepts, List.map_append, List.countP_append, List.map_cons,
      List.map_nil, List.countP_cons, List.countP_nil, Nat.zero_add] at hcame ⊢
    change _ + (if c.accepts = true then 1 else 0) =
      (c.step d).1.closes + (c.step d).1.accepted.card
    omega
  · simp only [List.map_append, List.flatten_append, List.length_append,
      List.map_cons, List.map_nil, List.flatten_cons, List.flatten_nil,
      List.append_nil]
    change _ + (c.step d).2.length ≤ (c.step d).1.closes
    omega

/--
However the callbacks are interleaved, every connection that came was closed
once or is in the table, and no more datagrams were published than connections
were closed.
-/
theorem one_datagram_each {calls : List DealerCall}
    (hcalls : ∀ ev ∈ dealing.events (Dealer.init .tcp) calls,
      Allowed ev.pre ev.input) (hatomic : ∀ c ∈ calls, c.Atomic) :
    let d := dealing.run (Dealer.init .tcp) calls
    accepts calls = d.closes + d.accepted.card ∧
      (dealing.outputs (Dealer.init .tcp) calls).flatten.length ≤ d.closes := by
  have haccounts := dealing_accounts hcalls hatomic
  have hcame := haccounts.came
  rw [System.events_input] at hcame
  exact ⟨hcame, haccounts.published⟩

theorem one_datagram_each_witness :
    accepts (crowd ++ [.dlrTcpCb false 13]) =
      (dealing.run (Dealer.init .tcp) (crowd ++ [.dlrTcpCb false 13])).closes +
        (dealing.run (Dealer.init .tcp)
          (crowd ++ [.dlrTcpCb false 13])).accepted.card :=
  (one_datagram_each crowd_allowed (by
    simp [crowd, DealerCall.Atomic, SendRes.Atomic])).1

end Unserding
