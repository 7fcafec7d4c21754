import Unserding.Dealer

/-!
# Slots for new connections

`dlr_tcp_cb` looks at one slot only, the one after the slot it filled last, and
gives it up before it calls `accept`.  The slots empty themselves in any order,
so that the next slot may be live while others are free.
-/

namespace Unserding

open Foundation

/-- The slot holds a connection, by the test the callbacks make. -/
def Dealer.Live (d : Dealer) (i : Nat) : Prop := 0 < (d.conns i).fd

def Dealer.Full (d : Dealer) : Prop := ∀ i < countofConns, d.Live i

/--
Between two states the connection of a slot was not shut: the slot is the same,
its descriptor is open and was not closed in between.
-/
structure Dealer.Stays (d d' : Dealer) (i : Nat) : Prop where
  conns : d'.conns i = d.conns i
  accepted : (d.conns i).fd ∈ d'.accepted
  deeds : ∀ wasOpen,
    .close (d.conns i).fd wasOpen ∉ d'.deeds.drop d.deeds.length

/--
An incoming connection costs a live one only if all slots are live and `accept`
succeeds.
-/
def TakesFreeSlot (ev : Event Dealer DealerCall (List Bytes)) : Prop :=
  ∀ s, ev.input = .dlrTcpCb false s → (ev.pre.Full ∧ 0 ≤ s) ∨
    ∀ i < countofConns, ev.pre.Live i → ev.pre.Stays ev.post i

/--
The slot that is next is live, and either another one is not or `accept` is
about to fail.
-/
def Evicts (d : Dealer) : DealerCall → Prop
  | .dlrTcpCb false s => d.Live d.next ∧ ¬ (d.Full ∧ 0 ≤ s)
  | .dlrTcpCb true _ | .dlrDataCb _ _ _ | .dlrSplcCb _ _ _ => False

section Incoming

variable {d : Dealer} {R : Roster (Fin countofConns) Int} (h : d.Refines R)

include h

theorem Dealer.Refines.stays_self {i : Nat} (hi : i < countofConns)
    (hlive : d.Live i) : d.Stays d i where
  conns := rfl
  accepted := (h.accepted _).mpr ⟨⟨i, hi⟩, h.slot_eq_some ⟨i, hi⟩ hlive⟩
  deeds wasOpen hmem := by simp at hmem

theorem Dealer.Refines.stays_enroll (hidle : ¬ d.Live d.next) (s : Int)
    {i : Nat} (hi : i < countofConns) (hlive : d.Live i) :
    d.Stays (d.enroll s) i := by
  have hne : i ≠ d.next := fun heq => hidle (heq ▸ hlive)
  refine ⟨Function.update_of_ne hne .., ?_, fun wasOpen hmem => ?_⟩
  · exact Finset.mem_insert_of_mem (h.stays_self hi hlive).accepted
  · simp [Dealer.enroll] at hmem

theorem dlrTcpCb_stays (hidle : ¬ d.Live d.next) (s : Int) {i : Nat}
    (hi : i < countofConns) (hlive : d.Live i) :
    d.Stays (dlrTcpCb false s d) i := by
  have hshut : d.shutLive d.next = d := if_neg hidle
  rw [dlrTcpCb, if_neg Bool.false_ne_true, hshut]
  by_cases hs : s < 0
  · rw [if_pos hs]
    exact h.stays_self hi hlive
  · rw [if_neg hs]
    exact h.stays_enroll hidle s hi hlive

omit h in
theorem not_stays_next (hlive : d.Live d.next) (s : Int) :
    ¬ d.Stays (dlrTcpCb false s d) d.next := by
  intro hstays
  obtain ⟨wasOpen, hdeeds⟩ : ∃ wasOpen, (d.shut d.next).deeds =
      d.deeds ++ [.close (d.conns d.next).fd wasOpen] := ⟨_, rfl⟩
  have hshut : d.shutLive d.next = d.shut d.next := if_pos hlive
  apply hstays.deeds wasOpen
  rw [dlrTcpCb, if_neg Bool.false_ne_true, hshut]
  by_cases hs : s < 0
  · simp [hs, hdeeds]
  · simp [hs, Dealer.enroll, hdeeds]

theorem takesFreeSlot_iff (c : DealerCall) :
    TakesFreeSlot (dealing.event d c) ↔ ¬ Evicts d c := by
  constructor
  · intro hfree hevicts
    cases c with
    | dlrTcpCb down s =>
        cases down with
        | false =>
            obtain ⟨hlive, hcause⟩ := hevicts
            rcases hfree s rfl with hfull | hstays
            · exact hcause hfull
            · exact not_stays_next hlive s (hstays d.next h.next_lt hlive)
        | true => exact hevicts
    | dlrDataCb i rx ws => exact hevicts
    | dlrSplcCb i rx out => exact hevicts
  · rintro hevicts s (rfl : c = .dlrTcpCb false s)
    by_cases hcause : d.Full ∧ 0 ≤ s
    · exact .inl hcause
    · have hidle : ¬ d.Live d.next := fun hlive => hevicts ⟨hlive, hcause⟩
      exact .inr fun i hi hlive => dlrTcpCb_stays h hidle s hi hlive

end Incoming

theorem dealing_refines_pre (calls : List DealerCall)
    (hcalls : ∀ ev ∈ dealing.events (Dealer.init .tcp) calls,
      Allowed ev.pre ev.input) :
    ∀ ev ∈ dealing.events (Dealer.init .tcp) calls, ∃ R, ev.pre.Refines R :=
  System.invariant_pre (S := dealing) (G := Allowed)
    (J := fun d => ∃ R, d.Refines R)
    (fun _ _ h hc => h.elim fun _ hR => dealerCall_refines hR hc)
    ⟨_, Dealer.init_refines⟩ calls hcalls

/--
Eight connections come and the second goes: the ninth takes the slot of the
first, which is still live.
-/
def crowd : List DealerCall :=
  [5, 6, 7, 8, 9, 10, 11, 12].map (DealerCall.dlrTcpCb false) ++
    [.dlrDataCb 1 none fun _ => .full]

theorem crowd_allowed : ∀ ev ∈ dealing.events (Dealer.init .tcp)
    (crowd ++ [.dlrTcpCb false 13]), Allowed ev.pre ev.input := by
  intro ev hev
  simp only [crowd, List.map_cons, List.map_nil, List.cons_append,
    List.nil_append, System.events_cons, System.events_nil, List.mem_cons,
    List.not_mem_nil, or_false] at hev
  rcases hev with rfl | rfl | rfl | rfl | rfl | rfl | rfl | rfl | rfl | rfl
  all_goals first
    | exact ⟨by decide, by decide⟩
    | exact fun _ _ => by decide

theorem crowd_evicts :
    Evicts (dealing.run (Dealer.init .tcp) crowd) (.dlrTcpCb false 13) := by
  refine ⟨by unfold Dealer.Live; decide, fun hfull => ?_⟩
  have hsecond := hfull.1 1 (by decide)
  unfold Dealer.Live at hsecond
  revert hsecond
  decide

/--
In a run of the dealer no live connection is given up for a new one while there
is a free slot or for an `accept` that fails, if and only if the next slot is
never live when that is so.
-/
theorem takes_free_slot_iff (calls : List DealerCall)
    (hcalls : ∀ ev ∈ dealing.events (Dealer.init .tcp) calls,
      Allowed ev.pre ev.input) :
    (∀ ev ∈ dealing.events (Dealer.init .tcp) calls, TakesFreeSlot ev) ↔
      ∀ ev ∈ dealing.events (Dealer.init .tcp) calls,
        ¬ Evicts ev.pre ev.input := by
  refine forall₂_congr fun ev hev => ?_
  obtain ⟨R, hR⟩ := dealing_refines_pre calls hcalls ev hev
  rw [System.eq_event_of_mem _ hev]
  exact takesFreeSlot_iff hR ev.input

theorem takes_free_slot_witness :
    (∀ ev ∈ dealing.events (Dealer.init .tcp) (crowd ++ [.dlrTcpCb false 13]),
      TakesFreeSlot ev) ↔
    ∀ ev ∈ dealing.events (Dealer.init .tcp) (crowd ++ [.dlrTcpCb false 13]),
      ¬ Evicts ev.pre ev.input :=
  takes_free_slot_iff _ crowd_allowed

theorem not_takes_free_slot :
    ¬ ∀ calls, (∀ ev ∈ dealing.events (Dealer.init .tcp) calls,
        Allowed ev.pre ev.input) →
      ∀ ev ∈ dealing.events (Dealer.init .tcp) calls, TakesFreeSlot ev := by
  intro h
  have hpre : dealing.event (dealing.run (Dealer.init .tcp) crowd)
      (.dlrTcpCb false 13) ∈ dealing.events (Dealer.init .tcp)
        (crowd ++ [.dlrTcpCb false 13]) := by
    rw [System.events_append]
    exact List.mem_append_right _ List.mem_cons_self
  obtain ⟨R, hR⟩ := dealing_refines_pre _ crowd_allowed _ hpre
  exact (takesFreeSlot_iff hR _).mp (h _ crowd_allowed _ hpre) crowd_evicts

end Unserding
