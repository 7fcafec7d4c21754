import Unserding.Forward
import Unserding.Foundation.Roster
import Unserding.Foundation.System

/-!
# The dealer

The callbacks of `ud-dealer.c`.  Connections are kept in eight slots that are
filled one after the other and empty themselves in any order.
-/

namespace Unserding

open Foundation

/-! ## The connection table -/

def countofConns : Nat := 8

inductive Deed where
  | close (fd : Int) (wasOpen : Bool)
  | init (fd : Int) (wasActive : Bool)
  deriving DecidableEq, Repr

def Deed.Clean : Deed → Prop
  | .close _ wasOpen => wasOpen = true
  | .init _ wasActive => wasActive = false

structure Dealer where
  proto : Proto
  -- the static variables of `dlr_tcp_cb`, and what is in the pipe
  conns : Nat → EvIo
  next : Nat
  pipe : Bytes
  -- the descriptors from `accept` that are open, and what was done so far
  accepted : Finset Int
  deeds : List Deed

def Dealer.init (proto : Proto) : Dealer :=
  ⟨proto, fun _ => EvIo.zero, 0, [], ∅, []⟩

def Dealer.shut (i : Nat) (d : Dealer) : Dealer :=
  let (w, fd) := evIoShut (d.conns i)
  { d with
    conns := Function.update d.conns i w
    accepted := d.accepted.erase fd
    deeds := d.deeds ++ [.close fd (decide (fd ∈ d.accepted))] }

def Dealer.shutLive (i : Nat) (d : Dealer) : Dealer :=
  if (d.conns i).fd > 0 then d.shut i else d

/-! ## Callbacks -/

def Dealer.clo (i : Nat) (d : Dealer) : Dealer :=
  match d.proto with
  | .udp => d
  | .tcp => d.shut i

/-- Listed is what was sent into the unserding network. -/
def dlrDataCb (i : Nat) (rx : Option Bytes) (ws : Nat → SendRes)
    (d : Dealer) : Dealer × List Bytes :=
  (d.clo i, redirect rx ws)

/--
The two splices of `dlr_splc_cb`, into the pipe and out of it.  Returned are
the pipe and what was handed to the destination.
-/
def splcPkt {β : Type*} (rx : Option (List β)) (out : SendRes)
    (pipe : List β) : List β × List β :=
  match rx with
  | none => (pipe, [])
  | some pkt =>
      let nsp := (pkt.take fwdMtu).length
      if nsp = 0 then (pipe, [])
      else
        let pipe := pipe ++ pkt.take fwdMtu
        (pipe.drop (out.moved nsp), pipe.take (out.moved nsp))

def dlrSplcCb (i : Nat) (rx : Option Bytes) (out : SendRes) (d : Dealer) :
    Dealer × Bytes :=
  let spliced := splcPkt rx out d.pipe
  ({ d.clo i with pipe := spliced.1 }, spliced.2)

/-- The end of `dlr_tcp_cb`, with the accepted descriptor `s`. -/
def Dealer.enroll (s : Int) (d : Dealer) : Dealer :=
  let w := d.conns d.next
  { d with
    conns := Function.update d.conns d.next
      ({ w with data := some .ctx }.init s).start
    next := if d.next + 1 ≥ countofConns then 0 else d.next + 1
    accepted := insert s d.accepted
    deeds := d.deeds ++ [.init s w.active] }

/-- `s` is what `accept` returns, if it is called. -/
def dlrTcpCb (down : Bool) (s : Int) (d : Dealer) : Dealer :=
  if down then
    (List.range countofConns).foldl (fun d i => d.shutLive i) d
  else
    let d := d.shutLive d.next
    if s < 0 then d else d.enroll s

inductive DealerCall where
  | dlrTcpCb (down : Bool) (s : Int)
  | dlrDataCb (i : Nat) (rx : Option Bytes) (ws : Nat → SendRes)
  | dlrSplcCb (i : Nat) (rx : Option Bytes) (out : SendRes)

def DealerCall.step (d : Dealer) : DealerCall → Dealer × List Bytes
  | .dlrTcpCb down s => (Unserding.dlrTcpCb down s d, [])
  | .dlrDataCb i rx ws => Unserding.dlrDataCb i rx ws d
  | .dlrSplcCb i rx out =>
      let r := Unserding.dlrSplcCb i rx out d
      (r.1, [r.2])

def dealing : System Dealer DealerCall (List Bytes) := ⟨DealerCall.step⟩

/--
`accept` fails or returns a descriptor that is not open, and data callbacks
are made for connections that are watched.
-/
def Allowed (d : Dealer) : DealerCall → Prop
  | .dlrTcpCb down s => down = false → 0 ≤ s →
      0 < s ∧ s ∉ (d.shutLive d.next).accepted
  | .dlrDataCb i _ _ | .dlrSplcCb i _ _ =>
      i < countofConns ∧ (d.conns i).active = true

/-! ## The table as a roster -/

structure EvIo.Serves (w : EvIo) (held : Option Int) : Prop where
  fd : held = if 0 < w.fd then some w.fd else none
  active : w.active = true ↔ 0 < w.fd
  data : 0 < w.fd → w.data = some .ctx

structure Dealer.Refines (d : Dealer) (R : Roster (Fin countofConns) Int) :
    Prop where
  serves : ∀ i : Fin countofConns, (d.conns i).Serves (R.slot i)
  accepted : ∀ fd, fd ∈ d.accepted ↔ R.Holds fd
  next_lt : d.next < countofConns
  proto : d.proto = .tcp
  deeds : ∀ deed ∈ d.deeds, deed.Clean

theorem EvIo.Serves.of_idle {w : EvIo} (hfd : ¬ 0 < w.fd)
    (hactive : w.active = false) : w.Serves none where
  fd := (if_neg hfd).symm
  active := iff_of_false (by simp [hactive]) hfd
  data hpos := absurd hpos hfd

theorem EvIo.zero_serves : EvIo.zero.Serves none :=
  .of_idle (Int.lt_irrefl 0) rfl

theorem evIoShut_serves (w : EvIo) : (evIoShut w).1.Serves none := by
  refine .of_idle ?_ rfl
  change ¬ (0 : Int) < -1
  decide

theorem EvIo.Serves.fd_of_some {w : EvIo} {s : Int} (h : w.Serves (some s)) :
    0 < w.fd ∧ w.fd = s := by
  have hfd := h.fd
  split at hfd
  · rename_i hpos
    exact ⟨hpos, (Option.some.inj hfd).symm⟩
  · contradiction

theorem Dealer.init_refines : (Dealer.init .tcp).Refines Roster.empty where
  serves _ := EvIo.zero_serves
  accepted fd := iff_of_false (Finset.notMem_empty fd)
    (Roster.not_holds_empty fd)
  next_lt := by decide
  proto := rfl
  deeds _ h := by contradiction

section Refinement

variable {d : Dealer} {R : Roster (Fin countofConns) Int} (h : d.Refines R)

include h

theorem Dealer.Refines.slot_eq_some (i : Fin countofConns)
    (hi : 0 < (d.conns i).fd) : R.slot i = some (d.conns i).fd := by
  rw [(h.serves i).fd, if_pos hi]

theorem Dealer.Refines.serves_update (i : Fin countofConns) {w : EvIo}
    {R' : Roster (Fin countofConns) Int} (hself : w.Serves (R'.slot i))
    (hother : ∀ j, j ≠ i → R'.slot j = R.slot j) (j : Fin countofConns) :
    (Function.update d.conns i w j).Serves (R'.slot j) := by
  by_cases hj : j = i
  · rw [hj, Function.update_self]
    exact hself
  · rw [Function.update_of_ne (fun hval => hj (Fin.ext hval)), hother j hj]
    exact h.serves j

theorem Dealer.Refines.deeds_append {deed : Deed} (hdeed : deed.Clean) :
    ∀ x ∈ d.deeds ++ [deed], x.Clean := by
  intro x hx
  rcases List.mem_append.mp hx with hold | hnew
  · exact h.deeds x hold
  · rw [List.mem_singleton.mp hnew]
    exact hdeed

theorem Dealer.Refines.shut (i : Fin countofConns) (hi : 0 < (d.conns i).fd) :
    (d.shut i).Refines (R.release i) := by
  have hslot := h.slot_eq_some i hi
  constructor
  · apply h.serves_update i
    · rw [Roster.release_slot_self]
      exact evIoShut_serves (d.conns i)
    · exact fun j hj => Roster.release_slot_of_ne hj
  · intro fd
    rw [Roster.holds_release_iff hslot, ← h.accepted]
    exact Finset.mem_erase
  · exact h.next_lt
  · exact h.proto
  · apply h.deeds_append
    exact decide_eq_true ((h.accepted _).mpr ⟨i, hslot⟩)

theorem Dealer.Refines.shutLive (i : Fin countofConns) :
    ∃ R', (d.shutLive i).Refines R' ∧ R'.slot i = none := by
  by_cases hi : (d.conns i).fd > 0
  · rw [Dealer.shutLive, if_pos hi]
    exact ⟨_, h.shut i hi, Roster.release_slot_self R i⟩
  · rw [Dealer.shutLive, if_neg hi]
    exact ⟨R, h, by rw [(h.serves i).fd, if_neg hi]⟩

theorem Dealer.Refines.enroll (hfree : R.slot ⟨d.next, h.next_lt⟩ = none)
    {s : Int} (hs : 0 < s) (hfresh : ¬ R.Holds s) :
    (d.enroll s).Refines (R.grant ⟨d.next, h.next_lt⟩ s hfresh) := by
  have hserves := h.serves ⟨d.next, h.next_lt⟩
  rw [hfree] at hserves
  have hidle : ¬ 0 < (d.conns d.next).fd := by
    intro hpos
    have hfd := hserves.fd
    rw [if_pos hpos] at hfd
    contradiction
  constructor
  · apply h.serves_update ⟨d.next, h.next_lt⟩
    · rw [Roster.grant_slot_self]
      exact ⟨(if_pos hs).symm, iff_of_true rfl hs, fun _ => rfl⟩
    · exact fun j hj => Roster.grant_slot_of_ne hj hfresh
  · intro fd
    rw [Roster.holds_grant_iff hfree, ← h.accepted]
    exact Finset.mem_insert
  · change (if d.next + 1 ≥ countofConns then 0 else d.next + 1) < _
    unfold countofConns
    split <;> omega
  · exact h.proto
  · apply h.deeds_append
    exact Bool.eq_false_iff.mpr fun hactive => hidle (hserves.active.mp hactive)

theorem Dealer.Refines.clo (i : Fin countofConns)
    (hi : (d.conns i).active = true) : (d.clo i).Refines (R.release i) := by
  rw [Dealer.clo, h.proto]
  exact h.shut i ((h.serves i).active.mp hi)

theorem Dealer.Refines.shutAll (slots : List Nat)
    (hslots : ∀ i ∈ slots, i < countofConns) :
    ∃ R', (slots.foldl (fun d i => d.shutLive i) d).Refines R' := by
  induction slots generalizing d R with
  | nil => exact ⟨R, h⟩
  | cons i slots ih =>
      obtain ⟨hi, hrest⟩ := List.forall_mem_cons.mp hslots
      obtain ⟨R', h', -⟩ := h.shutLive ⟨i, hi⟩
      exact ih h' hrest

theorem dlrTcpCb_refines (down : Bool) (s : Int)
    (hs : Allowed d (.dlrTcpCb down s)) :
    ∃ R', (dlrTcpCb down s d).Refines R' := by
  rw [dlrTcpCb]
  cases down with
  | true => exact h.shutAll _ fun i hi => List.mem_range.mp hi
  | false =>
      rw [if_neg Bool.false_ne_true]
      obtain ⟨R', h', hfree⟩ := h.shutLive ⟨d.next, h.next_lt⟩
      by_cases hfail : s < 0
      · rw [if_pos hfail]
        exact ⟨R', h'⟩
      · obtain ⟨hpos, hfresh⟩ := hs rfl (Int.not_lt.mp hfail)
        have hnext : (d.shutLive d.next).next = d.next := by
          unfold Dealer.shutLive
          split <;> rfl
        rw [if_neg hfail]
        have hslot : R'.slot ⟨(d.shutLive d.next).next, h'.next_lt⟩ = none := by
          simp only [hnext]
          exact hfree
        exact ⟨_, h'.enroll hslot hpos ((h'.accepted s).not.mp hfresh)⟩

theorem dealerCall_refines {c : DealerCall} (hc : Allowed d c) :
    ∃ R', (c.step d).1.Refines R' := by
  cases c with
  | dlrTcpCb down s => exact dlrTcpCb_refines h down s hc
  | dlrDataCb i rx ws => exact ⟨_, h.clo ⟨i, hc.1⟩ hc.2⟩
  | dlrSplcCb i rx out =>
      obtain ⟨hserves, haccepted, hnext, hproto, hdeeds⟩ :=
        h.clo ⟨i, hc.1⟩ hc.2
      exact ⟨_, hserves, haccepted, hnext, hproto, hdeeds⟩

end Refinement

theorem dealing_refines (calls : List DealerCall)
    (hcalls : ∀ ev ∈ dealing.events (Dealer.init .tcp) calls,
      Allowed ev.pre ev.input) :
    ∃ R, (dealing.run (Dealer.init .tcp) calls).Refines R :=
  System.history (S := dealing) (G := Allowed)
    (H := fun _ d => ∃ R, d.Refines R)
    (fun _ _ _ h hc => h.elim fun _ hR => dealerCall_refines hR hc)
    ⟨_, Dealer.init_refines⟩ calls hcalls

/--
The connection table in tcp mode: the open descriptors are those in the slots,
each in one slot and watched by the watcher of its slot, and nothing was closed
that was not open or initialised while active.
-/
theorem connection_table (calls : List DealerCall)
    (hcalls : ∀ ev ∈ dealing.events (Dealer.init .tcp) calls,
      Allowed ev.pre ev.input) :
    let d := dealing.run (Dealer.init .tcp) calls
    (∀ fd, fd ∈ d.accepted ↔ ∃ i < 8, 0 < fd ∧ (d.conns i).fd = fd) ∧
    (∀ i < 8, ∀ j < 8, 0 < (d.conns i).fd →
      (d.conns i).fd = (d.conns j).fd → i = j) ∧
    (∀ i < 8, ((d.conns i).active = true ↔ 0 < (d.conns i).fd) ∧
      (0 < (d.conns i).fd → (d.conns i).data = some .ctx)) ∧
    (∀ deed ∈ d.deeds, deed.Clean) ∧ d.next < 8 := by
  intro d
  obtain ⟨R, h⟩ := dealing_refines calls hcalls
  refine ⟨fun fd => ?_, fun i hi j hj hpos heq => ?_, fun i hi =>
    ⟨(h.serves ⟨i, hi⟩).active, (h.serves ⟨i, hi⟩).data⟩, h.deeds, h.next_lt⟩
  · rw [h.accepted]
    constructor
    · rintro ⟨i, hslot⟩
      have hserves := h.serves i
      rw [hslot] at hserves
      obtain ⟨hpos, rfl⟩ := hserves.fd_of_some
      exact ⟨i, i.isLt, hpos, rfl⟩
    · rintro ⟨i, hi, hpos, rfl⟩
      exact ⟨⟨i, hi⟩, h.slot_eq_some ⟨i, hi⟩ hpos⟩
  · have hslot := h.slot_eq_some ⟨i, hi⟩ hpos
    have hslot' := h.slot_eq_some ⟨j, hj⟩ (heq ▸ hpos)
    exact congrArg Fin.val (R.inj hslot (heq ▸ hslot'))

theorem connection_table_witness :
    (dealing.run (Dealer.init .tcp)
      [.dlrTcpCb false 5, .dlrDataCb 0 (some [1]) fun _ => .full,
        .dlrTcpCb false 5]).next < 8 :=
  (connection_table _ (by
    intro ev hev
    simp only [System.events_cons, System.events_nil, List.mem_cons,
      List.not_mem_nil, or_false] at hev
    rcases hev with rfl | rfl | rfl
    · exact fun _ _ => by decide
    · exact ⟨by decide, by decide⟩
    · exact fun _ _ => by decide)).2.2.2.2

end Unserding
