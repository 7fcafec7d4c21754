import Unserding.Socket
import Unserding.Foundation.Resend

/-!
# Forwarding

What `ud-router.c` and `ud-dealer.c` have in common: the watchers of their event
loops and the loop that redirects a packet as it was received.
-/

namespace Unserding

open Foundation

def fwdMtu : Nat := 1492

def maxRetr : Nat := 3

inductive Proto where
  | udp
  | tcp
  deriving DecidableEq, Repr

/-! ## Watchers -/

/-- What the `data` of a watcher points to, if it is not NULL. -/
inductive CtxPtr where
  | ctx
  deriving DecidableEq, Repr

structure EvIo where
  fd : Int
  data : Option CtxPtr
  active : Bool
  deriving DecidableEq, Repr

def EvIo.zero : EvIo := ⟨0, none, false⟩

def EvIo.init (w : EvIo) (fd : Int) : EvIo :=
  { w with fd := fd, active := false }

def EvIo.start (w : EvIo) : EvIo := { w with active := true }

def EvIo.stop (w : EvIo) : EvIo := { w with active := false }

/-- The watcher after `ev_io_shut`, and the descriptor that was closed. -/
def evIoShut (w : EvIo) : EvIo × Int :=
  ({ w.stop with fd := -1, data := none }, w.fd)

/-! ## Redirecting a packet -/

def recvPkt (rx : Option Bytes) : Option Bytes :=
  match rx with
  | none => none
  | some pkt => if pkt.take fwdMtu = [] then none else some (pkt.take fwdMtu)

/--
The loop of sends of `buf` with `left` of them to go.  Listed is what the
destination accepted, send by send.
-/
def forward (buf : Bytes) : Nat → (Nat → SendRes) → List Bytes
  | 0, _ => []
  | left + 1, ws =>
      match sendto (ws 0) buf with
      | none => forward buf left fun i => ws (i + 1)
      | some part =>
          if part.length ≠ buf.length then
            part :: forward buf left fun i => ws (i + 1)
          else [part]

/-- `recv` and the redirection in `sub_cb` and in `dlr_data_cb`. -/
def redirect (rx : Option Bytes) (ws : Nat → SendRes) : List Bytes :=
  match recvPkt rx with
  | none => []
  | some buf => forward buf maxRetr ws

def SendRes.moved (w : SendRes) (n : Nat) : Nat :=
  match w with
  | .fail => 0
  | .full => n
  | .short nwr => min nwr n

theorem SendRes.moved_le (w : SendRes) (n : Nat) : w.moved n ≤ n := by
  cases w with
  | fail => exact Nat.zero_le n
  | full => exact Nat.le_refl n
  | short nwr => exact Nat.min_le_right nwr n

theorem sendto_cases (w : SendRes) (buf : Bytes) :
    (sendto w buf = none ∧ w.moved buf.length = 0) ∨
    sendto w buf = some (buf.take (w.moved buf.length)) := by
  cases w with
  | fail => exact .inl ⟨rfl, rfl⟩
  | full => exact .inr (by rw [SendRes.moved, List.take_length]; rfl)
  | short nwr =>
      refine .inr ?_
      rw [SendRes.moved, ← List.take_eq_take_min]
      rfl

theorem forward_flatten {buf : Bytes} (h : buf ≠ []) (left : Nat)
    (ws : Nat → SendRes) :
    (forward buf left ws).flatten =
      (resend buf left fun i => (ws i).moved buf.length).flatten := by
  induction left generalizing ws with
  | zero => rfl
  | succ left ih =>
      have hle := (ws 0).moved_le buf.length
      rcases sendto_cases (ws 0) buf with ⟨hnone, hzero⟩ | hsome
      · have hpart : (ws 0).moved buf.length ≠ buf.length := by
          rw [hzero]
          exact (List.length_pos_iff.mpr h).ne
        rw [forward, hnone, resend, if_neg hpart, hzero, List.take_zero]
        exact ih fun i => ws (i + 1)
      · simp only [forward, hsome, List.length_take_of_le hle, resend]
        by_cases hfull : (ws 0).moved buf.length = buf.length
        · rw [if_pos hfull, if_neg (not_not.mpr hfull)]
        · rw [if_neg hfull, if_pos hfull, List.flatten_cons, List.flatten_cons,
            ih]

theorem redirect_of_length {pkt : Bytes} (h : 0 < pkt.length)
    (ws : Nat → SendRes) :
    redirect (some pkt) ws = forward (pkt.take fwdMtu) maxRetr ws := by
  have hne : pkt.take fwdMtu ≠ [] := by
    rw [← List.length_pos_iff, List.length_take]
    unfold fwdMtu
    omega
  rw [redirect, recvPkt, if_neg hne]

end Unserding
