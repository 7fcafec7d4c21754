import Unserding.Check
import Unserding.Foundation.System

/-!
# Calls on one socket

The library as a machine whose inputs are calls, each with what the system
answers to the calls nested in it.  Other sockets of the same process are seen
through the static variables only, which a call made `elsewhere` may change.
-/

namespace Unserding

open Foundation

structure Statics.Sane (g : Statics) : Prop where
  msg_length : g.msg.length = pingMsgSize
  ctrl_length : ctrlMtu ≤ g.ctrl.length

inductive Call where
  | udPackMsg (w : SendRes) (msg : UdMsg)
  | udFlush (w : SendRes)
  | udPackCmsg (w : SendRes) (msg : UdMsg)
  | udPackPing (w₁ w₂ : SendRes) (msg : SvcPing)
  | udPackPong (pongp : Nat) (e : Env)
  | udChckMsg (e : Env)
  | udChck (tsz : Nat) (e : Env)
  | udChckPing (e : Env)
  | udDscrd (rx : Option Arrival)
  | elsewhere (g : Statics) (sane : g.Sane)

inductive Answer where
  | code (rc : Int)
  | msg (found : Option MsgRef)
  | copy (found : Option (UInt16 × Bytes))
  | ping (found : Option PingRef)

structure Obs where
  ans : Answer
  tx : List Tx

def Call.step (s : Lib) : Call → Lib × Obs
  | .udPackMsg w msg =>
      let r := Unserding.udPackMsg w msg s.us
      ({ s with us := r.st }, ⟨.code r.val, r.tx⟩)
  | .udFlush w =>
      let r := Unserding.udFlush w s.us
      ({ s with us := r.st }, ⟨.code r.val, r.tx⟩)
  | .udPackCmsg w msg =>
      let r := Unserding.udPackCmsg w msg s
      (r.st, ⟨.code r.val, r.tx⟩)
  | .udPackPing w₁ w₂ msg =>
      let r := Unserding.udPackPing w₁ w₂ msg s
      (r.st, ⟨.code r.val, r.tx⟩)
  | .udPackPong pongp e =>
      let r := Unserding.udPackPong pongp e s
      (r.st, ⟨.code r.val, r.tx⟩)
  | .udChckMsg e =>
      let r := Unserding.udChckMsg e s
      (r.st, ⟨.msg r.val, r.tx⟩)
  | .udChck tsz e =>
      let r := Unserding.udChck tsz e s
      (r.st, ⟨.copy r.val, r.tx⟩)
  | .udChckPing e =>
      let r := Unserding.udChckPing e s
      (r.st, ⟨.ping r.val, r.tx⟩)
  | .udDscrd rx =>
      let r := Unserding.udDscrd rx s.us
      ({ s with us := r.st }, ⟨.code r.val, r.tx⟩)
  | .elsewhere g _ => ({ s with g := g }, ⟨.code 0, []⟩)

def api : System Lib Call Obs := ⟨Call.step⟩

abbrev Trace := List (Event Lib Call Obs)

def Trace.sent (trace : Trace) : List Tx := trace.flatMap fun e => e.output.tx

def Call.packed : Call → Answer → Option UdMsg
  | .udPackMsg _ msg, .code rc => if rc = 0 then some msg else none
  | _, _ => none

theorem Call.eq_of_packed {c : Call} {ans : Answer} {msg : UdMsg}
    (h : c.packed ans = some msg) : ∃ w, c = .udPackMsg w msg := by
  unfold Call.packed at h
  split at h
  · split at h
    · cases h
      exact ⟨_, rfl⟩
    · contradiction
  · contradiction

def Trace.packed (trace : Trace) : List UdMsg :=
  trace.filterMap fun e => e.input.packed e.output.ans

def Call.Atomic : Call → Prop
  | .udPackMsg w _ | .udFlush w | .udPackCmsg w _ => w.Atomic
  | .udPackPing w₁ w₂ _ => w₁.Atomic ∧ w₂.Atomic
  | .udPackPong _ e | .udChckMsg e | .udChck _ e | .udChckPing e =>
      e.w₁.Atomic ∧ e.w₂.Atomic
  | .udDscrd _ | .elsewhere _ _ => True

def Call.rx : Call → Option Arrival
  | .udChckMsg e | .udChck _ e | .udChckPing e => e.rx
  | .udDscrd rx => rx
  | _ => none

def Call.withRx (rx : Option Arrival) : Call → Call
  | .udChckMsg e => .udChckMsg { e with rx := rx }
  | .udChck tsz e => .udChck tsz { e with rx := rx }
  | .udChckPing e => .udChckPing { e with rx := rx }
  | .udDscrd _ => .udDscrd rx
  | c => c

end Unserding
