import Unserding.Forward
import Unserding.Foundation.System

/-!
# The router

The callbacks of `ud-router.c` as a machine whose inputs are the calls of its
event loop, each with what the system answers to the calls nested in it.
-/

namespace Unserding

open Foundation

/-! ## Descriptors -/

structure Descriptors where
  opened : Finset Int
  connected : Finset Int

def Descriptors.socket (k : Descriptors) (s : Int) : Descriptors :=
  if 0 ≤ s then { k with opened := insert s k.opened } else k

def Descriptors.connect (k : Descriptors) (s : Int) : Descriptors :=
  { k with connected := insert s k.connected }

def Descriptors.close (k : Descriptors) (fd : Int) : Descriptors :=
  ⟨k.opened.erase fd, k.connected.erase fd⟩

/-! ## Connecting -/

structure Candidate where
  socket : Int
  connect : Int

/-- The loop of `try_connect` from the address `ai` on. -/
def tryFrom : List Candidate → Descriptors →
    Option (Int × List Candidate) × Descriptors
  | [], k => (none, k)
  | ai :: rest, k =>
      let k := k.socket ai.socket
      if ai.socket ≥ 0 ∧ ai.connect ≥ 0 then
        (some (ai.socket, ai :: rest), k.connect ai.socket)
      else tryFrom rest (k.close ai.socket)

structure TryRes where
  s : Int
  aires : List Candidate
  fds : Descriptors

def tryConnect (aires : List Candidate) (k : Descriptors) : TryRes :=
  match tryFrom aires k with
  | (some (s, ai), k) => ⟨s, ai, k⟩
  | (none, k) => ⟨-1, aires, k⟩

structure SocketRes where
  s : Int
  -- what `freeaddrinfo` gets; `none` is a pointer that was never set
  freed : Option (List Candidate)
  fds : Descriptors

/-- `gai` is `none` where `getaddrinfo` returns a negative value. -/
def udRouterSocket (gai : Option (List Candidate)) (k : Descriptors) :
    SocketRes :=
  let s : Int := 0
  match gai with
  | none => ⟨s, none, k⟩
  | some aires =>
      let r := tryConnect aires k
      ⟨r.s, some r.aires, r.fds⟩

/-! ## Callbacks -/

/-- The context, the static variables of `chk_cb` and the descriptors. -/
structure Router where
  dst : Int
  proto : Proto
  rtr : EvIo
  lastReco : Int
  fds : Descriptors

def Router.init (proto : Proto) (opened : Finset Int) : Router :=
  ⟨-1, proto, EvIo.zero, 0, ⟨opened, ∅⟩⟩

def Router.shutRtr (r : Router) : Router :=
  let (rtr, fd) := evIoShut r.rtr
  { r with rtr := rtr, fds := r.fds.close fd }

def chkCb (down : Bool) (now : Int) (gai : Option (List Candidate))
    (r : Router) : Router :=
  if down then r.shutRtr
  else if r.dst < 0 ∧ now > r.lastReco then
    let found := udRouterSocket gai r.fds
    let r := { r with lastReco := now, dst := found.s, fds := found.fds }
    if found.s < 0 then r
    else
      { r with
        rtr := ({ r.rtr with data := some .ctx }.init r.dst).start }
  else r

def rtrCb (nrd : Int) (r : Router) : Router :=
  if nrd ≤ 0 then
    match r.proto with
    | .udp => r
    | .tcp => { r with dst := -1 }.shutRtr
  else r

structure Forwarded where
  dst : Int
  parts : List Bytes
  deriving DecidableEq

def subCb (rx : Option Bytes) (ws : Nat → SendRes) (r : Router) : Forwarded :=
  ⟨r.dst, redirect rx ws⟩

/-- The callbacks `ev_loop` makes; `EV_CUSTOM` comes after it has returned. -/
inductive RouterCall where
  | chkCb (now : Int) (gai : Option (List Candidate))
  | rtrCb (nrd : Int)
  | subCb (rx : Option Bytes) (ws : Nat → SendRes)

def RouterCall.step (r : Router) : RouterCall → Router × Option Forwarded
  | .chkCb now gai => (Unserding.chkCb false now gai r, none)
  | .rtrCb nrd => (Unserding.rtrCb nrd r, none)
  | .subCb rx ws => (r, some (Unserding.subCb rx ws r))

def evLoop : System Router RouterCall (Option Forwarded) := ⟨RouterCall.step⟩

/-! ## The forwarding target -/

/-- The target is an open, connected descriptor, and `rtr` watches it. -/
structure Router.Watched (r : Router) : Prop where
  opened : r.dst ∈ r.fds.opened
  connected : r.dst ∈ r.fds.connected
  active : r.rtr.active = true
  fd : r.rtr.fd = r.dst

def Router.OnTarget (r : Router) : Prop := r.dst = -1 ∨ r.Watched

/-- A reconnect is due and the name cannot be resolved. -/
def Unresolved (r : Router) : RouterCall → Prop
  | .chkCb now gai => r.dst < 0 ∧ r.lastReco < now ∧ gai = none
  | .rtrCb _ | .subCb _ _ => False

def Router.Sound (r : Router) : Prop :=
  (r.dst = -1 ∧ r.fds.connected = ∅) ∨
    (r.Watched ∧ 0 ≤ r.dst ∧ r.fds.connected = {r.dst})

theorem Router.Sound.onTarget {r : Router} (h : r.Sound) : r.OnTarget :=
  h.imp And.left And.left

theorem tryFrom_cases (aires : List Candidate) {k : Descriptors}
    (h : k.connected = ∅) :
    ((tryFrom aires k).1 = none ∧ (tryFrom aires k).2.connected = ∅) ∨
    ∃ s ai, (tryFrom aires k).1 = some (s, ai) ∧ 0 ≤ s ∧
      s ∈ (tryFrom aires k).2.opened ∧ (tryFrom aires k).2.connected = {s} := by
  induction aires generalizing k with
  | nil => exact .inl ⟨rfl, h⟩
  | cons ai rest ih =>
      have hsocket : (k.socket ai.socket).connected = ∅ := by
        unfold Descriptors.socket
        split <;> exact h
      by_cases hok : ai.socket ≥ 0 ∧ ai.connect ≥ 0
      · refine .inr ⟨ai.socket, ai :: rest, ?_⟩
        simp only [tryFrom, if_pos hok]
        refine ⟨trivial, hok.1, ?_, ?_⟩
        · simp [Descriptors.connect, Descriptors.socket, hok.1]
        · simp [Descriptors.connect, hsocket]
      · simp only [tryFrom, if_neg hok]
        exact ih (by simp [Descriptors.close, hsocket])

theorem tryConnect_cases (aires : List Candidate) {k : Descriptors}
    (h : k.connected = ∅) :
    ((tryConnect aires k).s = -1 ∧ (tryConnect aires k).fds.connected = ∅) ∨
    (0 ≤ (tryConnect aires k).s ∧
      (tryConnect aires k).s ∈ (tryConnect aires k).fds.opened ∧
      (tryConnect aires k).fds.connected = {(tryConnect aires k).s}) := by
  unfold tryConnect
  rcases tryFrom_cases aires h with
    ⟨hnone, hconn⟩ | ⟨s, ai, hsome, hs, hopen, hconn⟩
  · left
    generalize tryFrom aires k = found at *
    obtain ⟨res, fds⟩ := found
    cases hnone
    exact ⟨rfl, hconn⟩
  · right
    generalize tryFrom aires k = found at *
    obtain ⟨res, fds⟩ := found
    cases hsome
    exact ⟨hs, hopen, hconn⟩

section Steps

variable {r : Router} (hr : r.Sound)

include hr

theorem Router.Sound.connected_of_neg (h : r.dst < 0) :
    r.fds.connected = ∅ := by
  rcases hr with ⟨-, hconn⟩ | ⟨-, hdst, -⟩
  · exact hconn
  · omega

theorem chkCb_sound {now : Int} {gai : Option (List Candidate)}
    (hres : ¬ Unresolved r (.chkCb now gai)) : (chkCb false now gai r).Sound := by
  rw [chkCb, if_neg Bool.false_ne_true]
  split
  · rename_i hdue
    have hconn := hr.connected_of_neg hdue.1
    cases gai with
    | none => exact absurd ⟨hdue.1, hdue.2, rfl⟩ hres
    | some aires =>
        rcases tryConnect_cases aires hconn with
          ⟨hs, hnone⟩ | ⟨hs, hopen, hsole⟩
        · have hneg : (udRouterSocket (some aires) r.fds).s < 0 :=
            hs.trans_lt (by decide)
          rw [if_pos hneg]
          exact .inl ⟨hs, hnone⟩
        · have hpos : ¬ (udRouterSocket (some aires) r.fds).s < 0 :=
            Int.not_lt.mpr hs
          rw [if_neg hpos]
          refine .inr ⟨⟨hopen, ?_, rfl, rfl⟩, hs, hsole⟩
          exact hsole ▸ Finset.mem_singleton_self _
  · exact hr

theorem rtrCb_sound (nrd : Int) : (rtrCb nrd r).Sound := by
  unfold rtrCb
  split
  · split
    · exact hr
    · refine .inl ⟨rfl, ?_⟩
      change r.fds.connected.erase r.rtr.fd = ∅
      rcases hr with ⟨-, hconn⟩ | ⟨hwatched, -, hconn⟩
      · rw [hconn, Finset.erase_empty]
      · rw [hconn, hwatched.fd]
        simp
  · exact hr

theorem not_onTarget_of_unresolved {c : RouterCall} (h : Unresolved r c) :
    ¬ (c.step r).1.OnTarget := by
  cases c with
  | chkCb now gai =>
      obtain ⟨hdst, hnow, rfl⟩ := h
      have hconn := hr.connected_of_neg hdst
      have hstep : (RouterCall.step r (.chkCb now none)).1 =
          { r with
            lastReco := now
            dst := 0
            rtr := ({ r.rtr with data := some .ctx }.init 0).start } := by
        rw [RouterCall.step, chkCb, if_neg Bool.false_ne_true, if_pos ⟨hdst, hnow⟩,
          if_neg (show ¬ (udRouterSocket none r.fds).s < 0 from
            Int.lt_irrefl 0)]
        rfl
      rw [hstep]
      rintro (htarget | hwatched)
      · contradiction
      · have hmem : (0 : Int) ∈ r.fds.connected := hwatched.connected
        rw [hconn] at hmem
        contradiction
  | rtrCb nrd => exact absurd h id
  | subCb rx ws => exact absurd h id

end Steps

theorem routerCall_sound {r : Router} {c : RouterCall} (hr : r.Sound)
    (h : ¬ Unresolved r c) : (c.step r).1.Sound := by
  cases c with
  | chkCb now gai => exact chkCb_sound hr h
  | rtrCb nrd => exact rtrCb_sound hr nrd
  | subCb rx ws => exact hr

/--
The router has its target connected, open and watched, or none, after every
call of its loop if and only if it never meets an unresolved name where it
reconnects.
-/
theorem router_on_target_iff (proto : Proto) (opened : Finset Int)
    (calls : List RouterCall) :
    (∀ ev ∈ evLoop.events (Router.init proto opened) calls,
      ev.post.OnTarget) ↔
    ∀ ev ∈ evLoop.events (Router.init proto opened) calls,
      ¬ Unresolved ev.pre ev.input :=
  System.posts_iff (S := evLoop) (J := Router.Sound)
    (fun _ h => h.onTarget) (fun _ _ hr h => routerCall_sound hr h)
    (fun _ _ hr h => not_onTarget_of_unresolved hr h) (.inl ⟨rfl, rfl⟩) calls

/-- One failed resolution and packets go to descriptor 0. -/
theorem not_router_on_target :
    ¬ ∀ (proto : Proto) (opened : Finset Int) (calls : List RouterCall),
      ∀ ev ∈ evLoop.events (Router.init proto opened) calls,
        ev.post.OnTarget := by
  intro h
  have hsound : (Router.init .udp {0, 1, 2}).Sound := .inl ⟨rfl, rfl⟩
  exact not_onTarget_of_unresolved hsound (c := .chkCb 1 none)
    ⟨by decide, by decide, rfl⟩
    (h .udp {0, 1, 2} [.chkCb 1 none] _ List.mem_cons_self)

/-! ## Redirected packets -/

/--
What a stream takes of every packet of a length, over all sends of one call, is
a prefix of the packet if and only if at most one of the sends made takes
anything.
-/
theorem retries_prefix_iff (r : Router) (n : Nat) (ws : Nat → SendRes) :
    (∀ pkt : Bytes, pkt.length = n →
      (subCb (some pkt) ws r).parts.flatten <+: pkt) ↔
    TakenOnce (min fwdMtu n) maxRetr fun i => (ws i).moved (min fwdMtu n) := by
  rcases Nat.eq_zero_or_pos n with rfl | hn
  · refine iff_of_true (fun pkt hpkt => ?_) ?_
    · rw [List.eq_nil_of_length_eq_zero hpkt]
      exact List.nil_prefix
    · intro i j _ _ _
      exact .inl (Nat.le_zero.mp ((ws i).moved_le _))
  · rw [← @resend_prefix_iff UInt8 ⟨0, 1, by decide⟩ n fwdMtu hn (by decide)]
    refine forall_congr' fun pkt => imp_congr_right fun hpkt => ?_
    have hne : pkt.take fwdMtu ≠ [] := by
      rw [← List.length_pos_iff, List.length_take, hpkt]
      unfold fwdMtu
      omega
    rw [subCb, redirect_of_length (hpkt ▸ hn), forward_flatten hne,
      List.length_take, hpkt]

/-- One byte of two is accepted, then both. -/
theorem not_retries_prefix :
    ¬ ∀ (r : Router) (pkt : Bytes) (ws : Nat → SendRes),
      (subCb (some pkt) ws r).parts.flatten <+: pkt := by
  intro h
  exact absurd (h (Router.init .tcp ∅) [1, 2] fun i =>
    if i = 0 then .short 1 else .full) (by decide)

end Unserding
