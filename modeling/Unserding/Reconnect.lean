import Unserding.Addresses
import Unserding.Foundation.Throttle

/-!
# Connecting again

The router from its start to its exit: how often `chk_cb` tries to connect, and
which descriptors are open meanwhile and at the end.
-/

namespace Unserding

open Foundation

/-! ## Attempts -/

/-- When a call looks for a router socket. -/
def RouterCall.attempt (r : Router) : RouterCall → Option Int
  | .chkCb now _ => if r.dst < 0 ∧ now > r.lastReco then some now else none
  | .rtrCb _ | .subCb _ _ => none

theorem chkCb_of_attempt {r : Router} {now t : Int}
    {gai : Option (List Candidate)}
    (h : RouterCall.attempt r (.chkCb now gai) = some t) :
    t = now ∧ r.dst < 0 ∧ r.lastReco < now ∧
      (chkCb false now gai r).lastReco = now := by
  simp only [RouterCall.attempt] at h
  split at h
  · rename_i hdue
    cases h
    refine ⟨rfl, hdue.1, hdue.2, ?_⟩
    rw [chkCb, if_neg Bool.false_ne_true, if_pos hdue]
    dsimp only
    split <;> rfl
  · contradiction

theorem chkCb_of_no_attempt {r : Router} {now : Int}
    {gai : Option (List Candidate)}
    (h : RouterCall.attempt r (.chkCb now gai) = none) :
    chkCb false now gai r = r := by
  simp only [RouterCall.attempt] at h
  split at h
  · contradiction
  · rename_i hnot
    rw [chkCb, if_neg Bool.false_ne_true, if_neg hnot]

/-- The router takes what `ud_router_socket` finds, whatever that is, exactly when
there is an attempt. -/
theorem attempt_eq_some_iff {r : Router} {now : Int}
    {gai : Option (List Candidate)} :
    RouterCall.attempt r (.chkCb now gai) = some now ↔ ∀ gai,
      (chkCb false now gai r).dst = (udRouterSocket gai r.fds).s ∧
        (chkCb false now gai r).fds = (udRouterSocket gai r.fds).fds := by
  constructor
  · intro h gai'
    obtain ⟨-, hdst, hlast, -⟩ := chkCb_of_attempt h
    rw [chkCb, if_neg Bool.false_ne_true, if_pos ⟨hdst, hlast⟩]
    dsimp only
    split <;> exact ⟨rfl, rfl⟩
  · intro h
    cases hatt : RouterCall.attempt r (.chkCb now gai) with
    | some t => rw [(chkCb_of_attempt hatt).1]
    | none =>
        -- no attempt hears of both, a failed lookup and an empty one
        have hfailed := (h none).1
        have hempty := (h (some [])).1
        rw [@chkCb_of_no_attempt r now none hatt] at hfailed
        rw [@chkCb_of_no_attempt r now (some []) hatt, hfailed] at hempty
        change (0 : Int) = -1 at hempty
        contradiction

theorem rtrCb_lastReco (nrd : Int) (r : Router) :
    (rtrCb nrd r).lastReco = r.lastReco := by
  unfold rtrCb
  split
  · split <;> rfl
  · rfl

theorem lastReco_of_attempt {r : Router} {c : RouterCall} {t : Int}
    (h : c.attempt r = some t) :
    r.lastReco + 1 ≤ t ∧ (c.step r).1.lastReco = t := by
  cases c with
  | chkCb now gai =>
      obtain ⟨rfl, -, hlast, hnext⟩ := chkCb_of_attempt h
      exact ⟨hlast, hnext⟩
  | rtrCb nrd => contradiction
  | subCb rx ws => contradiction

theorem lastReco_of_no_attempt {r : Router} {c : RouterCall}
    (h : c.attempt r = none) : (c.step r).1.lastReco = r.lastReco := by
  cases c with
  | chkCb now gai => exact congrArg Router.lastReco (chkCb_of_no_attempt h)
  | rtrCb nrd => exact rtrCb_lastReco nrd r
  | subCb rx ws => rfl

theorem attempts_spaced (r : Router) (calls : List RouterCall) :
    Spaced 1 (evLoop.acts RouterCall.attempt r calls) :=
  (evLoop.acts_spaced RouterCall.attempt (by decide)
    (fun _ _ _ h => lastReco_of_attempt h)
    (fun _ _ h => lastReco_of_no_attempt h) r calls).1

/--
Whatever the clock does, the router does not try to connect twice at one time:
within `n` seconds it tries no more than `n + 1` times.
-/
theorem attempts_within (r : Router) (calls : List RouterCall) (since : Int)
    (n : Nat) :
    ((evLoop.acts RouterCall.attempt r calls).filter fun t =>
      since ≤ t ∧ t ≤ since + n).length ≤ n + 1 := by
  have h := @Spaced.within 1 since (since + n) _ (attempts_spaced r calls) (by omega)
  omega

/-! ## Descriptors -/

/--
What the system promises: names resolve, `socket` returns descriptors that are not
open, and a watcher is called when it runs.
-/
def RouterCall.Served (r : Router) : RouterCall → Prop
  | .chkCb now gai => ¬ Unresolved r (.chkCb now gai) ∧
      ∀ aires, gai = some aires → ∀ ai ∈ aires, ai.socket ∉ r.fds.opened
  | .rtrCb _ => r.rtr.active = true
  | .subCb _ _ => True

theorem served_some {r : Router} {now : Int} {aires : List Candidate}
    (h : ∀ ai ∈ aires, ai.socket ∉ r.fds.opened) :
    RouterCall.Served r (.chkCb now (some aires)) := by
  refine ⟨fun hnone => absurd hnone.2.2 (Option.some_ne_none _), ?_⟩
  rintro _ ⟨⟩
  exact h

structure Router.Idle (opened : Finset Int) (was : Prop) (r : Router) : Prop where
  dst : r.dst = -1
  fds : r.fds.opened = opened
  active : r.rtr.active = false
  fd : (was ∧ r.rtr.fd = -1) ∨ (¬ was ∧ r.rtr.fd = 0)

structure Router.Held (opened : Finset Int) (r : Router) : Prop where
  dst : 0 ≤ r.dst
  fresh : r.dst ∉ opened
  fds : r.fds.opened = insert r.dst opened
  fd : r.rtr.fd = r.dst

def Connected (events : List (Event Router RouterCall (Option Forwarded))) : Prop :=
  ∃ ev ∈ events, 0 ≤ ev.post.dst

def Balanced (opened : Finset Int)
    (events : List (Event Router RouterCall (Option Forwarded))) (r : Router) :
    Prop :=
  r.Idle opened (Connected events) ∨ r.Held opened ∧ Connected events

theorem connected_snoc {events : List (Event Router RouterCall (Option Forwarded))}
    {ev : Event Router RouterCall (Option Forwarded)} :
    Connected (events ++ [ev]) ↔ Connected events ∨ 0 ≤ ev.post.dst := by
  simp only [Connected, List.mem_append, List.mem_singleton, or_and_right,
    exists_or, exists_eq_left]

theorem connected_snoc_of_not
    {events : List (Event Router RouterCall (Option Forwarded))}
    {ev : Event Router RouterCall (Option Forwarded)} (hnot : ¬ 0 ≤ ev.post.dst) :
    Connected (events ++ [ev]) ↔ Connected events :=
  connected_snoc.trans (or_iff_left hnot)

theorem udRouterSocket_opened {opened : Finset Int} (hopened : ∀ fd ∈ opened, 0 ≤ fd)
    {k : Descriptors} (hk : k.opened = opened) {aires : List Candidate}
    (hfresh : ∀ ai ∈ aires, ai.socket ∉ opened) :
    let found := udRouterSocket (some aires) k
    (found.s = -1 ∧ found.fds.opened = opened) ∨
      (0 ≤ found.s ∧ found.s ∉ opened ∧
        found.fds.opened = insert found.s opened) := by
  have hL : k.opened = (⟨opened, []⟩ : Ledger Int).held := hk
  have hs := (tryConnect_fst aires k ⟨opened, []⟩).1
  have hfds := @tryConnect_opened aires k _ hL hopened
  have hsettled := @tryAddrs_settles _ Candidate.attempt aires ⟨opened, []⟩
    fun ai hai _ => hfresh ai hai
  simp only [udRouterSocket, hs, hfds]
  rcases hsettled.result with ⟨-, hnone, hheld⟩ |
    ⟨before, ai, after, -, -, hopens, hsome, hnew, hheld⟩
  · exact .inl ⟨hnone, hheld⟩
  · exact .inr ⟨hsome ▸ hopens.1, hnew, hheld⟩

section Steps

variable {opened : Finset Int} {r : Router}
  {events : List (Event Router RouterCall (Option Forwarded))}

theorem Balanced.same (h : Balanced opened events r)
    {ev : Event Router RouterCall (Option Forwarded)} (hev : ev.post = r) :
    Balanced opened (events ++ [ev]) r := by
  rcases h with hidle | ⟨hheld, hwas⟩
  · left
    have hnot : ¬ 0 ≤ ev.post.dst := by
      rw [hev, hidle.dst]
      decide
    refine ⟨hidle.dst, hidle.fds, hidle.active, ?_⟩
    rw [connected_snoc_of_not hnot]
    exact hidle.fd
  · exact .inr ⟨hheld, connected_snoc.mpr (.inl hwas)⟩

theorem chkCb_unfound {now : Int} {gai : Option (List Candidate)}
    (hdue : r.dst < 0 ∧ now > r.lastReco)
    (hs : (udRouterSocket gai r.fds).s < 0) :
    chkCb false now gai r =
      { r with
        lastReco := now
        dst := (udRouterSocket gai r.fds).s
        fds := (udRouterSocket gai r.fds).fds } := by
  rw [chkCb, if_neg Bool.false_ne_true, if_pos hdue, if_pos hs]

theorem chkCb_found {now : Int} {gai : Option (List Candidate)}
    (hdue : r.dst < 0 ∧ now > r.lastReco)
    (hs : 0 ≤ (udRouterSocket gai r.fds).s) :
    chkCb false now gai r =
      { r with
        lastReco := now
        dst := (udRouterSocket gai r.fds).s
        fds := (udRouterSocket gai r.fds).fds
        rtr := ({ r.rtr with data := some .ctx }.init
          (udRouterSocket gai r.fds).s).start } := by
  rw [chkCb, if_neg Bool.false_ne_true, if_pos hdue, if_neg (Int.not_lt.mpr hs)]

theorem chkCb_balanced (hopened : ∀ fd ∈ opened, 0 ≤ fd)
    (h : Balanced opened events r) {now : Int} {gai : Option (List Candidate)}
    (hserved : RouterCall.Served r (.chkCb now gai)) :
    Balanced opened (events ++ [evLoop.event r (.chkCb now gai)])
      (chkCb false now gai r) := by
  cases hatt : RouterCall.attempt r (.chkCb now gai) with
  | none =>
      have hsame := chkCb_of_no_attempt hatt
      rw [hsame]
      exact h.same hsame
  | some t =>
      obtain ⟨-, hdst, hlast, -⟩ := chkCb_of_attempt hatt
      have hidle : r.Idle opened (Connected events) := by
        rcases h with hidle | ⟨hheld, -⟩
        · exact hidle
        · exact absurd hheld.dst (Int.not_le.mpr hdst)
      cases gai with
      | none => exact absurd ⟨hdst, hlast, rfl⟩ hserved.1
      | some aires =>
          have hfresh := hserved.2 aires rfl
          rw [hidle.fds] at hfresh
          have hpost : (evLoop.event r (.chkCb now (some aires))).post =
              chkCb false now (some aires) r := rfl
          rcases udRouterSocket_opened hopened hidle.fds hfresh with
            ⟨hs, hfds⟩ | ⟨hs, hnew, hfds⟩
          · have hneg : (udRouterSocket (some aires) r.fds).s < 0 := by
              rw [hs]
              decide
            rw [chkCb_unfound ⟨hdst, hlast⟩ hneg] at hpost ⊢
            have hnot : ¬ 0 ≤ (evLoop.event r (.chkCb now (some aires))).post.dst := by
              rw [hpost]
              exact Int.not_le.mpr hneg
            refine .inl ⟨hs, hfds, hidle.active, ?_⟩
            rw [connected_snoc_of_not hnot]
            exact hidle.fd
          · rw [chkCb_found ⟨hdst, hlast⟩ hs] at hpost ⊢
            refine .inr ⟨⟨hs, hnew, hfds, rfl⟩, connected_snoc.mpr (.inr ?_)⟩
            rw [hpost]
            exact hs

theorem rtrCb_balanced (h : Balanced opened events r) {nrd : Int}
    (hactive : r.rtr.active = true) :
    Balanced opened (events ++ [evLoop.event r (.rtrCb nrd)]) (rtrCb nrd r) := by
  have hheld : r.Held opened ∧ Connected events := by
    rcases h with hidle | hheld
    · rw [hidle.active] at hactive
      contradiction
    · exact hheld
  obtain ⟨⟨hdst, hnew, hfds, hfd⟩, hwas⟩ := hheld
  by_cases hgone : nrd ≤ 0 ∧ r.proto = .tcp
  · have hstep : rtrCb nrd r = { r with dst := -1 }.shutRtr := by
      rw [rtrCb, if_pos hgone.1, hgone.2]
    have hclosed : r.fds.opened.erase r.rtr.fd = opened := by
      rw [hfds, hfd, Finset.erase_insert hnew]
    rw [hstep]
    exact .inl ⟨rfl, hclosed, rfl, .inl ⟨connected_snoc.mpr (.inl hwas), rfl⟩⟩
  · have hsame : rtrCb nrd r = r := by
      unfold rtrCb
      split
      · rename_i hnrd
        cases hproto : r.proto with
        | udp => rfl
        | tcp => exact absurd ⟨hnrd, hproto⟩ hgone
      · rfl
    rw [hsame]
    exact h.same hsame

theorem Balanced.opened_eq (h : Balanced opened events r) :
    r.fds.opened = if 0 ≤ r.dst then insert r.dst opened else opened := by
  rcases h with hidle | ⟨hheld, -⟩
  · rw [hidle.dst, if_neg (by decide), hidle.fds]
  · rw [if_pos hheld.dst, hheld.fds]

theorem Balanced.down (hopened : ∀ fd ∈ opened, 0 ≤ fd)
    (h : Balanced opened events r) (now : Int) (gai : Option (List Candidate)) :
    (Connected events → (chkCb true now gai r).fds.opened = opened) ∧
      (¬ Connected events →
        (chkCb true now gai r).fds.opened = opened.erase 0) := by
  have hdown : (chkCb true now gai r).fds.opened =
      r.fds.opened.erase r.rtr.fd := rfl
  rw [hdown]
  rcases h with hidle | ⟨hheld, hwas⟩
  · rw [hidle.fds]
    rcases hidle.fd with ⟨hwas, hfd⟩ | ⟨hnever, hfd⟩
    · refine ⟨fun _ => ?_, fun hnot => absurd hwas hnot⟩
      apply Finset.erase_eq_of_notMem
      rw [hfd]
      exact fun hmem => absurd (hopened _ hmem) (by decide)
    · exact ⟨fun hwas => absurd hwas hnever, fun _ => by rw [hfd]⟩
  · refine ⟨fun _ => ?_, fun hnot => absurd hwas hnot⟩
    rw [hheld.fds, hheld.fd, Finset.erase_insert hheld.fresh]

theorem routerCall_balanced (hopened : ∀ fd ∈ opened, 0 ≤ fd) {c : RouterCall}
    (h : Balanced opened events r) (hserved : c.Served r) :
    Balanced opened (events ++ [evLoop.event r c]) (c.step r).1 := by
  cases c with
  | chkCb now gai => exact chkCb_balanced hopened h hserved
  | rtrCb nrd => exact rtrCb_balanced h hserved
  | subCb rx ws => exact h.same rfl

end Steps

/--
The router leaks no descriptor however often it connects again: beside those it
started with it has its target open, or none.  At its exit it has what it started
with, but one that has never been connected closes descriptor 0 as well.
-/
theorem descriptors_at_exit (proto : Proto) {opened : Finset Int}
    (hopened : ∀ fd ∈ opened, 0 ≤ fd) (calls : List RouterCall)
    (hserved : ∀ ev ∈ evLoop.events (Router.init proto opened) calls,
      ev.input.Served ev.pre) (now : Int) (gai : Option (List Candidate)) :
    let events := evLoop.events (Router.init proto opened) calls
    let last := chkCb true now gai (evLoop.run (Router.init proto opened) calls)
    (∀ ev ∈ events, ev.post.fds.opened =
        if 0 ≤ ev.post.dst then insert ev.post.dst opened else opened) ∧
      (Connected events → last.fds.opened = opened) ∧
      (¬ Connected events → last.fds.opened = opened.erase 0) := by
  have hstart : Balanced opened [] (Router.init proto opened) :=
    .inl ⟨rfl, rfl, rfl, .inr ⟨fun ⟨_, h, _⟩ => List.not_mem_nil h, rfl⟩⟩
  have hrun := System.history (S := evLoop)
    (H := fun events r => Balanced opened events r ∧
      ∀ ev ∈ events, ev.post.fds.opened =
        if 0 ≤ ev.post.dst then insert ev.post.dst opened else opened)
    (G := fun r c => c.Served r)
    (fun events r c h hc => by
      have hnext := routerCall_balanced hopened h.1 hc
      refine ⟨hnext, List.forall_mem_append.mpr ⟨h.2, ?_⟩⟩
      rw [List.forall_mem_singleton]
      exact hnext.opened_eq)
    ⟨hstart, fun ev hev => absurd hev List.not_mem_nil⟩ calls hserved
  exact ⟨hrun.2, hrun.1.down hopened now gai⟩

theorem descriptors_at_exit_witness :
    (chkCb true 4 none (evLoop.run (Router.init .tcp {0, 1, 2})
      [.chkCb 1 (some [⟨3, 0⟩]), .rtrCb 0, .chkCb 2 (some [⟨3, -1⟩]),
        .chkCb 3 (some [⟨-1, -1⟩, ⟨3, 0⟩])])).fds.opened = {0, 1, 2} := by
  refine (descriptors_at_exit .tcp (by decide)
    [.chkCb 1 (some [⟨3, 0⟩]), .rtrCb 0, .chkCb 2 (some [⟨3, -1⟩]),
      .chkCb 3 (some [⟨-1, -1⟩, ⟨3, 0⟩])] ?_ 4 none).2.1 ?_
  · intro ev hev
    simp only [System.events_cons, System.events_nil, List.mem_cons,
      List.not_mem_nil, or_false] at hev
    rcases hev with rfl | rfl | rfl | rfl
    · exact served_some (by decide)
    · rfl
    · exact served_some (by decide)
    · exact served_some (by decide)
  · exact ⟨_, List.mem_cons_self, by decide⟩

end Unserding
