import Unserding.Reconnect
import Unserding.Relaying
import Unserding.Splice
import Unserding.Foundation.Streams
import Mathlib.Data.Fintype.BigOperators

/-!
# Networks joined by tcp

Any number of routers in tcp mode and a dealer.  The dealer shuts a connection
after the first piece it has read, and a router that finds itself shut waits for
the clock before it connects again: of every connection one piece gets through,
and connections are few.
-/

namespace Unserding

open Foundation

/-! ## Routers, dealer and what is between them -/

structure Uplinks (κ : Type*) where
  routers : κ → Router
  dealer : Dealer
  wire : Streams κ UInt8
  -- the connection a router writes to, and that of a descriptor of the dealer
  line : κ → Option Nat
  peer : Int → Nat

def Uplinks.start {κ : Type*} (opened : κ → Finset Int) : Uplinks κ :=
  ⟨fun k => Router.init .tcp (opened k), Dealer.init .tcp, Streams.empty,
    fun _ => none, fun _ => 0⟩

def RouterCall.connects (r : Router) : RouterCall → Bool
  | .chkCb now gai =>
      gai.isSome && decide (r.dst < 0 ∧ 0 ≤ (Unserding.chkCb false now gai r).dst)
  | .rtrCb _ | .subCb _ _ => false

/--
The calls of all processes.  `n` is the connection that `accept` returns, and
`size` bounds what is read.
-/
inductive UplinkCall (κ : Type*) where
  | router (k : κ) (c : RouterCall)
  | accept (s : Int) (n : Nat)
  | down
  | data (i size : Nat) (ws : Nat → SendRes)
  | splc (i size : Nat) (out : SendRes)

section Step

variable {κ : Type*} [DecidableEq κ]

def Uplinks.route (k : κ) (c : RouterCall) (u : Uplinks κ) : Uplinks κ :=
  let r := u.routers k
  let next := c.step r
  let u' := { u with routers := Function.update u.routers k next.1 }
  if c.connects r then
    { u' with
      wire := u.wire.connect k
      line := Function.update u.line k (some u.wire.made.length) }
  else if next.1.dst < 0 then
    { u' with line := Function.update u.line k none }
  else
    match u.line k, next.2 with
    | some n, some out => { u' with wire := u.wire.write n out.parts.flatten }
    | _, _ => u'

def Uplinks.recv (i size : Nat) (u : Uplinks κ) : Streams κ UInt8 × Bytes :=
  u.wire.recv (u.peer (u.dealer.conns i).fd) (min size fwdMtu)

def UplinkCall.step (u : Uplinks κ) : UplinkCall κ → Uplinks κ × List Bytes
  | .router k c => (u.route k c, [])
  | .accept s n =>
      let u' := { u with dealer := dlrTcpCb false s u.dealer }
      if s < 0 then (u', [])
      else
        ({ u' with
          wire := u.wire.accept n
          peer := Function.update u.peer s n }, [])
  | .down => ({ u with dealer := dlrTcpCb true (-1) u.dealer }, [])
  | .data i size ws =>
      let got := u.recv i size
      let r := dlrDataCb i (some got.2) ws u.dealer
      ({ u with dealer := r.1, wire := got.1 }, r.2)
  | .splc i size out =>
      let got := u.recv i size
      let r := dlrSplcCb i (some got.2) out u.dealer
      ({ u with dealer := r.1, wire := got.1 }, [r.2])

def uplinks : System (Uplinks κ) (UplinkCall κ) (List Bytes) := ⟨UplinkCall.step⟩

/--
What the system promises: `accept` returns a connection that waits, data callbacks
are made for connections that are watched, and the destination takes a datagram
whole; of a splice, all of it.
-/
def UplinkCall.Served (u : Uplinks κ) : UplinkCall κ → Prop
  | .router _ _ | .down => True
  | .accept s n => Allowed u.dealer (.dlrTcpCb false s) ∧
      (0 ≤ s → n ∈ u.wire.backlog)
  | .data i _ ws => Allowed u.dealer (.dlrDataCb i none ws) ∧ ∀ n, (ws n).Atomic
  | .splc i _ out => Allowed u.dealer (.dlrSplcCb i none out) ∧ out = .full

def Uplinks.published (u : Uplinks κ) (calls : List (UplinkCall κ)) : List Bytes :=
  (uplinks.outputs u calls).flatten.filter fun dgram => !dgram.isEmpty

end Step

/-! ## The descriptors of the dealer -/

theorem Dealer.shutLive_accepted (d : Dealer) (i : Nat) :
    (d.shutLive i).accepted ⊆ d.accepted := by
  unfold Dealer.shutLive
  split
  · exact Finset.erase_subset _ _
  · exact Finset.Subset.rfl

theorem Dealer.shutLive_pipe (d : Dealer) (i : Nat) :
    (d.shutLive i).pipe = d.pipe := by
  unfold Dealer.shutLive
  split <;> rfl

theorem shutAll_leaves (slots : List Nat) (d : Dealer) :
    (slots.foldl (fun d i => d.shutLive i) d).accepted ⊆ d.accepted ∧
      (slots.foldl (fun d i => d.shutLive i) d).pipe = d.pipe := by
  induction slots generalizing d with
  | nil => exact ⟨Finset.Subset.rfl, rfl⟩
  | cons i slots ih =>
      obtain ⟨haccepted, hpipe⟩ := ih (d.shutLive i)
      exact ⟨haccepted.trans (d.shutLive_accepted i),
        hpipe.trans (d.shutLive_pipe i)⟩

/-! ## What is kept -/

section Keeps

variable {κ : Type*} {u : Uplinks κ} {pieces : List Bytes}

def Uplinks.held (u : Uplinks κ) : Finset Nat := u.dealer.accepted.image u.peer

/-- Every descriptor is for a connection of its own, and the pipe is empty. -/
structure Uplinks.Keeps (u : Uplinks κ) (pieces : List Bytes) : Prop where
  refines : ∃ R, u.dealer.Refines R
  pipe : u.dealer.pipe = []
  apart : Set.InjOn u.peer u.dealer.accepted
  heads : u.wire.Heads u.held pieces

theorem Uplinks.keeps_start (opened : κ → Finset Int) :
    (Uplinks.start opened).Keeps [] where
  refines := ⟨_, Dealer.init_refines⟩
  pipe := rfl
  apart := by simp [Uplinks.start, Dealer.init]
  heads := Streams.heads_empty

variable (h : u.Keeps pieces)

include h

theorem Uplinks.Keeps.shut {d : Dealer} (hrefines : ∃ R, d.Refines R)
    (hpipe : d.pipe = u.dealer.pipe) (haccepted : d.accepted ⊆ u.dealer.accepted) :
    Uplinks.Keeps { u with dealer := d } pieces where
  refines := hrefines
  pipe := hpipe.trans h.pipe
  apart := h.apart.mono haccepted
  heads := h.heads.mono (Finset.image_subset_image haccepted)

theorem Uplinks.Keeps.enroll {s : Int} (hs : s ∉ u.dealer.accepted) {n : Nat}
    (hn : n ∈ u.wire.backlog) (hrefines : ∃ R, (u.dealer.enroll s).Refines R) :
    Uplinks.Keeps { u with
      dealer := u.dealer.enroll s
      wire := u.wire.accept n
      peer := Function.update u.peer s n } pieces := by
  have hpeer : ∀ fd ∈ u.dealer.accepted,
      Function.update u.peer s n fd = u.peer fd :=
    fun fd hfd => Function.update_of_ne (ne_of_mem_of_not_mem hfd hs) ..
  have hother : ∀ fd ∈ u.dealer.accepted, u.peer fd ≠ n := by
    rintro fd hfd rfl
    exact Finset.disjoint_left.mp h.heads.disjoint hn
      (Finset.mem_image_of_mem _ hfd)
  have haccepted : (u.dealer.enroll s).accepted = insert s u.dealer.accepted := rfl
  refine ⟨hrefines, h.pipe, ?_, ?_⟩
  · simp only [haccepted, Finset.coe_insert]
    rw [Set.injOn_insert (by simpa using hs)]
    constructor
    · exact h.apart.congr fun fd hfd => (hpeer fd hfd).symm
    · rintro ⟨fd, hfd, heq⟩
      rw [hpeer fd hfd, Function.update_self] at heq
      exact hother fd hfd heq
  · have hheld : (insert s u.dealer.accepted).image (Function.update u.peer s n) =
        insert n u.held := by
      rw [Finset.image_insert, Function.update_self, Uplinks.held,
        Finset.image_congr fun fd hfd => hpeer fd hfd]
    simp only [Uplinks.held, haccepted, hheld]
    exact h.heads.accept hn

theorem Uplinks.Keeps.recv {i : Nat}
    (hfd : (u.dealer.conns i).fd ∈ u.dealer.accepted) (size : Nat) {d : Dealer}
    (hrefines : ∃ R, d.Refines R) (hpipe : d.pipe = [])
    (haccepted : d.accepted = u.dealer.accepted.erase (u.dealer.conns i).fd)
    {pieces' : List Bytes}
    (hpieces' : pieces' = [] ∨ pieces' = [(u.recv i size).2]) :
    Uplinks.Keeps { u with dealer := d, wire := (u.recv i size).1 }
      (pieces ++ pieces') := by
  have hsub : d.accepted ⊆ u.dealer.accepted :=
    haccepted ▸ Finset.erase_subset _ _
  refine ⟨hrefines, hpipe, h.apart.mono hsub, ?_⟩
  have hrecv := h.heads.recv (Finset.mem_image_of_mem u.peer hfd)
    (min size fwdMtu) hpieces'
  apply hrecv.mono
  intro n hn
  obtain ⟨fd, hin, rfl⟩ := Finset.mem_image.mp hn
  have hopen := hsub hin
  rw [haccepted, Finset.mem_erase] at hin
  refine Finset.mem_erase.mpr ⟨fun heq => hin.1 ?_, Finset.mem_image_of_mem _ hopen⟩
  exact h.apart hopen hfd heq

theorem Uplinks.Keeps.route [DecidableEq κ] (k : κ) (c : RouterCall) :
    (u.route k c).Keeps pieces := by
  unfold Uplinks.route
  dsimp only
  split
  · exact ⟨h.refines, h.pipe, h.apart, h.heads.connect k⟩
  · split
    · exact ⟨h.refines, h.pipe, h.apart, h.heads⟩
    · split
      · exact ⟨h.refines, h.pipe, h.apart, h.heads.write _ _⟩
      · exact ⟨h.refines, h.pipe, h.apart, h.heads⟩

theorem Uplinks.Keeps.accept [DecidableEq κ] {s : Int} {n : Nat}
    (hserved : (UplinkCall.accept s n : UplinkCall κ).Served u) :
    ((UplinkCall.accept s n).step u).1.Keeps pieces := by
  obtain ⟨R, hR⟩ := h.refines
  obtain ⟨hallowed, hn⟩ := hserved
  have hrefines := dlrTcpCb_refines hR false s hallowed
  obtain ⟨R', hR', -⟩ := hR.shutLive ⟨u.dealer.next, hR.next_lt⟩
  have hshut := h.shut ⟨R', hR'⟩ (u.dealer.shutLive_pipe _)
    (u.dealer.shutLive_accepted _)
  rw [dlrTcpCb, if_neg Bool.false_ne_true] at hrefines
  simp only [UplinkCall.step, dlrTcpCb, if_neg Bool.false_ne_true]
  by_cases hs : s < 0
  · simp only [if_pos hs]
    exact hshut
  · simp only [if_neg hs] at hrefines ⊢
    have hpos : 0 ≤ s := Int.not_lt.mp hs
    exact hshut.enroll (hallowed rfl hpos).2 (hn hpos) hrefines

theorem Uplinks.Keeps.watched {i : Nat} (hi : i < countofConns)
    (hactive : (u.dealer.conns i).active = true) :
    (u.dealer.conns i).fd ∈ u.dealer.accepted ∧
      (∃ R, (u.dealer.clo i).Refines R) ∧
      (u.dealer.clo i).pipe = [] ∧
      (u.dealer.clo i).accepted =
        u.dealer.accepted.erase (u.dealer.conns i).fd := by
  obtain ⟨R, hR⟩ := h.refines
  have hpos := (hR.serves ⟨i, hi⟩).active.mp hactive
  have hclo : u.dealer.clo i = u.dealer.shut i := by rw [Dealer.clo, hR.proto]
  refine ⟨(hR.accepted _).mpr ⟨⟨i, hi⟩, hR.slot_eq_some ⟨i, hi⟩ hpos⟩,
    ⟨_, hR.clo ⟨i, hi⟩ hactive⟩, ?_, ?_⟩
  · rw [hclo]
    exact h.pipe
  · rw [hclo]
    rfl

end Keeps

/-! ## What a callback publishes -/

section Publish

variable {piece : Bytes} (hsize : piece.length ≤ fwdMtu)

include hsize

theorem filter_redirect {ws : Nat → SendRes} (hws : ∀ n, (ws n).Atomic) :
    (redirect (some piece) ws).filter (fun dgram => !dgram.isEmpty) = [] ∨
      (redirect (some piece) ws).filter (fun dgram => !dgram.isEmpty) = [piece] := by
  have hsub := @redirect_sublist (some piece) ws
    ⟨fun pkt hpkt => Option.some.inj hpkt ▸ hsize, hws⟩
  exact List.sublist_singleton.mp (List.filter_sublist.trans hsub)

theorem splcPkt_full : splcPkt (some piece) .full [] = ([], piece) := by
  have htake : piece.take fwdMtu = piece := List.take_of_length_le hsize
  rw [splcPkt_eq]
  simp [SendRes.moved, htake]

end Publish

theorem Uplinks.length_recv {κ : Type*} (u : Uplinks κ) (i size : Nat) :
    (u.recv i size).2.length ≤ fwdMtu := by
  simp only [Uplinks.recv, Streams.recv, List.length_take]
  omega

section Run

variable {κ : Type*} [DecidableEq κ]

theorem Uplinks.Keeps.step {u : Uplinks κ} {pieces : List Bytes}
    (h : u.Keeps pieces) {c : UplinkCall κ} (hc : c.Served u) :
    (c.step u).1.Keeps
      (pieces ++ (c.step u).2.filter fun dgram => !dgram.isEmpty) := by
  cases c with
  | router k c =>
      simpa [UplinkCall.step] using h.route k c
  | accept s n =>
      have hout : ((UplinkCall.accept s n).step u).2 = [] := by
        simp only [UplinkCall.step]
        split <;> rfl
      rw [hout, List.filter_nil, List.append_nil]
      exact h.accept hc
  | down =>
      obtain ⟨R, hR⟩ := h.refines
      obtain ⟨haccepted, hpipe⟩ :=
        shutAll_leaves (List.range countofConns) u.dealer
      simpa [UplinkCall.step] using
        h.shut (dlrTcpCb_refines hR true (-1) (by simp [Allowed])) hpipe haccepted
  | data i size ws =>
      obtain ⟨⟨hi, hactive⟩, hws⟩ := hc
      obtain ⟨hfd, hrefines, hpipe, haccepted⟩ := h.watched hi hactive
      exact h.recv hfd size hrefines hpipe haccepted
        (filter_redirect (u.length_recv i size) hws)
  | splc i size out =>
      obtain ⟨⟨hi, hactive⟩, rfl⟩ := hc
      obtain ⟨hfd, hrefines, hpipe, haccepted⟩ := h.watched hi hactive
      have hstep : (UplinkCall.splc i size .full).step u =
          ({ u with dealer := u.dealer.clo i, wire := (u.recv i size).1 },
            [(u.recv i size).2]) := by
        have hsplc := splcPkt_full (u.length_recv i size)
        simp only [UplinkCall.step, dlrSplcCb, h.pipe, hsplc]
        rw [← hpipe]
      rw [hstep]
      refine h.recv hfd size hrefines hpipe haccepted ?_
      exact List.sublist_singleton.mp List.filter_sublist

theorem uplinks_keeps (opened : κ → Finset Int) {calls : List (UplinkCall κ)}
    (hserved : ∀ ev ∈ uplinks.events (Uplinks.start opened) calls,
      ev.input.Served ev.pre) :
    (uplinks.run (Uplinks.start opened) calls).Keeps
      ((Uplinks.start opened).published calls) := by
  refine System.history (S := uplinks) (G := fun u c => c.Served u)
    (H := fun evs u => u.Keeps
      ((evs.map Event.output).flatten.filter fun dgram => !dgram.isEmpty))
    ?_ (Uplinks.keeps_start opened) calls hserved
  intro evs u c h hc
  simp only [List.map_append, List.map_cons, List.map_nil, List.flatten_append,
    List.flatten_cons, List.flatten_nil, List.append_nil, List.filter_append]
  exact h.step hc

/--
However the callbacks of the routers and of the dealer are interleaved, and
wherever the streams are cut, what is published are beginnings of streams, no two
of one connection.
-/
theorem heads_across (opened : κ → Finset Int) {calls : List (UplinkCall κ)}
    (hserved : ∀ ev ∈ uplinks.events (Uplinks.start opened) calls,
      ev.input.Served ev.pre) :
    let u := uplinks.run (Uplinks.start opened) calls
    ∃ ns : List Nat, ns.Nodup ∧ (∀ n ∈ ns, n < u.wire.made.length) ∧
      List.Forall₂ (fun dgram n => dgram <+: u.wire.written n)
        ((Uplinks.start opened).published calls) ns := by
  obtain ⟨ns, hnodup, hns, hpieces⟩ := (uplinks_keeps opened hserved).heads.heads
  exact ⟨ns, hnodup, fun n hn => (hns n hn).1, hpieces⟩

def twoUplinks : List (UplinkCall Bool) :=
  [.router false (.chkCb 1 (some [⟨3, 0⟩])),
    .router true (.chkCb 1 (some [⟨3, 0⟩])),
    .router false (.subCb (some [1, 2]) fun _ => .full),
    .router false (.subCb (some [3]) fun _ => .full),
    .router true (.subCb (some [4]) fun _ => .full),
    .accept 5 1, .accept 6 0,
    .data 0 1492 fun _ => .full,
    .splc 1 1492 .full,
    .router false (.rtrCb 0)]

def twoRouters : Uplinks Bool := Uplinks.start fun _ => {0, 1, 2}

theorem twoUplinks_served : ∀ ev ∈ uplinks.events twoRouters twoUplinks,
    ev.input.Served ev.pre := by
  intro ev hev
  simp only [twoUplinks, System.events_cons, System.events_nil, List.mem_cons,
    List.not_mem_nil, or_false] at hev
  rcases hev with rfl | rfl | rfl | rfl | rfl | rfl | rfl | rfl | rfl | rfl
  · trivial
  · trivial
  · trivial
  · trivial
  · trivial
  · exact ⟨fun _ _ => by decide, fun _ => by decide⟩
  · exact ⟨fun _ _ => by decide, fun _ => by decide⟩
  · exact ⟨⟨by decide, by decide⟩, fun _ => trivial⟩
  · exact ⟨⟨by decide, by decide⟩, rfl⟩
  · trivial

theorem heads_across_witness :
    ∃ ns : List Nat, ns.Nodup ∧ List.Forall₂
      (fun dgram n => dgram <+: (uplinks.run twoRouters twoUplinks).wire.written n)
      [[4], [1, 2, 3]] ns := by
  obtain ⟨ns, hnodup, -, hpieces⟩ := heads_across (fun _ => {0, 1, 2})
    twoUplinks_served
  have hpublished : twoRouters.published twoUplinks = [[4], [1, 2, 3]] := by
    decide
  exact ⟨ns, hnodup, hpublished ▸ hpieces⟩

/-! ## How often -/

def UplinkCall.attempt (k : κ) (u : Uplinks κ) : UplinkCall κ → Option Int
  | .router k' c => if k' = k then c.attempt (u.routers k) else none
  | .accept _ _ | .down | .data _ _ _ | .splc _ _ _ => none

theorem RouterCall.attempt_of_connects {r : Router} {c : RouterCall}
    (h : c.connects r = true) : c.attempt r ≠ none := by
  cases c with
  | chkCb now gai =>
      intro hnone
      simp only [RouterCall.connects, chkCb_of_no_attempt hnone, Bool.and_eq_true,
        decide_eq_true_eq] at h
      omega
  | rtrCb nrd => contradiction
  | subCb rx ws => contradiction

theorem Uplinks.route_routers (k : κ) (c : RouterCall) (u : Uplinks κ) :
    (u.route k c).routers = Function.update u.routers k (c.step (u.routers k)).1 := by
  unfold Uplinks.route
  dsimp only
  split
  · rfl
  · split
    · rfl
    · split <;> rfl

theorem Uplinks.route_made (k : κ) (c : RouterCall) (u : Uplinks κ) :
    (u.route k c).wire.made =
      u.wire.made ++ if c.connects (u.routers k) then [k] else [] := by
  unfold Uplinks.route
  dsimp only
  split
  · rfl
  · split
    · simp
    · split <;> simp [Streams.write]

theorem uplinkCall_made (k : κ) (u : Uplinks κ) (c : UplinkCall κ) :
    (c.step u).1.wire.made.count k ≤
      u.wire.made.count k + (c.attempt k u).toList.length := by
  cases c with
  | router k' c =>
      have hmade := u.route_made k' c
      simp only [UplinkCall.step, hmade, List.count_append, UplinkCall.attempt]
      apply Nat.add_le_add_left
      by_cases hk : k' = k
      · subst hk
        split
        · rename_i hconnects
          obtain ⟨t, ht⟩ := Option.ne_none_iff_exists'.mp
            (RouterCall.attempt_of_connects hconnects)
          simp [ht]
        · simp
      · split <;> simp [hk]
  | accept s n =>
      simp only [UplinkCall.step]
      split <;> exact Nat.le_add_right _ _
  | down => exact Nat.le_add_right _ _
  | data i size ws => exact Nat.le_add_right _ _
  | splc i size out => exact Nat.le_add_right _ _

theorem uplinks_made (k : κ) (u : Uplinks κ) (calls : List (UplinkCall κ)) :
    (uplinks.run u calls).wire.made.count k ≤
      u.wire.made.count k + (uplinks.acts (UplinkCall.attempt k) u calls).length := by
  induction calls generalizing u with
  | nil => exact Nat.le_add_right _ _
  | cons c calls ih =>
      have hstep := uplinkCall_made k u c
      have hrest := ih (c.step u).1
      rw [System.acts_cons, List.length_append]
      change (uplinks.run (c.step u).1 calls).wire.made.count k ≤ _ at hrest
      change (uplinks.run (c.step u).1 calls).wire.made.count k ≤
        _ + (_ + (uplinks.acts (UplinkCall.attempt k) (c.step u).1 calls).length)
      omega

theorem uplinkCall_routers (k : κ) (u : Uplinks κ) (c : UplinkCall κ) :
    (∃ c', c = .router k c' ∧
      (c.step u).1.routers k = (c'.step (u.routers k)).1) ∨
    c.attempt k u = none ∧ (c.step u).1.routers k = u.routers k := by
  cases c with
  | router k' c =>
      by_cases hk : k' = k
      · subst hk
        refine .inl ⟨c, rfl, ?_⟩
        simp [UplinkCall.step, Uplinks.route_routers]
      · refine .inr ⟨if_neg hk, ?_⟩
        simp [UplinkCall.step, Uplinks.route_routers,
          Function.update_of_ne (Ne.symm hk)]
  | accept s n =>
      refine .inr ⟨rfl, ?_⟩
      simp only [UplinkCall.step]
      split <;> rfl
  | down => exact .inr ⟨rfl, rfl⟩
  | data i size ws => exact .inr ⟨rfl, rfl⟩
  | splc i size out => exact .inr ⟨rfl, rfl⟩

theorem UplinkCall.eq_of_attempt {k : κ} {u : Uplinks κ} {c : UplinkCall κ}
    {t : Int} (h : c.attempt k u = some t) :
    ∃ gai, c = .router k (.chkCb t gai) := by
  cases c with
  | router k' c =>
      simp only [UplinkCall.attempt] at h
      split at h
      · rename_i hk
        subst hk
        cases c with
        | chkCb now gai =>
            obtain ⟨rfl, -⟩ := chkCb_of_attempt h
            exact ⟨gai, rfl⟩
        | rtrCb nrd => contradiction
        | subCb rx ws => contradiction
      · contradiction
  | accept s n => contradiction
  | down => contradiction
  | data i size ws => contradiction
  | splc i size out => contradiction

theorem uplinks_spaced (k : κ) (u : Uplinks κ) (calls : List (UplinkCall κ)) :
    Spaced 1 (uplinks.acts (UplinkCall.attempt k) u calls) := by
  have hact : ∀ (u : Uplinks κ) (c : UplinkCall κ) t, c.attempt k u = some t →
      (u.routers k).lastReco + 1 ≤ t ∧
        ((c.step u).1.routers k).lastReco = t := by
    intro u c t h
    rcases uplinkCall_routers k u c with ⟨c', rfl, hnext⟩ | ⟨hnone, -⟩
    · rw [hnext]
      exact lastReco_of_attempt ((if_pos rfl).symm.trans h)
    · exact absurd (h.symm.trans hnone) (Option.some_ne_none t)
  have hkeep : ∀ (u : Uplinks κ) (c : UplinkCall κ), c.attempt k u = none →
      ((c.step u).1.routers k).lastReco = (u.routers k).lastReco := by
    intro u c h
    rcases uplinkCall_routers k u c with ⟨c', rfl, hnext⟩ | ⟨-, hsame⟩
    · rw [hnext]
      exact lastReco_of_no_attempt ((if_pos rfl).symm.trans h)
    · exact congrArg Router.lastReco hsame
  exact (uplinks.acts_spaced (UplinkCall.attempt k) (by decide) hact hkeep u
    calls).1

/--
In tcp mode no more than one datagram a second gets through for every router:
while their clocks show `n + 1` consecutive seconds there are at most as many
for each of them.
-/
theorem published_within [Fintype κ] (opened : κ → Finset Int)
    {calls : List (UplinkCall κ)}
    (hserved : ∀ ev ∈ uplinks.events (Uplinks.start opened) calls,
      ev.input.Served ev.pre) {since : Int} {n : Nat}
    (hclock : ∀ k now gai, .router k (.chkCb now gai) ∈ calls →
      since ≤ now ∧ now ≤ since + n) :
    ((Uplinks.start opened).published calls).length ≤
      Fintype.card κ * (n + 1) := by
  have hlength := (uplinks_keeps opened hserved).heads.length_le
  refine hlength.trans ?_
  have heach : ∀ k, (uplinks.run (Uplinks.start opened) calls).wire.made.count k ≤
      n + 1 := by
    intro k
    have hmade := uplinks_made k (Uplinks.start opened) calls
    have hacts := (uplinks_spaced k (Uplinks.start opened) calls).length_le
      (show since ≤ since + n + 1 by omega) fun t ht => by
        obtain ⟨ev, hev, hact⟩ := List.mem_filterMap.mp ht
        obtain ⟨gai, hinput⟩ := UplinkCall.eq_of_attempt hact
        exact hclock k t gai (hinput ▸ System.input_mem_of_mem uplinks hev)
    simp only [Uplinks.start, Streams.empty, List.count_nil, Nat.zero_add] at *
    omega
  have hsum := Multiset.sum_count_eq_card (s := Finset.univ)
    (m := ((uplinks.run (Uplinks.start opened) calls).wire.made : Multiset κ))
    fun k _ => Finset.mem_univ k
  rw [Multiset.coe_card] at hsum
  rw [← hsum, ← smul_eq_mul]
  exact Finset.sum_le_card_nsmul _ _ _ fun k _ => by
    rw [Multiset.coe_count]
    exact heach k

theorem published_within_witness :
    (twoRouters.published twoUplinks).length ≤ 2 * (0 + 1) := by
  refine @published_within Bool _ _ (fun _ => {0, 1, 2}) _ twoUplinks_served 1 0
    fun k now gai hmem => ?_
  have hnow : now = 1 := by
    simp only [twoUplinks, List.mem_cons, List.not_mem_nil, UplinkCall.router.injEq,
      RouterCall.chkCb.injEq, reduceCtorEq, and_false, or_false, or_self] at hmem
    rcases hmem with ⟨-, rfl, -⟩ | ⟨-, rfl, -⟩ <;> rfl
  rw [hnow]
  decide

end Run

end Unserding
