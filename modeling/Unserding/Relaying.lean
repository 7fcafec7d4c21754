import Unserding.Delivery
import Unserding.Turns
import Unserding.Foundation.Relay

/-!
# Two networks

A router and a dealer in udp mode join two networks.  Datagrams are lost and
reordered on all three stretches, and each end tries a send up to three times.
No datagram comes through twice or changed.
-/

namespace Unserding

open Foundation

/-! ## Redirecting in udp mode -/

/-- The packet fits the buffer, and it is sent to a datagram socket. -/
structure Redirects (rx : Option Bytes) (ws : Nat → SendRes) : Prop where
  size : ∀ pkt ∈ rx, pkt.length ≤ fwdMtu
  atomic : ∀ n, (ws n).Atomic

/-- And one of the sends succeeds. -/
structure GetsThrough (rx : Option Bytes) (ws : Nat → SendRes) : Prop
    extends Redirects rx ws where
  nonempty : ∀ pkt ∈ rx, pkt ≠ []
  sent : ∃ n < maxRetr, ws n = .full

theorem recvPkt_cases {rx : Option Bytes} (h : ∀ pkt ∈ rx, pkt.length ≤ fwdMtu) :
    recvPkt rx = none ∧ (rx = none ∨ rx = some []) ∨
      recvPkt rx = rx ∧ ∃ pkt, rx = some pkt ∧ pkt ≠ [] := by
  cases rx with
  | none => exact .inl ⟨rfl, .inl rfl⟩
  | some pkt =>
      have htake : pkt.take fwdMtu = pkt := List.take_of_length_le (h pkt rfl)
      by_cases hnil : pkt = []
      · exact .inl ⟨by simp [recvPkt, hnil], .inr (by rw [hnil])⟩
      · exact .inr ⟨by simp [recvPkt, htake, hnil], pkt, rfl, hnil⟩

theorem redirect_sublist {rx : Option Bytes} {ws : Nat → SendRes}
    (h : Redirects rx ws) : (redirect rx ws).Sublist rx.toList := by
  obtain ⟨ok, rfl, -⟩ := exists_datagrams h.atomic
  rcases recvPkt_cases h.size with ⟨hnone, -⟩ | ⟨hsome, pkt, rfl, -⟩
  · simp [redirect, hnone]
  · rw [redirect, hsome]
    rcases forward_datagrams pkt maxRetr ok with ⟨-, hnil⟩ | ⟨-, hone⟩
    · simp [hnil]
    · simp [hone]

theorem redirect_all {rx : Option Bytes} {ws : Nat → SendRes}
    (h : GetsThrough rx ws) : redirect rx ws = rx.toList := by
  obtain ⟨ok, rfl, hok⟩ := exists_datagrams h.atomic
  rcases recvPkt_cases h.size with ⟨hnone, rfl | rfl⟩ | ⟨hsome, pkt, rfl, -⟩
  · rfl
  · exact absurd rfl (h.nonempty [] rfl)
  · rw [redirect, hsome]
    rcases forward_datagrams pkt maxRetr ok with ⟨hfail, -⟩ | ⟨-, hone⟩
    · obtain ⟨n, hn, hfull⟩ := h.sent
      rw [← hok, hfail n hn] at hfull
      contradiction
    · simp [hone]

/-! ## The two ends as relays -/

def RouterCall.packets : RouterCall → List Bytes
  | .subCb rx _ => rx.toList
  | .chkCb _ _ | .rtrCb _ => []

def Forwarded.packets (out : Option Forwarded) : List Bytes :=
  (out.map Forwarded.parts).getD []

def RouterCall.Obeys (P : Option Bytes → (Nat → SendRes) → Prop) :
    RouterCall → Prop
  | .subCb rx ws => P rx ws
  | .chkCb _ _ | .rtrCb _ => True

def DealerCall.packets : DealerCall → List Bytes
  | .dlrDataCb _ rx _ => rx.toList
  | .dlrTcpCb _ _ | .dlrSplcCb _ _ _ => []

/-- Packets are not spliced. -/
def DealerCall.Obeys (P : Option Bytes → (Nat → SendRes) → Prop) :
    DealerCall → Prop
  | .dlrDataCb _ rx ws => P rx ws
  | .dlrTcpCb _ _ => True
  | .dlrSplcCb _ _ _ => False

theorem router_relays :
    evLoop.Relays RouterCall.packets Forwarded.packets
      (RouterCall.Obeys Redirects) := by
  intro r c hc
  cases c with
  | chkCb now gai => exact List.Sublist.slnil
  | rtrCb nrd => exact List.Sublist.slnil
  | subCb rx ws => exact redirect_sublist hc

theorem router_relaysAll :
    evLoop.RelaysAll RouterCall.packets Forwarded.packets
      (RouterCall.Obeys GetsThrough) := by
  intro r c hc
  cases c with
  | chkCb now gai => rfl
  | rtrCb nrd => rfl
  | subCb rx ws => exact redirect_all hc

theorem dealer_relays :
    dealing.Relays DealerCall.packets id (DealerCall.Obeys Redirects) := by
  intro d c hc
  cases c with
  | dlrTcpCb down s => exact List.Sublist.slnil
  | dlrDataCb i rx ws => exact redirect_sublist hc
  | dlrSplcCb i rx out => exact hc.elim

theorem dealer_relaysAll :
    dealing.RelaysAll DealerCall.packets id (DealerCall.Obeys GetsThrough) := by
  intro d c hc
  cases c with
  | dlrTcpCb down s => rfl
  | dlrDataCb i rx ws => exact redirect_all hc
  | dlrSplcCb i rx out => exact hc.elim

/-! ## From one network to the other -/

structure Crossing where
  router : Router
  dealer : Dealer
  near : List RouterCall
  far : List DealerCall

def Crossing.forwarded (x : Crossing) : List Bytes :=
  evLoop.given Forwarded.packets x.router x.near

def Crossing.published (x : Crossing) : List Bytes :=
  dealing.given id x.dealer x.far

/-- Nothing is known of the packet that was received. -/
def SendsAtomic (_ : Option Bytes) (ws : Nat → SendRes) : Prop :=
  ∀ n, (ws n).Atomic

def SendsOnce (_ : Option Bytes) (ws : Nat → SendRes) : Prop :=
  (∀ n, (ws n).Atomic) ∧ ∃ n < maxRetr, ws n = .full

section Obeys

variable {P Q : Option Bytes → (Nat → SendRes) → Prop} {good : Bytes → Prop}
  (himp : ∀ rx ws, (∀ pkt ∈ rx, good pkt) → P rx ws → Q rx ws)

include himp

theorem RouterCall.Obeys.imp {calls : List RouterCall}
    (h : ∀ c ∈ calls, c.Obeys P)
    (hgood : ∀ pkt ∈ calls.flatMap RouterCall.packets, good pkt) :
    ∀ c ∈ calls, c.Obeys Q := by
  intro c hc
  cases c with
  | chkCb now gai => trivial
  | rtrCb nrd => trivial
  | subCb rx ws =>
      refine himp rx ws (fun pkt hpkt => hgood pkt ?_) (h _ hc)
      exact List.mem_flatMap.mpr ⟨_, hc, Option.mem_toList.mpr hpkt⟩

theorem DealerCall.Obeys.imp {calls : List DealerCall}
    (h : ∀ c ∈ calls, c.Obeys P)
    (hgood : ∀ pkt ∈ calls.flatMap DealerCall.packets, good pkt) :
    ∀ c ∈ calls, c.Obeys Q := by
  intro c hc
  cases c with
  | dlrTcpCb down s => trivial
  | dlrSplcCb i rx out => exact h _ hc
  | dlrDataCb i rx ws =>
      refine himp rx ws (fun pkt hpkt => hgood pkt ?_) (h _ hc)
      exact List.mem_flatMap.mpr ⟨_, hc, Option.mem_toList.mpr hpkt⟩

end Obeys

def FitsBuffer (pkt : Bytes) : Prop := pkt ≠ [] ∧ pkt.length ≤ fwdMtu

theorem redirects_of_fitsBuffer {rx : Option Bytes} {ws : Nat → SendRes}
    (hrx : ∀ pkt ∈ rx, FitsBuffer pkt) (h : SendsAtomic rx ws) : Redirects rx ws :=
  ⟨fun pkt hpkt => (hrx pkt hpkt).2, h⟩

theorem getsThrough_of_fitsBuffer {rx : Option Bytes} {ws : Nat → SendRes}
    (hrx : ∀ pkt ∈ rx, FitsBuffer pkt) (h : SendsOnce rx ws) : GetsThrough rx ws :=
  ⟨⟨fun pkt hpkt => (hrx pkt hpkt).2, h.1⟩, fun pkt hpkt => (hrx pkt hpkt).1, h.2⟩

section Crossing

variable {x : Crossing} {sent : List Bytes} (hsent : ∀ pkt ∈ sent, FitsBuffer pkt)

include hsent

theorem published_subperm (hnear : ∀ c ∈ x.near, c.Obeys SendsAtomic)
    (hfar : ∀ c ∈ x.far, c.Obeys SendsAtomic)
    (hin : (x.near.flatMap RouterCall.packets).Subperm sent)
    (hwire : (x.far.flatMap DealerCall.packets).Subperm x.forwarded) :
    x.published.Subperm sent := by
  have hnear' : ∀ c ∈ x.near, c.Obeys Redirects :=
    RouterCall.Obeys.imp (fun _ _ => redirects_of_fitsBuffer) hnear
      fun pkt hpkt => hsent pkt (hin.subset hpkt)
  have hforwarded : x.forwarded.Subperm sent :=
    (router_relays.run x.router hnear').subperm.trans hin
  have hfar' : ∀ c ∈ x.far, c.Obeys Redirects :=
    DealerCall.Obeys.imp (fun _ _ => redirects_of_fitsBuffer) hfar
      fun pkt hpkt => hsent pkt ((hwire.trans hforwarded).subset hpkt)
  exact (dealer_relays.run x.dealer hfar').subperm.trans
    (hwire.trans hforwarded)

theorem published_perm (hnear : ∀ c ∈ x.near, c.Obeys SendsOnce)
    (hfar : ∀ c ∈ x.far, c.Obeys SendsOnce)
    (hin : (x.near.flatMap RouterCall.packets).Perm sent)
    (hwire : (x.far.flatMap DealerCall.packets).Perm x.forwarded) :
    x.published.Perm sent := by
  have hnear' : ∀ c ∈ x.near, c.Obeys GetsThrough :=
    RouterCall.Obeys.imp (fun _ _ => getsThrough_of_fitsBuffer) hnear
      fun pkt hpkt => hsent pkt (hin.subset hpkt)
  have hforwarded : x.forwarded.Perm sent :=
    (List.Perm.of_eq (router_relaysAll.run x.router hnear')).trans hin
  have hfar' : ∀ c ∈ x.far, c.Obeys GetsThrough :=
    DealerCall.Obeys.imp (fun _ _ => getsThrough_of_fitsBuffer) hfar
      fun pkt hpkt => hsent pkt ((hwire.trans hforwarded).subset hpkt)
  exact (List.Perm.of_eq (dealer_relaysAll.run x.dealer hfar')).trans
    (hwire.trans hforwarded)

end Crossing

/-! ## Messages across -/

theorem Published.fitsBuffer {dgram : Bytes} {msgs : List UdMsg}
    (h : Published dgram msgs) : FitsBuffer dgram := by
  obtain ⟨-, pno, svc, hbytes⟩ := h.carries
  have hhdr := length_udHdr pno svc
  have hlen := h.length
  constructor
  · intro hnil
    have hzero := congrArg List.length hbytes
    rw [hnil, List.length_append, hhdr] at hzero
    unfold hdrSize at hzero
    rw [List.length_nil] at hzero
    omega
  · unfold fwdMtu
    unfold ethMtu at hlen
    omega

theorem emitted_fits {calls : List Call} (hcalls : ∀ c ∈ calls, c.Publishes) :
    ∀ pkt ∈ emitted calls, FitsBuffer pkt := by
  obtain ⟨batches, -, hpub⟩ := emitted_batches hcalls
  intro pkt hpkt
  obtain ⟨batch, -, hbatch⟩ := exists_of_forall₂ hpub hpkt
  exact hbatch.fitsBuffer

theorem exists_delivered {dgrams : List Bytes} {batches : List (List UdMsg)}
    (h : List.Forall₂ Published dgrams batches) :
    ∃ delivered : List (Bytes × List UdMsg),
      (∀ p ∈ delivered, Published p.1 p.2) ∧ dgrams = delivered.map Prod.fst ∧
        delivered.flatMap Prod.snd = batches.flatten := by
  obtain ⟨hlen, hzip⟩ := List.forall₂_iff_zip.mp h
  refine ⟨dgrams.zip batches, fun p hp => hzip hp, ?_, ?_⟩
  · exact (List.map_fst_zip hlen.le).symm
  · rw [List.flatMap, List.map_snd_zip hlen.ge]

/--
Whatever is lost, reordered or sent again on the three stretches, and however
the callbacks are interleaved, what is received in the far network are messages
of the near one, none of them twice.
-/
theorem received_across {calls : List Call} (hcalls : ∀ c ∈ calls, c.Publishes)
    {x : Crossing} (hnear : ∀ c ∈ x.near, c.Obeys SendsAtomic)
    (hfar : ∀ c ∈ x.far, c.Obeys SendsAtomic)
    (hin : (x.near.flatMap RouterCall.packets).Subperm (emitted calls))
    (hwire : (x.far.flatMap DealerCall.packets).Subperm x.forwarded)
    {feeds : List Feed} (hout : (arrivals feeds).Subperm x.published) :
    (received feeds).Subperm
      ((calls.filterMap Call.message).map UdMsg.handed) := by
  have hsent := published_subperm (emitted_fits hcalls) hnear hfar hin hwire
  obtain ⟨batches, hflat, hpub⟩ := emitted_batches hcalls
  obtain ⟨batches', hpub', hsub⟩ := subperm_forall₂ (hout.trans hsent) hpub
  obtain ⟨delivered, hall, harrive, hmsgs⟩ := exists_delivered hpub'
  have hprefix := received_isPrefix hall harrive
  rw [hmsgs] at hprefix
  rw [← hflat]
  exact hprefix.sublist.subperm.trans (subperm_map_flatten UdMsg.handed hsub)

def secondTry : Nat → SendRes := fun n => if n = 0 then .fail else .full

def crossing (dgrams : List Bytes) : Crossing :=
  let near := dgrams.map fun dgram => .subCb (some dgram) secondTry
  let router := Router.init .udp ∅
  { router := router
    dealer := Dealer.init .udp
    near := near
    far := (evLoop.given Forwarded.packets router near).map fun dgram =>
      .dlrDataCb 0 (some dgram) secondTry }

theorem secondTry_once (rx : Option Bytes) : SendsOnce rx secondTry := by
  refine ⟨fun n => ?_, 1, by decide, rfl⟩
  unfold secondTry
  split <;> trivial

theorem crossing_near (dgrams : List Bytes) :
    ((crossing dgrams).near.flatMap RouterCall.packets) = dgrams := by
  simp [crossing, List.flatMap_map, RouterCall.packets]

theorem crossing_wire (dgrams : List Bytes) :
    (crossing dgrams).far.flatMap DealerCall.packets =
      (crossing dgrams).forwarded := by
  simp [crossing, Crossing.forwarded, List.flatMap_map, DealerCall.packets]

theorem crossing_obeys {P : Option Bytes → (Nat → SendRes) → Prop}
    (hP : ∀ rx, P rx secondTry) (dgrams : List Bytes) :
    (∀ c ∈ (crossing dgrams).near, c.Obeys P) ∧
      ∀ c ∈ (crossing dgrams).far, c.Obeys P := by
  constructor
  · intro c hc
    obtain ⟨dgram, -, rfl⟩ := List.mem_map.mp hc
    exact hP (some dgram)
  · intro c hc
    obtain ⟨dgram, -, rfl⟩ := List.mem_map.mp hc
    exact hP (some dgram)

def twoServices : List Call :=
  [.udPackMsg .full ⟨7, [41, 42], by decide⟩, .udPackMsg .full ⟨8, [43], by decide⟩]

theorem twoServices_publishes : ∀ c ∈ twoServices, c.Publishes := by
  simp [twoServices, Call.Publishes, UdMsg.dlen]

def arriving (dgrams : List Bytes) : List Feed :=
  dgrams.map fun dgram => .arrive ⟨dgram, Vector.replicate 28 0⟩

def quiet : Env := ⟨none, none, 0, .full, .full⟩

def polling (n : Nat) : List Feed := List.replicate n (.poll quiet)

theorem arrivals_arriving (dgrams : List Bytes) (n : Nat) :
    arrivals (arriving dgrams ++ polling n) = dgrams := by
  simp [arrivals, arriving, polling, List.filterMap_append, List.filterMap_map]

theorem received_across_witness :
    (received (arriving ((crossing (emitted twoServices)).published.drop 1) ++
      polling 1)).Subperm [⟨7, 2, [41, 42]⟩, ⟨8, 1, [43]⟩] := by
  have hatomic : ∀ rx, SendsAtomic rx secondTry := fun rx => (secondTry_once rx).1
  obtain ⟨hnear, hfar⟩ := crossing_obeys hatomic (emitted twoServices)
  refine received_across twoServices_publishes hnear hfar
    (List.Perm.of_eq (crossing_near _)).subperm
    (List.Perm.of_eq (crossing_wire _)).subperm ?_
  rw [arrivals_arriving]
  exact (List.drop_sublist 1 _).subperm

/--
When nothing is lost and one of the three tries succeeds every time, all of them
are received once two polls in a row found nothing.
-/
theorem received_all_across {calls : List Call}
    (hcalls : ∀ c ∈ calls, c.Publishes) {x : Crossing}
    (hnear : ∀ c ∈ x.near, c.Obeys SendsOnce)
    (hfar : ∀ c ∈ x.far, c.Obeys SendsOnce)
    (hin : (x.near.flatMap RouterCall.packets).Perm (emitted calls))
    (hwire : (x.far.flatMap DealerCall.packets).Perm x.forwarded)
    {feeds : List Feed} {e₁ e₂ : Env} (hout : (arrivals feeds).Perm x.published)
    (hnone : receiver.outputs Inbound.fresh (feeds ++ [.poll e₁, .poll e₂]) =
      receiver.outputs Inbound.fresh feeds ++ [none, none]) :
    (received feeds).Perm
      ((calls.filterMap Call.message).map UdMsg.handed) := by
  have hsent := published_perm (emitted_fits hcalls) hnear hfar hin hwire
  obtain ⟨batches, hflat, hpub⟩ := emitted_batches hcalls
  obtain ⟨batches', hpub', hperm⟩ := perm_forall₂ (hout.trans hsent) hpub
  obtain ⟨delivered, hall, harrive, hmsgs⟩ := exists_delivered hpub'
  rw [received_all hall harrive hnone, hmsgs, ← hflat]
  exact hperm.flatten.map UdMsg.handed

theorem received_all_across_witness :
    (received (arriving (crossing (emitted twoServices)).published ++
      polling 3)).Perm [⟨7, 2, [41, 42]⟩, ⟨8, 1, [43]⟩] := by
  obtain ⟨hnear, hfar⟩ := crossing_obeys secondTry_once (emitted twoServices)
  have hnone : receiver.outputs Inbound.fresh
      (arriving (crossing (emitted twoServices)).published ++ polling 3 ++
        [.poll quiet, .poll quiet]) =
      receiver.outputs Inbound.fresh
        (arriving (crossing (emitted twoServices)).published ++ polling 3) ++
          [none, none] := by
    decide +kernel
  refine received_all_across twoServices_publishes hnear hfar
    (List.Perm.of_eq (crossing_near _)) (List.Perm.of_eq (crossing_wire _)) ?_ hnone
  rw [arrivals_arriving]

end Unserding
