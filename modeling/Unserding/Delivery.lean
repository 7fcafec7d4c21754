import Unserding.Publishing
import Unserding.Decoding
import Unserding.Foundation.Mailbox

/-!
# End-to-end delivery

A receiving socket behind a queue of datagrams behaves as a mailbox whose batches
are the messages of each datagram.  With the batches of a publisher this gives
the delivery of what was packed, for every choice of datagrams that get through
and every order of arrivals and polls.
-/

namespace Unserding

open Foundation

/-! ## The receiver -/

structure Inbound where
  queue : List Arrival
  lib : Lib

def Inbound.fresh : Inbound := ⟨[], Lib.fresh⟩

inductive Feed where
  | arrive (d : Arrival)
  | poll (e : Env)

def Inbound.env (r : Inbound) (e : Env) : Env := { e with rx := r.queue.head? }

def receiver : System Inbound Feed (Option Handed) where
  step r
    | .arrive d => ({ r with queue := r.queue ++ [d] }, none)
    | .poll e =>
        -- `recvfrom` is called with nothing in the buffer only
        ({ queue := if r.lib.us.nrd = 0 then r.queue.tail else r.queue
           lib := (udChckMsg (r.env e) r.lib).st },
          found (api.event r.lib (.udChckMsg (r.env e))))

def arrivals (feeds : List Feed) : List Bytes :=
  feeds.filterMap fun
    | .arrive d => some d.bytes
    | .poll _ => none

def received (feeds : List Feed) : List Handed :=
  (receiver.outputs Inbound.fresh feeds).reduceOption

/-! ## The receiver as a mailbox -/

structure Bears (d : Arrival) (batch : List Handed) : Prop where
  accepted : d.Accepted
  blobs : ∃ blobs : List Bytes, blobs ≠ [] ∧
    (∀ blob ∈ blobs, blob.length < 256) ∧
    d.payload = blobs.flatMap record ∧
    batch = blobs.map (handed (hdrCmd d.bytes))

inductive Remains (us : Sock) : Option (List Handed) → Prop where
  | idle (hnrd : us.nrd = 0) : Remains us none
  | reading {blobs : List Bytes} (hnrd : us.nrd ≠ 0)
      (hunread : us.unread = blobs.flatMap record)
      (hblobs : ∀ blob ∈ blobs, blob.length < 256) :
      Remains us (some (blobs.map (handed (hdrCmd us.recv))))

structure Mirrors (r : Inbound) (m : Mailbox Handed) : Prop where
  sane : r.lib.Sane
  queue : List.Forall₂ Bears r.queue m.queue
  current : Remains r.lib.us m.current

inductive Fed : Feed → Post Handed → Prop where
  | arrive {d : Arrival} {batch : List Handed} (h : Bears d batch) :
      Fed (.arrive d) (.arrive batch)
  | poll (e : Env) : Fed (.poll e) .poll

theorem udChckMsg_reads (e : Env) {s : Lib} (hs : s.Sane) (hnrd : s.us.nrd ≠ 0)
    {blob : Bytes} {blobs : List Bytes}
    (hunread : s.us.unread = (blob :: blobs).flatMap record)
    (hblobs : ∀ b ∈ blob :: blobs, b.length < 256) :
    found (api.event s (.udChckMsg e)) =
        some (handed (hdrCmd s.us.recv) blob) ∧
      Remains (udChckMsg e s).st.us
        (some (blobs.map (handed (hdrCmd s.us.recv)))) := by
  obtain ⟨hfound, hrest, hnrd', hrecv⟩ :=
    udChckMsg_blob e hs (hblobs blob List.mem_cons_self) hunread
  refine ⟨hfound, ?_⟩
  rw [← hrecv]
  exact .reading (by rw [hnrd']; exact hnrd) hrest
    fun b hb => hblobs b (List.mem_cons_of_mem _ hb)

theorem poll_mirrors {r : Inbound} {m : Mailbox Handed} (h : Mirrors r m)
    (e : Env) :
    Mirrors (receiver.step r (.poll e)).1 m.poll.1 ∧
      (receiver.step r (.poll e)).2 = m.poll.2 := by
  obtain ⟨hs, hqueue, hcur⟩ := h
  have hsane := udChckMsg_sane (r.env e) hs
  rcases r with ⟨queue, lib⟩
  rcases m with ⟨batches, current⟩
  simp only [receiver] at hs hqueue hcur hsane ⊢
  cases hcur with
  | idle hnrd =>
      rw [if_pos hnrd]
      cases hqueue with
      | nil =>
          have hnone := udChckMsg_none (e := Inbound.env ⟨[], lib⟩ e) hnrd rfl
          rw [hnone] at hsane ⊢
          exact ⟨⟨hs, .nil, .idle hnrd⟩, found_none (congrArg Res.val hnone)⟩
      | @cons d batch queue batches hhead htail =>
          obtain ⟨hd, blobs, hne, hblobs, hpayload, rfl⟩ := hhead
          cases blobs with
          | nil => exact absurd rfl hne
          | cons blob blobs =>
              have hfull : d.payload ≠ [] := by
                rw [hpayload]
                exact List.cons_ne_nil _ _
              have heq := udChckMsg_load (e := Inbound.env ⟨d :: queue, lib⟩ e)
                hd hnrd rfl hfull
              have hcmd : hdrCmd (load d lib.us).recv = hdrCmd d.bytes :=
                hdrCmd_recvfrom lib.us hd.1
              obtain ⟨hfound, hremains⟩ := udChckMsg_reads
                (Inbound.env ⟨d :: queue, lib⟩ e) (hs.load d)
                (load_nrd_ne_zero lib.us hfull)
                ((load_unread d lib.us).trans hpayload) hblobs
              rw [hcmd] at hfound hremains
              rw [found_congr heq, hfound]
              rw [heq] at hsane ⊢
              exact ⟨⟨hsane, htail, hremains⟩, rfl⟩
  | @reading blobs hnrd hunread hblobs =>
      rw [if_neg hnrd]
      cases blobs with
      | nil =>
          have hlen := hs.recv.length_unread
          rw [hunread, List.flatMap_nil, List.length_nil] at hlen
          have hend := udChckMsg_end (Inbound.env ⟨queue, lib⟩ e) (s := lib)
            (by omega) hnrd
          rw [found_none (congrArg Res.val hend)]
          rw [hend] at hsane ⊢
          exact ⟨⟨hsane, hqueue, .idle rfl⟩, rfl⟩
      | cons blob blobs =>
          obtain ⟨hfound, hremains⟩ := udChckMsg_reads
            (Inbound.env ⟨queue, lib⟩ e) hs hnrd hunread hblobs
          rw [hfound]
          exact ⟨⟨hsane, hqueue, hremains⟩, rfl⟩

theorem step_mirrors {r : Inbound} {m : Mailbox Handed} {feed : Feed}
    {post : Post Handed} (h : Mirrors r m) (hfed : Fed feed post) :
    Mirrors (receiver.step r feed).1 (Mailbox.system.step m post).1 ∧
      (receiver.step r feed).2 = (Mailbox.system.step m post).2 := by
  cases hfed with
  | poll e => exact poll_mirrors h e
  | arrive hbears =>
      refine ⟨⟨h.sane, ?_, h.current⟩, rfl⟩
      exact List.rel_append h.queue (.cons hbears .nil)

theorem outputs_eq {feeds : List Feed} {posts : List (Post Handed)}
    (h : List.Forall₂ Fed feeds posts) :
    receiver.outputs Inbound.fresh feeds =
      Mailbox.system.outputs Mailbox.empty posts :=
  (System.simulation (fun _ _ _ _ hr hi => step_mirrors hr hi)
    (show Mirrors Inbound.fresh Mailbox.empty from
      ⟨Lib.fresh_sane, .nil, .idle rfl⟩) h).2

/-! ## Publisher and receiver -/

def UdMsg.handed (msg : UdMsg) : Handed := Unserding.handed msg.svc msg.data

theorem Published.bears {d : Arrival} {msgs : List UdMsg}
    (h : Published d.bytes msgs) : Bears d (msgs.map UdMsg.handed) := by
  obtain ⟨hne, pno, svc, hbytes⟩ := h.carries
  have hwires : wires msgs = (msgs.map UdMsg.data).flatMap record := by
    rw [wires_eq_records h.dlen, records, List.flatMap_map]
  have hroom : (wires msgs).length ≤ ethMtu - hdrSize := by
    have hlen := h.length
    rw [hbytes, List.length_append, length_udHdr] at hlen
    omega
  have hhdr := length_udHdr pno svc
  refine ⟨Arrival.accepted_of_bytes hbytes hhdr ?_, msgs.map UdMsg.data, ?_, ?_,
    ?_, ?_⟩
  · rw [hbytes, hdrAccepted_udHdr]
  · exact fun hnil => hne (List.map_eq_nil_iff.mp hnil)
  · intro blob hblob
    obtain ⟨msg, hmsg, rfl⟩ := List.mem_map.mp hblob
    exact Nat.lt_succ_of_le (h.dlen msg hmsg)
  · rw [Arrival.payload_of_bytes hbytes hhdr hroom, hwires]
  · rw [List.map_map]
    refine List.map_congr_left fun msg hmsg => ?_
    rw [Function.comp_apply, ← h.svc msg hmsg]
    rfl

theorem exists_posts {feeds : List Feed} {delivered : List (Bytes × List UdMsg)}
    (hpub : ∀ p ∈ delivered, Published p.1 p.2)
    (harrive : arrivals feeds = delivered.map Prod.fst) :
    ∃ posts, List.Forall₂ Fed feeds posts ∧
      Mailbox.arrived posts =
        delivered.map fun p => p.2.map UdMsg.handed := by
  induction feeds generalizing delivered with
  | nil =>
      have hnil : delivered = [] := List.map_eq_nil_iff.mp harrive.symm
      exact ⟨[], .nil, by rw [hnil]; rfl⟩
  | cons feed feeds ih =>
      cases feed with
      | poll e =>
          obtain ⟨posts, hfed, hposts⟩ := ih hpub harrive
          exact ⟨.poll :: posts, .cons (.poll e) hfed, hposts⟩
      | arrive d =>
          obtain ⟨p, rest, rfl, hbytes, hrest⟩ :=
            List.map_eq_cons_iff.mp harrive.symm
          obtain ⟨posts, hfed, hposts⟩ := ih
            (fun q hq => hpub q (List.mem_cons_of_mem _ hq)) hrest.symm
          have hhead : Published d.bytes p.2 :=
            hbytes ▸ hpub p List.mem_cons_self
          refine ⟨.arrive (p.2.map UdMsg.handed) :: posts,
            .cons (.arrive hhead.bears) hfed, ?_⟩
          rw [List.map_cons, ← hposts]
          rfl

theorem flatten_handed (delivered : List (Bytes × List UdMsg)) :
    (delivered.map fun p => p.2.map UdMsg.handed).flatten =
      (delivered.flatMap Prod.snd).map UdMsg.handed := by
  rw [List.map_flatMap, List.flatMap]

theorem received_isPrefix {feeds : List Feed}
    {delivered : List (Bytes × List UdMsg)}
    (hpub : ∀ p ∈ delivered, Published p.1 p.2)
    (harrive : arrivals feeds = delivered.map Prod.fst) :
    received feeds <+: (delivered.flatMap Prod.snd).map UdMsg.handed := by
  obtain ⟨posts, hfed, hposts⟩ := exists_posts hpub harrive
  rw [received, outputs_eq hfed, ← flatten_handed, ← hposts]
  exact Mailbox.polled_isPrefix posts

theorem received_all {before : List Feed} {e₁ e₂ : Env}
    {delivered : List (Bytes × List UdMsg)}
    (hpub : ∀ p ∈ delivered, Published p.1 p.2)
    (harrive : arrivals before = delivered.map Prod.fst)
    (hnone : receiver.outputs Inbound.fresh (before ++ [.poll e₁, .poll e₂]) =
      receiver.outputs Inbound.fresh before ++ [none, none]) :
    received before = (delivered.flatMap Prod.snd).map UdMsg.handed := by
  obtain ⟨posts, hfed, hposts⟩ := exists_posts hpub harrive
  have hfed' : List.Forall₂ Fed (before ++ [.poll e₁, .poll e₂])
      (posts ++ [.poll, .poll]) :=
    List.rel_append hfed (.cons (.poll e₁) (.cons (.poll e₂) .nil))
  rw [outputs_eq hfed, outputs_eq hfed'] at hnone
  rw [received, outputs_eq hfed, ← flatten_handed, ← hposts]
  refine Mailbox.polled_all ?_ hnone
  rw [hposts]
  intro batch hbatch
  obtain ⟨p, hp, rfl⟩ := List.mem_map.mp hbatch
  exact fun hnil => (hpub p hp).carries.1 (List.map_eq_nil_iff.mp hnil)

/--
The datagrams of a publisher carry its messages in order, each under its own
service.  Whatever subsequence of them arrives, however arrivals and polls are
interleaved, the messages received are a prefix of those carried by the datagrams
that arrived, and all of them once two polls in a row found nothing.
-/
theorem end_to_end_delivery {calls : List Call}
    (hcalls : ∀ c ∈ calls, c.Publishes) :
    ∃ batches : List (List UdMsg),
      batches.flatten = calls.filterMap Call.message ∧
      List.Forall₂ Published (emitted calls) batches ∧
      ∀ (delivered : List (Bytes × List UdMsg)) (feeds : List Feed),
        delivered.Sublist ((emitted calls).zip batches) →
        arrivals feeds = delivered.map Prod.fst →
        received feeds <+: (delivered.flatMap Prod.snd).map UdMsg.handed ∧
        ∀ before e₁ e₂, feeds = before ++ [.poll e₁, .poll e₂] →
          receiver.outputs Inbound.fresh feeds =
            receiver.outputs Inbound.fresh before ++ [none, none] →
          received feeds =
            (delivered.flatMap Prod.snd).map UdMsg.handed := by
  obtain ⟨batches, hflat, hpub⟩ := emitted_batches hcalls
  refine ⟨batches, hflat, hpub, ?_⟩
  intro delivered feeds hsub harrive
  have hall : ∀ p ∈ delivered, Published p.1 p.2 := fun p hp =>
    (List.forall₂_iff_zip.mp hpub).2 (hsub.subset hp)
  refine ⟨received_isPrefix hall harrive, ?_⟩
  rintro before e₁ e₂ rfl hnone
  have hbefore : arrivals before = delivered.map Prod.fst := by
    rw [← harrive, arrivals, arrivals, List.filterMap_append]
    exact (List.append_nil _).symm
  rw [← received_all hall hbefore hnone, received, received, hnone,
    List.reduceOption_append]
  exact List.append_nil _

theorem end_to_end_delivery_witness :
    let calls : List Call := [.udPackMsg .full ⟨7, [1, 2], by decide⟩,
      .udPackMsg .full ⟨8, [3], by decide⟩]
    let poll : Feed := .poll ⟨none, none, 0, .full, .full⟩
    let feeds : List Feed := (emitted calls).map (fun dgram =>
      .arrive ⟨dgram, Vector.replicate 28 0⟩) ++ [poll, poll, poll, poll, poll]
    received feeds = [⟨7, 2, [1, 2]⟩, ⟨8, 1, [3]⟩] := by
  intro calls poll feeds
  have hcalls : ∀ c ∈ calls, c.Publishes := by
    simp [calls, Call.Publishes, UdMsg.dlen]
  obtain ⟨batches, hflat, hpub, hdelivery⟩ := end_to_end_delivery hcalls
  have hlen := hpub.length_eq
  have harrive : arrivals feeds = ((emitted calls).zip batches).map Prod.fst := by
    rw [List.map_fst_zip hlen.le]
    simp [feeds, poll, arrivals, List.filterMap_append]
  have hall := (hdelivery _ feeds (List.Sublist.refl _) harrive).2
    (feeds.take 5) _ _ rfl (by decide)
  rw [hall, List.flatMap, List.map_snd_zip hlen.ge, hflat]
  rfl

end Unserding
