import Unserding.Sending

/-!
# Publishing

A publisher packs messages of proper services and flushes, and its sends succeed.
Each datagram it sends carries whole messages under their own service, and after
a last flush the datagrams together carry everything that was packed.
-/

namespace Unserding

open Foundation

/--
A call of a publisher.  `ud_pack` is `ud_pack_msg` on the message made of its
arguments.
-/
def Call.Publishes : Call → Prop
  | .udPackMsg w msg => w = .full ∧ msg.svc ≠ 0 ∧ msg.dlen ≤ 255
  | .udFlush w => w = .full
  | _ => False

def Call.message : Call → Option UdMsg
  | .udPackMsg _ msg => some msg
  | _ => none

theorem Call.Publishes.atomic {c : Call} (h : c.Publishes) : c.Atomic := by
  cases c with
  | udPackMsg w msg =>
      rw [Call.Atomic, h.1]
      trivial
  | udFlush w =>
      rw [Call.Atomic, show w = .full from h]
      trivial
  | _ => exact h.elim

def Sock.Labelled (us : Sock) : Prop := 0 < us.npk → us.svc ≠ 0

def Tx.Packet (t : Tx) : Prop := ∃ dgram, t = .data dgram ∧ dgram.length ≤ ethMtu

theorem Sock.SendSane.packet_sent {us : Sock} (h : us.SendSane) {dgram : Bytes}
    (hsend : sendto .full us.packet = some dgram) :
    ∀ t ∈ [Tx.data dgram], t.Packet := by
  intro t ht
  rw [List.mem_singleton.mp ht]
  refine ⟨dgram, rfl, ?_⟩
  rw [← Option.some.inj hsend]
  exact h.length_packet_le

structure PublishStep (s : Lib) (c : Call) : Prop where
  labelled : (api.step s c).1.us.Labelled
  keeps : c.KeepsService s
  packed : c.packed (api.step s c).2.ans = c.message
  sent : ∀ t ∈ (api.step s c).2.tx, t.Packet

theorem udFlush_publishes {s : Lib} (hs : s.Sane) :
    PublishStep s (.udFlush .full) := by
  rcases udFlush_cases .full s.us with
    ⟨hnpk, heq⟩ | ⟨-, hsend, -⟩ | ⟨-, dgram, hsend, heq⟩
  · refine ⟨?_, trivial, rfl, ?_⟩
    · change (udFlush .full s.us).st.Labelled
      rw [heq]
      exact fun hpos => absurd hnpk (Nat.ne_of_gt hpos)
    · change ∀ t ∈ (udFlush .full s.us).tx, t.Packet
      rw [heq]
      simp
  · contradiction
  · refine ⟨?_, trivial, rfl, ?_⟩
    · change (udFlush .full s.us).st.Labelled
      rw [heq]
      exact fun hpos => absurd hpos (Nat.lt_irrefl 0)
    · change ∀ t ∈ (udFlush .full s.us).tx, t.Packet
      rw [heq]
      exact hs.send.packet_sent hsend

theorem udPackMsg_publishes {s : Lib} (hs : s.Sane) (hl : s.us.Labelled)
    {msg : UdMsg} (hsvc : msg.svc ≠ 0) :
    PublishStep s (.udPackMsg .full msg) := by
  have hkeeps : s.us.KeepsService msg := fun h => hl h.1 h.2.1
  have hstep : ∃ us tx, udPackMsg .full msg s.us = ⟨0, putMsg msg us, tx⟩ ∧
      ∀ t ∈ tx, t.Packet := by
    rcases udPackMsg_cases .full msg s.us with ⟨-, -, heq⟩ |
      ⟨-, ⟨-, heq⟩ | ⟨-, hsend, -⟩ | ⟨-, dgram, hsend, heq⟩⟩
    · exact ⟨_, _, heq, by simp⟩
    · exact ⟨_, _, heq, by simp⟩
    · contradiction
    · exact ⟨_, _, heq, hs.send.packet_sent hsend⟩
  obtain ⟨us, tx, heq, hsent⟩ := hstep
  refine ⟨?_, hkeeps, ?_, ?_⟩
  · change (udPackMsg .full msg s.us).st.Labelled
    rw [heq]
    exact fun _ => hsvc
  · change Call.packed (.udPackMsg .full msg)
      (.code (udPackMsg .full msg s.us).val) = some msg
    rw [heq]
    rfl
  · change ∀ t ∈ (udPackMsg .full msg s.us).tx, t.Packet
    rw [heq]
    exact hsent

theorem call_publishes {s : Lib} (hs : s.Sane) (hl : s.us.Labelled) {c : Call}
    (hc : c.Publishes) : PublishStep s c := by
  cases c with
  | udPackMsg w msg =>
      obtain ⟨rfl, hsvc, -⟩ := hc
      exact udPackMsg_publishes hs hl hsvc
  | udFlush w =>
      cases hc
      exact udFlush_publishes hs
  | _ => exact hc.elim

structure PublishRun (trace : Trace) (s : Lib) : Prop where
  sane : s.Sane
  labelled : s.us.Labelled
  keeps : ∀ e ∈ trace, e.input.KeepsService e.pre
  packed : trace.packed = (trace.map Event.input).filterMap Call.message
  sent : ∀ t ∈ trace.sent, t.Packet

theorem run_publishes {calls : List Call} (h : ∀ c ∈ calls, c.Publishes) :
    PublishRun (api.events Lib.fresh calls) (api.run Lib.fresh calls) := by
  refine System.history (S := api) (G := fun _ c => c.Publishes)
    (H := PublishRun) ?_
    ⟨Lib.fresh_sane, fun hpos => absurd hpos (Nat.lt_irrefl 0), by simp, rfl,
      by simp [Trace.sent]⟩ calls
    (fun e he => h _ (System.input_mem_of_mem api he))
  rintro trace s c hrun hc
  have hstep := call_publishes hrun.sane hrun.labelled hc
  refine ⟨call_sane s c hrun.sane, hstep.labelled, ?_, ?_, ?_⟩
  · intro e he
    rcases List.mem_append.mp he with hold | hnew
    · exact hrun.keeps e hold
    · rw [List.mem_singleton.mp hnew]
      exact hstep.keeps
  · rw [Trace.packed_append, List.map_append, List.filterMap_append,
      hrun.packed]
    congr 1
    simp only [Trace.packed, List.map_cons, List.map_nil,
      List.filterMap_cons, List.filterMap_nil, System.event, hstep.packed]
  · intro t ht
    rw [Trace.sent_append] at ht
    rcases List.mem_append.mp ht with hold | hnew
    · exact hrun.sent t hold
    · exact hstep.sent t (by simpa [Trace.sent, System.event] using hnew)

theorem dataSent_eq_map {txs : List Tx} (h : ∀ t ∈ txs, t.Packet) :
    dataSent txs = txs.map Tx.dgram := by
  induction txs with
  | nil => rfl
  | cons t txs ih =>
      obtain ⟨dgram, rfl, -⟩ := h t List.mem_cons_self
      have htail := ih fun t' ht' => h t' (List.mem_cons_of_mem _ ht')
      rw [List.map_cons, ← htail]
      rfl

structure Published (dgram : Bytes) (msgs : List UdMsg) : Prop where
  carries : Carries dgram msgs
  svc : ∀ msg ∈ msgs, msg.svc = hdrCmd dgram
  dlen : ∀ msg ∈ msgs, msg.dlen ≤ 255
  length : dgram.length ≤ ethMtu

def emitted (calls : List Call) : List Bytes :=
  (Trace.sent (api.events Lib.fresh (calls ++ [.udFlush .full]))).map Tx.dgram

theorem emitted_batches {calls : List Call} (h : ∀ c ∈ calls, c.Publishes) :
    ∃ batches : List (List UdMsg),
      batches.flatten = calls.filterMap Call.message ∧
      List.Forall₂ Published (emitted calls) batches := by
  have hall : ∀ c ∈ calls ++ [.udFlush .full], c.Publishes := by
    intro c hc
    rcases List.mem_append.mp hc with hold | hnew
    · exact h c hold
    · rw [List.mem_singleton.mp hnew]
      rfl
  have hrun := run_publishes hall
  obtain ⟨o, hheld, hpath⟩ := run_sends False (fun c hc => (hall c hc).atomic)
    (fun _ => hrun.keeps)
  obtain ⟨batches, hflat, hcarry⟩ := hpath.batches (by simp [SendBox.fresh])
  have hnone : o.pending = [] := by
    refine (hheld.pending_eq_nil_iff hrun.sane.send).mpr ?_
    rw [System.run_append]
    exact udFlush_full_npk _
  have hpacked : batches.flatten = calls.filterMap Call.message := by
    rw [hnone, List.append_nil, hrun.packed, System.events_input,
      List.filterMap_append] at hflat
    exact hflat.trans (List.append_nil _)
  rw [dataSent_eq_map hrun.sent] at hcarry
  refine ⟨batches, hpacked, List.forall₂_iff_zip.mpr
    ⟨hcarry.length_eq, fun {dgram msgs} hmem => ?_⟩⟩
  obtain ⟨hcarries, hkeyed⟩ := (List.forall₂_iff_zip.mp hcarry).2 hmem
  obtain ⟨hdgram, hmsgs⟩ := List.of_mem_zip hmem
  refine ⟨hcarries, hkeyed not_false, ?_, ?_⟩
  · intro msg hmsg
    have hmessage : msg ∈ calls.filterMap Call.message :=
      hpacked ▸ List.mem_flatten.mpr ⟨msgs, hmsgs, hmsg⟩
    obtain ⟨c, hc, heq⟩ := List.mem_filterMap.mp hmessage
    have hpub := h c hc
    cases c with
    | udPackMsg w msg' =>
        cases heq
        exact hpub.2.2
    | _ => contradiction
  · obtain ⟨t, ht, rfl⟩ := List.mem_map.mp hdgram
    obtain ⟨dgram, rfl, hlen⟩ := hrun.sent t ht
    exact hlen

end Unserding
