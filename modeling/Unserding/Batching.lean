import Unserding.Publishing
import Unserding.Foundation.Batching
import Mathlib.Order.Bounds.Basic

/-!
# As few datagrams as possible

`ud_pack_msg` sends the pending packet only when the next message does not fit
it or is of another service.  This is a greedy batcher: an additional
`ud_flush` never saves a datagram, and no other way to distribute the messages
over datagrams needs fewer of them.
-/

namespace Unserding

open Foundation

def lastSvc (batch : List UdMsg) : UInt16 := batch.getLast?.elim 0 UdMsg.svc

def joins (batch : List UdMsg) (msg : UdMsg) : Prop :=
  (wires batch).length + 2 + msg.z.toNat ≤ ethMtu - hdrSize ∧
    (lastSvc batch = 0 ∨ msg.svc = lastSvc batch)

instance (batch : List UdMsg) (msg : UdMsg) : Decidable (joins batch msg) := by
  unfold joins
  infer_instance

theorem lastSvc_suffix {batch batch' : List UdMsg} (h : batch <:+ batch')
    (hne : batch ≠ []) : lastSvc batch' = lastSvc batch := by
  obtain ⟨front, rfl⟩ := h
  simp [lastSvc, List.getLast?_append, List.getLast?_eq_some_getLast hne]

theorem joins_ends : Batcher.EndsJoin joins := by
  rintro batch batch' msg ⟨front, rfl⟩ hne ⟨hfits, hsvc⟩
  rw [lastSvc_suffix ⟨front, rfl⟩ hne] at hsvc
  rw [wires_append, List.length_append] at hfits
  exact ⟨by omega, hsvc⟩

/-! ## The packer as a batcher -/

def Load.call : Load UdMsg → Call
  | .add msg => .udPackMsg .full msg
  | .flush => .udFlush .full

structure Loaded (us : Sock) (batch : List UdMsg) : Prop where
  sane : us.SendSane
  npk : us.npk = (wires batch).length
  svc : batch ≠ [] → us.svc = lastSvc batch

theorem Loaded.npk_eq_zero_iff {us : Sock} {batch : List UdMsg}
    (h : Loaded us batch) : us.npk = 0 ↔ batch = [] := by
  rw [h.npk, List.length_eq_zero_iff, wires_eq_nil_iff]

theorem Loaded.put {us : Sock} {batch : List UdMsg} (h : Loaded us batch)
    {msg : UdMsg} (hfits : msgFits us msg.z.toNat = true) :
    Loaded (putMsg msg us) (batch ++ [msg]) where
  sane := putMsg_sendSane h.sane hfits
  npk := by
    rw [wires_append, List.length_append, ← h.npk]
    simp [wires, putMsg, msg.length_wire]
    omega
  svc _ := by simp [putMsg, lastSvc]

theorem Loaded.joins_iff {us : Sock} {batch : List UdMsg} (h : Loaded us batch)
    (hne : batch ≠ []) (msg : UdMsg) :
    joins batch msg ↔
      msgFits us msg.z.toNat = true ∧ svcSame us msg.svc = true := by
  simp [joins, msgFits, svcSame, h.npk, h.svc hne]

theorem Loaded.cleared {us : Sock} (h : us.SendSane) (hnpk : us.npk = 0) :
    Loaded us.cleared [] :=
  ⟨h.cleared, hnpk, fun hne => absurd rfl hne⟩

theorem Loaded.shipped {us : Sock} (h : us.SendSane) : Loaded us.shipped [] :=
  ⟨h.shipped, rfl, fun hne => absurd rfl hne⟩

theorem udPackMsg_batches {us : Sock} {b : Batcher UdMsg}
    (h : Loaded us b.pending) (msg : UdMsg) :
    Loaded (udPackMsg .full msg us).st (b.add joins msg).pending ∧
      (b.add joins msg).shipped =
        b.shipped + (udPackMsg .full msg us).tx.length := by
  rcases udPackMsg_cases .full msg us with ⟨hfits, hsame, heq⟩ |
    ⟨hflush, ⟨hnpk, heq⟩ | ⟨-, hsend, -⟩ | ⟨hnpk, dgram, -, heq⟩⟩
  · have hadd : b.pending = [] ∨ joins b.pending msg := by
      by_cases hempty : b.pending = []
      · exact .inl hempty
      · exact .inr ((h.joins_iff hempty msg).mpr ⟨hfits, hsame⟩)
    rw [heq, Batcher.add, if_pos hadd]
    exact ⟨h.put hfits, rfl⟩
  · have hempty := h.npk_eq_zero_iff.mp hnpk
    rw [heq, Batcher.add, if_pos (.inl hempty), hempty]
    exact ⟨(Loaded.cleared h.sane hnpk).put (msgFits_of_npk_eq_zero hnpk _), rfl⟩
  · contradiction
  · have hne : b.pending ≠ [] := fun hempty => by
      have := h.npk_eq_zero_iff.mpr hempty
      omega
    have hrefused : ¬ (b.pending = [] ∨ joins b.pending msg) :=
      not_or.mpr ⟨hne, fun hjoin => hflush ((h.joins_iff hne msg).mp hjoin)⟩
    rw [heq, Batcher.add, if_neg hrefused]
    exact ⟨(Loaded.shipped h.sane).put (msgFits_of_npk_eq_zero rfl _), rfl⟩

theorem udFlush_batches {us : Sock} {b : Batcher UdMsg}
    (h : Loaded us b.pending) :
    Loaded (udFlush .full us).st b.flush.pending ∧
      b.flush.shipped = b.shipped + (udFlush .full us).tx.length := by
  rcases udFlush_cases .full us with
    ⟨hnpk, heq⟩ | ⟨-, hsend, -⟩ | ⟨hnpk, dgram, -, heq⟩
  · have hempty := h.npk_eq_zero_iff.mp hnpk
    rw [heq, Batcher.flush, if_pos hempty, hempty]
    exact ⟨.cleared h.sane hnpk, rfl⟩
  · contradiction
  · have hne : b.pending ≠ [] := fun hempty => by
      have := h.npk_eq_zero_iff.mpr hempty
      omega
    rw [heq, Batcher.flush, if_neg hne]
    exact ⟨.shipped h.sane, rfl⟩

theorem run_batches (loads : List (Load UdMsg)) {s : Lib} {b : Batcher UdMsg}
    (h : Loaded s.us b.pending) :
    Loaded (api.run s (loads.map Load.call)).us (b.run joins loads).pending ∧
      (b.run joins loads).shipped = b.shipped +
        (Trace.sent (api.events s (loads.map Load.call))).length := by
  induction loads generalizing s b with
  | nil => exact ⟨h, rfl⟩
  | cons load loads ih =>
      have hstep :
          Loaded (api.step s (Load.call load)).1.us (b.step joins load).pending ∧
          (b.step joins load).shipped =
            b.shipped + (api.step s (Load.call load)).2.tx.length := by
        cases load with
        | add msg => exact udPackMsg_batches h msg
        | flush => exact udFlush_batches h
      obtain ⟨hrun, hshipped⟩ := ih hstep.1
      refine ⟨hrun, hshipped.trans ?_⟩
      rw [hstep.2]
      simp [Trace.sent, System.event]
      omega

theorem length_emitted (loads : List (Load UdMsg)) :
    (emitted (loads.map Load.call)).length =
      (Batcher.empty.run joins (loads ++ [.flush])).shipped := by
  have hfresh : Loaded Lib.fresh.us (@Batcher.empty UdMsg).pending :=
    ⟨Sock.fresh_sendSane, rfl, fun hne => absurd rfl hne⟩
  have hrun := (run_batches (loads ++ [.flush]) hfresh).2
  rw [hrun, emitted, List.length_map, List.map_append]
  exact (Nat.zero_add _).symm

/-! ## Flushing less, and the least number of datagrams -/

/-- Leaving out calls of `ud_flush` never makes for more datagrams. -/
theorem flush_less {loads loads' : List (Load UdMsg)}
    (h : Batcher.Lazier loads loads') :
    (emitted (loads.map Load.call)).length ≤
      (emitted (loads'.map Load.call)).length := by
  rw [length_emitted, length_emitted]
  exact Batcher.shipped_le joins_ends h _

theorem flush_less_witness :
    (emitted ([.add ⟨7, [1], by decide⟩, .add ⟨7, [2], by decide⟩].map
        Load.call)).length ≤
      (emitted ([.add ⟨7, [1], by decide⟩, .flush, .add ⟨7, [2], by decide⟩].map
        Load.call)).length :=
  flush_less (.both _ (.skip (.both _ .nil)))

structure Packable (batch : List UdMsg) : Prop where
  ne_nil : batch ≠ []
  fits : (wires batch).length ≤ ethMtu - hdrSize
  svc : ∃ svc, ∀ msg ∈ batch, msg.svc = svc

theorem Packable.whole {batch : List UdMsg} (h : Packable batch) :
    Batcher.Whole joins batch := by
  rintro front msg back rfl hne
  obtain ⟨svc, hsvc⟩ := h.svc
  have hfits := h.fits
  have hlast : lastSvc front = svc := by
    simp [lastSvc, List.getLast?_eq_some_getLast hne,
      hsvc _ (List.mem_append_left _ (List.getLast_mem hne))]
  simp only [wires, List.flatMap_append, List.flatMap_cons, List.length_append,
    msg.length_wire] at hfits
  refine ⟨?_, .inr ?_⟩
  · rw [wires]
    omega
  · rw [hlast]
    exact hsvc msg (by simp)

/--
The messages of a publisher that only flushes at the end leave in as many
datagrams as they need at least, among all ways to cut them into batches that
fit a datagram and share a service.
-/
theorem fewest_datagrams {msgs : List UdMsg}
    (h : ∀ msg ∈ msgs, msg.svc ≠ 0 ∧ msg.dlen ≤ 255) :
    IsLeast {n | ∃ batches : List (List UdMsg), batches.flatten = msgs ∧
        (∀ batch ∈ batches, Packable batch) ∧ batches.length = n}
      (emitted (msgs.map (.udPackMsg .full))).length := by
  have hloads : msgs.map (.udPackMsg .full) = (msgs.map Load.add).map Load.call := by
    rw [List.map_map]
    rfl
  constructor
  · have hcalls : ∀ c ∈ msgs.map (Call.udPackMsg .full), c.Publishes := by
      intro c hc
      obtain ⟨msg, hmsg, rfl⟩ := List.mem_map.mp hc
      exact ⟨rfl, h msg hmsg⟩
    obtain ⟨batches, hflat, hpub⟩ := emitted_batches hcalls
    refine ⟨batches, ?_, ?_, hpub.length_eq.symm⟩
    · rw [hflat, List.filterMap_map]
      exact List.filterMap_some
    · intro batch hbatch
      have hflip : List.Forall₂ (flip Published) batches
          (emitted (msgs.map (Call.udPackMsg .full))) := hpub.flip
      obtain ⟨dgram, -, hdgram⟩ := exists_of_forall₂ hflip hbatch
      refine ⟨hdgram.carries.1, ?_, _, hdgram.svc⟩
      have hlen := hdgram.length
      have hpayload := hdgram.carries.payload
      change (wires batch).length ≤ _
      rw [← hpayload, payload, List.length_drop]
      omega
  · rintro n ⟨batches, rfl, hbatches, rfl⟩
    rw [hloads, length_emitted]
    exact Batcher.shipped_le_cut joins_ends
      fun batch hbatch =>
        ⟨(hbatches batch hbatch).ne_nil, (hbatches batch hbatch).whole⟩

theorem fewest_datagrams_witness :
    IsLeast {n | ∃ batches : List (List UdMsg),
        batches.flatten = [⟨7, [1], by decide⟩, ⟨8, [2], by decide⟩] ∧
        (∀ batch ∈ batches, Packable batch) ∧ batches.length = n}
      (emitted ([⟨7, [1], by decide⟩, ⟨8, [2], by decide⟩].map
        (.udPackMsg .full))).length :=
  fewest_datagrams (by simp [UdMsg.dlen])

end Unserding
