import Mathlib.Data.Finset.Card
import Mathlib.Data.List.NodupEquivFin
import Mathlib.Tactic

/-!
# Streams

Connections are made one after the other.  Each waits until it is accepted, and
what is written to it is read from its start, in pieces that the reader does not
choose.  A reader that gives a connection up after its first piece sees the
heads of streams only, and no two of one stream.
-/

namespace Foundation

variable {κ β : Type*}

/-- Connections go by number.  `made` says who made each. -/
structure Streams (κ β : Type*) where
  made : List κ
  backlog : Finset Nat
  written : Nat → List β
  read : Nat → Nat

namespace Streams

def empty : Streams κ β := ⟨[], ∅, fun _ => [], fun _ => 0⟩

def connect (S : Streams κ β) (k : κ) : Streams κ β :=
  { S with
    made := S.made ++ [k]
    backlog := insert S.made.length S.backlog }

def write (S : Streams κ β) (n : Nat) (bytes : List β) : Streams κ β :=
  { S with written := Function.update S.written n (S.written n ++ bytes) }

def accept (S : Streams κ β) (n : Nat) : Streams κ β :=
  { S with backlog := S.backlog.erase n }

/-- Listed is what was read, at most `size` of it. -/
def recv (S : Streams κ β) (n size : Nat) : Streams κ β × List β :=
  let piece := ((S.written n).drop (S.read n)).take size
  ({ S with read := Function.update S.read n (S.read n + piece.length) }, piece)

theorem written_grows (S : Streams κ β) (n m : Nat) (bytes : List β) :
    S.written m <+: (S.write n bytes).written m := by
  by_cases hm : m = n
  · subst hm
    simp [write]
  · simp [write, hm]

theorem head_of_recv {S : Streams κ β} {n : Nat} (h : S.read n = 0) (size : Nat) :
    (S.recv n size).2 <+: S.written n := by
  simp only [recv, h, List.drop_zero]
  exact List.take_prefix size _

/--
The pieces are heads of different streams.  Nothing has been read of those that
wait or are held, and none of the pieces is of such a stream.
-/
structure Heads (S : Streams κ β) (held : Finset Nat) (pieces : List (List β)) :
    Prop where
  disjoint : Disjoint S.backlog held
  whole : ∀ n ∈ S.backlog ∪ held, n < S.made.length ∧ S.read n = 0
  unmade : ∀ n, S.made.length ≤ n → S.read n = 0
  heads : ∃ ns : List Nat, ns.Nodup ∧
    (∀ n ∈ ns, n < S.made.length ∧ n ∉ S.backlog ∪ held) ∧
    List.Forall₂ (fun piece n => piece <+: S.written n) pieces ns

theorem heads_empty : (empty : Streams κ β).Heads ∅ [] where
  disjoint := Finset.disjoint_empty_left ∅
  whole n hn := by simp [empty] at hn
  unmade _ _ := rfl
  heads := ⟨[], List.nodup_nil, by simp, .nil⟩

section Heads

variable {S : Streams κ β} {held : Finset Nat} {pieces : List (List β)}
  (h : S.Heads held pieces)

include h

theorem Heads.connect (k : κ) : (S.connect k).Heads held pieces := by
  have hnew : S.made.length ∉ S.backlog ∪ held :=
    fun hn => absurd (h.whole _ hn).1 (Nat.lt_irrefl _)
  obtain ⟨ns, hnodup, hns, hpieces⟩ := h.heads
  refine ⟨?_, fun n hn => ?_, fun n hn => ?_, ns, hnodup, fun n hn => ?_, hpieces⟩
  · rw [Streams.connect, Finset.disjoint_insert_left]
    exact ⟨fun hn => hnew (Finset.mem_union_right _ hn), h.disjoint⟩
  · simp only [Streams.connect, Finset.insert_union, Finset.mem_insert,
      List.length_append, List.length_singleton] at hn ⊢
    rcases hn with rfl | hold
    · exact ⟨Nat.lt_succ_self _, h.unmade _ le_rfl⟩
    · exact (h.whole n hold).imp_left Nat.lt_succ_of_lt
  · simp only [Streams.connect, List.length_append] at hn
    exact h.unmade n (Nat.le_of_add_right_le hn)
  · obtain ⟨hlt, hnot⟩ := hns n hn
    simp only [Streams.connect, Finset.insert_union, Finset.mem_insert,
      List.length_append, List.length_singleton, not_or]
    exact ⟨Nat.lt_succ_of_lt hlt, Nat.ne_of_lt hlt, hnot⟩

theorem Heads.write (n : Nat) (bytes : List β) :
    (S.write n bytes).Heads held pieces := by
  obtain ⟨ns, hnodup, hns, hpieces⟩ := h.heads
  refine ⟨h.disjoint, h.whole, h.unmade, ns, hnodup, hns, ?_⟩
  exact hpieces.imp fun piece m hpiece =>
    hpiece.trans (S.written_grows n m bytes)

theorem Heads.accept {n : Nat} (hn : n ∈ S.backlog) :
    (S.accept n).Heads (insert n held) pieces := by
  have hsame : S.backlog.erase n ∪ insert n held = S.backlog ∪ held := by
    rw [Finset.union_insert, ← Finset.insert_union, Finset.insert_erase hn]
  obtain ⟨ns, hnodup, hns, hpieces⟩ := h.heads
  refine ⟨?_, ?_, h.unmade, ns, hnodup, ?_, hpieces⟩
  · rw [Streams.accept, Finset.disjoint_insert_right]
    exact ⟨Finset.notMem_erase n _,
      Finset.disjoint_of_subset_left (Finset.erase_subset n _) h.disjoint⟩
  · simpa only [Streams.accept, hsame] using h.whole
  · simpa only [Streams.accept, hsame] using hns

theorem Heads.mono {held' : Finset Nat} (hsub : held' ⊆ held) :
    S.Heads held' pieces := by
  have hunion := Finset.union_subset_union_right (s := S.backlog) hsub
  obtain ⟨ns, hnodup, hns, hpieces⟩ := h.heads
  refine ⟨Finset.disjoint_of_subset_right hsub h.disjoint,
    fun n hn => h.whole n (hunion hn), h.unmade, ns, hnodup, fun n hn => ?_,
    hpieces⟩
  exact (hns n hn).imp_right fun hnot hmem => hnot (hunion hmem)

theorem Heads.recv {n : Nat} (hn : n ∈ held) (size : Nat)
    {pieces' : List (List β)}
    (hpieces' : pieces' = [] ∨ pieces' = [(S.recv n size).2]) :
    (S.recv n size).1.Heads (held.erase n) (pieces ++ pieces') := by
  obtain ⟨ns, hnodup, hns, hpieces⟩ := h.heads
  have hmem : n ∈ S.backlog ∪ held := Finset.mem_union_right _ hn
  obtain ⟨hlt, hread⟩ := h.whole n hmem
  have hother : ∀ m ∈ S.backlog ∪ held.erase n, m ≠ n ∧ m ∈ S.backlog ∪ held := by
    intro m hm
    rcases Finset.mem_union.mp hm with hwait | hheld
    · refine ⟨?_, Finset.mem_union_left _ hwait⟩
      rintro rfl
      exact Finset.disjoint_left.mp h.disjoint hwait hn
    · exact (Finset.mem_erase.mp hheld).imp_right (Finset.mem_union_right _)
  have hgone : n ∉ S.backlog ∪ held.erase n := fun hback => (hother n hback).1 rfl
  refine ⟨Finset.disjoint_of_subset_right (Finset.erase_subset n _) h.disjoint,
    fun m hm => ?_, fun m hm => ?_, ?_⟩
  · obtain ⟨hne, hold⟩ := hother m hm
    obtain ⟨hmade, hnone⟩ := h.whole m hold
    exact ⟨hmade, (Function.update_of_ne hne ..).trans hnone⟩
  · exact (Function.update_of_ne (hlt.trans_le hm).ne' ..).trans (h.unmade m hm)
  · have hold : ∀ m ∈ ns, m < S.made.length ∧ m ∉ S.backlog ∪ held.erase n :=
      fun m hm => (hns m hm).imp_right fun hnot hback => hnot (hother m hback).2
    rcases hpieces' with rfl | rfl
    · rw [List.append_nil]
      exact ⟨ns, hnodup, hold, hpieces⟩
    · have hnew : n ∉ ns := fun hin => (hns n hin).2 hmem
      refine ⟨ns ++ [n], ?_, fun m hm => ?_, ?_⟩
      · exact List.nodup_append'.mpr
          ⟨hnodup, List.nodup_singleton n, List.disjoint_singleton.mpr hnew⟩
      · rcases List.mem_append.mp hm with hm | hm
        · exact hold m hm
        · rw [List.mem_singleton.mp hm]
          exact ⟨hlt, hgone⟩
      · exact List.rel_append hpieces (.cons (head_of_recv hread size) .nil)

theorem Heads.length_le : pieces.length ≤ S.made.length := by
  obtain ⟨ns, hnodup, hns, hpieces⟩ := h.heads
  have hsub : ns ⊆ List.range S.made.length :=
    fun n hn => List.mem_range.mpr (hns n hn).1
  have hle := (List.subperm_of_subset hnodup hsub).length_le
  rwa [List.length_range, ← hpieces.length_eq] at hle

end Heads

end Streams

end Foundation
