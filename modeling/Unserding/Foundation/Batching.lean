import Mathlib.Data.List.Infix
import Mathlib.Tactic

/-!
# Greedy batches

A batcher adds messages to a pending batch as long as they may join it, and
ships the batch when one may not or when it is told to flush.  If a message that
may join a batch may also join every shorter end of it, flushing less never
ships more batches, and no other way to cut the messages into batches needs
fewer.
-/

namespace Foundation

variable {μ : Type*}

structure Batcher (μ : Type*) where
  shipped : Nat
  pending : List μ

inductive Load (μ : Type*) where
  | add (msg : μ)
  | flush

namespace Batcher

def empty : Batcher μ := ⟨0, []⟩

variable (joins : List μ → μ → Prop) [∀ batch msg, Decidable (joins batch msg)]

def flush (b : Batcher μ) : Batcher μ :=
  if b.pending = [] then b else ⟨b.shipped + 1, []⟩

def add (b : Batcher μ) (msg : μ) : Batcher μ :=
  if b.pending = [] ∨ joins b.pending msg then
    ⟨b.shipped, b.pending ++ [msg]⟩
  else ⟨b.shipped + 1, [msg]⟩

def step (b : Batcher μ) : Load μ → Batcher μ
  | .add msg => b.add joins msg
  | .flush => b.flush

def run (b : Batcher μ) (loads : List (Load μ)) : Batcher μ :=
  loads.foldl (step joins) b

@[simp] theorem run_nil (b : Batcher μ) : b.run joins [] = b := rfl

@[simp] theorem run_cons (b : Batcher μ) (load : Load μ) (loads : List (Load μ)) :
    b.run joins (load :: loads) = (b.step joins load).run joins loads := rfl

@[simp] theorem run_append (b : Batcher μ) (first second : List (Load μ)) :
    b.run joins (first ++ second) = (b.run joins first).run joins second :=
  List.foldl_append

/-! ## Flushing less -/

/-- The first list is the second without some of its flushes. -/
inductive Lazier : List (Load μ) → List (Load μ) → Prop where
  | nil : Lazier [] []
  | both (load : Load μ) {loads loads' : List (Load μ)} (h : Lazier loads loads') :
      Lazier (load :: loads) (load :: loads')
  | skip {loads loads' : List (Load μ)} (h : Lazier loads loads') :
      Lazier loads (.flush :: loads')

theorem Lazier.refl (loads : List (Load μ)) : Lazier loads loads := by
  induction loads with
  | nil => exact .nil
  | cons load loads ih => exact .both load ih

theorem Lazier.append {first first' second second' : List (Load μ)}
    (h : Lazier first first') (h' : Lazier second second') :
    Lazier (first ++ second) (first' ++ second') := by
  induction h with
  | nil => exact h'
  | both load _ ih => exact .both load ih
  | skip _ ih => exact .skip ih

def Behind (b b' : Batcher μ) : Prop :=
  b.shipped < b'.shipped ∨ b.shipped = b'.shipped ∧ b.pending <:+ b'.pending

theorem Behind.flush {b b' : Batcher μ} (h : Behind b b') :
    Behind b.flush b'.flush := by
  unfold Batcher.flush
  rcases h with hless | ⟨hsame, hend⟩
  · split <;> split <;> simp_all [Behind] <;> omega
  · split <;> split <;> simp_all [Behind]

theorem Behind.skip {b b' : Batcher μ} (h : Behind b b') : Behind b b'.flush := by
  unfold Batcher.flush
  split
  · exact h
  · rcases h with hless | ⟨hsame, -⟩
    · exact .inl (Nat.lt_succ_of_lt hless)
    · exact .inl (Nat.lt_succ_of_le hsame.le)

def EndsJoin : Prop :=
  ∀ batch batch' msg, batch <:+ batch' → batch ≠ [] → joins batch' msg →
    joins batch msg

section Joins

variable {joins} (hjoins : EndsJoin joins)

include hjoins

theorem Behind.add {b b' : Batcher μ} (h : Behind b b') (msg : μ) :
    Behind (b.add joins msg) (b'.add joins msg) := by
  have hlast : ∀ batch : List μ, [msg] <:+ batch ++ [msg] := fun batch =>
    List.suffix_append _ _
  unfold Batcher.add
  rcases h with hless | ⟨hsame, hend⟩
  · split <;> split
    · exact .inl hless
    · exact .inl (Nat.lt_succ_of_lt hless)
    · rcases Nat.eq_or_lt_of_le hless with heq | hlt
      · exact .inr ⟨heq, hlast _⟩
      · exact .inl hlt
    · exact .inl (Nat.succ_lt_succ hless)
  · split <;> split
    · obtain ⟨front, hfront⟩ := hend
      exact .inr ⟨hsame, front, by simp [← hfront]⟩
    · exact .inl (Nat.lt_succ_of_le hsame.le)
    · rename_i hships hadds
      -- a message that joins the longer batch joins its end
      obtain ⟨hne, hrefused⟩ := not_or.mp hships
      rcases hadds with hempty | hjoin
      · exact absurd (List.suffix_nil.mp (hempty ▸ hend)) hne
      · exact absurd (hjoins _ _ _ hend hne hjoin) hrefused
    · exact .inr ⟨congrArg Nat.succ hsame, List.suffix_rfl⟩

theorem behind_run {loads loads' : List (Load μ)} (h : Lazier loads loads')
    {b b' : Batcher μ} (hb : Behind b b') :
    Behind (b.run joins loads) (b'.run joins loads') := by
  induction h generalizing b b' with
  | nil => exact hb
  | both load _ ih =>
      cases load with
      | add msg => exact ih (hb.add hjoins msg)
      | flush => exact ih hb.flush
  | skip _ ih => exact ih hb.skip

theorem shipped_le {loads loads' : List (Load μ)} (h : Lazier loads loads')
    (b : Batcher μ) :
    (b.run joins (loads ++ [.flush])).shipped ≤
      (b.run joins (loads' ++ [.flush])).shipped := by
  have hlazier := h.append (Lazier.refl [.flush])
  rcases behind_run hjoins hlazier (b := b) (.inr ⟨rfl, List.suffix_rfl⟩) with
    hless | ⟨hsame, -⟩
  · exact hless.le
  · exact hsame.le

end Joins

/-! ## Cutting the messages into batches -/

def Whole (batch : List μ) : Prop :=
  ∀ front msg back, batch = front ++ msg :: back → front ≠ [] → joins front msg

variable {joins}

theorem run_whole {batch : List μ} (h : Whole joins batch) (hne : batch ≠ [])
    (n : Nat) :
    run joins ⟨n, []⟩ (batch.map .add ++ [.flush]) = ⟨n + 1, []⟩ := by
  have hadds : ∀ back front, batch = front ++ back →
      run joins ⟨n, front⟩ (back.map .add) = ⟨n, batch⟩ := by
    intro back
    induction back with
    | nil =>
        intro front hfront
        simp [hfront]
    | cons msg back ih =>
        intro front hfront
        have hjoin : front = [] ∨ joins front msg := by
          by_cases hempty : front = []
          · exact .inl hempty
          · exact .inr (h front msg back hfront hempty)
        have hadd : add joins ⟨n, front⟩ msg = ⟨n, front ++ [msg]⟩ := by
          rw [add, if_pos hjoin]
        rw [List.map_cons, run_cons, step, hadd]
        exact ih (front ++ [msg]) (by simp [hfront])
  rw [run_append, hadds batch [] rfl]
  simp [step, flush, hne]

def cut (batches : List (List μ)) : List (Load μ) :=
  batches.flatMap fun batch => batch.map .add ++ [.flush]

theorem run_cut {batches : List (List μ)}
    (h : ∀ batch ∈ batches, batch ≠ [] ∧ Whole joins batch) (n : Nat) :
    run joins ⟨n, []⟩ (cut batches) = ⟨n + batches.length, []⟩ := by
  induction batches generalizing n with
  | nil => rfl
  | cons batch batches ih =>
      obtain ⟨⟨hne, hwhole⟩, hrest⟩ := List.forall_mem_cons.mp h
      rw [cut, List.flatMap_cons, run_append, run_whole hwhole hne]
      refine (ih hrest (n + 1)).trans ?_
      rw [List.length_cons]
      congr 1
      omega

theorem lazier_cut (batches : List (List μ)) :
    Lazier (batches.flatten.map .add) (cut batches) := by
  induction batches with
  | nil => exact .nil
  | cons batch batches ih =>
      rw [cut, List.flatMap_cons, List.flatten_cons, List.map_append,
        List.append_assoc]
      exact (Lazier.refl _).append (.skip ih)

theorem shipped_le_cut (hjoins : EndsJoin joins) {batches : List (List μ)}
    (h : ∀ batch ∈ batches, batch ≠ [] ∧ Whole joins batch) :
    (run joins empty (batches.flatten.map .add ++ [.flush])).shipped ≤
      batches.length := by
  have hle := shipped_le hjoins (lazier_cut batches) empty
  rw [run_append _ _ (cut batches), empty, run_cut h] at hle
  simpa [step, flush, empty] using hle

end Batcher

end Foundation
