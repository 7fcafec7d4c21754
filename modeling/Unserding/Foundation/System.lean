import Mathlib.Algebra.BigOperators.Group.List.Basic
import Mathlib.Tactic

/-!
# Runs of input-driven machines

A `System` answers every input with an output and a next state.  A run is
recorded as the list of its events, each with the states around it, so that a
property of a run can speak of what was fed in, what came out and what state
it was met in.  The rules below reduce a property of whole runs to one step.
-/

namespace Foundation

variable {σ ι ο : Type*}

structure System (σ ι ο : Type*) where
  step : σ → ι → σ × ο

structure Event (σ ι ο : Type*) where
  pre : σ
  input : ι
  output : ο
  post : σ

namespace System

variable (S : System σ ι ο)

def event (s : σ) (i : ι) : Event σ ι ο :=
  ⟨s, i, (S.step s i).2, (S.step s i).1⟩

def run : σ → List ι → σ
  | s, [] => s
  | s, i :: is => run (S.step s i).1 is

def events : σ → List ι → List (Event σ ι ο)
  | _, [] => []
  | s, i :: is => S.event s i :: events (S.step s i).1 is

def outputs (s : σ) (is : List ι) : List ο := (S.events s is).map Event.output

@[simp] theorem run_nil (s : σ) : S.run s [] = s := rfl

@[simp] theorem run_cons (s : σ) (i : ι) (is : List ι) :
    S.run s (i :: is) = S.run (S.step s i).1 is := rfl

@[simp] theorem events_nil (s : σ) : S.events s [] = [] := rfl

@[simp] theorem events_cons (s : σ) (i : ι) (is : List ι) :
    S.events s (i :: is) = S.event s i :: S.events (S.step s i).1 is := rfl

theorem run_append (s : σ) (is js : List ι) :
    S.run s (is ++ js) = S.run (S.run s is) js := by
  induction is generalizing s with
  | nil => rfl
  | cons i is ih => exact ih _

theorem events_append (s : σ) (is js : List ι) :
    S.events s (is ++ js) = S.events s is ++ S.events (S.run s is) js := by
  induction is generalizing s with
  | nil => rfl
  | cons i is ih => simp only [List.cons_append, events_cons, run_cons, ih]

@[simp] theorem outputs_nil (s : σ) : S.outputs s [] = [] := rfl

@[simp] theorem outputs_cons (s : σ) (i : ι) (is : List ι) :
    S.outputs s (i :: is) = (S.step s i).2 :: S.outputs (S.step s i).1 is := rfl

theorem outputs_append (s : σ) (is js : List ι) :
    S.outputs s (is ++ js) = S.outputs s is ++ S.outputs (S.run s is) js := by
  rw [outputs, events_append, List.map_append, outputs, outputs]

theorem events_input (s : σ) (is : List ι) :
    (S.events s is).map Event.input = is := by
  induction is generalizing s with
  | nil => rfl
  | cons i is ih => rw [events_cons, List.map_cons, ih, event]

theorem eq_event_of_mem {s : σ} {is : List ι} {e : Event σ ι ο}
    (he : e ∈ S.events s is) : e = S.event e.pre e.input := by
  induction is generalizing s with
  | nil => simp at he
  | cons i is ih =>
      rcases List.mem_cons.mp he with rfl | hrest
      · rfl
      · exact ih hrest

theorem input_mem_of_mem {s : σ} {is : List ι} {e : Event σ ι ο}
    (he : e ∈ S.events s is) : e.input ∈ is := by
  induction is generalizing s with
  | nil => simp at he
  | cons i is ih =>
      rcases List.mem_cons.mp he with rfl | hrest
      · exact List.mem_cons_self
      · exact List.mem_cons_of_mem _ (ih hrest)

section Rules

variable {S}

theorem history_from {H : List (Event σ ι ο) → σ → Prop} {G : σ → ι → Prop}
    (hstep : ∀ es s i, H es s → G s i →
      H (es ++ [S.event s i]) (S.step s i).1)
    {es : List (Event σ ι ο)} {s : σ} (h : H es s) (is : List ι)
    (hG : ∀ e ∈ S.events s is, G e.pre e.input) :
    H (es ++ S.events s is) (S.run s is) := by
  induction is generalizing es s with
  | nil => simpa using h
  | cons i is ih =>
      have hhead : G s i := hG (S.event s i) List.mem_cons_self
      have htail := ih (hstep es s i h hhead)
        (fun e he => hG e (List.mem_cons_of_mem _ he))
      simpa using htail

/--
The history rule: a relation between the events so far and the state, kept by
every step whose guard holds, is kept by every run whose steps are guarded.
-/
theorem history {H : List (Event σ ι ο) → σ → Prop} {G : σ → ι → Prop}
    (hstep : ∀ es s i, H es s → G s i →
      H (es ++ [S.event s i]) (S.step s i).1)
    {s : σ} (h : H [] s) (is : List ι)
    (hG : ∀ e ∈ S.events s is, G e.pre e.input) :
    H (S.events s is) (S.run s is) := by
  simpa using history_from hstep h is hG

theorem invariant_pre {J : σ → Prop} {G : σ → ι → Prop}
    (hstep : ∀ s i, J s → G s i → J (S.step s i).1) {s : σ} (h : J s)
    (is : List ι) (hG : ∀ e ∈ S.events s is, G e.pre e.input) :
    ∀ e ∈ S.events s is, J e.pre := by
  induction is generalizing s with
  | nil => simp
  | cons i is ih =>
      have hhead : G s i := hG (S.event s i) List.mem_cons_self
      rw [events_cons, List.forall_mem_cons]
      exact ⟨h, ih (hstep s i h hhead)
        fun e he => hG e (List.mem_cons_of_mem _ he)⟩

/--
The breaking rule: where every step but a bad one keeps an invariant, and every
bad step loses what the invariant is there for, no step of a run loses it just
when none is bad.
-/
theorem posts_iff {J P : σ → Prop} {B : σ → ι → Prop} (hJ : ∀ s, J s → P s)
    (hkeep : ∀ s i, J s → ¬ B s i → J (S.step s i).1)
    (hbreak : ∀ s i, J s → B s i → ¬ P (S.step s i).1)
    {s : σ} (h : J s) (is : List ι) :
    (∀ e ∈ S.events s is, P e.post) ↔
      ∀ e ∈ S.events s is, ¬ B e.pre e.input := by
  induction is generalizing s with
  | nil => simp
  | cons i is ih =>
      simp only [events_cons, List.forall_mem_cons, event]
      by_cases hbad : B s i
      · exact ⟨fun hall => absurd hall.1 (hbreak s i h hbad),
          fun hall => absurd hbad hall.1⟩
      · have hnext := hkeep s i h hbad
        exact and_congr (iff_of_true (hJ _ hnext) hbad) (ih hnext)

theorem invariant {P : σ → Prop} (hstep : ∀ s i, P s → P (S.step s i).1)
    {s : σ} (h : P s) (is : List ι) : P (S.run s is) :=
  history (H := fun _ => P) (G := fun _ _ => True)
    (fun _ s i hs _ => hstep s i hs) h is (fun _ _ => trivial)

/--
The simulation rule: when related states answer related inputs alike and stay
related, related runs have the same outputs.
-/
theorem simulation {τ κ : Type*} {T : System τ κ ο} {R : σ → τ → Prop}
    {I : ι → κ → Prop}
    (hstep : ∀ s t i k, R s t → I i k →
      R (S.step s i).1 (T.step t k).1 ∧ (S.step s i).2 = (T.step t k).2)
    {s : σ} {t : τ} (h : R s t) {is : List ι} {ks : List κ}
    (hin : List.Forall₂ I is ks) :
    R (S.run s is) (T.run t ks) ∧ S.outputs s is = T.outputs t ks := by
  induction hin generalizing s t with
  | nil => exact ⟨h, rfl⟩
  | cons hhead _ ih =>
      obtain ⟨hrel, hout⟩ := hstep _ _ _ _ h hhead
      obtain ⟨hrun, houts⟩ := ih hrel
      refine ⟨hrun, ?_⟩
      rw [outputs_cons, outputs_cons, hout, houts]

/--
The potential rule: when every step pays its cost out of a potential, no run
costs more than the potential it starts with.
-/
theorem cost_le {potential : σ → Nat} {cost : ο → Nat}
    (hstep : ∀ s i,
      potential (S.step s i).1 + cost (S.step s i).2 ≤ potential s)
    (s : σ) (is : List ι) :
    potential (S.run s is) +
      ((S.events s is).map fun e => cost e.output).sum ≤ potential s := by
  induction is generalizing s with
  | nil => simp
  | cons i is ih =>
      have hhead := hstep s i
      have htail := ih (S.step s i).1
      simp only [run_cons, events_cons, List.map_cons, List.sum_cons, event]
      omega

end Rules

end System

end Foundation
