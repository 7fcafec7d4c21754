import Unserding.Foundation.System
import Mathlib.Algebra.BigOperators.Group.Finset.Basic
import Mathlib.Algebra.Order.BigOperators.Group.Finset
import Mathlib.Data.Fintype.Card

/-!
# Multicast groups

Every member of a group has a queue of messages.  A turn of a member may take
one message off its queue, wherever it lies, and what the member sends is put
into every queue, its own included; any copy may be lost.  When each turn pays
for what it sends out of a charge the member keeps and the weight of the message
it takes, every run of the group sends a bounded number of messages.
-/

namespace Foundation

structure Node (σ α μ : Type*) where
  reads : σ → α → Bool
  step : σ → α → Option μ → σ × List μ

structure Group (ι σ μ : Type*) where
  node : ι → σ
  queue : ι → List μ

inductive Move (ι α : Type*) where
  | act (i : ι) (pick : Nat) (a : α)
  | lose (i : ι) (pick : Nat)

variable {ι σ α μ : Type*}

def weigh (weight : μ → Nat) (msgs : List μ) : Nat := (msgs.map weight).sum

@[simp] theorem weigh_append (weight : μ → Nat) (first second : List μ) :
    weigh weight (first ++ second) = weigh weight first + weigh weight second := by
  simp [weigh]

theorem weigh_eraseIdx (weight : μ → Nat) (msgs : List μ) (pick : Nat) :
    weigh weight (msgs.eraseIdx pick) + (msgs[pick]?.elim 0 weight) =
      weigh weight msgs := by
  induction msgs generalizing pick with
  | nil => rfl
  | cons msg rest ih =>
      cases pick with
      | zero => simp [weigh, Nat.add_comm]
      | succ pick =>
          have htail := ih pick
          simp only [weigh, List.eraseIdx_cons_succ, List.map_cons, List.sum_cons,
            List.getElem?_cons_succ] at htail ⊢
          omega

theorem weigh_le {weight : μ → Nat} {msgs : List μ} {bound : Nat}
    (h : ∀ msg ∈ msgs, weight msg ≤ bound) :
    weigh weight msgs ≤ msgs.length * bound := by
  simpa [weigh] using List.sum_le_card_nsmul (msgs.map weight) bound (by simpa using h)

namespace Group

def cast (g : Group ι σ μ) (msgs : List μ) : Group ι σ μ :=
  { g with queue := fun j => g.queue j ++ msgs }

def set [DecidableEq ι] (g : Group ι σ μ) (i : ι) (s : σ) (queue : List μ) :
    Group ι σ μ :=
  ⟨Function.update g.node i s, Function.update g.queue i queue⟩

variable [Fintype ι]

def budget (weight : μ → Nat) (charge : σ → Nat) (g : Group ι σ μ) : Nat :=
  ∑ i, (charge (g.node i) + weigh weight (g.queue i))

variable (weight : μ → Nat) (charge : σ → Nat)

theorem budget_cast (g : Group ι σ μ) (msgs : List μ) :
    budget weight charge (g.cast msgs) =
      budget weight charge g + Fintype.card ι * weigh weight msgs := by
  simp only [budget, cast, weigh_append, ← Nat.add_assoc]
  rw [Finset.sum_add_distrib, Finset.sum_const, Finset.card_univ, smul_eq_mul]

theorem budget_set [DecidableEq ι] (g : Group ι σ μ) (i : ι) (s : σ)
    (queue : List μ) :
    budget weight charge (g.set i s queue) +
        (charge (g.node i) + weigh weight (g.queue i)) =
      budget weight charge g + (charge s + weigh weight queue) := by
  have hold := Finset.sum_erase_add Finset.univ
    (fun j => charge (g.node j) + weigh weight (g.queue j)) (Finset.mem_univ i)
  have hnew := Finset.sum_erase_add Finset.univ
    (fun j => charge ((g.set i s queue).node j) +
      weigh weight ((g.set i s queue).queue j)) (Finset.mem_univ i)
  have hrest : ∑ j ∈ Finset.univ.erase i,
      (charge ((g.set i s queue).node j) +
        weigh weight ((g.set i s queue).queue j)) =
      ∑ j ∈ Finset.univ.erase i,
        (charge (g.node j) + weigh weight (g.queue j)) := by
    refine Finset.sum_congr rfl fun j hj => ?_
    simp only [set, Function.update_of_ne (Finset.ne_of_mem_erase hj)]
  simp only [set, Function.update_self] at hold hnew hrest
  simp only [budget, set]
  omega

end Group

namespace Node

variable (N : Node σ α μ)

def take (g : Group ι σ μ) (i : ι) (pick : Nat) (a : α) : Option μ × List μ :=
  if N.reads (g.node i) a then
    ((g.queue i)[pick]?, (g.queue i).eraseIdx pick)
  else (none, g.queue i)

theorem weigh_take (weight : μ → Nat) (g : Group ι σ μ) (i : ι) (pick : Nat)
    (a : α) :
    weigh weight (N.take g i pick a).2 + (N.take g i pick a).1.elim 0 weight =
      weigh weight (g.queue i) := by
  unfold take
  split
  · exact weigh_eraseIdx weight _ pick
  · rfl

def group [DecidableEq ι] :
    System (Group ι σ μ) (Move ι α) (List μ) where
  step g
    | .act i pick a =>
        let taken := N.take g i pick a
        let r := N.step (g.node i) a taken.1
        ((g.set i r.1 taken.2).cast r.2, r.2)
    | .lose i pick => (g.set i (g.node i) ((g.queue i).eraseIdx pick), [])

/--
Every turn pays for the messages it sends: one for each, and the weight of each
in all `n` queues.
-/
def Pays (weight : μ → Nat) (charge : σ → Nat) (n : Nat) : Prop :=
  ∀ s a rx,
    charge (N.step s a rx).1 + (N.step s a rx).2.length +
        n * weigh weight (N.step s a rx).2 ≤
      charge s + rx.elim 0 weight

variable {N} [DecidableEq ι] [Fintype ι] {weight : μ → Nat} {charge : σ → Nat}

theorem budget_step (h : N.Pays weight charge (Fintype.card ι))
    (g : Group ι σ μ) (move : Move ι α) :
    (N.group.step g move).1.budget weight charge +
        (N.group.step g move).2.length ≤
      g.budget weight charge := by
  cases move with
  | lose i pick =>
      have hset := Group.budget_set weight charge g i (g.node i)
        ((g.queue i).eraseIdx pick)
      have hlost := weigh_eraseIdx weight (g.queue i) pick
      simp only [group, List.length_nil]
      omega
  | act i pick a =>
      have hpays := h (g.node i) a (N.take g i pick a).1
      have htake := N.weigh_take weight g i pick a
      have hset := Group.budget_set weight charge g i
        (N.step (g.node i) a (N.take g i pick a).1).1 (N.take g i pick a).2
      simp only [group, Group.budget_cast]
      omega

theorem sends_le_budget (h : N.Pays weight charge (Fintype.card ι))
    (g : Group ι σ μ) (moves : List (Move ι α)) :
    ((N.group.events g moves).map fun e => e.output.length).sum ≤
      g.budget weight charge := by
  have hcost := System.cost_le (S := N.group) (budget_step h) g moves
  omega

end Node

end Foundation
