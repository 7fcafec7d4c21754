import Unserding.Foundation.Multicast
import Mathlib.Algebra.BigOperators.Group.Finset.Basic
import Mathlib.Data.Multiset.AddSub
import Mathlib.Data.Multiset.Bind

/-!
# What passes through a group

Two kinds of invariants of the runs of a multicast group.  What holds of all
members and of all messages under way, and is kept by every turn, holds in the
whole run.  And every copy of a message that a member took, or has in its queue,
was sent by a member: no member takes more copies of a message than were sent,
and just as many if none is lost.
-/

namespace Foundation

variable {ι σ α μ : Type*}

/-! ## Turns -/

def Move.Allowed (A : α → Prop) : Move ι α → Prop
  | .act _ _ a => A a
  | .lose _ _ => True

def Move.Lossless : Move ι α → Prop
  | .act _ _ _ => True
  | .lose _ _ => False

namespace Node

variable (N : Node σ α μ)

def Fits (s : σ) (a : α) (rx : Option μ) : Prop := N.reads s a = false → rx = none

theorem fits_take (g : Group ι σ μ) (i : ι) (pick : Nat) (a : α) :
    N.Fits (g.node i) a (N.take g i pick a).1 := by
  intro h
  simp [take, h]

theorem take_perm (g : Group ι σ μ) (i : ι) (pick : Nat) (a : α) :
    ((N.take g i pick a).1.toList ++ (N.take g i pick a).2).Perm
      (g.queue i) := by
  unfold take
  split
  · by_cases hpick : pick < (g.queue i).length
    · simpa [List.getElem?_eq_getElem hpick] using
        List.getElem_cons_eraseIdx_perm hpick
    · have hpast := Nat.le_of_not_lt hpick
      simp [List.getElem?_eq_none hpast, List.eraseIdx_of_length_le hpast]
  · simp

theorem mem_take {g : Group ι σ μ} {i : ι} {pick : Nat} {a : α} {m : μ}
    (h : m ∈ (N.take g i pick a).1 ∨ m ∈ (N.take g i pick a).2) :
    m ∈ g.queue i := by
  apply (N.take_perm g i pick a).subset
  simpa using h

end Node

/-! ## Members and messages -/

structure Group.Meets (I : σ → Prop) (M : μ → Prop) (g : Group ι σ μ) :
    Prop where
  node : ∀ i, I (g.node i)
  queue : ∀ i, ∀ m ∈ g.queue i, M m

/-- Turns out of `A` keep `I` as long as what they take has `M`, and so has
what they send. -/
structure Node.Keeps (N : Node σ α μ) (A : α → Prop) (I : σ → Prop)
    (M : μ → Prop) : Prop where
  state : ∀ s a rx, A a → N.Fits s a rx → I s → (∀ m ∈ rx, M m) →
    I (N.step s a rx).1
  sent : ∀ s a rx, A a → N.Fits s a rx → I s → (∀ m ∈ rx, M m) →
    ∀ m ∈ (N.step s a rx).2, M m

namespace Node

variable {N : Node σ α μ} [DecidableEq ι] {A : α → Prop} {I : σ → Prop}
  {M : μ → Prop}

theorem meets_step (h : N.Keeps A I M) {g : Group ι σ μ} (hg : g.Meets I M)
    {move : Move ι α} (hmove : move.Allowed A) :
    (N.group.step g move).1.Meets I M := by
  cases move with
  | lose i pick =>
      constructor <;> intro k
      · simpa [group, Group.set] using hg.node k
      · intro m hm
        by_cases hk : k = i
        · subst hk
          refine hg.queue k m ?_
          exact List.mem_of_mem_eraseIdx (by simpa [group, Group.set] using hm)
        · exact hg.queue k m (by simpa [group, Group.set, hk] using hm)
  | act i pick a =>
      have hfits := N.fits_take g i pick a
      have hrx : ∀ m ∈ (N.take g i pick a).1, M m := fun m hm =>
        hg.queue i m (N.mem_take (.inl hm))
      have hstate := h.state _ _ _ hmove hfits (hg.node i) hrx
      have hsent := h.sent _ _ _ hmove hfits (hg.node i) hrx
      constructor <;> intro k
      · by_cases hk : k = i
        · subst hk
          simpa [group, Group.cast, Group.set] using hstate
        · simpa [group, Group.cast, Group.set, hk] using hg.node k
      · intro m hm
        rcases List.mem_append.mp hm with hold | hnew
        · by_cases hk : k = i
          · subst hk
            have hleft : m ∈ (N.take g k pick a).2 := by
              simpa [Group.set] using hold
            exact hg.queue k m (N.mem_take (.inr hleft))
          · exact hg.queue k m (by simpa [Group.set, hk] using hold)
        · exact hsent m hnew

theorem meets_run (h : N.Keeps A I M) {g : Group ι σ μ} (hg : g.Meets I M)
    {moves : List (Move ι α)} (hmoves : ∀ move ∈ moves, move.Allowed A) :
    (N.group.run g moves).Meets I M := by
  refine System.history (S := N.group) (H := fun _ g => g.Meets I M)
    (G := fun _ move => move.Allowed A)
    (fun _ _ _ hg hmove => meets_step h hg hmove) hg moves ?_
  exact fun e he => hmoves _ (System.input_mem_of_mem _ he)

end Node

theorem Node.fixed_run {N : Node σ α μ} [DecidableEq ι] {β : Type*} {f : σ → β}
    (h : ∀ s a rx, f (N.step s a rx).1 = f s) (g : Group ι σ μ)
    (moves : List (Move ι α)) (k : ι) :
    f ((N.group.run g moves).node k) = f (g.node k) := by
  induction moves generalizing g with
  | nil => rfl
  | cons move moves ih =>
      rw [System.run_cons, ih]
      cases move with
      | lose i pick => by_cases hk : k = i <;> simp [group, Group.set, hk]
      | act i pick a =>
          by_cases hk : k = i <;> simp [group, Group.cast, Group.set, hk, h]

/-! ## Budgets -/

def Node.PaysWhile (N : Node σ α μ) (A : α → Prop) (I : σ → Prop)
    (M : μ → Prop) (weight : μ → Nat) (charge : σ → Nat) (n : Nat) : Prop :=
  ∀ s a rx, A a → N.Fits s a rx → I s → (∀ m ∈ rx, M m) →
    charge (N.step s a rx).1 + (N.step s a rx).2.length +
        n * weigh weight (N.step s a rx).2 ≤
      charge s + rx.elim 0 weight

namespace Node

variable {N : Node σ α μ} [DecidableEq ι] [Fintype ι] {A : α → Prop}
  {I : σ → Prop} {M : μ → Prop} {weight : μ → Nat} {charge : σ → Nat}

theorem budget_step_while (h : N.PaysWhile A I M weight charge (Fintype.card ι))
    {g : Group ι σ μ} (hg : g.Meets I M) {move : Move ι α}
    (hmove : move.Allowed A) :
    (N.group.step g move).1.budget weight charge +
        (N.group.step g move).2.length ≤
      g.budget weight charge := by
  cases move with
  | lose i pick =>
      have hset := Group.budget_set weight charge g i (g.node i)
        ((g.queue i).eraseIdx pick)
      have hlost := weigh_eraseIdx weight (g.queue i) pick
      simp only [group, List.length_nil]
      omega
  | act i pick a =>
      have hpays := h (g.node i) a (N.take g i pick a).1 hmove
        (N.fits_take g i pick a) (hg.node i)
        fun m hm => hg.queue i m (N.mem_take (.inl hm))
      have htake := N.weigh_take weight g i pick a
      have hset := Group.budget_set weight charge g i
        (N.step (g.node i) a (N.take g i pick a).1).1 (N.take g i pick a).2
      simp only [group, Group.budget_cast]
      omega

theorem sends_le_budget_while (hkeeps : N.Keeps A I M)
    (h : N.PaysWhile A I M weight charge (Fintype.card ι))
    {g : Group ι σ μ} (hg : g.Meets I M) {moves : List (Move ι α)}
    (hmoves : ∀ move ∈ moves, move.Allowed A) :
    ((N.group.events g moves).map fun e => e.output.length).sum ≤
      g.budget weight charge := by
  induction moves generalizing g with
  | nil => simp
  | cons move moves ih =>
      obtain ⟨hmove, hrest⟩ := List.forall_mem_cons.mp hmoves
      have hhead := budget_step_while h hg hmove
      have htail := ih (meets_step hkeeps hg hmove) hrest
      simp only [System.events_cons, List.map_cons, List.sum_cons, System.event]
      omega

end Node

/-! ## Conservation -/

structure Node.Books (N : Node σ α μ) (took sent : σ → List μ) : Prop where
  took : ∀ s a rx, N.Fits s a rx →
    took (N.step s a rx).1 = took s ++ rx.toList
  sent : ∀ s a rx, N.Fits s a rx →
    sent (N.step s a rx).1 = sent s ++ (N.step s a rx).2

namespace Group

def had (took : σ → List μ) (g : Group ι σ μ) (i : ι) : Multiset μ :=
  (took (g.node i) : Multiset μ) + (g.queue i : Multiset μ)

def told [Fintype ι] (sent : σ → List μ) (g : Group ι σ μ) : Multiset μ :=
  ∑ i, (sent (g.node i) : Multiset μ)

variable [Fintype ι]

theorem told_set [DecidableEq ι] {sent : σ → List μ} {g : Group ι σ μ} {i : ι}
    {s : σ} {more : List μ} (h : sent s = sent (g.node i) ++ more)
    (queue : List μ) :
    (g.set i s queue).told sent = g.told sent + (more : Multiset μ) := by
  have hold := Finset.sum_erase_add Finset.univ
    (fun j => (sent (g.node j) : Multiset μ)) (Finset.mem_univ i)
  have hnew := Finset.sum_erase_add Finset.univ
    (fun j => (sent ((g.set i s queue).node j) : Multiset μ)) (Finset.mem_univ i)
  have hrest : ∑ j ∈ Finset.univ.erase i,
      (sent ((g.set i s queue).node j) : Multiset μ) =
        ∑ j ∈ Finset.univ.erase i, (sent (g.node j) : Multiset μ) := by
    refine Finset.sum_congr rfl fun j hj => ?_
    simp only [set, Function.update_of_ne (Finset.ne_of_mem_erase hj)]
  simp only [set, Function.update_self, h, ← Multiset.coe_add] at hold hnew hrest
  simp only [told, set]
  rw [← hold, ← hnew, hrest, add_assoc]

end Group

namespace Node

variable {N : Node σ α μ} [DecidableEq ι] {took sent : σ → List μ}

theorem had_act (h : N.Books took sent) (g : Group ι σ μ) (i : ι) (pick : Nat)
    (a : α) (k : ι) :
    (N.group.step g (.act i pick a)).1.had took k =
      g.had took k + ((N.group.step g (.act i pick a)).2 : Multiset μ) := by
  have hperm := Multiset.coe_eq_coe.mpr (N.take_perm g i pick a)
  have htook := h.took _ _ _ (N.fits_take g i pick a)
  simp only [group, Group.had, Group.cast, Group.set, ← Multiset.coe_add] at hperm ⊢
  rw [← add_assoc]
  congr 1
  by_cases hk : k = i
  · rw [hk, Function.update_self, Function.update_self, htook, ← hperm,
      ← Multiset.coe_add, add_assoc]
  · rw [Function.update_of_ne hk, Function.update_of_ne hk]

theorem had_lose (g : Group ι σ μ) (i : ι) (pick : Nat) (k : ι) :
    (N.group.step g (.lose i pick)).1.had took k ≤ g.had took k := by
  simp only [group, Group.had, Group.set]
  by_cases hk : k = i
  · rw [hk, Function.update_self, Function.update_self]
    exact add_le_add le_rfl
      (Multiset.coe_le.mpr (List.eraseIdx_sublist _ _).subperm)
  · rw [Function.update_of_ne hk, Function.update_of_ne hk]

variable [Fintype ι]

theorem told_step (h : N.Books took sent) (g : Group ι σ μ) (move : Move ι α) :
    (N.group.step g move).1.told sent =
      g.told sent + ((N.group.step g move).2 : Multiset μ) := by
  cases move with
  | act i pick a =>
      exact Group.told_set (h.sent _ _ _ (N.fits_take g i pick a))
        (N.take g i pick a).2
  | lose i pick => exact Group.told_set (List.append_nil _).symm _

theorem told_run (h : N.Books took sent) (g : Group ι σ μ)
    (moves : List (Move ι α)) :
    (N.group.run g moves).told sent =
      g.told sent + ((N.group.outputs g moves).flatten : Multiset μ) := by
  induction moves generalizing g with
  | nil => simp
  | cons move moves ih =>
      simp [ih, told_step h, ← Multiset.coe_add, add_assoc]

theorem had_le_told (h : N.Books took sent) {g : Group ι σ μ}
    (hg : ∀ k, g.had took k ≤ g.told sent) (moves : List (Move ι α)) (k : ι) :
    (N.group.run g moves).had took k ≤ (N.group.run g moves).told sent := by
  refine System.invariant (S := N.group)
    (P := fun g => ∀ k, g.had took k ≤ g.told sent) ?_ hg moves k
  intro g move hg k
  rw [told_step h]
  cases move with
  | act i pick a =>
      rw [had_act h]
      exact add_le_add (hg k) le_rfl
  | lose i pick =>
      exact (had_lose g i pick k).trans ((hg k).trans (by simp))

theorem had_eq_told (h : N.Books took sent) {g : Group ι σ μ}
    (hg : ∀ k, g.had took k = g.told sent) {moves : List (Move ι α)}
    (hmoves : ∀ move ∈ moves, move.Lossless) (k : ι) :
    (N.group.run g moves).had took k = (N.group.run g moves).told sent := by
  refine System.history (S := N.group) (G := fun _ move => move.Lossless)
    (H := fun _ g => ∀ k, g.had took k = g.told sent) ?_ hg moves
    (fun e he => hmoves _ (System.input_mem_of_mem _ he)) k
  intro _ g move hg hmove k
  cases move with
  | act i pick a => exact (had_act h g i pick a k).trans (by rw [hg, told_step h])
  | lose i pick => exact hmove.elim

end Node

/-! ## Logs -/

structure Diary (σ μ : Type*) where
  state : σ
  took : List μ
  sent : List μ

def Node.logged (N : Node σ α μ) : Node (Diary σ μ) α μ where
  reads l a := N.reads l.state a
  step l a rx :=
    (⟨(N.step l.state a rx).1, l.took ++ rx.toList,
      l.sent ++ (N.step l.state a rx).2⟩, (N.step l.state a rx).2)

theorem Node.logged_books (N : Node σ α μ) :
    N.logged.Books Diary.took Diary.sent :=
  ⟨fun _ _ _ _ => rfl, fun _ _ _ _ => rfl⟩

def Group.logged (g : Group ι σ μ) : Group ι (Diary σ μ) μ :=
  ⟨fun i => ⟨g.node i, [], []⟩, g.queue⟩

structure Group.Logs (g' : Group ι (Diary σ μ) μ) (g : Group ι σ μ) : Prop where
  node : ∀ i, (g'.node i).state = g.node i
  queue : ∀ i, g'.queue i = g.queue i

theorem Node.logged_step [DecidableEq ι] (N : Node σ α μ)
    {g' : Group ι (Diary σ μ) μ} {g : Group ι σ μ} (h : g'.Logs g)
    (move : Move ι α) :
    (N.logged.group.step g' move).1.Logs (N.group.step g move).1 ∧
      (N.logged.group.step g' move).2 = (N.group.step g move).2 := by
  cases move with
  | lose i pick =>
      refine ⟨⟨fun k => ?_, fun k => ?_⟩, rfl⟩ <;> by_cases hk : k = i
      · simp [group, Group.set, hk, h.node]
      · simp [group, Group.set, h.node]
      · simp [group, Group.set, hk, h.queue]
      · simp [group, Group.set, hk, h.queue]
  | act i pick a =>
      have htake : N.logged.take g' i pick a = N.take g i pick a := by
        simp [take, logged, h.node, h.queue]
      have hstate : (N.logged.step (g'.node i) a (N.take g i pick a).1).1.state =
          (N.step (g.node i) a (N.take g i pick a).1).1 := by
        simp [logged, h.node]
      have hout : (N.logged.step (g'.node i) a (N.take g i pick a).1).2 =
          (N.step (g.node i) a (N.take g i pick a).1).2 := by
        simp [logged, h.node]
      refine ⟨⟨fun k => ?_, fun k => ?_⟩, by simp [group, htake, hout]⟩ <;>
        by_cases hk : k = i
      · simp [group, Group.cast, Group.set, htake, hk, hstate]
      · simp [group, Group.cast, Group.set, hk, h.node]
      · simp [group, Group.cast, Group.set, htake, hk, hout]
      · simp [group, Group.cast, Group.set, htake, hk, hout, h.queue]

theorem Node.logged_run [DecidableEq ι] (N : Node σ α μ) (g : Group ι σ μ)
    (moves : List (Move ι α)) :
    (N.logged.group.run g.logged moves).Logs (N.group.run g moves) ∧
      N.logged.group.outputs g.logged moves = N.group.outputs g moves :=
  System.simulation (I := Eq)
    (fun _ _ move _ h hmove => hmove ▸ N.logged_step h move)
    (show g.logged.Logs g from ⟨fun _ => rfl, fun _ => rfl⟩)
    (List.forall₂_refl _)

/-! ## Opening the messages -/

section Open

variable {ν : Type*} (parts : μ → List ν)

def opened : Multiset μ →+ Multiset ν where
  toFun msgs := msgs.bind fun m => (parts m : Multiset ν)
  map_zero' := Multiset.zero_bind _
  map_add' := fun _ _ => Multiset.add_bind _ _ _

@[simp] theorem opened_coe (msgs : List μ) :
    opened parts msgs = (msgs.flatMap parts : Multiset ν) :=
  Multiset.coe_bind msgs parts

theorem opened_mono {first second : Multiset μ} (h : first ≤ second) :
    opened parts first ≤ opened parts second := by
  obtain ⟨more, rfl⟩ := Multiset.le_iff_exists_add.mp h
  rw [map_add]
  exact Multiset.le_add_right _ _

theorem opened_told [Fintype ι] (sent : σ → List μ) (g : Group ι σ μ) :
    opened parts (g.told sent) =
      ∑ i, (((sent (g.node i)).flatMap parts : List ν) : Multiset ν) := by
  simp [Group.told, map_sum]

end Open

end Foundation
