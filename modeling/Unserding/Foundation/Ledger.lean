import Mathlib.Data.Finset.Union
import Mathlib.Data.Set.Pairwise.Basic
import Mathlib.Tactic

/-!
# Resources taken and given back

A ledger keeps the resources that are held and notes for everything that was
given back whether it was held at the time.  Accounts say who holds what: every
owner has a share, and no two shares have a resource in common.
-/

namespace Foundation

variable {ι κ : Type*} [DecidableEq κ]

structure Ledger (κ : Type*) where
  held : Finset κ
  returned : List (κ × Bool)

namespace Ledger

def empty : Ledger κ := ⟨∅, []⟩

def take (L : Ledger κ) (k : κ) : Ledger κ := { L with held := insert k L.held }

def giveBack (L : Ledger κ) (k : κ) : Ledger κ :=
  ⟨L.held.erase k, L.returned ++ [(k, decide (k ∈ L.held))]⟩

def Clean (L : Ledger κ) : Prop := ∀ r ∈ L.returned, r.2 = true

omit [DecidableEq κ] in
theorem clean_empty : (empty : Ledger κ).Clean := fun _ h => by contradiction

@[simp] theorem held_take (L : Ledger κ) (k : κ) :
    (L.take k).held = insert k L.held := rfl

@[simp] theorem held_giveBack (L : Ledger κ) (k : κ) :
    (L.giveBack k).held = L.held.erase k := rfl

@[simp] theorem clean_giveBack {L : Ledger κ} {k : κ} :
    (L.giveBack k).Clean ↔ L.Clean ∧ k ∈ L.held := by
  rw [Clean, giveBack, List.forall_mem_append, List.forall_mem_singleton,
    decide_eq_true_iff]
  rfl

structure Beyond (L L' : Ledger κ) (S : Finset κ) : Prop where
  held : L'.held = S ∪ L.held
  disjoint : Disjoint S L.held
  clean : L.Clean → L'.Clean

theorem Beyond.refl (L : Ledger κ) : L.Beyond L ∅ where
  held := (Finset.empty_union _).symm
  disjoint := Finset.disjoint_empty_left _
  clean := id

theorem Beyond.held_eq {L L' : Ledger κ} (h : L.Beyond L' ∅) :
    L'.held = L.held := by rw [h.held, Finset.empty_union]

theorem Beyond.of_same {L L₁ L' : Ledger κ} {S : Finset κ} (h₁ : L.Beyond L₁ ∅)
    (h : L₁.Beyond L' S) : L.Beyond L' S where
  held := by rw [h.held, h₁.held_eq]
  disjoint := h₁.held_eq ▸ h.disjoint
  clean hclean := h.clean (h₁.clean hclean)

theorem Beyond.take {L L' : Ledger κ} {S : Finset κ} (h : L.Beyond L' S)
    {k : κ} (hk : k ∉ L'.held) : L.Beyond (L'.take k) (insert k S) where
  held := by rw [held_take, h.held, Finset.insert_union]
  disjoint := by
    rw [h.held, Finset.mem_union, not_or] at hk
    exact Finset.disjoint_insert_left.mpr ⟨hk.2, h.disjoint⟩
  clean := h.clean

theorem Beyond.giveBack {L L' : Ledger κ} {S : Finset κ} (h : L.Beyond L' S)
    {k : κ} (hk : k ∈ S) : L.Beyond (L'.giveBack k) (S.erase k) where
  held := by
    have hkL : k ∉ L.held := Finset.disjoint_left.mp h.disjoint hk
    rw [held_giveBack, h.held, Finset.erase_union_distrib,
      Finset.erase_eq_of_notMem hkL]
  disjoint := h.disjoint.mono_left (Finset.erase_subset k S)
  clean hclean := clean_giveBack.mpr
    ⟨h.clean hclean, h.held ▸ Finset.mem_union_left _ hk⟩

end Ledger

/-! ## Accounts -/

structure Accounts (ι κ : Type*) where
  owners : Finset ι
  share : ι → Finset κ
  disjoint : (owners : Set ι).PairwiseDisjoint share

namespace Accounts

def empty : Accounts ι κ where
  owners := ∅
  share := fun _ => ∅
  disjoint := by simp

def total (A : Accounts ι κ) : Finset κ := A.owners.biUnion A.share

theorem share_subset_total (A : Accounts ι κ) {i : ι} (hi : i ∈ A.owners) :
    A.share i ⊆ A.total := Finset.subset_biUnion_of_mem A.share hi

section Update

variable [DecidableEq ι] (A : Accounts ι κ) (i : ι)

/-- A new owner comes with a share of resources nobody holds. -/
def enrol (S : Finset κ) (hi : i ∉ A.owners) (hS : Disjoint S A.total) :
    Accounts ι κ where
  owners := insert i A.owners
  share := Function.update A.share i S
  disjoint := by
    have hne {j : ι} (hj : j ∈ A.owners) : j ≠ i := fun h => hi (h ▸ hj)
    have hshare {j : ι} (hj : j ∈ A.owners) : Disjoint S (A.share j) :=
      hS.mono_right (A.share_subset_total hj)
    rw [Finset.coe_insert, Set.pairwiseDisjoint_insert_of_notMem hi]
    constructor
    · intro j hj k hk hjk
      have hold := A.disjoint hj hk hjk
      simpa [Function.onFun, hne hj, hne hk] using hold
    · intro j hj
      simpa [Function.onFun, hne hj] using hshare hj

def dismiss : Accounts ι κ where
  owners := A.owners.erase i
  share := A.share
  disjoint := A.disjoint.subset (by simp)

variable {A i}

theorem total_enrol {S : Finset κ} (hi : i ∉ A.owners)
    (hS : Disjoint S A.total) : (A.enrol i S hi hS).total = S ∪ A.total := by
  have hrest : A.owners.biUnion (Function.update A.share i S) = A.total := by
    refine Finset.biUnion_congr rfl fun j hj => ?_
    have hne : j ≠ i := fun h => hi (h ▸ hj)
    exact Function.update_of_ne hne ..
  change (insert i A.owners).biUnion (Function.update A.share i S) = _
  rw [Finset.biUnion_insert, Function.update_self, hrest]

theorem total_dismiss (hi : i ∈ A.owners) :
    (A.dismiss i).total = A.total \ A.share i := by
  ext k
  simp only [total, dismiss, Finset.mem_biUnion, Finset.mem_erase,
    Finset.mem_sdiff]
  constructor
  · rintro ⟨j, ⟨hji, hj⟩, hk⟩
    refine ⟨⟨j, hj, hk⟩, fun hki => ?_⟩
    exact Finset.disjoint_left.mp (A.disjoint hj hi hji) hk hki
  · rintro ⟨⟨j, hj, hk⟩, hki⟩
    exact ⟨j, ⟨fun h => hki (h ▸ hk), hj⟩, hk⟩

end Update

end Accounts

end Foundation
