import Unserding.Foundation.System
import Mathlib.Data.List.Perm.Basic
import Mathlib.Data.List.Perm.Subperm

/-!
# Relays

A relay answers every input with some of the messages that came with it.  Over
a run its answers are a sublist of all that came, and where links in between
lose and reorder messages, what comes out of a chain of relays is still some of
what went in, nothing twice.
-/

namespace Foundation

variable {σ ι ο μ ν : Type*}

section Relay

variable (S : System σ ι ο) (took : ι → List μ) (gave : ο → List μ)

def System.given (s : σ) (is : List ι) : List μ := (S.outputs s is).flatMap gave

/-- An allowed input is answered with some of what it brings, in order. -/
def System.Relays (A : ι → Prop) : Prop :=
  ∀ s i, A i → (gave (S.step s i).2).Sublist (took i)

/-- An allowed input is answered with all that it brings. -/
def System.RelaysAll (A : ι → Prop) : Prop :=
  ∀ s i, A i → gave (S.step s i).2 = took i

variable {S took gave} {A : ι → Prop}

theorem System.Relays.run (h : S.Relays took gave A) (s : σ) {is : List ι}
    (his : ∀ i ∈ is, A i) : (S.given gave s is).Sublist (is.flatMap took) := by
  induction is generalizing s with
  | nil => exact List.Sublist.slnil
  | cons i is ih =>
      obtain ⟨hi, hrest⟩ := List.forall_mem_cons.mp his
      simpa [given] using (h s i hi).append (ih (S.step s i).1 hrest)

theorem System.RelaysAll.run (h : S.RelaysAll took gave A) (s : σ) {is : List ι}
    (his : ∀ i ∈ is, A i) : S.given gave s is = is.flatMap took := by
  induction is generalizing s with
  | nil => rfl
  | cons i is ih =>
      obtain ⟨hi, hrest⟩ := List.forall_mem_cons.mp his
      have htail := ih (S.step s i).1 hrest
      simp only [given] at htail
      simp [given, h s i hi, htail]

end Relay

/-! ## What messages stand for -/

theorem sublist_forall₂ {r : μ → ν → Prop} {l₁ l₂ : List μ} {u : List ν}
    (h : l₁.Sublist l₂) (hr : List.Forall₂ r l₂ u) :
    ∃ v, List.Forall₂ r l₁ v ∧ v.Sublist u := by
  induction h generalizing u with
  | slnil => exact ⟨[], .nil, List.nil_sublist u⟩
  | cons a _ ih =>
      cases hr with
      | cons _ htail =>
          obtain ⟨v, hv, hsub⟩ := ih htail
          exact ⟨v, hv, hsub.cons _⟩
  | cons_cons a _ ih =>
      cases hr with
      | cons hhead htail =>
          obtain ⟨v, hv, hsub⟩ := ih htail
          exact ⟨_ :: v, .cons hhead hv, hsub.cons_cons _⟩

theorem perm_forall₂ {r : μ → ν → Prop} {l₁ l₂ : List μ} {u : List ν}
    (h : l₁.Perm l₂) (hr : List.Forall₂ r l₂ u) :
    ∃ v, List.Forall₂ r l₁ v ∧ v.Perm u :=
  List.perm_comp_forall₂ h hr

theorem subperm_forall₂ {r : μ → ν → Prop} {l₁ l₂ : List μ} {u : List ν}
    (h : l₁.Subperm l₂) (hr : List.Forall₂ r l₂ u) :
    ∃ v, List.Forall₂ r l₁ v ∧ v.Subperm u := by
  obtain ⟨l, hperm, hsub⟩ := h
  obtain ⟨v, hv, hvu⟩ := sublist_forall₂ hsub hr
  obtain ⟨w, hw, hwv⟩ := perm_forall₂ hperm.symm hv
  exact ⟨w, hw, v, hwv.symm, hvu⟩

theorem subperm_map_flatten (f : μ → ν) {l₁ l₂ : List (List μ)}
    (h : l₁.Subperm l₂) : (l₁.flatten.map f).Subperm (l₂.flatten.map f) := by
  obtain ⟨l, hperm, hsub⟩ := h
  exact ⟨l.flatten.map f, hperm.flatten.map f, hsub.flatten.map f⟩

end Foundation
