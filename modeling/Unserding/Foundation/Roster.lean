import Mathlib.Logic.Function.Basic
import Mathlib.Tactic

/-!
# Slots that hold resources

A roster says what each slot holds, if anything, and no resource is in two
slots.  A slot is given up and filled anew one at a time, and only with a
resource that no slot holds.
-/

namespace Foundation

variable {ι κ : Type*}

structure Roster (ι κ : Type*) where
  slot : ι → Option κ
  inj : ∀ {i j k}, slot i = some k → slot j = some k → i = j

namespace Roster

def Holds (R : Roster ι κ) (k : κ) : Prop := ∃ i, R.slot i = some k

def empty : Roster ι κ where
  slot := fun _ => none
  inj := fun h => by contradiction

theorem not_holds_empty (k : κ) : ¬ (empty : Roster ι κ).Holds k := by
  rintro ⟨i, hi⟩
  contradiction

section Update

variable [DecidableEq ι] (R : Roster ι κ) (i : ι)

def release : Roster ι κ where
  slot := Function.update R.slot i none
  inj := by
    intro a b k ha hb
    by_cases hai : a = i
    · rw [hai, Function.update_self] at ha
      contradiction
    · by_cases hbi : b = i
      · rw [hbi, Function.update_self] at hb
        contradiction
      · rw [Function.update_of_ne hai] at ha
        rw [Function.update_of_ne hbi] at hb
        exact R.inj ha hb

def grant (k : κ) (hk : ¬ R.Holds k) : Roster ι κ where
  slot := Function.update R.slot i (some k)
  inj := by
    intro a b l ha hb
    by_cases hai : a = i <;> by_cases hbi : b = i
    · exact hai.trans hbi.symm
    · rw [hai, Function.update_self] at ha
      rw [Function.update_of_ne hbi, ← ha] at hb
      exact absurd ⟨b, hb⟩ hk
    · rw [hbi, Function.update_self] at hb
      rw [Function.update_of_ne hai, ← hb] at ha
      exact absurd ⟨a, ha⟩ hk
    · rw [Function.update_of_ne hai] at ha
      rw [Function.update_of_ne hbi] at hb
      exact R.inj ha hb

@[simp] theorem release_slot_self : (R.release i).slot i = none :=
  Function.update_self ..

@[simp] theorem grant_slot_self {k : κ} (hk : ¬ R.Holds k) :
    (R.grant i k hk).slot i = some k := Function.update_self ..

variable {R i}

theorem release_slot_of_ne {j : ι} (hj : j ≠ i) :
    (R.release i).slot j = R.slot j := Function.update_of_ne hj ..

theorem grant_slot_of_ne {j : ι} (hj : j ≠ i) {k : κ} (hk : ¬ R.Holds k) :
    (R.grant i k hk).slot j = R.slot j := Function.update_of_ne hj ..

theorem holds_release_iff {k : κ} (hi : R.slot i = some k) (l : κ) :
    (R.release i).Holds l ↔ l ≠ k ∧ R.Holds l := by
  constructor
  · rintro ⟨j, hj⟩
    have hji : j ≠ i := by
      rintro rfl
      rw [release_slot_self] at hj
      contradiction
    rw [release_slot_of_ne hji] at hj
    refine ⟨?_, j, hj⟩
    rintro rfl
    exact hji (R.inj hj hi)
  · rintro ⟨hne, j, hj⟩
    have hji : j ≠ i := by
      rintro rfl
      rw [hi] at hj
      exact hne (Option.some.inj hj).symm
    exact ⟨j, (release_slot_of_ne hji).trans hj⟩

theorem holds_grant_iff (hi : R.slot i = none) {k : κ} (hk : ¬ R.Holds k)
    (l : κ) : (R.grant i k hk).Holds l ↔ l = k ∨ R.Holds l := by
  constructor
  · rintro ⟨j, hj⟩
    by_cases hji : j = i
    · rw [hji, grant_slot_self] at hj
      exact .inl (Option.some.inj hj).symm
    · rw [grant_slot_of_ne hji] at hj
      exact .inr ⟨j, hj⟩
  · rintro (rfl | ⟨j, hj⟩)
    · exact ⟨i, grant_slot_self R i hk⟩
    · have hji : j ≠ i := by
        rintro rfl
        rw [hi] at hj
        contradiction
      exact ⟨j, (grant_slot_of_ne hji hk).trans hj⟩

end Update

end Roster

end Foundation
