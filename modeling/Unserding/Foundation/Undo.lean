import Mathlib.Logic.Function.Basic
import Mathlib.Tactic

/-!
# Undoing loops

A loop is undone by the loop that undoes its steps from the last to the first.
A word is masked with something that the word itself has no part in, and so it
is unmasked with the same.
-/

namespace Foundation

variable {α ι ω : Type*}

theorem foldl_undo {f g : α → ι → α} (is : List ι)
    (h : ∀ i ∈ is, ∀ a, g (f a i) i = a) (a : α) :
    is.reverse.foldl g (is.foldl f a) = a := by
  induction is generalizing a with
  | nil => rfl
  | cons i is ih =>
      obtain ⟨hi, his⟩ := List.forall_mem_cons.mp h
      rw [List.foldl_cons, List.reverse_cons, List.foldl_append, ih his,
        List.foldl_cons, List.foldl_nil, hi]

theorem foldl_redo {f g : α → ι → α} (is : List ι)
    (h : ∀ i ∈ is, ∀ a, f (g a i) i = a) (a : α) :
    is.foldl f (is.reverse.foldl g a) = a := by
  have hundo := foldl_undo is.reverse
    (fun i hi => h i (List.mem_reverse.mp hi)) a
  rwa [List.reverse_reverse] at hundo

section Mask

variable [DecidableEq ι]

def maskAt (op : ω → ω → ω) (mask : (ι → ω) → ω) (i : ι) (words : ι → ω) :
    ι → ω :=
  Function.update words i (op (words i) (mask words))

theorem maskAt_maskAt {op op' : ω → ω → ω} (hop : ∀ a b, op' (op a b) b = a)
    {mask : (ι → ω) → ω} {i : ι}
    (hmask : ∀ words v, mask (Function.update words i v) = mask words)
    (words : ι → ω) : maskAt op' mask i (maskAt op mask i words) = words := by
  rw [maskAt, maskAt, hmask, Function.update_self, hop, Function.update_idem,
    Function.update_eq_self]

end Mask

end Foundation
