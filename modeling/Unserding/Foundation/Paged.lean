import Mathlib.Logic.Function.Basic
import Mathlib.Tactic

/-!
# Tables of pages

A table has a page for some of its indices, and a page an entry for every
offset, which may be empty.  Read through a map that tells keys apart by index
and offset, a table is a partial map of the keys.
-/

namespace Foundation

variable {κ ι ο β : Type*}

abbrev Pages (ι ο β : Type*) := ι → Option (ο → Option β)

namespace Pages

def empty : Pages ι ο β := fun _ => none

def map (T : Pages ι ο β) (split : κ → ι × ο) (k : κ) : Option β :=
  match T (split k).1 with
  | none => none
  | some page => page (split k).2

section Update

variable [DecidableEq ι] [DecidableEq ο]

def alloc (i : ι) (T : Pages ι ο β) : Pages ι ο β :=
  Function.update T i (some fun _ => none)

def put (i : ι) (page : ο → Option β) (o : ο) (v : Option β)
    (T : Pages ι ο β) : Pages ι ο β :=
  Function.update T i (some (Function.update page o v))

variable {T : Pages ι ο β} {split : κ → ι × ο} [DecidableEq κ]

omit [DecidableEq ο] [DecidableEq κ] in
theorem map_alloc {i : ι} (h : T i = none) :
    (T.alloc i).map split = T.map split := by
  funext k
  by_cases hk : (split k).1 = i
  · simp [map, alloc, hk, h]
  · simp [map, alloc, hk]

theorem map_put (hsplit : Function.Injective split) {k : κ}
    {page : ο → Option β} (h : T (split k).1 = some page) (v : Option β) :
    (T.put (split k).1 page (split k).2 v).map split =
      Function.update (T.map split) k v := by
  funext l
  by_cases hl : l = k
  · simp [map, put, hl]
  · rw [Function.update_of_ne hl]
    by_cases hi : (split l).1 = (split k).1
    · have ho : (split l).2 ≠ (split k).2 := fun ho =>
        hl (hsplit (Prod.ext hi ho))
      simp [map, put, hi, h, ho]
    · simp [map, put, hi]

end Update

end Pages

end Foundation
