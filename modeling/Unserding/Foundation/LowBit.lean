import Mathlib.Tactic

/-!
# Bit vectors as sets

Setting and clearing one bit, and the lowest bit that is set: a vector and its
negative have that bit in common and no other.
-/

namespace Foundation

variable {w : Nat} {x : BitVec w}

theorem getLsbD_set (x : BitVec w) {i : Nat} (hi : i < w) (j : Nat) :
    (x ||| BitVec.twoPow w i).getLsbD j = (decide (i = j) || x.getLsbD j) := by
  rw [BitVec.getLsbD_or, BitVec.getLsbD_twoPow, decide_eq_true hi,
    Bool.true_and, Bool.or_comm]

theorem getLsbD_clear (x : BitVec w) {i : Nat} (hi : i < w) {j : Nat}
    (hj : j < w) :
    (x &&& ~~~ BitVec.twoPow w i).getLsbD j =
      (!decide (i = j) && x.getLsbD j) := by
  rw [BitVec.getLsbD_and, BitVec.getLsbD_not, BitVec.getLsbD_twoPow,
    decide_eq_true hi, decide_eq_true hj, Bool.true_and, Bool.true_and,
    Bool.and_comm]

structure Lowest (x : BitVec w) (i : Nat) : Prop where
  set : x.getLsbD i = true
  below : ∀ j < i, x.getLsbD j = false

theorem exists_lowest (h : x ≠ 0#w) : ∃ i, Lowest x i :=
  ⟨x.ctz.toNat, BitVec.getLsbD_true_ctz_of_ne_zero h,
    fun _ hj => BitVec.getLsbD_false_of_lt_ctz hj⟩

theorem Lowest.lt {i : Nat} (h : Lowest x i) : i < w :=
  BitVec.lt_of_getLsbD h.set

theorem Lowest.unique {i j : Nat} (hi : Lowest x i) (hj : Lowest x j) :
    i = j := by
  rcases Nat.lt_trichotomy i j with hlt | heq | hgt
  · have hclear := hj.below i hlt
    rw [hi.set] at hclear
    contradiction
  · exact heq
  · have hclear := hi.below j hgt
    rw [hj.set] at hclear
    contradiction

theorem Lowest.neg_and_self {i : Nat} (h : Lowest x i) :
    -x &&& x = BitVec.twoPow w i := by
  apply BitVec.eq_of_getLsbD_eq
  intro j hj
  rw [BitVec.getLsbD_and, BitVec.getLsbD_neg, BitVec.getLsbD_twoPow]
  rcases Nat.lt_trichotomy i j with hlt | rfl | hgt
  · have hsome : ∃ l < j, x.getLsbD l = true := ⟨i, hlt, h.set⟩
    simp [hsome, hj, hlt.ne]
  · have hnone : ¬ ∃ l < i, x.getLsbD l = true := by
      rintro ⟨l, hl, hset⟩
      rw [h.below l hl] at hset
      contradiction
    simp [hnone, h.set, hj]
  · simp [h.below j hgt, hgt.ne']

end Foundation
