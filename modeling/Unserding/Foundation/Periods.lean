import Mathlib.Tactic

/-!
# Periods

Numbers of either sign are counted in periods of length `d` by unsigned
arithmetic modulo `W`.  What comes out is off by the periods in `W` wherever a
number or a difference is negative.  Names may come round period by period.
-/

namespace Foundation

section Quotient

variable {d W : Int} (hd : 0 < d)

/-- Whether what `t` and `W` leave over makes a period of its own. -/
def carry (d W t : Int) : Int := if d ≤ t % d + W % d then 1 else 0

include hd

theorem wrapped_ediv {t : Int} (hlow : -W ≤ t) (hhigh : t < W) :
    t % W / d = if t < 0 then t / d + W / d + carry d W t else t / d := by
  split
  · rename_i hneg
    have hread : t % W = t + W := by
      rw [← Int.add_emod_right]
      exact Int.emod_eq_of_lt (by omega) (by omega)
    rw [hread, Int.add_ediv_of_pos hd, carry]
  · rename_i hpos
    rw [Int.emod_eq_of_lt (Int.not_lt.mp hpos) hhigh]

theorem wrapped_sub_ediv {k l : Int} (hk : 0 ≤ k) (hkW : k * d < W)
    (hl : 0 ≤ l) (hlW : l * d < W) :
    (l * d - k * d) % W / d = if k ≤ l then l - k else W / d + (l - k) := by
  have hkd : 0 ≤ k * d := Int.mul_nonneg hk hd.le
  have hld : 0 ≤ l * d := Int.mul_nonneg hl hd.le
  rw [← Int.sub_mul]
  split
  · rename_i hle
    have hdiff : 0 ≤ (l - k) * d := Int.mul_nonneg (by omega) hd.le
    rw [Int.emod_eq_of_lt hdiff (by rw [Int.sub_mul]; omega),
      Int.mul_ediv_cancel _ hd.ne']
  · rename_i hgt
    have hdiff : (l - k) * d < 0 := Int.mul_neg_of_neg_of_pos (by omega) hd
    have hread : (l - k) * d % W = W + (l - k) * d := by
      rw [← Int.add_emod_left]
      refine Int.emod_eq_of_lt ?_ ?_
      · rw [Int.sub_mul]
        omega
      · omega
    rw [hread, Int.add_mul_ediv_right _ _ hd.ne']

end Quotient

section Wheel

variable {α : Type*} {n : Nat} [NeZero n]

def wheel (names : Fin n → α) (k : Int) : α :=
  names (Fin.ofNat n (k % n).toNat)

theorem wheel_eq_iff {names : Fin n → α} (h : Function.Injective names)
    (k l : Int) : wheel names k = wheel names l ↔ (n : Int) ∣ k - l := by
  have hn : (0 : Int) < n := Int.natCast_pos.mpr (NeZero.pos n)
  have hpos (m : Int) : 0 ≤ m % n := Int.emod_nonneg m hn.ne'
  have hrange (m : Int) : (m % n).toNat < n :=
    (Int.toNat_lt (hpos m)).mpr (Int.emod_lt_of_pos m hn)
  have hrest : (k % n).toNat = (l % n).toNat ↔ k % n = l % n := by
    have hk := hpos k
    have hl := hpos l
    omega
  rw [wheel, wheel, h.eq_iff, Fin.ext_iff, Fin.val_ofNat, Fin.val_ofNat,
    Nat.mod_eq_of_lt (hrange k), Nat.mod_eq_of_lt (hrange l),
    hrest, Int.emod_eq_emod_iff_emod_sub_eq_zero, Int.dvd_iff_emod_eq_zero]

end Wheel

end Foundation
