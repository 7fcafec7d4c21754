import Mathlib.Data.List.Basic
import Mathlib.Data.List.TakeDrop
import Mathlib.Tactic

/-!
# Fixed memory as lists

A block of memory is the list of its cells.  `blit` is the block copy of C's
`memcpy` into such a block and `window` reads a span of it.  A copy that runs
past the end of the block makes the list longer, so that a bound on the length
of a block is a statement about every write made to it.
-/

namespace Foundation

variable {α : Type*}

/-- Copy `src` over the cells of `buf` from offset `off` on. -/
def blit (buf : List α) (off : Nat) (src : List α) : List α :=
  buf.take off ++ src ++ buf.drop (off + src.length)

/-- The `len` cells of `buf` from offset `off` on. -/
def window (buf : List α) (off len : Nat) : List α :=
  (buf.drop off).take len

theorem length_blit {buf src : List α} {off : Nat}
    (h : off + src.length ≤ buf.length) :
    (blit buf off src).length = buf.length := by
  simp [blit]
  omega

theorem le_length_blit {buf src : List α} {off : Nat}
    (h : off ≤ buf.length) : buf.length ≤ (blit buf off src).length := by
  simp [blit]
  omega

theorem length_window {buf : List α} {off len : Nat}
    (h : off + len ≤ buf.length) : (window buf off len).length = len := by
  simp [window]
  omega

@[simp] theorem window_zero (buf : List α) (off : Nat) :
    window buf off 0 = [] := by
  simp [window]

theorem window_from_zero (buf : List α) (len : Nat) :
    window buf 0 len = buf.take len := by
  simp [window]

theorem window_add (buf : List α) (off m n : Nat) :
    window buf off (m + n) = window buf off m ++ window buf (off + m) n := by
  simp [window, List.take_add, List.drop_drop]

theorem window_window {buf : List α} {off len o n : Nat} (h : o + n ≤ len) :
    window (window buf off len) o n = window buf (off + o) n := by
  simp only [window, List.drop_take, List.take_take, List.drop_drop]
  congr 1
  omega

theorem getElem?_window (buf : List α) (off len i : Nat) :
    (window buf off len)[i]? = if i < len then buf[off + i]? else none := by
  simp [window, List.getElem?_take, List.getElem?_drop]

theorem getElem?_blit {buf src : List α} {off : Nat}
    (h : off ≤ buf.length) (i : Nat) :
    (blit buf off src)[i]? =
      if off ≤ i ∧ i < off + src.length then src[i - off]? else buf[i]? := by
  have hlen : (buf.take off).length = off := List.length_take_of_le h
  by_cases hlo : i < off
  · have hnot : ¬ (off ≤ i ∧ i < off + src.length) := by omega
    rw [if_neg hnot, blit, List.append_assoc,
      List.getElem?_append_left (by omega), List.getElem?_take_of_lt hlo]
  · by_cases hhi : i < off + src.length
    · rw [if_pos ⟨by omega, hhi⟩, blit, List.append_assoc,
        List.getElem?_append_right (by omega), hlen,
        List.getElem?_append_left (by omega)]
    · rw [if_neg (by omega), blit, List.append_assoc,
        List.getElem?_append_right (by omega), hlen,
        List.getElem?_append_right (by omega), List.getElem?_drop]
      congr 1
      omega

theorem blit_blit {buf first second : List α} {off : Nat}
    (h : off ≤ buf.length) :
    blit (blit buf off first) (off + first.length) second =
      blit buf off (first ++ second) := by
  have hfront : (buf.take off ++ first).length = off + first.length := by
    rw [List.length_append, List.length_take_of_le h]
  have htake : (blit buf off first).take (off + first.length) =
      buf.take off ++ first := by
    rw [blit, ← hfront, List.take_left]
  have hdrop : (blit buf off first).drop
      (off + first.length + second.length) =
        buf.drop (off + (first ++ second).length) := by
    rw [blit, ← hfront, List.drop_append, List.drop_drop, hfront]
    rw [List.drop_eq_nil_of_le (by omega), List.nil_append]
    congr 1
    simp only [List.length_append]
    omega
  rw [blit, htake, hdrop, blit, List.append_assoc, List.append_assoc,
    List.append_assoc, List.append_assoc]

theorem take_blit {buf src rest : List α} {off : Nat} (h : off ≤ buf.length) :
    (blit buf off (src ++ rest)).take (off + src.length) =
      buf.take off ++ src := by
  have hfront : (buf.take off ++ src).length = off + src.length := by
    rw [List.length_append, List.length_take_of_le h]
  rw [blit, ← List.append_assoc, List.append_assoc (buf.take off ++ src),
    ← hfront, List.take_left]

theorem window_blit_self {buf src : List α} {off : Nat}
    (h : off ≤ buf.length) :
    window (blit buf off src) off src.length = src := by
  apply List.ext_getElem?
  intro i
  rw [getElem?_window, getElem?_blit h]
  by_cases hi : i < src.length
  · simp [hi]
  · simp [hi]

theorem window_blit_below {buf src : List α} {off o n : Nat}
    (h : off ≤ buf.length) (ho : o + n ≤ off) :
    window (blit buf off src) o n = window buf o n := by
  apply List.ext_getElem?
  intro i
  rw [getElem?_window, getElem?_window, getElem?_blit h]
  by_cases hi : i < n
  · have hnot : ¬ (off ≤ o + i ∧ o + i < off + src.length) := by omega
    simp [hi, hnot]
  · simp [hi]

theorem window_blit_above {buf src : List α} {off o n : Nat}
    (h : off ≤ buf.length) (ho : off + src.length ≤ o) :
    window (blit buf off src) o n = window buf o n := by
  apply List.ext_getElem?
  intro i
  rw [getElem?_window, getElem?_window, getElem?_blit h]
  have hnot : ¬ (off ≤ o + i ∧ o + i < off + src.length) := by omega
  simp [hnot]

theorem window_append_left {buf tail : List α} {off len : Nat}
    (h : off + len ≤ buf.length) :
    window (buf ++ tail) off len = window buf off len := by
  apply List.ext_getElem?
  intro i
  rw [getElem?_window, getElem?_window]
  by_cases hi : i < len
  · simp [hi, List.getElem?_append_left (by omega : off + i < buf.length)]
  · simp [hi]

theorem getD_eq_of_window_cons {buf : List α} {off len : Nat} {a d : α}
    {rest : List α} (h : window buf off len = a :: rest) :
    buf.getD off d = a := by
  have hzero : (window buf off len)[0]? = some a := by rw [h]; rfl
  rw [getElem?_window] at hzero
  split at hzero
  · simpa [List.getD_eq_getElem?_getD] using congrArg (Option.getD · d) hzero
  · contradiction

theorem window_tail {buf : List α} {off len : Nat} (front : List α)
    {rest : List α} (h : window buf off len = front ++ rest) :
    window buf (off + front.length) (len - front.length) = rest := by
  have hdrop := congrArg (List.drop front.length) h
  rw [List.drop_left] at hdrop
  rw [← hdrop]
  simp [window, List.drop_take, List.drop_drop]

theorem window_front {buf : List α} {off len : Nat} {front rest : List α}
    (h : window buf off len = front ++ rest) :
    window buf off front.length = front := by
  have htake := congrArg (List.take front.length) h
  rw [List.take_left] at htake
  have hle : front.length ≤ len := by
    have hlen := congrArg List.length h
    simp [window] at hlen
    omega
  rw [← htake]
  simp [window, List.take_take, hle]

end Foundation
