import Unserding.Foundation.Buffer

/-!
# Writing into a buffer

A cursor is a buffer and the place that is written next.  What was written so
far is the text before it, as long as it all had room.
-/

namespace Foundation

variable {α : Type*}

structure Cursor (α : Type*) where
  buf : List α
  epi : Nat

namespace Cursor

/-- Write `src` and step behind it; `rest` is left there to be written over. -/
def write (src rest : List α) (c : Cursor α) : Cursor α :=
  ⟨blit c.buf c.epi (src ++ rest), c.epi + src.length⟩

def through (f : List α → List α × Nat) (c : Cursor α) : Cursor α :=
  let r := f (c.buf.drop c.epi)
  ⟨c.buf.take c.epi ++ r.1, c.epi + r.2⟩

def text (c : Cursor α) : List α := c.buf.take c.epi

structure Wrote (c : Cursor α) (size : Nat) (text : List α) : Prop where
  length : c.buf.length = size
  epi : c.epi = text.length
  le : text.length ≤ size
  reads : c.text = text

theorem wrote_nothing (buf : List α) : Wrote ⟨buf, 0⟩ buf.length [] :=
  ⟨rfl, rfl, Nat.zero_le _, List.take_zero⟩

theorem Wrote.write {c : Cursor α} {size : Nat} {text : List α}
    (h : c.Wrote size text) {src rest : List α}
    (hroom : text.length + src.length + rest.length ≤ size) :
    (c.write src rest).Wrote size (text ++ src) := by
  have hle : c.epi ≤ c.buf.length := by
    rw [h.epi, h.length]
    exact h.le
  refine ⟨?_, ?_, ?_, ?_⟩
  · rw [← h.length]
    apply length_blit
    rw [List.length_append, h.epi, h.length]
    omega
  · rw [List.length_append, ← h.epi]
    rfl
  · rw [List.length_append]
    omega
  · have hsaid : c.buf.take c.epi = text := h.reads
    rw [Cursor.text, Cursor.write, take_blit hle, hsaid]

theorem Wrote.through {c : Cursor α} {size : Nat} {text : List α}
    (h : c.Wrote size text) {f : List α → List α × Nat}
    (hlen : (f (c.buf.drop c.epi)).1.length = (c.buf.drop c.epi).length)
    (hle : (f (c.buf.drop c.epi)).2 ≤ (c.buf.drop c.epi).length) :
    (c.through f).Wrote size
      (text ++ (f (c.buf.drop c.epi)).1.take (f (c.buf.drop c.epi)).2) := by
  have hepi : c.epi ≤ c.buf.length := by
    rw [h.epi, h.length]
    exact h.le
  have hrest : (c.buf.drop c.epi).length = size - text.length := by
    rw [List.length_drop, h.length, h.epi]
  have htake : ((f (c.buf.drop c.epi)).1.take (f (c.buf.drop c.epi)).2).length =
      (f (c.buf.drop c.epi)).2 := List.length_take_of_le (hlen ▸ hle)
  have hfront : (c.buf.take c.epi).length = c.epi := List.length_take_of_le hepi
  have hroom := h.le
  refine ⟨?_, ?_, ?_, ?_⟩
  · rw [Cursor.through, List.length_append, hlen, hrest, hfront, h.epi]
    omega
  · rw [List.length_append, htake, ← h.epi]
    rfl
  · rw [List.length_append, htake]
    omega
  · have hsaid : c.buf.take c.epi = text := h.reads
    rw [Cursor.text, Cursor.through, hsaid]
    simp only [h.epi, List.take_length_add_append]

end Cursor

end Foundation
