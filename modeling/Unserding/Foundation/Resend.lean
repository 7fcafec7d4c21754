import Mathlib.Data.List.Basic
import Mathlib.Tactic

/-!
# Offering one buffer again and again

A sender offers a whole buffer until all of it is taken at once, a limited
number of times, and starts over from its first cell after every offer of which
only a part was taken.  What was taken is a prefix of the buffer, whatever its
cells are, just when no two offers took anything.
-/

namespace Foundation

variable {α : Type*}

/-- The parts taken of up to `limit` offers, `ks i` cells at the i-th. -/
def resend (buf : List α) : Nat → (Nat → Nat) → List (List α)
  | 0, _ => []
  | limit + 1, ks =>
      if ks 0 = buf.length then [buf.take (ks 0)]
      else buf.take (ks 0) :: resend buf limit fun i => ks (i + 1)

def Untaken (n limit : Nat) (ks : Nat → Nat) : Prop :=
  ∀ j < limit, (∀ i < j, ks i ≠ n) → ks j = 0

def TakenOnce (n limit : Nat) (ks : Nat → Nat) : Prop :=
  ∀ i j, i < j → j < limit → (∀ m < j, ks m ≠ n) → ks i = 0 ∨ ks j = 0

theorem untaken_succ {n limit : Nat} {ks : Nat → Nat} (h : ks 0 ≠ n) :
    Untaken n (limit + 1) ks ↔
      ks 0 = 0 ∧ Untaken n limit fun i => ks (i + 1) := by
  constructor
  · intro huntaken
    refine ⟨huntaken 0 (Nat.succ_pos _) (fun i hi => absurd hi (by omega)), ?_⟩
    intro j hj hnone
    refine huntaken (j + 1) (by omega) fun i hi => ?_
    cases i with
    | zero => exact h
    | succ i => exact hnone i (by omega)
  · rintro ⟨hzero, hrest⟩ j hj hnone
    cases j with
    | zero => exact hzero
    | succ j => exact hrest j (by omega) fun i hi => hnone (i + 1) (by omega)

theorem takenOnce_succ {n limit : Nat} {ks : Nat → Nat} (h : ks 0 ≠ n) :
    TakenOnce n (limit + 1) ks ↔
      TakenOnce n limit (fun i => ks (i + 1)) ∧
        (ks 0 = 0 ∨ Untaken n limit fun i => ks (i + 1)) := by
  constructor
  · intro honce
    have hshift : ∀ j, (∀ m < j, ks (m + 1) ≠ n) → ∀ m < j + 1, ks m ≠ n := by
      intro j hnone m hm
      cases m with
      | zero => exact h
      | succ m => exact hnone m (by omega)
    refine ⟨fun i j hij hj hnone => ?_, ?_⟩
    · exact honce (i + 1) (j + 1) (by omega) (by omega) (hshift j hnone)
    · by_cases hzero : ks 0 = 0
      · exact .inl hzero
      · exact .inr fun j hj hnone => (honce 0 (j + 1) (by omega) (by omega)
          (hshift j hnone)).resolve_left hzero
  · rintro ⟨hrest, hfirst⟩ i j hij hj hnone
    obtain ⟨j, rfl⟩ : ∃ k, j = k + 1 := ⟨j - 1, by omega⟩
    have hnone' : ∀ m < j, ks (m + 1) ≠ n := fun m hm => hnone _ (by omega)
    cases i with
    | zero => exact hfirst.imp id fun huntaken => huntaken j (by omega) hnone'
    | succ i => exact hrest i j (by omega) (by omega) hnone'

section Parts

variable {a : α} {buf : List α}

theorem resend_cases (limit : Nat) (ks : Nat → Nat) :
    (Untaken (a :: buf).length limit ks ∧
      (resend (a :: buf) limit ks).flatten = []) ∨
    (¬ Untaken (a :: buf).length limit ks ∧
      ∃ rest, (resend (a :: buf) limit ks).flatten = a :: rest) := by
  induction limit generalizing ks with
  | zero => exact .inl ⟨fun j hj => absurd hj (by omega), rfl⟩
  | succ limit ih =>
      rw [resend]
      by_cases hfull : ks 0 = (a :: buf).length
      · rw [if_pos hfull, hfull, List.take_length]
        refine .inr ⟨fun h => ?_, _, List.append_nil _⟩
        have hzero := h 0 (Nat.succ_pos _) (fun i hi => absurd hi (by omega))
        rw [hfull] at hzero
        contradiction
      · rw [if_neg hfull, List.flatten_cons, untaken_succ hfull]
        by_cases hzero : ks 0 = 0
        · rw [hzero, List.take_zero, List.nil_append]
          simpa only [true_and] using ih fun i => ks (i + 1)
        · obtain ⟨k, hk⟩ := Nat.exists_eq_succ_of_ne_zero hzero
          rw [hk, List.take_succ_cons]
          exact .inr ⟨fun h => Nat.succ_ne_zero k h.1, _, rfl⟩

theorem resend_isPrefix (limit : Nat) {ks : Nat → Nat}
    (h : TakenOnce (a :: buf).length limit ks) :
    (resend (a :: buf) limit ks).flatten <+: a :: buf := by
  induction limit generalizing ks with
  | zero => exact List.nil_prefix
  | succ limit ih =>
      rw [resend]
      by_cases hfull : ks 0 = (a :: buf).length
      · rw [if_pos hfull, hfull, List.take_length, List.flatten_singleton]
      · rw [if_neg hfull, List.flatten_cons]
        obtain ⟨hrest, hzero | huntaken⟩ := (takenOnce_succ hfull).mp h
        · rw [hzero, List.take_zero, List.nil_append]
          exact ih hrest
        · rcases resend_cases limit fun i => ks (i + 1) with
            ⟨-, hnil⟩ | ⟨htaken, -⟩
          · rw [hnil, List.append_nil]
            exact List.take_prefix _ _
          · exact absurd huntaken htaken

theorem takenOnce_of_prefix {tail : List α} (ha : a ∉ tail) (limit : Nat)
    {ks : Nat → Nat}
    (h : (resend (a :: buf) limit ks).flatten <+: a :: tail) :
    TakenOnce (a :: buf).length limit ks := by
  induction limit generalizing ks with
  | zero => exact fun i j _ hj => absurd hj (by omega)
  | succ limit ih =>
      rw [resend] at h
      by_cases hfull : ks 0 = (a :: buf).length
      · exact fun i j hij _ hnone => absurd hfull (hnone 0 (by omega))
      · rw [if_neg hfull, List.flatten_cons] at h
        rw [takenOnce_succ hfull]
        by_cases hzero : ks 0 = 0
        · rw [hzero, List.take_zero, List.nil_append] at h
          exact ⟨ih h, .inl hzero⟩
        · rcases resend_cases limit fun i => ks (i + 1) with
            ⟨huntaken, -⟩ | ⟨-, rest, hrest⟩
          · exact ⟨fun i j _ hj hnone => .inr (huntaken j hj hnone),
              .inr huntaken⟩
          · obtain ⟨k, hk⟩ := Nat.exists_eq_succ_of_ne_zero hzero
            rw [hrest, hk, List.take_succ_cons, List.cons_append,
              List.prefix_cons_inj] at h
            have hmem : a ∈ buf.take k ++ a :: rest :=
              List.mem_append_right _ List.mem_cons_self
            exact absurd (h.subset hmem) ha

end Parts

theorem resend_prefix_iff [Nontrivial α] {n m : Nat} (hn : 0 < n) (hm : 0 < m)
    (limit : Nat) (ks : Nat → Nat) :
    (∀ buf : List α, buf.length = n →
      (resend (buf.take m) limit ks).flatten <+: buf) ↔
    TakenOnce (min m n) limit ks := by
  obtain ⟨n, rfl⟩ := Nat.exists_eq_succ_of_ne_zero hn.ne'
  obtain ⟨m, rfl⟩ := Nat.exists_eq_succ_of_ne_zero hm.ne'
  have hlen : ∀ (a : α) (buf : List α), buf.length = n →
      (a :: buf.take m).length = min (m + 1) (n + 1) := by
    intro a buf hbuf
    rw [List.length_cons, List.length_take, hbuf, Nat.succ_min_succ]
  constructor
  · intro h
    obtain ⟨a, b, hab⟩ := exists_pair_ne α
    have hrep : (List.replicate n b).length = n := List.length_replicate
    have hprefix := h (a :: List.replicate n b) (by rw [List.length_cons, hrep])
    rw [List.take_succ_cons] at hprefix
    have honce := takenOnce_of_prefix
      (fun hmem => hab (List.eq_of_mem_replicate hmem)) limit hprefix
    rwa [hlen a _ hrep] at honce
  · intro honce buf hbuf
    obtain ⟨a, rest, rfl⟩ := List.exists_cons_of_length_eq_add_one hbuf
    rw [List.length_cons, Nat.succ_inj] at hbuf
    rw [List.take_succ_cons]
    exact (resend_isPrefix limit (by rw [hlen a rest hbuf]; exact honce)).trans
      (List.take_succ_cons ▸ List.take_prefix (m + 1) (a :: rest))

end Foundation
