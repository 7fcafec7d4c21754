import Mathlib.Data.List.Infix
import Mathlib.Tactic

/-!
# Terminated strings in memory

A string is what lies in memory from an address up to the next terminator.  The
searches give offsets; writing a terminator over a character cuts a string in
two.
-/

namespace Foundation

variable {α : Type*} [DecidableEq α]

/-- A string that keeps clear of its terminator. -/
structure CString (nul : α) where
  chars : List α
  clear : nul ∉ chars

def CString.charAt {nul : α} (s : CString nul) (i : Nat) : α :=
  s.chars.getD i nul

def CString.mem {nul : α} (s : CString nul) : List α := s.chars ++ [nul]

def cstr (nul : α) (mem : List α) (p : Nat) : List α :=
  (mem.drop p).takeWhile (· ≠ nul)

/-! ## Searches -/

def strchr (c : α) : List α → Option Nat
  | [] => none
  | a :: s => if a = c then some 0 else (strchr c s).map (· + 1)

def strrchr (c : α) : List α → Option Nat
  | [] => none
  | a :: s =>
      match strrchr c s with
      | some i => some (i + 1)
      | none => if a = c then some 0 else none

def strstr (pat : List α) : List α → Option Nat
  | [] => if pat = [] then some 0 else none
  | a :: s => if pat <+: a :: s then some 0 else (strstr pat s).map (· + 1)

theorem strchr_eq_none_iff (c : α) (s : List α) : strchr c s = none ↔ c ∉ s := by
  induction s with
  | nil => simp [strchr]
  | cons a s ih =>
      by_cases h : a = c
      · simp [strchr, h]
      · simp [strchr, h, ih, Ne.symm h]

theorem strrchr_eq_none_iff (c : α) (s : List α) :
    strrchr c s = none ↔ c ∉ s := by
  induction s with
  | nil => simp [strrchr]
  | cons a s ih =>
      rw [strrchr]
      cases hs : strrchr c s with
      | none =>
          have hc := ih.mp hs
          by_cases h : a = c
          · simp [h]
          · simp [h, hc, Ne.symm h]
      | some i =>
          have hc : c ∈ s := by
            by_contra hc
            rw [ih.mpr hc] at hs
            contradiction
          simp [hc]

theorem strrchr_append_cons {c : α} (u : List α) {v : List α} (hv : c ∉ v) :
    strrchr c (u ++ c :: v) = some u.length := by
  induction u with
  | nil => simp [strrchr, (strrchr_eq_none_iff c v).mpr hv]
  | cons a u ih => simp [strrchr, ih]

theorem exists_last {c : α} {s : List α} (h : c ∈ s) :
    ∃ u v, s = u ++ c :: v ∧ c ∉ v := by
  induction s with
  | nil => contradiction
  | cons a s ih =>
      by_cases hs : c ∈ s
      · obtain ⟨u, v, rfl, hv⟩ := ih hs
        exact ⟨a :: u, v, rfl, hv⟩
      · obtain rfl : c = a := (List.mem_cons.mp h).resolve_right hs
        exact ⟨[], s, rfl, hs⟩

theorem eq_of_last {c : α} {u v u' v' : List α} (hv : c ∉ v) (hv' : c ∉ v')
    (h : u ++ c :: v = u' ++ c :: v') : u = u' ∧ v = v' := by
  have hlen := strrchr_append_cons u hv
  rw [h, strrchr_append_cons u' hv'] at hlen
  obtain ⟨hu, hcons⟩ := List.append_inj h (Option.some.inj hlen).symm
  exact ⟨hu, (List.cons.inj hcons).2⟩

theorem strstr_eq_none_iff (pat s : List α) :
    strstr pat s = none ↔ ¬ pat <:+: s := by
  induction s with
  | nil => simp [strstr]
  | cons a s ih =>
      by_cases h : pat <+: a :: s
      · simp [strstr, h, h.isInfix]
      · simp [strstr, h, ih, List.infix_cons_iff]

theorem strstr_eq_some {pat s : List α} {i : Nat} (h : strstr pat s = some i) :
    s = s.take i ++ pat ++ s.drop (i + pat.length) ∧
      ∀ j < i, ¬ pat <+: s.drop j := by
  induction s generalizing i with
  | nil =>
      rw [strstr] at h
      split at h
      · rename_i hpat
        obtain rfl : i = 0 := (Option.some.inj h).symm
        exact ⟨by simp [hpat], fun j hj => absurd hj (Nat.not_lt_zero j)⟩
      · contradiction
  | cons a s ih =>
      rw [strstr] at h
      split at h
      · rename_i hpat
        obtain rfl : i = 0 := (Option.some.inj h).symm
        obtain ⟨rest, hrest⟩ := hpat
        refine ⟨?_, fun j hj => absurd hj (Nat.not_lt_zero j)⟩
        rw [← hrest]
        simp
      · rename_i hpat
        obtain ⟨i, hi, rfl⟩ := Option.map_eq_some_iff.mp h
        obtain ⟨hs, hfirst⟩ := ih hi
        constructor
        · rw [Nat.add_right_comm, List.take_succ_cons, List.drop_succ_cons,
            List.cons_append, List.cons_append, ← hs]
        · intro j hj
          cases j with
          | zero => exact hpat
          | succ j => exact hfirst j (Nat.lt_of_succ_lt_succ hj)

/-! ## Strings in memory -/

structure Reads (nul : α) (mem : List α) (p : Nat) (s : List α) : Prop where
  lies : ∃ pre post, mem = pre ++ (s ++ nul :: post) ∧ pre.length = p
  clear : nul ∉ s

omit [DecidableEq α] in
theorem CString.reads {nul : α} (s : CString nul) :
    Reads nul s.mem 0 s.chars where
  lies := ⟨[], [], rfl, rfl⟩
  clear := s.clear

namespace Reads

variable {nul : α} {mem : List α} {p : Nat}

theorem cstr_eq {s : List α} (h : Reads nul mem p s) :
    cstr nul mem p = s := by
  obtain ⟨pre, post, rfl, rfl⟩ := h.lies
  have hs : ∀ c ∈ s, decide (c ≠ nul) = true := fun c hc =>
    decide_eq_true fun heq => h.clear (heq ▸ hc)
  rw [cstr, List.drop_left, List.takeWhile_append_of_pos hs]
  simp

omit [DecidableEq α] in
theorem drop {u v : List α} (h : Reads nul mem p (u ++ v)) :
    Reads nul mem (p + u.length) v := by
  obtain ⟨pre, post, rfl, rfl⟩ := h.lies
  refine ⟨⟨pre ++ u, post, by simp, by simp⟩, fun hv => ?_⟩
  exact h.clear (List.mem_append_right u hv)

omit [DecidableEq α] in
/-- A terminator in place of a character leaves the two strings around it. -/
theorem cut {u v : List α} {c : α} (h : Reads nul mem p (u ++ c :: v)) :
    Reads nul (mem.set (p + u.length) nul) p u ∧
      Reads nul (mem.set (p + u.length) nul) (p + u.length + 1) v := by
  obtain ⟨pre, post, rfl, rfl⟩ := h.lies
  have hu : nul ∉ u := fun hu => h.clear (List.mem_append_left _ hu)
  have hv : nul ∉ v := fun hv => h.clear (by simp [hv])
  have hset : (pre ++ (u ++ c :: v ++ nul :: post)).set
      (pre.length + u.length) nul = pre ++ (u ++ nul :: (v ++ nul :: post)) := by
    rw [List.set_append_right _ _ (Nat.le_add_right _ _),
      Nat.add_sub_cancel_left, List.append_assoc,
      List.set_append_right _ _ le_rfl, Nat.sub_self]
    rfl
  rw [hset]
  refine ⟨⟨⟨pre, v ++ nul :: post, rfl, rfl⟩, hu⟩, ?_⟩
  exact ⟨⟨pre ++ u ++ [nul], post, by simp, by simp; omega⟩, hv⟩

end Reads

end Foundation
