import Mathlib.Data.List.Chain
import Mathlib.Tactic

/-!
# Numbers that are missed

A receiver of numbered packets sees the numbers modulo some `W`, each of them
once or several times in a row.  From one number to the next it can tell how many
it has missed, as long as these are fewer than `W`.
-/

namespace Foundation

variable {α β : Type*}

/-! ## Repeated elements -/

/-- `seen` is `said` with every element repeated, at least once each. -/
inductive Stutters : List α → List α → Prop where
  | nil : Stutters [] []
  | next {seen said : List α} (h : Stutters seen said) (a : α) :
      Stutters (seen ++ [a]) (said ++ [a])
  | again {seen said : List α} {a : α} (h : Stutters seen (said ++ [a])) :
      Stutters (seen ++ [a]) (said ++ [a])

theorem Stutters.getLast? {seen said : List α} (h : Stutters seen said) :
    seen.getLast? = said.getLast? := by
  cases h <;> simp

theorem Stutters.map (f : α → β) {seen said : List α} (h : Stutters seen said) :
    Stutters (seen.map f) (said.map f) := by
  induction h with
  | nil => exact .nil
  | next _ a ih => simpa using ih.next (f a)
  | again _ ih =>
      rw [List.map_append] at ih
      simpa using ih.again

/-! ## Gaps -/

/-- How many numbers lie between `p` and `p'`; there is none from `p` to `p`. -/
def gap (W p p' : Nat) : Nat := (p' + W - p) % W - 1

def missed (W : Nat) : List Nat → Nat
  | p :: p' :: rest => gap W p p' + missed W (p' :: rest)
  | _ => 0

theorem gap_self (W p : Nat) : gap W p p = 0 := by simp [gap]

theorem gap_mod {W i i' : Nat} (hlt : i < i') (hnear : i' < i + W) :
    gap W (i % W) (i' % W) = i' - i - 1 := by
  have hpos : 0 < W := by omega
  have hi := Nat.mod_lt i hpos
  have hi' := Nat.mod_lt i' hpos
  have hsame : (i' % W + W - i % W) % W = (i' - i) % W := by
    change i' % W + W - i % W ≡ i' - i [MOD W]
    apply Nat.ModEq.add_right_cancel' (i % W)
    rw [Nat.sub_add_cancel (by omega)]
    calc i' % W + W ≡ i' [MOD W] := by simp [Nat.ModEq]
      _ = i' - i + i := (Nat.sub_add_cancel hlt.le).symm
      _ ≡ i' - i + i % W [MOD W] := by simp [Nat.ModEq]
  rw [gap, hsame, Nat.mod_eq_of_lt (by omega)]

theorem missed_append (W : Nat) (ps : List Nat) (p p' : Nat) :
    missed W (ps ++ [p] ++ [p']) = missed W (ps ++ [p]) + gap W p p' := by
  induction ps with
  | nil => simp [missed]
  | cons q ps ih =>
      cases ps with
      | nil => simp [missed]
      | cons q' ps =>
          simp only [List.cons_append, missed] at ih ⊢
          rw [ih, Nat.add_assoc]

theorem missed_snoc {W p : Nat} {ps ps' : List Nat}
    (hlast : ps.getLast? = ps'.getLast?) (h : missed W ps = missed W ps') :
    missed W (ps ++ [p]) = missed W (ps' ++ [p]) := by
  rcases List.eq_nil_or_concat ps with rfl | ⟨init, q, rfl⟩
  · have hnil : ps' = [] := by simpa using hlast.symm
    rw [hnil]
  · rcases List.eq_nil_or_concat ps' with rfl | ⟨init', q', rfl⟩
    · simp at hlast
    · simp only [List.concat_eq_append] at hlast h ⊢
      obtain rfl : q = q' := by simpa using hlast
      rw [missed_append, missed_append, h]

theorem Stutters.missed {W : Nat} {seen said : List Nat} (h : Stutters seen said) :
    missed W seen = missed W said := by
  induction h with
  | nil => rfl
  | next h p ih => exact missed_snoc h.getLast? ih
  | @again seen said p h ih =>
      have hlast : seen.getLast? = some p := by simpa using h.getLast?
      obtain ⟨init, rfl⟩ : ∃ init, seen = init ++ [p] :=
        ⟨seen.dropLast, (List.dropLast_append_getLast? p hlast).symm⟩
      rw [missed_append, gap_self, Nat.add_zero, ih]

/-- Numbers that go up, with fewer than `W - 1` left out in a row. -/
def Upward (W : Nat) (is : List Nat) : Prop :=
  is.IsChain fun i i' => i < i' ∧ i' < i + W

theorem missed_add_length {W : Nat} {is : List Nat} (h : Upward W is)
    (hne : is ≠ []) :
    is.head hne + (missed W (is.map (· % W)) + is.length) = is.getLast hne + 1 := by
  induction is with
  | nil => contradiction
  | cons i is ih =>
      cases is with
      | nil => simp [missed]
      | cons i' is =>
          obtain ⟨⟨hlt, hnear⟩, hrest⟩ := List.isChain_cons_cons.mp h
          have htail := ih hrest (List.cons_ne_nil i' is)
          have hgap := gap_mod hlt hnear
          simp only [List.map_cons, missed, List.head_cons, List.length_cons,
            List.getLast_cons_cons] at htail ⊢
          rw [hgap]
          omega

end Foundation
