import Mathlib.Tactic

/-!
# Numerals, fields and lines

Numbers in a base of at most sixteen as bytes, with leading zeroes or without,
and how they are read back.  A numeral has none of the characters that separate
fields, so that a text of fields is taken apart again, and a text of lines is
where no line has a newline of its own.
-/

namespace Foundation

/-! ## Digits -/

def digitByte (d : Nat) : UInt8 := UInt8.ofNat d.digitChar.toNat

def digitValue (c : UInt8) : Nat :=
  if c < 0x61 then c.toNat - 0x30 else c.toNat - 0x57

def IsDigit (c : UInt8) : Prop := 0x30 ≤ c ∧ c ≤ 0x39 ∨ 0x61 ≤ c ∧ c ≤ 0x66

instance (c : UInt8) : Decidable (IsDigit c) := by
  unfold IsDigit
  infer_instance

theorem digitByte_spec {d : Nat} (h : d < 16) :
    digitValue (digitByte d) = d ∧ IsDigit (digitByte d) := by
  revert d
  decide

/-! ## Numerals -/

def numeral (b n : Nat) : List UInt8 :=
  (Nat.toDigits b n).map fun c => UInt8.ofNat c.toNat

def padded (width b n : Nat) : List UInt8 :=
  List.replicate (width - (numeral b n).length) 0x30 ++ numeral b n

def readNumeral (b : Nat) (text : List UInt8) : Nat :=
  text.foldl (fun n c => n * b + digitValue c) 0

theorem numeral_eq {b : Nat} (hb : 1 < b) (n : Nat) :
    numeral b n =
      (if n < b then [] else numeral b (n / b)) ++ [digitByte (n % b)] := by
  unfold numeral
  rw [Nat.toDigits_eq_if hb]
  split
  · rename_i hlt
    rw [Nat.mod_eq_of_lt hlt]
    rfl
  · rw [List.map_append]
    rfl

section Base

variable {b : Nat} (hb : 1 < b) (hb' : b ≤ 16)

include hb hb'

theorem readNumeral_numeral (n : Nat) : readNumeral b (numeral b n) = n := by
  induction n using Nat.strongRecOn with
  | ind n ih =>
      have hdigit := (digitByte_spec (Nat.lt_of_lt_of_le
        (Nat.mod_lt n (Nat.zero_lt_of_lt hb)) hb')).1
      rw [numeral_eq hb, readNumeral, List.foldl_append]
      split
      · rename_i hlt
        simp only [List.foldl_nil, List.foldl_cons, hdigit, Nat.zero_mul,
          Nat.zero_add]
        exact Nat.mod_eq_of_lt hlt
      · rename_i hge
        have hquot := ih (n / b) (Nat.div_lt_self (by omega) hb)
        unfold readNumeral at hquot
        simp only [hquot, List.foldl_cons, List.foldl_nil, hdigit]
        exact Nat.div_add_mod' n b

theorem isDigit_of_mem_numeral (n : Nat) : ∀ c ∈ numeral b n, IsDigit c := by
  induction n using Nat.strongRecOn with
  | ind n ih =>
      have hdigit := (digitByte_spec (Nat.lt_of_lt_of_le
        (Nat.mod_lt n (Nat.zero_lt_of_lt hb)) hb')).2
      rw [numeral_eq hb]
      split
      · simpa using hdigit
      · rename_i hge
        have hquot := ih (n / b) (Nat.div_lt_self (by omega) hb)
        intro c hc
        rcases List.mem_append.mp hc with hfront | hlast
        · exact hquot c hfront
        · rw [List.mem_singleton.mp hlast]
          exact hdigit

theorem readNumeral_padded (width n : Nat) :
    readNumeral b (padded width b n) = n := by
  have hzeroes : ∀ k, (List.replicate k (0x30 : UInt8)).foldl
      (fun n c => n * b + digitValue c) 0 = 0 := by
    intro k
    induction k with
    | zero => rfl
    | succ k ih =>
        rw [List.replicate_succ', List.foldl_append, ih]
        simp [digitValue]
  rw [padded, readNumeral, List.foldl_append, hzeroes]
  exact readNumeral_numeral hb hb' n

theorem isDigit_of_mem_padded (width n : Nat) :
    ∀ c ∈ padded width b n, IsDigit c := by
  intro c hc
  rcases List.mem_append.mp hc with hzero | hdigit
  · rw [List.eq_of_mem_replicate hzero]
    decide
  · exact isDigit_of_mem_numeral hb hb' n c hdigit

end Base

theorem length_numeral_le {b : Nat} (hb : 1 < b) {n k : Nat} (hk : 0 < k)
    (h : n < b ^ k) : (numeral b n).length ≤ k := by
  rw [numeral, List.length_map, Nat.length_toDigits_le_iff hb hk]
  exact h

theorem length_padded_le {b : Nat} (hb : 1 < b) {width n k : Nat} (hk : 0 < k)
    (h : n < b ^ k) (hwidth : width ≤ k) : (padded width b n).length ≤ k := by
  have hlen := length_numeral_le hb hk h
  rw [padded, List.length_append, List.length_replicate]
  omega

/-! ## Signed numerals -/

def minus : UInt8 := 0x2d

def signed (b : Nat) (n : Int) : List UInt8 :=
  if n < 0 then minus :: numeral b n.natAbs else numeral b n.natAbs

def readSigned (b : Nat) (text : List UInt8) : Int :=
  match text with
  | [] => 0
  | c :: rest =>
      if c = minus then -(readNumeral b rest : Int) else readNumeral b (c :: rest)

theorem readSigned_signed {b : Nat} (hb : 1 < b) (hb' : b ≤ 16) (n : Int) :
    readSigned b (signed b n) = n := by
  have hread := readNumeral_numeral hb hb' n.natAbs
  unfold signed
  split
  · rw [readSigned, if_pos rfl, hread]
    omega
  · have hdigits := isDigit_of_mem_numeral hb hb' n.natAbs
    cases htext : numeral b n.natAbs with
    | nil =>
        rw [htext] at hread
        have hzero : n.natAbs = 0 := hread.symm
        rw [readSigned]
        omega
    | cons c rest =>
        rw [htext] at hread hdigits
        have hc : c ≠ minus := by
          rintro rfl
          exact absurd (hdigits minus List.mem_cons_self) (by decide)
        rw [readSigned, if_neg hc, hread]
        omega

theorem mem_signed {b : Nat} (hb : 1 < b) (hb' : b ≤ 16) (n : Int) :
    ∀ c ∈ signed b n, c = minus ∨ IsDigit c := by
  have hdigits := isDigit_of_mem_numeral hb hb' n.natAbs
  unfold signed
  split
  · simpa using fun c hc => Or.inr (hdigits c hc)
  · exact fun c hc => .inr (hdigits c hc)

/-! ## Fields -/

def cutAt (sep : UInt8) (text : List UInt8) : Option (List UInt8 × List UInt8) :=
  match text.dropWhile (· != sep) with
  | [] => none
  | _ :: rest => some (text.takeWhile (· != sep), rest)

theorem cutAt_append {sep : UInt8} {field : List UInt8} (h : sep ∉ field)
    (rest : List UInt8) : cutAt sep (field ++ sep :: rest) = some (field, rest) := by
  have hall : ∀ c ∈ field, (c != sep) = true := by
    intro c hc
    simpa using fun heq : c = sep => h (heq ▸ hc)
  rw [cutAt, List.dropWhile_append_of_pos hall, List.takeWhile_append_of_pos hall]
  simp

/-! ## Lines -/

def newline : UInt8 := 0x0a

def linesOf (text : List UInt8) : List (List UInt8) :=
  (text.splitOn newline).dropLast

def asLines (bodies : List (List UInt8)) : List UInt8 :=
  bodies.flatMap fun body => body ++ [newline]

theorem linesOf_asLines (bodies : List (List UInt8)) :
    linesOf (asLines bodies) = bodies.flatMap (List.splitOn newline) := by
  have hsplit : (asLines bodies).splitOn newline =
      bodies.flatMap (List.splitOn newline) ++ [[]] := by
    induction bodies with
    | nil => rfl
    | cons body bodies ih =>
        simp only [asLines] at ih
        simp [asLines, List.splitOn_append_cons_self, ih]
  rw [linesOf, hsplit, List.dropLast_concat]

theorem one_lt_length_splitOn {body : List UInt8} (h : newline ∈ body) :
    1 < (body.splitOn newline).length := by
  obtain ⟨before, after, rfl⟩ := List.append_of_mem h
  have hbefore := List.length_pos_iff.mpr (List.splitOn_ne_nil newline before)
  have hafter := List.length_pos_iff.mpr (List.splitOn_ne_nil newline after)
  rw [List.splitOn_append_cons_self, List.length_append]
  omega

theorem length_linesOf (bodies : List (List UInt8)) :
    bodies.length ≤ (linesOf (asLines bodies)).length ∧
      ((linesOf (asLines bodies)).length = bodies.length →
        ∀ body ∈ bodies, newline ∉ body) := by
  rw [linesOf_asLines]
  induction bodies with
  | nil => simp
  | cons body bodies ih =>
      have hpos := List.length_pos_iff.mpr (List.splitOn_ne_nil newline body)
      rw [List.flatMap_cons, List.length_append, List.length_cons]
      refine ⟨by omega, fun heq => List.forall_mem_cons.mpr ⟨fun hmem => ?_, ?_⟩⟩
      · have hmore := one_lt_length_splitOn hmem
        omega
      · exact ih.2 (by omega)

/--
A text of one record a line reads back as the records written if and only if
no record was written with a newline in it.
-/
theorem records_read_back_iff {β : Type*} {write : β → List UInt8}
    {read : List UInt8 → Option β} {records : List β}
    (h : ∀ r ∈ records, read (write r) = some r) :
    (linesOf (asLines (records.map write))).map read = records.map some ↔
      ∀ r ∈ records, newline ∉ write r := by
  constructor
  · intro hread r hr
    have hlen := congrArg List.length hread
    rw [List.length_map, List.length_map] at hlen
    have hone := (length_linesOf (records.map write)).2 (by
      rw [List.length_map]
      exact hlen)
    exact hone (write r) (List.mem_map_of_mem hr)
  · intro hone
    have hlines : linesOf (asLines (records.map write)) = records.map write := by
      rw [linesOf_asLines]
      clear h
      induction records with
      | nil => rfl
      | cons r records ih =>
          obtain ⟨hr, hrest⟩ := List.forall_mem_cons.mp hone
          rw [List.map_cons, List.flatMap_cons, List.splitOn_eq_singleton hr,
            ih hrest]
          rfl
    rw [hlines, List.map_map]
    exact List.map_congr_left h

end Foundation
