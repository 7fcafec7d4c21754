import Unserding.Foundation.Undo

/-!
# The block cipher

`btea.c`: a block is a ring of words, and every word is mixed with its two
neighbours, once in every round.  Encryption goes up the ring and carries the
word it has just written, decryption goes down and carries likewise.
-/

namespace Unserding

open Foundation

def bteaDelta : UInt32 := 0x9e3779b9

/-- `struct btea_state_s`, and the words of the block. -/
structure BteaState where
  y : UInt32
  z : UInt32
  sum : UInt32
  e : UInt32
  data : Nat → UInt32

abbrev BteaKey := Vector UInt32 4

def keyIdx (p e : UInt32) : Nat := ((p &&& 3) ^^^ e).toNat

def scramble (st : BteaState) (key : BteaKey) (p : UInt32) : UInt32 :=
  ((st.z >>> 5 ^^^ st.y <<< 2) + (st.y >>> 3 ^^^ st.z <<< 4)) ^^^
    ((st.sum ^^^ st.y) + (key.toList.getD (keyIdx p st.e) 0 ^^^ st.z))

theorem keyIdx_lt (p sum : UInt32) : keyIdx p ((sum >>> 2) &&& 3) < 4 := by
  have hlow (x : UInt32) : (x &&& 3).toNat < 2 ^ 2 := by
    rw [UInt32.toNat_and]
    exact Nat.and_lt_two_pow _ (by decide)
  rw [keyIdx, UInt32.toNat_xor]
  exact Nat.xor_lt_two_pow (hlow p) (hlow _)

def bteaRounds (dlen : Nat) : Nat := 6 + 52 / dlen

/-! ## Encryption -/

def bteaEncWord (key : BteaKey) (st : BteaState) (p q : Nat) : BteaState :=
  let st := { st with y := st.data q }
  let w := st.data p + scramble st key (UInt32.ofNat p)
  { st with z := w, data := Function.update st.data p w }

def bteaEncRound (dlen : Nat) (key : BteaKey) (st : BteaState) : BteaState :=
  let st := { st with sum := st.sum + bteaDelta }
  let st := { st with e := (st.sum >>> 2) &&& 3 }
  let st := (List.range (dlen - 1)).foldl
    (fun st p => bteaEncWord key st p (p + 1)) st
  bteaEncWord key st (dlen - 1) 0

def bteaEncLoop (dlen : Nat) (key : BteaKey) : Nat → BteaState → BteaState
  | 0, st => st
  | rounds + 1, st => bteaEncLoop dlen key rounds (bteaEncRound dlen key st)

def bteaEnc (data : Nat → UInt32) (dlen : Nat) (key : BteaKey) :
    Nat → UInt32 :=
  (bteaEncLoop dlen key (bteaRounds dlen) ⟨0, data (dlen - 1), 0, 0, data⟩).data

/-! ## Decryption -/

def bteaDecWord (key : BteaKey) (st : BteaState) (p q : Nat) : BteaState :=
  let st := { st with z := st.data q }
  let w := st.data p - scramble st key (UInt32.ofNat p)
  { st with y := w, data := Function.update st.data p w }

def bteaDecWords (key : BteaKey) : Nat → BteaState → BteaState
  | 0, st => st
  | p + 1, st => bteaDecWords key p (bteaDecWord key st (p + 1) p)

def bteaDecRound (dlen : Nat) (key : BteaKey) (st : BteaState) : BteaState :=
  let st := { st with e := (st.sum >>> 2) &&& 3 }
  let st := bteaDecWords key (dlen - 1) st
  bteaDecWord key st 0 (dlen - 1)

/--
The loop, which ends when `sum` is 0.  Returned is also how many rounds it ran;
`fuel` bounds them.
-/
def bteaDecLoop (dlen : Nat) (key : BteaKey) :
    Nat → BteaState → Option ((Nat → UInt32) × Nat)
  | 0, _ => none
  | fuel + 1, st =>
      let st := bteaDecRound dlen key st
      let st := { st with sum := st.sum - bteaDelta }
      if st.sum ≠ 0 then
        (bteaDecLoop dlen key fuel st).map fun r => (r.1, r.2 + 1)
      else some (st.data, 1)

def bteaDec (fuel : Nat) (data : Nat → UInt32) (dlen : Nat) (key : BteaKey) :
    Option ((Nat → UInt32) × Nat) :=
  bteaDecLoop dlen key fuel
    ⟨data 0, 0, UInt32.ofNat (bteaRounds dlen) * bteaDelta, 0, data⟩

/-! ## The ring -/

def nextWord (n p : Nat) : Nat := if p + 1 = n then 0 else p + 1

def prevWord (n p : Nat) : Nat := if p = 0 then n - 1 else p - 1

def ringMask (n : Nat) (key : BteaKey) (sum : UInt32) (p : Nat)
    (words : Nat → UInt32) : UInt32 :=
  scramble ⟨words (nextWord n p), words (prevWord n p), sum,
    (sum >>> 2) &&& 3, words⟩ key (UInt32.ofNat p)

def ringEnc (n : Nat) (key : BteaKey) (sum : UInt32) (words : Nat → UInt32)
    (p : Nat) : Nat → UInt32 :=
  maskAt (· + ·) (ringMask n key sum p) p words

def ringDec (n : Nat) (key : BteaKey) (sum : UInt32) (words : Nat → UInt32)
    (p : Nat) : Nat → UInt32 :=
  maskAt (· - ·) (ringMask n key sum p) p words

def ringEncRound (n : Nat) (key : BteaKey) (sum : UInt32)
    (words : Nat → UInt32) : Nat → UInt32 :=
  (List.range n).foldl (ringEnc n key sum) words

def ringDecRound (n : Nat) (key : BteaKey) (sum : UInt32)
    (words : Nat → UInt32) : Nat → UInt32 :=
  (List.range n).reverse.foldl (ringDec n key sum) words

section Ring

variable {n : Nat} (hn : 2 ≤ n) (key : BteaKey) (sum : UInt32)

include hn

theorem ringMask_update (p : Nat) (words : Nat → UInt32) (v : UInt32) :
    ringMask n key sum p (Function.update words p v) =
      ringMask n key sum p words := by
  have hnext : nextWord n p ≠ p := by
    unfold nextWord
    split <;> omega
  have hprev : prevWord n p ≠ p := by
    unfold prevWord
    split <;> omega
  rw [ringMask, ringMask, Function.update_of_ne hnext,
    Function.update_of_ne hprev]
  rfl

theorem ringDec_ringEnc (p : Nat) (words : Nat → UInt32) :
    ringDec n key sum (ringEnc n key sum words p) p = words :=
  maskAt_maskAt UInt32.add_sub_cancel (ringMask_update hn key sum p) words

theorem ringEnc_ringDec (p : Nat) (words : Nat → UInt32) :
    ringEnc n key sum (ringDec n key sum words p) p = words :=
  maskAt_maskAt UInt32.sub_add_cancel (ringMask_update hn key sum p) words

theorem ringDecRound_ringEncRound (words : Nat → UInt32) :
    ringDecRound n key sum (ringEncRound n key sum words) = words :=
  foldl_undo _ (fun p _ => ringDec_ringEnc hn key sum p) words

theorem ringEncRound_ringDecRound (words : Nat → UInt32) :
    ringEncRound n key sum (ringDecRound n key sum words) = words :=
  foldl_redo _ (fun p _ => ringEnc_ringDec hn key sum p) words

end Ring

/-! ## Carrying the neighbours -/

structure CarriesUp (n p : Nat) (st : BteaState) : Prop where
  e : st.e = (st.sum >>> 2) &&& 3
  z : st.z = st.data (prevWord n p)

structure CarriesDown (n p : Nat) (st : BteaState) : Prop where
  e : st.e = (st.sum >>> 2) &&& 3
  y : st.y = st.data (nextWord n p)

section Carry

variable {n : Nat} (key : BteaKey)

theorem bteaEncWord_ring {p : Nat} {st : BteaState} (h : CarriesUp n p st) :
    let st' := bteaEncWord key st p (nextWord n p)
    st'.data = ringEnc n key st.sum st.data p ∧ st'.z = st'.data p ∧
      st'.sum = st.sum ∧ st'.e = st.e := by
  obtain ⟨y, z, sum, e, data⟩ := st
  have he : e = (sum >>> 2) &&& 3 := h.e
  have hz : z = data (prevWord n p) := h.z
  subst he hz
  refine ⟨rfl, ?_, rfl, rfl⟩
  simp [bteaEncWord]

theorem bteaDecWord_ring {p : Nat} {st : BteaState} (h : CarriesDown n p st) :
    let st' := bteaDecWord key st p (prevWord n p)
    st'.data = ringDec n key st.sum st.data p ∧ st'.y = st'.data p ∧
      st'.sum = st.sum ∧ st'.e = st.e := by
  obtain ⟨y, z, sum, e, data⟩ := st
  have he : e = (sum >>> 2) &&& 3 := h.e
  have hy : y = data (nextWord n p) := h.y
  subst he hy
  refine ⟨rfl, ?_, rfl, rfl⟩
  simp [bteaDecWord]

theorem bteaEncWords_ring {st : BteaState} (h : CarriesUp n 0 st) {m : Nat}
    (hm : m < n) :
    let st' := (List.range m).foldl
      (fun st p => bteaEncWord key st p (p + 1)) st
    st'.data = (List.range m).foldl (ringEnc n key st.sum) st.data ∧
      CarriesUp n m st' ∧ st'.sum = st.sum := by
  induction m with
  | zero => exact ⟨rfl, h, rfl⟩
  | succ m ih =>
      obtain ⟨hdata, hcarry, hsum⟩ := ih (Nat.lt_of_succ_lt hm)
      have hnext : nextWord n m = m + 1 := if_neg hm.ne
      have hword := bteaEncWord_ring key hcarry
      rw [hnext] at hword
      obtain ⟨hdata', hz', hsum', he'⟩ := hword
      simp only [List.range_succ, List.foldl_append, List.foldl_cons,
        List.foldl_nil]
      refine ⟨?_, ⟨?_, ?_⟩, hsum'.trans hsum⟩
      · rw [hdata', hsum, hdata]
      · rw [he', hsum']
        exact hcarry.e
      · exact hz'

theorem bteaDecWords_ring {st : BteaState} {m : Nat} (hm : m < n)
    (h : CarriesDown n m st) :
    let st' := bteaDecWord key (bteaDecWords key m st) 0 (n - 1)
    st'.data = (List.range (m + 1)).reverse.foldl (ringDec n key st.sum)
        st.data ∧
      st'.y = st'.data 0 ∧ st'.sum = st.sum := by
  induction m generalizing st with
  | zero =>
      obtain ⟨hdata, hy, hsum, -⟩ := bteaDecWord_ring key h
      exact ⟨hdata, hy, hsum⟩
  | succ m ih =>
      have hword := bteaDecWord_ring key h
      rw [show prevWord n (m + 1) = m from rfl] at hword
      obtain ⟨hdata, hy, hsum, he⟩ := hword
      have hnext : nextWord n m = m + 1 := if_neg hm.ne
      have hcarry : CarriesDown n m (bteaDecWord key st (m + 1) m) := by
        refine ⟨?_, by rw [hnext]; exact hy⟩
        rw [he, hsum]
        exact h.e
      obtain ⟨hdata', hy', hsum'⟩ := ih (Nat.lt_of_succ_lt hm) hcarry
      refine ⟨?_, hy', hsum'.trans hsum⟩
      rw [List.range_succ, List.reverse_append, List.foldl_append]
      exact hdata'.trans (by rw [hsum, hdata]; rfl)

end Carry

section Rounds

variable {n : Nat} (hn : 2 ≤ n) (key : BteaKey)

include hn

theorem bteaEncRound_ring {st : BteaState} (h : st.z = st.data (n - 1)) :
    let st' := bteaEncRound n key st
    st'.data = ringEncRound n key (st.sum + bteaDelta) st.data ∧
      st'.z = st'.data (n - 1) ∧ st'.sum = st.sum + bteaDelta := by
  obtain ⟨m, rfl⟩ : ∃ m, n = m + 1 := ⟨n - 1, by omega⟩
  let start : BteaState :=
    { st with
      sum := st.sum + bteaDelta, e := ((st.sum + bteaDelta) >>> 2) &&& 3 }
  have hstart : CarriesUp (m + 1) 0 start := ⟨rfl, h⟩
  obtain ⟨hdata, hcarry, hsum⟩ :=
    bteaEncWords_ring key hstart (Nat.lt_succ_self m)
  have hword := bteaEncWord_ring key hcarry
  rw [show nextWord (m + 1) m = 0 from if_pos rfl] at hword
  obtain ⟨hdata', hz', hsum', -⟩ := hword
  refine ⟨?_, hz', hsum'.trans hsum⟩
  rw [ringEncRound, List.range_succ, List.foldl_append]
  exact hdata'.trans (by rw [hsum, hdata]; rfl)

theorem bteaDecRound_ring {st : BteaState} (h : st.y = st.data 0) :
    let st' := bteaDecRound n key st
    st'.data = ringDecRound n key st.sum st.data ∧
      st'.y = st'.data 0 ∧ st'.sum = st.sum := by
  obtain ⟨m, rfl⟩ : ∃ m, n = m + 1 := ⟨n - 1, by omega⟩
  have hstart : CarriesDown (m + 1) m { st with e := (st.sum >>> 2) &&& 3 } := by
    refine ⟨rfl, ?_⟩
    rw [show nextWord (m + 1) m = 0 from if_pos rfl]
    exact h
  exact bteaDecWords_ring key (Nat.lt_succ_self m) hstart

end Rounds

/-! ## The sum -/

def sumAfter (r : Nat) : UInt32 := UInt32.ofNat r * bteaDelta

theorem sumAfter_succ (r : Nat) :
    sumAfter (r + 1) = sumAfter r + bteaDelta := by
  rw [sumAfter, sumAfter, UInt32.ofNat_add, UInt32.add_mul]
  exact congrArg _ (UInt32.one_mul bteaDelta)

/-- `DELTA` is odd, so its multiples do not vanish before `2 ^ 32` of them. -/
theorem sumAfter_eq_zero_iff {r : Nat} (hr : r < 2 ^ 32) :
    sumAfter r = 0 ↔ r = 0 := by
  refine ⟨fun h => ?_, fun h => by subst h; rfl⟩
  have hinverse : bteaDelta * 0x144cbc89 = 1 := by decide
  have hzero : UInt32.ofNat r = 0 := calc
    UInt32.ofNat r = UInt32.ofNat r * (bteaDelta * 0x144cbc89) := by
      rw [hinverse, UInt32.mul_one]
    _ = sumAfter r * 0x144cbc89 := (UInt32.mul_assoc ..).symm
    _ = 0 := by rw [h, UInt32.zero_mul]
  have hnat := congrArg UInt32.toNat hzero
  rwa [UInt32.toNat_ofNat_of_lt' hr] at hnat

/-! ## The loops -/

theorem bteaRounds_lt (n : Nat) : bteaRounds n < 2 ^ 32 := by
  have hquot : 52 / n ≤ 52 := Nat.div_le_self 52 n
  simp only [bteaRounds]
  omega

section Loops

variable {n : Nat} (hn : 2 ≤ n) (key : BteaKey)

include hn

theorem bteaEncLoop_ring {rounds r : Nat} {st : BteaState}
    (hz : st.z = st.data (n - 1)) (hsum : st.sum = sumAfter r) :
    (bteaEncLoop n key rounds st).data =
      (List.range' r rounds).foldl
        (fun words i => ringEncRound n key (sumAfter (i + 1)) words)
        st.data := by
  induction rounds generalizing r st with
  | zero => rfl
  | succ rounds ih =>
      obtain ⟨hdata, hz', hsum'⟩ := bteaEncRound_ring hn key hz
      rw [hsum, ← sumAfter_succ] at hdata hsum'
      rw [bteaEncLoop, ih hz' hsum', hdata]
      rfl

theorem bteaDecLoop_ring {fuel r : Nat} {st : BteaState} (hr : r < 2 ^ 32)
    (hfuel : r < fuel) (hy : st.y = st.data 0)
    (hsum : st.sum = sumAfter (r + 1)) :
    bteaDecLoop n key fuel st =
      some ((List.range (r + 1)).reverse.foldl
        (fun words i => ringDecRound n key (sumAfter (i + 1)) words)
        st.data, r + 1) := by
  induction fuel generalizing r st with
  | zero => omega
  | succ fuel ih =>
      obtain ⟨hdata, hy', hsum'⟩ := bteaDecRound_ring hn key hy
      rw [hsum] at hdata hsum'
      have hleft : (bteaDecRound n key st).sum - bteaDelta = sumAfter r := by
        rw [hsum', sumAfter_succ, UInt32.add_sub_cancel]
      simp only [bteaDecLoop, hleft]
      cases r with
      | zero =>
          rw [if_neg (not_not.mpr (show sumAfter 0 = 0 from rfl)), hdata]
          rfl
      | succ r =>
          have hmore : sumAfter (r + 1) ≠ 0 := fun h =>
            r.succ_ne_zero ((sumAfter_eq_zero_iff hr).mp h)
          have hrest := @ih r
            { bteaDecRound n key st with sum := sumAfter (r + 1) }
            (Nat.lt_of_succ_lt hr) (Nat.lt_of_succ_lt_succ hfuel) hy' rfl
          rw [if_pos hmore, hrest, Option.map_some, hdata,
            List.range_succ (n := r + 1), List.reverse_append,
            List.foldl_append]
          rfl

theorem bteaEnc_ring (data : Nat → UInt32) :
    bteaEnc data n key =
      (List.range (bteaRounds n)).foldl
        (fun words i => ringEncRound n key (sumAfter (i + 1)) words) data := by
  rw [List.range_eq_range']
  exact bteaEncLoop_ring hn key rfl rfl

theorem bteaDec_ring {fuel : Nat} (hfuel : bteaRounds n ≤ fuel)
    (data : Nat → UInt32) :
    bteaDec fuel data n key =
      some ((List.range (bteaRounds n)).reverse.foldl
        (fun words i => ringDecRound n key (sumAfter (i + 1)) words) data,
        bteaRounds n) := by
  obtain ⟨r, hr⟩ : ∃ r, bteaRounds n = r + 1 := ⟨5 + 52 / n, by
    simp only [bteaRounds]
    omega⟩
  have hlt := bteaRounds_lt n
  rw [hr] at hfuel hlt ⊢
  exact bteaDecLoop_ring hn key (Nat.lt_of_succ_lt hlt) hfuel rfl
    (by rw [hr]; rfl)

end Loops

/--
Decryption and encryption undo each other, and decryption stops after as many
rounds as encryption takes.
-/
theorem btea_inverse {n : Nat} (hn : 2 ≤ n) (data : Nat → UInt32)
    (key : BteaKey) {fuel : Nat}
    (hfuel : bteaRounds n ≤ fuel) :
    bteaDec fuel (bteaEnc data n key) n key = some (data, bteaRounds n) ∧
      ∃ plain, bteaDec fuel data n key = some (plain, bteaRounds n) ∧
        bteaEnc plain n key = data := by
  refine ⟨?_, _, bteaDec_ring hn key hfuel data, ?_⟩
  · rw [bteaEnc_ring hn, bteaDec_ring hn key hfuel]
    congr 2
    exact foldl_undo _
      (fun i _ => ringDecRound_ringEncRound hn key (sumAfter (i + 1))) data
  · rw [bteaEnc_ring hn]
    exact foldl_redo _
      (fun i _ => ringEncRound_ringDecRound hn key (sumAfter (i + 1))) data

theorem btea_inverse_witness :
    bteaDec 32 (bteaEnc UInt32.ofNat 2 #v[1, 2, 3, 4]) 2 #v[1, 2, 3, 4] =
        some (UInt32.ofNat, 32) ∧
      ∃ plain, bteaDec 32 UInt32.ofNat 2 #v[1, 2, 3, 4] = some (plain, 32) ∧
        bteaEnc plain 2 #v[1, 2, 3, 4] = UInt32.ofNat :=
  btea_inverse le_rfl UInt32.ofNat #v[1, 2, 3, 4] (by decide)

end Unserding
