import Unserding.Foundation.LowBit
import Unserding.Foundation.System

/-!
# Sets of scores

The scores of `svc-pong.h`, 32 of them, are kept as the bits of a 32-bit set.
The lowest free score is looked up in a table, by what is left of the lowest
free bit modulo 37.
-/

namespace Unserding

open Foundation

def udLowScore : UInt32 := 31

def udEmptyPongSet : UInt32 := 0

def udPongSet (ps : UInt32) (s : UInt8) : UInt32 :=
  ps ||| (1 <<< (s.toUInt32 &&& udLowScore))

def udPongUnset (ps : UInt32) (s : UInt8) : UInt32 :=
  ps &&& ~~~ (1 <<< (s.toUInt32 &&& udLowScore))

def nrightZeroesTbl : List UInt8 :=
  [32, 0, 1, 26, 2, 23, 27, 0, 3,
    16, 24, 30, 28, 11, 0, 13, 4,
    7, 17, 0, 25, 22, 31, 15, 29,
    10, 12, 6, 0, 21, 14, 9, 5,
    20, 8, 19, 18]

def nrightZeroes (x : UInt32) : UInt8 :=
  nrightZeroesTbl.getD ((-x &&& x) % 37).toNat 0

def udFindScore (ps : UInt32) : UInt8 := nrightZeroes (~~~ ps)

/-! ## Runs -/

inductive ScoreCall where
  | udPongSet (s : UInt8)
  | udPongUnset (s : UInt8)

def ScoreCall.step (ps : UInt32) : ScoreCall → UInt32 × Unit
  | .udPongSet s => (Unserding.udPongSet ps s, ())
  | .udPongUnset s => (Unserding.udPongUnset ps s, ())

def scoring : System UInt32 ScoreCall Unit := ⟨ScoreCall.step⟩

def Scored (ps : UInt32) (i : Nat) : Bool := ps.toBitVec.getLsbD i

def takenAfter (i : Nat) (taken : Bool) : ScoreCall → Bool
  | .udPongSet s => if s.toNat % 32 = i then true else taken
  | .udPongUnset s => if s.toNat % 32 = i then false else taken

def taken (calls : List ScoreCall) (i : Nat) : Bool :=
  calls.foldl (takenAfter i) false

theorem scoreBit_eq (s : UInt8) :
    ((1 : UInt32) <<< (s.toUInt32 &&& udLowScore)).toBitVec =
      BitVec.twoPow 32 (s.toNat % 32) := by
  have hand : (s.toUInt32 &&& udLowScore).toNat = s.toNat % 32 := by
    rw [UInt32.toNat_and]
    exact Nat.and_two_pow_sub_one_eq_mod s.toNat 5
  have hshift : ((s.toUInt32 &&& udLowScore).toBitVec % 32).toNat =
      s.toNat % 32 := by
    rw [BitVec.toNat_umod, UInt32.toNat_toBitVec, hand]
    exact Nat.mod_mod s.toNat 32
  rw [UInt32.toBitVec_shiftLeft, BitVec.shiftLeft_eq', hshift]
  rfl

theorem scored_step (ps : UInt32) (c : ScoreCall) {i : Nat} (hi : i < 32) :
    Scored (c.step ps).1 i = takenAfter i (Scored ps i) c := by
  cases c with
  | udPongSet s =>
      have hs : s.toNat % 32 < 32 := Nat.mod_lt _ (by decide)
      simp only [Scored, ScoreCall.step, udPongSet, UInt32.toBitVec_or,
        scoreBit_eq, getLsbD_set _ hs, takenAfter]
      split <;> simp [*]
  | udPongUnset s =>
      have hs : s.toNat % 32 < 32 := Nat.mod_lt _ (by decide)
      simp only [Scored, ScoreCall.step, udPongUnset, UInt32.toBitVec_and,
        UInt32.toBitVec_not, scoreBit_eq, getLsbD_clear _ hs hi, takenAfter]
      split <;> simp [*]

theorem scored_run_from (calls : List ScoreCall) (ps : UInt32) {i : Nat}
    (hi : i < 32) : Scored (scoring.run ps calls) i =
      calls.foldl (takenAfter i) (Scored ps i) := by
  induction calls generalizing ps with
  | nil => rfl
  | cons c calls ih =>
      rw [System.run_cons, ih, List.foldl_cons]
      exact congrArg (calls.foldl _) (scored_step ps c hi)

theorem scored_run (calls : List ScoreCall) {i : Nat} (hi : i < 32) :
    Scored (scoring.run udEmptyPongSet calls) i = taken calls i := by
  have hempty : Scored udEmptyPongSet i = false := by
    simp [Scored, udEmptyPongSet]
  rw [scored_run_from calls _ hi, hempty]
  rfl

/-! ## The lowest free score -/

theorem nrightZeroesTbl_twoPow : ∀ i < 32,
    (nrightZeroesTbl.getD (2 ^ i % 37) 0).toNat = i := by decide

theorem nrightZeroes_lowest {x : UInt32} {i : Nat} (h : Lowest x.toBitVec i) :
    (nrightZeroes x).toNat = i := by
  have hi := h.lt
  have hbit : (-x &&& x).toNat = 2 ^ i := by
    rw [← UInt32.toNat_toBitVec, UInt32.toBitVec_and, UInt32.toBitVec_neg,
      h.neg_and_self, BitVec.toNat_twoPow]
    exact Nat.mod_eq_of_lt (Nat.pow_lt_pow_right (by decide) hi)
  rw [nrightZeroes, UInt32.toNat_mod, hbit]
  exact nrightZeroesTbl_twoPow i hi

theorem nrightZeroes_zero : nrightZeroes 0 = 32 := by decide

theorem lowest_free_iff (ps : UInt32) {i : Nat} (hi : i < 32) :
    Lowest (~~~ ps).toBitVec i ↔
      Scored ps i = false ∧ ∀ j < i, Scored ps j = true := by
  have hfree {j : Nat} (hj : j < 32) :
      (~~~ ps).toBitVec.getLsbD j = !Scored ps j := by
    rw [UInt32.toBitVec_not, BitVec.getLsbD_not, decide_eq_true hj,
      Bool.true_and, Scored]
  constructor
  · rintro ⟨hset, hbelow⟩
    rw [hfree hi, Bool.not_eq_true'] at hset
    refine ⟨hset, fun j hj => ?_⟩
    have hclear := hbelow j hj
    rwa [hfree (hj.trans hi), Bool.not_eq_false'] at hclear
  · rintro ⟨hset, hbelow⟩
    refine ⟨by rw [hfree hi, hset]; rfl, fun j hj => ?_⟩
    rw [hfree (hj.trans hi), hbelow j hj]
    rfl

theorem udFindScore_eq_iff (ps : UInt32) {i : Nat} (hi : i < 32) :
    (udFindScore ps).toNat = i ↔
      Scored ps i = false ∧ ∀ j < i, Scored ps j = true := by
  rw [← lowest_free_iff ps hi, udFindScore]
  by_cases hzero : (~~~ ps).toBitVec = 0#32
  · have hfull : ~~~ ps = 0 := UInt32.toBitVec_inj.mp hzero
    refine iff_of_false ?_ fun h => ?_
    · rw [hfull, nrightZeroes_zero]
      exact fun h => absurd hi (by simp [← h])
    · have hset := h.set
      rw [hzero] at hset
      simp at hset
  · obtain ⟨k, hk⟩ := exists_lowest hzero
    rw [nrightZeroes_lowest hk]
    exact ⟨fun h => h ▸ hk, fun h => hk.unique h⟩

theorem udFindScore_full_iff (ps : UInt32) :
    udFindScore ps = 32 ↔ ∀ i < 32, Scored ps i = true := by
  by_cases hzero : ~~~ ps = 0
  · have hps : ps = ~~~ 0 := by rw [← hzero, UInt32.not_not]
    refine iff_of_true ?_ fun i hi => ?_
    · rw [udFindScore, hzero, nrightZeroes_zero]
    · rw [hps, Scored, UInt32.toBitVec_not, BitVec.getLsbD_not,
        decide_eq_true hi]
      simp
  · have hne : (~~~ ps).toBitVec ≠ 0#32 := fun h =>
      hzero (UInt32.toBitVec_inj.mp h)
    obtain ⟨k, hk⟩ := exists_lowest hne
    obtain ⟨hfree, -⟩ := (lowest_free_iff ps hk.lt).mp hk
    refine iff_of_false (fun hfull => ?_) fun htaken => ?_
    · have hscore := nrightZeroes_lowest hk
      rw [← udFindScore, hfull] at hscore
      exact absurd hk.lt (by simp [← hscore])
    · rw [htaken k hk.lt] at hfree
      contradiction

/--
After every run of sets and unsets the set holds the scores whose last call took
them, and the score found is the lowest below 32 that is not in it, or 32 where
there is none.
-/
theorem find_score_lowest (calls : List ScoreCall) :
    let ps := scoring.run udEmptyPongSet calls
    (∀ i < 32, Scored ps i = taken calls i) ∧
    (∀ i < 32, (udFindScore ps).toNat = i ↔
      taken calls i = false ∧ ∀ j < i, taken calls j = true) ∧
    (udFindScore ps = 32 ↔ ∀ i < 32, taken calls i = true) := by
  intro ps
  have hscored (i : Nat) (hi : i < 32) : Scored ps i = taken calls i :=
    scored_run calls hi
  refine ⟨hscored, fun i hi => ?_, ?_⟩
  · rw [udFindScore_eq_iff ps hi, hscored i hi]
    refine and_congr_right' (forall₂_congr fun j hj => ?_)
    rw [hscored j (hj.trans hi)]
  · rw [udFindScore_full_iff]
    refine forall₂_congr fun i hi => ?_
    rw [hscored i hi]

end Unserding
