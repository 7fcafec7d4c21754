import Unserding.Foundation.Periods

/-!
# Days and weekdays

The calendar helpers of `ud-time.h`, which take a `time32_t` apart with the
unsigned constant `86400U`: every stamp and every difference is read modulo
`2 ^ 32` before it is divided.
-/

namespace Unserding

open Foundation

inductive Dow where
  | sunday
  | monday
  | tuesday
  | wednesday
  | thursday
  | friday
  | saturday
  | miracleday
  deriving DecidableEq, Repr

/-- The conversion to `dow_t`, `none` for the value of no enumerator. -/
def Dow.ofInt : Int → Option Dow
  | 0 => some .sunday
  | 1 => some .monday
  | 2 => some .tuesday
  | 3 => some .wednesday
  | 4 => some .thursday
  | 5 => some .friday
  | 6 => some .saturday
  | 7 => some .miracleday
  | _ => none

/-! ## The functions -/

def midnight (ts : Int32) : Int32 := (ts.toUInt32 - ts.toUInt32 % 86400).toInt32

def Fits (a b : Int32) : Prop :=
  -2 ^ 31 ≤ a.toInt - b.toInt ∧ a.toInt - b.toInt < 2 ^ 31

instance (a b : Int32) : Decidable (Fits a b) :=
  inferInstanceAs (Decidable (_ ∧ _))

/--
`a - b` on `int`s.  Where it overflows it is undefined, unless the compiler has
signed arithmetic wrap.
-/
def intSub (wrapv : Bool) (a b : Int32) : Option Int32 :=
  if wrapv ∨ Fits a b then some (a - b) else none

def daydiff (wrapv : Bool) (t₁ t₂ : Int32) : Option Int32 :=
  let m₁ := midnight t₁
  let m₂ := midnight t₂
  (intSub wrapv m₂ m₁).map fun d => (d.toUInt32 / 86400).toInt32

/-- The stamp of 15 January 1984. -/
def knownSunday : Int32 := 442972800

def dayofweek (wrapv : Bool) (t : Int32) : Option Dow :=
  (daydiff wrapv knownSunday t).bind fun t => Dow.ofInt (t % 7).toInt

/-! ## The calendar -/

/-- The day a stamp falls on, counted from 1 January 1970 and rounded down. -/
def dayOf (t : Int32) : Int := t.toInt / 86400

def weekdays : Fin 7 → Dow :=
  ![.sunday, .monday, .tuesday, .wednesday, .thursday, .friday, .saturday]

def weekday (day : Int) : Dow := wheel weekdays (day - dayOf knownSunday)

/-! ## What the functions compute -/

/-- The day a stamp falls on when it is read as an unsigned number. -/
def unsignedDay (t : Int32) : Int := (t.toUInt32.toNat : Int) / 86400

theorem toInt_eq (x : Int32) :
    x.toInt = if x.toUInt32.toNat < 2 ^ 31 then (x.toUInt32.toNat : Int)
      else x.toUInt32.toNat - 2 ^ 32 := by
  rw [← Int32.toInt_toBitVec, BitVec.toInt_eq_toNat_cond]
  change (if 2 * x.toUInt32.toNat < 2 ^ 32 then (x.toUInt32.toNat : Int)
    else x.toUInt32.toNat - (2 ^ 32 : Nat)) = _
  split <;> split <;> omega

theorem toNat_toUInt32_eq (x : Int32) :
    (x.toUInt32.toNat : Int) = x.toInt % 2 ^ 32 := by
  have hlt := x.toUInt32.toNat_lt
  rw [toInt_eq]
  split <;> omega

theorem unsignedDay_eq (t : Int32) :
    unsignedDay t = if t.toInt < 0 then
      dayOf t + 49710 + carry 86400 (2 ^ 32) t.toInt else dayOf t := by
  have hlow := t.le_toInt
  have hhigh := t.toInt_lt
  rw [unsignedDay, toNat_toUInt32_eq]
  exact wrapped_ediv (by decide) (by omega) (by omega)

theorem unsignedDay_nonneg (t : Int32) : 0 ≤ unsignedDay t :=
  Int.ediv_nonneg (Int.natCast_nonneg _) (by decide)

theorem unsignedDay_le (t : Int32) : unsignedDay t ≤ 49710 := by
  have hlt := t.toUInt32.toNat_lt
  unfold unsignedDay
  omega

theorem midnight_toNat (ts : Int32) :
    ((midnight ts).toUInt32.toNat : Int) = unsignedDay ts * 86400 := by
  have hle : ts.toUInt32 % 86400 ≤ ts.toUInt32 := by
    rw [UInt32.le_iff_toNat_le, UInt32.toNat_mod]
    exact Nat.mod_le _ _
  have hlit : (86400 : UInt32).toNat = 86400 := rfl
  rw [midnight, UInt32.toUInt32_toInt32, UInt32.toNat_sub_of_le _ _ hle,
    UInt32.toNat_mod, hlit, unsignedDay]
  omega

theorem midnight_toInt (ts : Int32) :
    (midnight ts).toInt = if unsignedDay ts ≤ 24855 then
      unsignedDay ts * 86400 else unsignedDay ts * 86400 - 2 ^ 32 := by
  have hnat := midnight_toNat ts
  rw [toInt_eq]
  split <;> split <;> omega

/--
The days from one stamp to another by these readings.  Where the later day comes
first they are counted down from the 49710 days there are.
-/
def unsignedDays (t₁ t₂ : Int32) : Int :=
  if unsignedDay t₁ ≤ unsignedDay t₂ then unsignedDay t₂ - unsignedDay t₁
  else 49710 + (unsignedDay t₂ - unsignedDay t₁)

theorem unsignedDays_nonneg (t₁ t₂ : Int32) : 0 ≤ unsignedDays t₁ t₂ := by
  have hle := unsignedDay_le t₁
  have hpos := unsignedDay_nonneg t₂
  unfold unsignedDays
  split <;> omega

theorem daydiff_quot (t₁ t₂ : Int32) :
    ((midnight t₂ - midnight t₁).toUInt32 / 86400).toInt32.toInt =
      unsignedDays t₁ t₂ := by
  have hle₁ := unsignedDay_le t₁
  have hle₂ := unsignedDay_le t₂
  have hquot := @wrapped_sub_ediv 86400 (2 ^ 32) (by decide) _ _
    (unsignedDay_nonneg t₁) (by omega) (unsignedDay_nonneg t₂) (by omega)
  rw [← midnight_toNat, ← midnight_toNat] at hquot
  have hlit : (86400 : UInt32).toNat = 86400 := rfl
  have hlt₁ := (midnight t₁).toUInt32.toNat_lt
  have hdiff : (((midnight t₂ - midnight t₁).toUInt32 / 86400).toNat : Int) =
      ((midnight t₂).toUInt32.toNat - (midnight t₁).toUInt32.toNat) % 2 ^ 32 /
        86400 := by
    rw [UInt32.toNat_div, Int32.toUInt32_sub, UInt32.toNat_sub, hlit]
    omega
  rw [toInt_eq, UInt32.toUInt32_toInt32, if_pos (by omega), hdiff, hquot]
  rfl

theorem daydiff_eq (wrapv : Bool) (t₁ t₂ : Int32) :
    (daydiff wrapv t₁ t₂).map Int32.toInt =
      if wrapv ∨ Fits (midnight t₂) (midnight t₁) then
        some (unsignedDays t₁ t₂)
      else none := by
  rw [daydiff, intSub]
  split
  · rw [Option.map_some, Option.map_some, daydiff_quot]
  · rfl

/-! ## Where they are right -/

/--
The stamp is from before 1970 and so late on its day that the unsigned reading,
`2 ^ 32` seconds or 49710 days and 23296 seconds later, is past a midnight more.
-/
def Evening (t : Int32) : Prop :=
  t.toInt < 0 ∧ 86400 ≤ t.toInt % 86400 + 2 ^ 32 % 86400

theorem not_evening {t : Int32} (h : 0 ≤ t.toInt) : ¬ Evening t :=
  fun hevening => absurd hevening.1 (Int.not_lt.mpr h)

/--
The midnights of two stamps differ by an `int`.  The stamps before -2147408896
have the midnight of the last stamps there are.
-/
def InReach (t₁ t₂ : Int32) : Prop :=
  0 ≤ t₁.toInt ∨
  (t₁.toInt < -2147408896 ∧ (t₂.toInt < -2147408896 ∨ 0 ≤ t₂.toInt)) ∨
  (-2147408896 ≤ t₁.toInt ∧ dayOf t₂ - dayOf t₁ ≤ 24854)

structure CountsDays (wrapv : Bool) (t₁ t₂ : Int32) : Prop where
  order : dayOf t₁ ≤ dayOf t₂
  apart : dayOf t₂ - dayOf t₁ < 49710
  evening : Evening t₁ ↔ Evening t₂
  reach : wrapv = true ∨ InReach t₁ t₂

theorem unsignedDay_cases (t : Int32) :
    (0 ≤ t.toInt ∧ ¬ Evening t ∧ unsignedDay t = dayOf t) ∨
    (t.toInt < 0 ∧ ¬ Evening t ∧ unsignedDay t = dayOf t + 49710) ∨
    (t.toInt < 0 ∧ Evening t ∧ unsignedDay t = dayOf t + 49711) := by
  rw [unsignedDay_eq, carry, Evening]
  split
  · split <;> omega
  · omega

theorem dayOf_range (t : Int32) :
    (t.toInt < 0 ↔ dayOf t < 0) ∧ -24856 ≤ dayOf t ∧ dayOf t ≤ 24855 := by
  have hlow := t.le_toInt
  have hhigh := t.toInt_lt
  unfold dayOf
  omega

theorem unsignedDay_neg {t : Int32} (h : t.toInt < 0) :
    24855 ≤ unsignedDay t ∧
      (unsignedDay t = 24855 ↔ t.toInt < -2147408896) := by
  have hlow := t.le_toInt
  rw [unsignedDay, toNat_toUInt32_eq]
  omega

theorem unsignedDays_eq_iff (t₁ t₂ : Int32) :
    unsignedDays t₁ t₂ = dayOf t₂ - dayOf t₁ ↔
      dayOf t₁ ≤ dayOf t₂ ∧ dayOf t₂ - dayOf t₁ < 49710 ∧
        (Evening t₁ ↔ Evening t₂) := by
  obtain ⟨hsign₁, hrange₁⟩ := dayOf_range t₁
  obtain ⟨hsign₂, hrange₂⟩ := dayOf_range t₂
  rcases unsignedDay_cases t₁ with ⟨h₁, he₁, hu₁⟩ | ⟨h₁, he₁, hu₁⟩ |
    ⟨h₁, he₁, hu₁⟩ <;>
  rcases unsignedDay_cases t₂ with ⟨h₂, he₂, hu₂⟩ | ⟨h₂, he₂, hu₂⟩ |
    ⟨h₂, he₂, hu₂⟩ <;>
  simp only [unsignedDays, he₁, he₂, hu₁, hu₂, iff_self, iff_true, iff_false, not_true,
    and_true, and_false] <;> split <;> omega

theorem fits_midnight_iff {t₁ t₂ : Int32} (horder : dayOf t₁ ≤ dayOf t₂)
    (hevening : Evening t₁ ↔ Evening t₂) :
    Fits (midnight t₂) (midnight t₁) ↔ InReach t₁ t₂ := by
  obtain ⟨hsign₁, hrange₁⟩ := dayOf_range t₁
  obtain ⟨hsign₂, hrange₂⟩ := dayOf_range t₂
  rw [Fits, midnight_toInt, midnight_toInt, InReach]
  rcases unsignedDay_cases t₁ with ⟨h₁, -, hu₁⟩ | ⟨h₁, he₁, hu₁⟩ |
    ⟨h₁, he₁, hu₁⟩
  · obtain ⟨-, -, hu₂⟩ | ⟨h₂, -⟩ | ⟨h₂, -⟩ := unsignedDay_cases t₂
    · rw [if_pos (by omega), if_pos (by omega)]
      omega
    · omega
    · omega
  · obtain ⟨hlow₁, hfirst₁⟩ := unsignedDay_neg h₁
    obtain ⟨h₂, -, hu₂⟩ | ⟨h₂, -, hu₂⟩ | ⟨-, he₂, -⟩ := unsignedDay_cases t₂
    · split <;> split <;> omega
    · obtain ⟨hlow₂, hfirst₂⟩ := unsignedDay_neg h₂
      split <;> split <;> omega
    · exact absurd (hevening.mpr he₂) he₁
  · obtain ⟨hlow₁, hfirst₁⟩ := unsignedDay_neg h₁
    obtain ⟨-, he₂, -⟩ | ⟨-, he₂, -⟩ | ⟨h₂, -, hu₂⟩ := unsignedDay_cases t₂
    · exact absurd (hevening.mp he₁) he₂
    · exact absurd (hevening.mp he₁) he₂
    · obtain ⟨hlow₂, hfirst₂⟩ := unsignedDay_neg h₂
      split <;> split <;> omega

theorem daydiff_eq_iff (wrapv : Bool) (t₁ t₂ : Int32) :
    (daydiff wrapv t₁ t₂).map Int32.toInt = some (dayOf t₂ - dayOf t₁) ↔
      CountsDays wrapv t₁ t₂ := by
  rw [daydiff_eq]
  constructor
  · intro h
    split at h
    · rename_i hdefined
      obtain ⟨horder, hapart, hevening⟩ :=
        (unsignedDays_eq_iff t₁ t₂).mp (Option.some.inj h)
      rw [fits_midnight_iff horder hevening] at hdefined
      exact ⟨horder, hapart, hevening, hdefined⟩
    · contradiction
  · rintro ⟨horder, hapart, hevening, hreach⟩
    rw [← fits_midnight_iff horder hevening] at hreach
    rw [if_pos hreach, (unsignedDays_eq_iff t₁ t₂).mpr ⟨horder, hapart, hevening⟩]

/-! ## Weekdays -/

theorem weekdays_injective : Function.Injective weekdays := by decide

theorem weekday_eq_iff (day day' : Int) :
    weekday day = weekday day' ↔ 7 ∣ day - day' := by
  rw [weekday, weekday, wheel_eq_iff weekdays_injective,
    sub_sub_sub_cancel_right]
  rfl

-- the first of January 1970
example : weekday 0 = .thursday := by decide

theorem ofInt_weekdays : ∀ i : Fin 7, Dow.ofInt i = some (weekdays i) := by
  decide

theorem ofInt_weekday {n : Int} (hn : 0 ≤ n) :
    Dow.ofInt (n.tmod 7) = some (weekday (dayOf knownSunday + n)) := by
  have hrest : n.tmod 7 = (Fin.ofNat 7 (n % 7).toNat : Fin 7) := by
    rw [Int.tmod_eq_emod_of_nonneg hn, Fin.val_ofNat]
    omega
  rw [hrest, ofInt_weekdays, weekday, add_sub_cancel_left]
  rfl

theorem dayofweek_eq (wrapv : Bool) (t : Int32) :
    dayofweek wrapv t = ((daydiff wrapv knownSunday t).map Int32.toInt).bind
      fun d => Dow.ofInt (d.tmod 7) := by
  rw [dayofweek, Option.bind_map]
  congr 1
  funext d
  rw [Int32.toInt_mod]
  rfl

theorem knownSunday_toInt : knownSunday.toInt = 442972800 := by decide

theorem dayOf_knownSunday : dayOf knownSunday = 5127 := by decide

theorem unsignedDay_knownSunday : unsignedDay knownSunday = 5127 := by decide

theorem weeks_iff (t : Int32) :
    (7 ∣ dayOf knownSunday + unsignedDays knownSunday t - dayOf t) ↔
      knownSunday.toInt ≤ t.toInt := by
  have hday : dayOf t = t.toInt / 86400 := rfl
  have hlow := t.le_toInt
  rw [dayOf_knownSunday, knownSunday_toInt, unsignedDays,
    unsignedDay_knownSunday]
  rcases unsignedDay_cases t with ⟨h, -, hu⟩ | ⟨h, -, hu⟩ | ⟨h, -, hu⟩
  · rw [hu]
    split <;> omega
  · rw [hu, if_pos (by omega)]
    omega
  · rw [hu, if_pos (by omega)]
    omega

theorem dayofweek_eq_iff (wrapv : Bool) (t : Int32) :
    dayofweek wrapv t = some (weekday (dayOf t)) ↔
      knownSunday.toInt ≤ t.toInt := by
  rw [dayofweek_eq, daydiff_eq]
  by_cases hdefined : wrapv ∨ Fits (midnight t) (midnight knownSunday)
  · rw [if_pos hdefined, Option.bind_some,
      ofInt_weekday (unsignedDays_nonneg _ t), Option.some_inj, weekday_eq_iff]
    exact weeks_iff t
  · rw [if_neg hdefined]
    refine iff_of_false (by simp) fun hlater => hdefined (.inr ?_)
    have hold : 0 ≤ knownSunday.toInt := by decide
    rw [fits_midnight_iff (Int.ediv_le_ediv (by decide) hlater)
      (iff_of_false (not_evening hold) (not_evening (hold.trans hlater)))]
    exact .inl hold

/--
`__daydiff` counts the days between two stamps right if and only if they come in
order, neither or both are evenings before 1970, they are not at the two ends of
the range, and the difference of their midnights is an `int` or wraps.
`__dayofweek` is right from the known Sunday on and for no stamp before it.
-/
theorem calendar_iff (wrapv : Bool) (t₁ t₂ t : Int32) :
    ((daydiff wrapv t₁ t₂).map Int32.toInt = some (dayOf t₂ - dayOf t₁) ↔
      CountsDays wrapv t₁ t₂) ∧
    (dayofweek wrapv t = some (weekday (dayOf t)) ↔
      knownSunday.toInt ≤ t.toInt) :=
  ⟨daydiff_eq_iff wrapv t₁ t₂, dayofweek_eq_iff wrapv t⟩

/-- A day back makes 49709 days, and the day before the Sunday a Tuesday. -/
theorem not_calendar :
    (¬ ∀ (wrapv : Bool) (t₁ t₂ : Int32),
      (daydiff wrapv t₁ t₂).map Int32.toInt = some (dayOf t₂ - dayOf t₁)) ∧
    ¬ ∀ (wrapv : Bool) (t : Int32),
      dayofweek wrapv t = some (weekday (dayOf t)) := by
  constructor
  · intro h
    exact absurd (h false 86400 0) (by decide)
  · intro h
    exact absurd (h false 442886400) (by decide)

end Unserding
