import Mathlib

/-! # Days, dates and times

The proleptic Gregorian calendar. A day is numbered from the first of January of the
year 1, and a date is a year, a month and a day that exists in that month; months and
days are counted from 0. Over it the broken-down time of the C library, in UTC.
-/
namespace Klone.Calendar

/-! ## Numbers cut into parts -/

/-- The part in which a number falls when parts of the given lengths lie side by side,
and its place in that part. -/
def locate : List ℕ → ℕ → ℕ × ℕ
  | [], n => (0, n)
  | k :: ks, n => if n < k then (0, n) else ((locate ks (n - k)).1 + 1, (locate ks (n - k)).2)

theorem locate_sum (ks : List ℕ) (n : ℕ) : (ks.take (locate ks n).1).sum + (locate ks n).2 = n := by
  induction ks generalizing n with
  | nil => simp [locate]
  | cons k ks ih =>
    unfold locate
    split
    · simp
    · have h := ih (n - k)
      simp only [List.take_succ_cons, List.sum_cons]
      omega

theorem locate_lt (ks : List ℕ) {n : ℕ} (h : n < ks.sum) :
    (locate ks n).1 < ks.length ∧ (locate ks n).2 < ks.getD (locate ks n).1 0 := by
  induction ks generalizing n with
  | nil => simp at h
  | cons k ks ih =>
    unfold locate
    split
    · next hk => simpa using hk
    · next hk =>
      rw [List.sum_cons] at h
      have hrest := ih (n := n - k) (by omega)
      simpa using hrest

/-! ## Years -/

def isLeap (y : ℤ) : Bool := y % 4 == 0 && (y % 100 != 0 || y % 400 == 0)

def daysBeforeYear (y : ℤ) : ℤ := 365 * (y - 1) + (y - 1) / 4 - (y - 1) / 100 + (y - 1) / 400

def yearLength (y : ℤ) : ℕ := if isLeap y then 366 else 365

theorem daysBeforeYear_succ (y : ℤ) : daysBeforeYear (y + 1) = daysBeforeYear y + yearLength y := by
  unfold daysBeforeYear yearLength isLeap
  simp only [Bool.and_eq_true, beq_iff_eq, Bool.or_eq_true, bne_iff_ne]
  split <;> push_cast <;> omega

theorem daysBeforeYear_mono : Monotone daysBeforeYear := by
  apply monotone_int_of_le_succ
  intro y
  rw [daysBeforeYear_succ]
  omega

/-- The year of a day: the mean length of a year gives it, or the year before it. -/
def yearOfDay (d : ℤ) : ℤ :=
  let y := d * 400 / 146097 + 1
  if daysBeforeYear (y + 1) ≤ d then y + 1 else y

theorem daysBeforeYear_yearOfDay (d : ℤ) : daysBeforeYear (yearOfDay d) ≤ d := by
  unfold yearOfDay
  dsimp only
  split
  · next h => exact h
  · unfold daysBeforeYear
    omega

theorem lt_daysBeforeYear_yearOfDay (d : ℤ) : d < daysBeforeYear (yearOfDay d + 1) := by
  unfold yearOfDay
  dsimp only
  split
  · unfold daysBeforeYear
    omega
  · next h => omega

/-! ## Dates -/

def monthLengths (leap : Bool) : List ℕ :=
  [31, if leap then 29 else 28, 31, 30, 31, 30, 31, 31, 30, 31, 30, 31]

theorem sum_monthLengths (y : ℤ) : (monthLengths (isLeap y)).sum = yearLength y := by
  unfold monthLengths yearLength
  cases isLeap y <;> rfl

theorem monthLengths_le (leap : Bool) (m : ℕ) : (monthLengths leap).getD m 0 ≤ 31 := by
  rcases Nat.lt_or_ge m 12 with h | h
  · revert m
    cases leap <;> decide
  · rw [List.getD_eq_default _ _ h]
    exact Nat.zero_le _

structure Date where
  year : ℤ
  month : ℕ
  day : ℕ
  month_lt : month < 12
  day_lt : day < (monthLengths (isLeap year)).getD month 0

/-- The number of the day `day` of a month, which need not exist in that month. -/
def dayNumber (year : ℤ) (month : ℕ) (day : ℤ) : ℤ :=
  daysBeforeYear year + (((monthLengths (isLeap year)).take month).sum : ℕ) + day

def dayOfYear (d : ℤ) : ℕ := (d - daysBeforeYear (yearOfDay d)).toNat

theorem dayOfYear_lt (d : ℤ) : dayOfYear d < (monthLengths (isLeap (yearOfDay d))).sum := by
  have hlow := daysBeforeYear_yearOfDay d
  have hhigh := lt_daysBeforeYear_yearOfDay d
  rw [daysBeforeYear_succ] at hhigh
  rw [sum_monthLengths]
  unfold dayOfYear
  omega

def dateOfDay (d : ℤ) : Date :=
  let month := locate (monthLengths (isLeap (yearOfDay d))) (dayOfYear d)
  ⟨yearOfDay d, month.1, month.2, (locate_lt _ (dayOfYear_lt d)).1,
    (locate_lt _ (dayOfYear_lt d)).2⟩

@[simp] theorem dateOfDay_year (d : ℤ) : (dateOfDay d).year = yearOfDay d := rfl

theorem dayNumber_dateOfDay (d : ℤ) :
    dayNumber (dateOfDay d).year (dateOfDay d).month (dateOfDay d).day = d := by
  have hsum := locate_sum (monthLengths (isLeap (yearOfDay d))) (dayOfYear d)
  have hlow := daysBeforeYear_yearOfDay d
  unfold dayNumber
  simp only [dateOfDay]
  unfold dayOfYear at hsum ⊢
  omega

theorem Date.day_le (x : Date) : x.day < 31 := x.day_lt.trans_le (monthLengths_le _ _)

/-! ## Broken-down times -/

/-- `struct tm`, as far as it is used in UTC. -/
structure Tm where
  sec : ℤ
  min : ℤ
  hour : ℤ
  mday : ℤ
  mon : ℤ
  year : ℤ
  wday : ℤ
  deriving DecidableEq, Repr

structure Tm.InRange (tm : Tm) : Prop where
  sec : 0 ≤ tm.sec ∧ tm.sec < 60
  min : 0 ≤ tm.min ∧ tm.min < 60
  hour : 0 ≤ tm.hour ∧ tm.hour < 24
  mday : 1 ≤ tm.mday ∧ tm.mday ≤ 31
  mon : 0 ≤ tm.mon ∧ tm.mon < 12
  wday : 0 ≤ tm.wday ∧ tm.wday < 7

theorem Tm.InRange.withYear {tm : Tm} (h : tm.InRange) (y : ℤ) : Tm.InRange { tm with year := y } :=
  ⟨h.sec, h.min, h.hour, h.mday, h.mon, h.wday⟩

def epoch : ℤ := 719162

/-- The fields of a time in seconds since the epoch, which was a Thursday. -/
def brokenDown (t : ℤ) : Tm :=
  let date := dateOfDay (t / 86400 + epoch)
  { sec := t % 86400 % 60, min := t % 86400 / 60 % 60, hour := t % 86400 / 3600, mday := date.day + 1,
    mon := date.month, year := date.year - 1900, wday := (t / 86400 + 4) % 7 }

/-- `gmtime_r`; the year must fit in an `int`. -/
def gmtimeR (t : ℤ) : Option Tm :=
  if -2 ^ 31 ≤ (brokenDown t).year ∧ (brokenDown t).year < 2 ^ 31 then some (brokenDown t) else none

/-- `timegm`: fields out of their range carry over. -/
def timegm (tm : Tm) : ℤ :=
  let day := dayNumber (tm.year + 1900 + tm.mon / 12) (tm.mon % 12).toNat (tm.mday - 1)
  (day - epoch) * 86400 + tm.hour * 3600 + tm.min * 60 + tm.sec

def utcYear (t : ℤ) : ℤ := yearOfDay (t / 86400 + epoch)

theorem brokenDown_year (t : ℤ) : (brokenDown t).year = utcYear t - 1900 := rfl

theorem brokenDown_inRange (t : ℤ) : (brokenDown t).InRange := by
  have hmonth := (dateOfDay (t / 86400 + epoch)).month_lt
  have hday := (dateOfDay (t / 86400 + epoch)).day_le
  constructor <;> dsimp only [brokenDown] <;> omega

theorem timegm_brokenDown (t : ℤ) : timegm (brokenDown t) = t := by
  have hday := dayNumber_dateOfDay (t / 86400 + epoch)
  have hmonth := (dateOfDay (t / 86400 + epoch)).month_lt
  unfold timegm
  dsimp only [brokenDown]
  -- the fields of a date carry nothing over
  rw [show (dateOfDay (t / 86400 + epoch)).year - 1900 + 1900 +
    ((dateOfDay (t / 86400 + epoch)).month : ℤ) / 12 =
      (dateOfDay (t / 86400 + epoch)).year by omega,
    show (((dateOfDay (t / 86400 + epoch)).month : ℤ) % 12).toNat =
      (dateOfDay (t / 86400 + epoch)).month by omega,
    add_sub_cancel_right, hday]
  omega

theorem daysBeforeMonth_le (y : ℤ) (m : ℕ) : ((monthLengths (isLeap y)).take m).sum ≤ 366 := by
  have hsum := List.sum_take_add_sum_drop (monthLengths (isLeap y)) m
  rw [sum_monthLengths] at hsum
  have hlength : yearLength y ≤ 366 := by unfold yearLength; split <;> omega
  omega

/-- A time in a year before 1969. -/
theorem timegm_neg {tm : Tm} (h : tm.InRange) (hyear : tm.year < 69) : timegm tm < 0 := by
  obtain ⟨⟨-, hsec⟩, ⟨-, hmin⟩, ⟨-, hhour⟩, ⟨-, hmday⟩, ⟨hmon, hmon'⟩, -⟩ := h
  have hcarry : tm.mon / 12 = 0 := by omega
  have hbefore := daysBeforeYear_mono (show tm.year + 1900 + tm.mon / 12 ≤ 1968 by omega)
  have hmonths := daysBeforeMonth_le (tm.year + 1900 + tm.mon / 12) (tm.mon % 12).toNat
  have h1968 : daysBeforeYear 1968 = 718431 := by decide
  unfold timegm dayNumber epoch
  dsimp only
  omega

theorem utcYear_nonneg {t : ℤ} (h : 1970 ≤ utcYear t) : 0 ≤ t := by
  have hday := daysBeforeYear_yearOfDay (t / 86400 + epoch)
  have hmono := daysBeforeYear_mono h
  have h1970 : daysBeforeYear 1970 = epoch := by decide
  unfold utcYear at hmono
  omega

end Klone.Calendar
