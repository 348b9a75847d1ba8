import Klone.Utils.Date

/-! # The forms of a date

The three forms in which HTTP writes an instant, and what is read from them. The year of
the RFC 850 form has two digits, and these are taken for the year itself.
-/
namespace Klone.Date
open Klone.Scanf
open Klone.Calendar
open Klone.Page (decimal Response responseSetLastModified responseSetField headerGetFieldValue_set)

def days : List Str :=
  ["Sunday", "Monday", "Tuesday", "Wednesday", "Thursday", "Friday", "Saturday"].map bytes

/-- The day of the week and the month of a time, and its year. -/
def dayName (tm : Tm) : Str := days3.getD tm.wday.toNat []
def monthName (tm : Tm) : Str := months.getD tm.mon.toNat []
def fullYear (tm : Tm) : ℕ := (tm.year + 1900).toNat

def clock (tm : Tm) : Str :=
  padTwo 48 tm.hour.toNat ++ bytes ":" ++ padTwo 48 tm.min.toNat ++ bytes ":" ++
    padTwo 48 tm.sec.toNat

/-- `Sun, 06 Nov 1994 08:49:37 GMT` -/
def rfc822Form (tm : Tm) : Str :=
  dayName tm ++ bytes ", " ++ padTwo 48 tm.mday.toNat ++ bytes " " ++ monthName tm ++ bytes " " ++
    decimal (fullYear tm) ++ bytes " " ++ clock tm ++ bytes " GMT"

/-- `Sunday, 06-Nov-94 08:49:37 GMT` -/
def rfc850Form (tm : Tm) : Str :=
  days.getD tm.wday.toNat [] ++ bytes ", " ++ padTwo 48 tm.mday.toNat ++ bytes "-" ++
    monthName tm ++ bytes "-" ++
    padTwo 48 (fullYear tm % 100) ++ bytes " " ++ clock tm ++ bytes " GMT"

/-- `Sun Nov  6 08:49:37 1994` -/
def asctimeForm (tm : Tm) : Str :=
  dayName tm ++ bytes " " ++ monthName tm ++ bytes " " ++ padTwo 32 tm.mday.toNat ++
    bytes " " ++ clock tm ++
    bytes " " ++ decimal (fullYear tm)

/-- All three forms of an instant are read as that instant. -/
def FormsAgree (t : ℤ) : Prop :=
  uHttpdateToTt (rfc822Form (brokenDown t)) = some t ∧
    uHttpdateToTt (rfc850Form (brokenDown t)) = some t ∧
    uHttpdateToTt (asctimeForm (brokenDown t)) = some t

/-! ## Names -/

theorem monthIdx_months : ∀ i < 12, monthIdx (months.getD i []) = some i := by decide

theorem months_words :
    ∀ i < 12, months.getD i [] ≠ [] ∧ (∀ c ∈ months.getD i [], isspace c = false) ∧
    45 ∉ months.getD i [] ∧ (months.getD i []).length = 3 := by decide +kernel

theorem days3_words : ∀ i < 7, days3.getD i [] ≠ [] ∧ (∀ c ∈ days3.getD i [], isspace c = false) ∧
    44 ∉ days3.getD i [] ∧ (days3.getD i []).length = 3 := by decide +kernel

/-- The fourth character of a day tells that the form is neither of the other two. -/
theorem days_words :
    ∀ i < 7, days.getD i [] ≠ [] ∧ 44 ∉ days.getD i [] ∧ 4 ≤ (days.getD i []).length ∧
    (days.getD i []).length ≤ 9 ∧ (days.getD i []).getD 3 0 ≠ 44 ∧
    (days.getD i []).getD 3 0 ≠ 32 := by decide

theorem bytes_comma : bytes ", " = [44, 32] := by decide
theorem bytes_space : bytes " " = [32] := by decide
theorem bytes_colon : bytes ":" = [58] := by decide
theorem bytes_dash : bytes "-" = [45] := by decide
theorem bytes_zone : bytes " GMT" = 32 :: bytes "GMT" := by decide

theorem word_zone : Word (bytes "GMT") := ⟨by decide, by decide +kernel⟩

section
variable {tm : Tm}

theorem dayName_word (h : tm.InRange) :
    Word (dayName tm) ∧ 44 ∉ dayName tm ∧ (dayName tm).length = 3 := by
  obtain ⟨hlow, hhigh⟩ := h.wday
  obtain ⟨hne, hsolid, hcomma, hlength⟩ := days3_words tm.wday.toNat (by omega)
  exact ⟨⟨hne, hsolid⟩, hcomma, hlength⟩

theorem monthName_word (h : tm.InRange) :
    Word (monthName tm) ∧ 45 ∉ monthName tm ∧ (monthName tm).length = 3 := by
  obtain ⟨hlow, hhigh⟩ := h.mon
  obtain ⟨hne, hsolid, hdash, hlength⟩ := months_words tm.mon.toNat (by omega)
  exact ⟨⟨hne, hsolid⟩, hdash, hlength⟩

/-! ## Fields -/

theorem intOf_small {n : ℕ} (h : n < 2 ^ 31) : intOf n = n := by
  unfold intOf
  rw [if_pos h]

/-- The year is counted from 1900 also below it. -/
theorem intOf_year {y : ℕ} (h : y < 10000) : intOf ((y + (2 ^ 32 - 1900)) % 2 ^ 32) = y - 1900 := by
  unfold intOf
  split <;> omega

/-- The fields of a time, with any year. -/
theorem toTime_fields (h : tm.InRange) {y : ℕ} (hy : y < 10000) :
    toTime (monthName tm) tm.mday.toNat y tm.hour.toNat tm.min.toNat tm.sec.toNat =
      some (timegm { tm with year := y - 1900 }) := by
  obtain ⟨hsec, hmin, hhour, hmday, hmon, -⟩ := h
  have hidx := monthIdx_months tm.mon.toNat (by omega)
  unfold toTime monthName
  rw [hidx, Option.map_some, intOf_year hy, intOf_small (by omega), intOf_small (by omega),
    intOf_small (by omega),
    intOf_small (by omega)]
  rw [Int.toNat_of_nonneg hsec.1, Int.toNat_of_nonneg hmin.1, Int.toNat_of_nonneg hhour.1,
    Int.toNat_of_nonneg (by omega), Int.toNat_of_nonneg hmon.1]
  rfl

theorem toTime_fullYear (h : tm.InRange) (hlow : 0 ≤ tm.year + 1900)
    (hhigh : tm.year + 1900 < 10000) :
    toTime (monthName tm) tm.mday.toNat (fullYear tm) tm.hour.toNat tm.min.toNat tm.sec.toNat =
    some (timegm tm) := by
  have hyear : ((fullYear tm : ℕ) : ℤ) - 1900 = tm.year := by unfold fullYear; omega
  have htime := toTime_fields h (y := fullYear tm) (by unfold fullYear; omega)
  rwa [hyear] at htime

theorem numeral_field {n : ℤ} (h : n < 100) :
    Numeral (padTwo 48 n.toNat) n.toNat := numeral_padTwo (by omega)

theorem padTwo_field_length {n : ℤ} (fill : Byte) (h : n < 100) :
    (padTwo fill n.toNat).length ≤ 2 :=
  padTwo_length_le fill 2 le_rfl (by omega)

theorem clock_length (h : tm.InRange) : (clock tm).length ≤ 8 := by
  obtain ⟨hsec, hmin, hhour, -⟩ := h
  have h₁ := padTwo_field_length 48 (n := tm.hour) (by omega)
  have h₂ := padTwo_field_length 48 (n := tm.min) (by omega)
  have h₃ := padTwo_field_length 48 (n := tm.sec) (by omega)
  simp only [clock, bytes_colon, List.length_append, List.length_singleton]
  omega

/-! ## What is read from each form -/

theorem rfc822Form_length (h : tm.InRange) (hy : fullYear tm < 10000) :
    (rfc822Form tm).length ≤ 29 := by
  have hyear := decimal_length_le 4 (by decide) hy
  have hclock := clock_length h
  have hday := padTwo_field_length 48 (n := tm.mday) (by have := h.mday; omega)
  obtain ⟨-, -, hname⟩ := dayName_word h
  obtain ⟨-, -, hmonth⟩ := monthName_word h
  have hzone : (bytes " GMT").length = 4 := rfl
  simp only [rfc822Form, bytes_comma, bytes_space, List.length_append, List.length_cons,
    List.length_nil]
  omega

theorem rfc850Form_length (h : tm.InRange) : (rfc850Form tm).length ≤ 33 := by
  have hyear := padTwo_length_le 48 2 le_rfl (show fullYear tm % 100 < 10 ^ 2 by omega)
  have hclock := clock_length h
  have hday := padTwo_field_length 48 (n := tm.mday) (by have := h.mday; omega)
  obtain ⟨-, -, -, hname, -⟩ := days_words tm.wday.toNat (by have := h.wday; omega)
  obtain ⟨-, -, hmonth⟩ := monthName_word h
  have hzone : (bytes " GMT").length = 4 := rfl
  simp only [rfc850Form, bytes_comma, bytes_space, bytes_dash, List.length_append, List.length_cons,
    List.length_nil]
  omega

theorem asctimeForm_length (h : tm.InRange) (hy : fullYear tm < 10000) :
    (asctimeForm tm).length ≤ 24 := by
  have hyear := decimal_length_le 4 (by decide) hy
  have hclock := clock_length h
  have hday := padTwo_field_length 32 (n := tm.mday) (by have := h.mday; omega)
  obtain ⟨-, -, hname⟩ := dayName_word h
  obtain ⟨-, -, hmonth⟩ := monthName_word h
  simp only [asctimeForm, bytes_space, List.length_append, List.length_cons, List.length_nil]
  omega

theorem getD_append_cons {w rest : Str} {c : Byte} {n : ℕ} (h : w.length = n) :
    (w ++ c :: rest).getD n 0 = c := by
  subst h
  simp

theorem httpdate_rfc822Form (h : tm.InRange) (hlow : 0 ≤ tm.year + 1900)
    (hhigh : tm.year + 1900 < 10000) :
    uHttpdateToTt (rfc822Form tm) = some (timegm tm) := by
  have hfull : fullYear tm < 10000 := by unfold fullYear; omega
  have hlength := rfc822Form_length h hfull
  obtain ⟨hname, hcomma, hthree⟩ := dayName_word h
  obtain ⟨hmonth, -, -⟩ := monthName_word h
  have hscan := sscanf_rfc822 hname.nonempty hcomma
    (numeral_field (n := tm.mday) (by have := h.mday; omega)) hmonth
    (numeral_decimal (n := fullYear tm) (by omega))
      (numeral_field (n := tm.hour) (by have := h.hour; omega))
    (numeral_field (n := tm.min) (by have := h.min; omega))
      (numeral_field (n := tm.sec) (by have := h.sec; omega))
    word_zone
  have htext : rfc822Form tm =
    dayName tm ++ 44 :: 32 :: (padTwo 48 tm.mday.toNat ++ 32 :: (monthName tm ++ 32 ::
      (decimal (fullYear tm) ++ 32 ::
        (padTwo 48 tm.hour.toNat ++ 58 :: (padTwo 48 tm.min.toNat ++ 58 ::
        (padTwo 48 tm.sec.toNat ++ 32 :: bytes "GMT")))))) := by
    simp [rfc822Form, clock, bytes_comma, bytes_space, bytes_colon, bytes_zone]
  have hfourth : (rfc822Form tm).getD 3 0 = 44 := by rw [htext, getD_append_cons hthree]
  have hmin : ¬ (rfc822Form tm).length < 4 := by
    rw [htext, List.length_append, List.length_cons]
    omega
  unfold uHttpdateToTt uRfc822ToTt
  rw [if_neg hmin, if_pos hfourth, if_neg (by unfold BUFSZ; omega), htext, hscan]
  exact toTime_fullYear h hlow hhigh

theorem httpdate_asctimeForm (h : tm.InRange) (hlow : 0 ≤ tm.year + 1900)
    (hhigh : tm.year + 1900 < 10000) :
    uHttpdateToTt (asctimeForm tm) = some (timegm tm) := by
  have hfull : fullYear tm < 10000 := by unfold fullYear; omega
  have hlength := asctimeForm_length h hfull
  obtain ⟨hname, -, hthree⟩ := dayName_word h
  obtain ⟨hmonth, -, -⟩ := monthName_word h
  obtain ⟨blanks, hblanks, hpad⟩ : ∃ blanks : Str, (∀ c ∈ blanks, isspace c = true) ∧
      padTwo 32 tm.mday.toNat = blanks ++ decimal tm.mday.toNat := by
    unfold padTwo
    split
    · exact ⟨[32], by simp [isspace], rfl⟩
    · exact ⟨[], by simp, rfl⟩
  have hscan := sscanf_asctime hname hmonth hblanks
    (numeral_decimal (n := tm.mday.toNat) (by have := h.mday; omega))
    (numeral_field (n := tm.hour) (by have := h.hour; omega))
      (numeral_field (n := tm.min) (by have := h.min; omega))
    (numeral_field (n := tm.sec) (by have := h.sec; omega))
      (numeral_decimal (n := fullYear tm) (by omega))
  have htext : asctimeForm tm =
    dayName tm ++ 32 :: (monthName tm ++ 32 :: (blanks ++ (decimal tm.mday.toNat ++ 32 ::
      (padTwo 48 tm.hour.toNat ++ 58 ::
        (padTwo 48 tm.min.toNat ++ 58 :: (padTwo 48 tm.sec.toNat ++ 32 ::
        decimal (fullYear tm))))))) := by
    simp [asctimeForm, clock, bytes_space, bytes_colon, hpad]
  have hfourth : (asctimeForm tm).getD 3 0 = 32 := by rw [htext, getD_append_cons hthree]
  have hmin : ¬ (asctimeForm tm).length < 4 := by
    rw [htext, List.length_append, List.length_cons]
    omega
  unfold uHttpdateToTt uAsctimeToTt
  rw [if_neg hmin, hfourth, if_neg (by decide), if_pos rfl, if_neg (by unfold BUFSZ; omega),
    htext, hscan]
  exact toTime_fullYear h hlow hhigh

/-- The two digits of the year are taken for the year. -/
theorem httpdate_rfc850Form (h : tm.InRange) :
    uHttpdateToTt (rfc850Form tm) = some (timegm { tm with
      year := (fullYear tm % 100 : ℕ) - 1900 }) := by
  have hlength := rfc850Form_length h
  obtain ⟨hne, hcomma, hfour, -, hfst, hsnd⟩ := days_words tm.wday.toNat (by have := h.wday; omega)
  obtain ⟨hmonth, hdash, -⟩ := monthName_word h
  have hscan := sscanf_rfc850 hne hcomma
    (numeral_field (n := tm.mday) (by have := h.mday; omega)) hmonth hdash
    (numeral_padTwo (n := fullYear tm % 100) (by omega))
      (numeral_field (n := tm.hour) (by have := h.hour; omega))
    (numeral_field (n := tm.min) (by have := h.min; omega))
      (numeral_field (n := tm.sec) (by have := h.sec; omega))
    word_zone
  have htext : rfc850Form tm =
    days.getD tm.wday.toNat [] ++ 44 :: 32 :: (padTwo 48 tm.mday.toNat ++ 45 ::
      (monthName tm ++ 45 :: (padTwo 48 (fullYear tm % 100) ++ 32 ::
        (padTwo 48 tm.hour.toNat ++ 58 ::
        (padTwo 48 tm.min.toNat ++ 58 :: (padTwo 48 tm.sec.toNat ++ 32 :: bytes "GMT")))))) := by
    simp [rfc850Form, clock, bytes_comma, bytes_space, bytes_colon, bytes_dash, bytes_zone]
  have hfourth : (rfc850Form tm).getD 3 0 = (days.getD tm.wday.toNat []).getD 3 0 := by
    rw [htext, List.getD_append _ _ _ _ hfour]
  have hmin : ¬ (rfc850Form tm).length < 4 := by
    rw [htext, List.length_append]
    omega
  unfold uHttpdateToTt uRfc850ToTt
  rw [if_neg hmin, hfourth, if_neg hfst, if_neg hsnd, if_neg (by unfold BUFSZ; omega), htext, hscan]
  exact toTime_fields h (by omega)

end

/-! ## Every instant -/

/-- The RFC 822 form and the asctime form of an instant are read as that instant, and the
RFC 850 form as one in the first century. -/
theorem http_dates_disagree (t : ℤ) (hlow : 1970 ≤ utcYear t) (hhigh : utcYear t ≤ 2069) :
    ¬ FormsAgree t ∧ uHttpdateToTt (rfc822Form (brokenDown t)) = some t ∧
      uHttpdateToTt (asctimeForm (brokenDown t)) = some t ∧
      ∃ u < 0, uHttpdateToTt (rfc850Form (brokenDown t)) = some u := by
  have hrange := brokenDown_inRange t
  have hyear := brokenDown_year t
  have hself := timegm_brokenDown t
  have h822 := httpdate_rfc822Form hrange (by omega) (by omega)
  have hasc := httpdate_asctimeForm hrange (by omega) (by omega)
  have h850 := httpdate_rfc850Form hrange
  have hearly := timegm_neg (hrange.withYear ((fullYear (brokenDown t) % 100 : ℕ) - 1900))
    (by dsimp only; omega)
  have hlate := utcYear_nonneg (t := t) hlow
  rw [hself] at h822 hasc
  refine ⟨?_, h822, hasc, _, hearly, h850⟩
  rintro ⟨-, hagree, -⟩
  have := Option.some.inj (h850.symm.trans hagree)
  omega

theorem http_dates_disagree_epoch :
    ¬ FormsAgree 0 ∧ uHttpdateToTt (rfc822Form (brokenDown 0)) = some 0 ∧
    uHttpdateToTt (asctimeForm (brokenDown 0)) = some 0 ∧
      ∃ u < 0, uHttpdateToTt (rfc850Form (brokenDown 0)) = some u :=
  http_dates_disagree 0 (by decide) (by decide)

/-- The year of `Sunday, 06-Nov-94 08:49:37 GMT` is read as 94. -/
theorem rfc850_first_century :
    1970 ≤ utcYear 784111777 ∧ utcYear 784111777 ≤ 2069 ∧
      rfc850Form (brokenDown 784111777) = bytes "Sunday, 06-Nov-94 08:49:37 GMT" ∧
      ¬ FormsAgree 784111777 := by
  refine ⟨by decide, by decide, rfl, ?_⟩
  rintro ⟨-, h, -⟩
  exact absurd h (by decide)

theorem uTtToRfc822_eq (t : ℤ) (hlow : 1000 ≤ utcYear t) (hhigh : utcYear t ≤ 9999) :
    uTtToRfc822 t = some (rfc822Form (brokenDown t)) := by
  have hrange := brokenDown_inRange t
  have hyear := brokenDown_year t
  have hlength := rfc822Form_length hrange (by unfold fullYear; omega)
  obtain ⟨hsec, hmin, hhour, hmday, hmon, hwday⟩ := hrange
  have hint : ∀ n : ℤ, 0 ≤ n → n < 2 ^ 32 → unsignedOfInt n = n.toNat := by
    intro n h₁ h₂
    unfold unsignedOfInt
    rw [Int.emod_eq_of_lt h₁ h₂]
  have hpad : padTwo 48 (fullYear (brokenDown t)) = decimal (fullYear (brokenDown t)) := by
    unfold padTwo
    rw [if_neg (by unfold fullYear; omega)]
  unfold uTtToRfc822 gmtimeR
  rw [if_pos (by omega), Option.bind_some, if_neg (by omega), if_neg (by omega)]
  have htext : days3.getD (brokenDown t).wday.toNat [] ++ bytes ", " ++ padTwo 48
    (unsignedOfInt (brokenDown t).mday) ++
      bytes " " ++ months.getD (brokenDown t).mon.toNat [] ++ bytes " " ++
      padTwo 48 (unsignedOfInt ((brokenDown t).year + 1900)) ++ bytes " " ++
      padTwo 48 (unsignedOfInt (brokenDown t).hour) ++ bytes ":" ++ padTwo 48
        (unsignedOfInt (brokenDown t).min) ++
      bytes ":" ++ padTwo 48 (unsignedOfInt (brokenDown t).sec) ++ bytes " GMT" =
        rfc822Form (brokenDown t) := by
    rw [hint _ (by omega) (by omega), hint _ (by omega) (by omega), hint _ (by omega) (by omega),
      hint _ (by omega) (by omega), hint _ (by omega) (by omega)]
    unfold rfc822Form clock
    rw [← hpad]
    simp only [dayName, monthName, fullYear, List.append_assoc]
  dsimp only
  rw [htext, if_neg (by unfold RFC822_DATE_BUFSZ; omega)]
  -- the copy has room for the whole text
  simp only [strlcpy, RFC822_DATE_BUFSZ]
  rw [List.take_of_length_le (by omega)]

/-- A date that has been printed is read back, and a client that returns it in
`If-Modified-Since` has it compared with the same instant. -/
theorem httpdate_round_trip (t : ℤ) (hlow : 1000 ≤ utcYear t) (hhigh : utcYear t ≤ 9999) :
    ∃ date, uTtToRfc822 t = some date ∧ date = rfc822Form (brokenDown t) ∧
    uHttpdateToTt date = some t ∧
      ∀ rs : Response, ∃ rs', responseSetLastModified uTtToRfc822 rs t = some rs' ∧
        headerGetFieldValue rs'.header (bytes "Last-Modified") = some date ∧
        ∀ header, headerGetFieldValue header (bytes "If-Modified-Since") = some date →
        requestParseIms header = t := by
  have hrange := brokenDown_inRange t
  have hyear := brokenDown_year t
  have hread := httpdate_rfc822Form hrange (by omega) (by omega)
  rw [timegm_brokenDown t] at hread
  have hprint := uTtToRfc822_eq t hlow hhigh
  refine ⟨rfc822Form (brokenDown t), hprint, rfl, hread, fun rs => ?_⟩
  refine ⟨responseSetField rs (bytes "Last-Modified") (rfc822Form (brokenDown t)), ?_, ?_, ?_⟩
  · unfold responseSetLastModified
    rw [hprint, Option.map_some]
  · exact headerGetFieldValue_set _ _ _
  · intro header hfield
    unfold requestParseIms
    rw [hfield, Option.bind_some, hread, Option.getD_some]

theorem httpdate_round_trip_epoch :
    ∃ date, uTtToRfc822 0 = some date ∧ date = rfc822Form (brokenDown 0) ∧
    uHttpdateToTt date = some 0 ∧
      ∀ rs : Response, ∃ rs', responseSetLastModified uTtToRfc822 rs 0 = some rs' ∧
        headerGetFieldValue rs'.header (bytes "Last-Modified") = some date ∧
        ∀ header, headerGetFieldValue header (bytes "If-Modified-Since") = some date →
        requestParseIms header = 0 :=
  httpdate_round_trip 0 (by decide) (by decide)

end Klone.Date
