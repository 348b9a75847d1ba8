import Klone.Lib.Calendar
import Klone.Lib.Scanf
import Klone.Response.Fields

/-! # Dates of HTTP

The three formats of a date are read with one scan each, and which one is tried is
decided by the fourth character. A date is printed in the first of them.
-/
namespace Klone.Date
open Klone.Scanf
open Klone.Calendar
open Klone.Page (decimal decimal_ne_nil decimal_natCast decimal_digits mem_decimal_natCast)

def days3 : List Str := ["Sun", "Mon", "Tue", "Wed", "Thu", "Fri", "Sat"].map bytes

def months : List Str :=
  ["Jan", "Feb", "Mar", "Apr", "May", "Jun", "Jul", "Aug", "Sep", "Oct", "Nov", "Dec"].map bytes

def monthIdx (mon : Str) : Option ℕ := months.findIdx? fun m => strcasecmpEq m mon

/-- An `unsigned int` stored in an `int`, and the other way round. -/
def intOf (n : ℕ) : ℤ := if n < 2 ^ 31 then n else n - 2 ^ 32
def unsignedOfInt (n : ℤ) : ℕ := (n % 2 ^ 32).toNat

/-- The scanned fields as a time; the year is counted from 1900. -/
def toTime (mon : Str) (day year hour min sec : ℕ) : Option ℤ :=
  (monthIdx mon).map fun i : ℕ =>
    timegm { sec := intOf sec, min := intOf min, hour := intOf hour, mday := intOf day, mon := i,
             year := intOf ((year + (2 ^ 32 - 1900)) % 2 ^ 32), wday := 0 }

def BUFSZ : ℕ := 64

/-- `"%s %s %u %u:%u:%u %u"` -/
def asctimeFormat : List Directive :=
  [.word, .skip, .word, .skip, .unsigned, .skip, .unsigned, .exactly 58, .unsigned, .exactly 58,
    .unsigned, .skip,
    .unsigned]

def uAsctimeToTt (str : Str) : Option ℤ :=
  if BUFSZ ≤ str.length then none
  else match sscanf asctimeFormat str with
    | [.text _, .text mon, .number day, .number hour, .number min, .number sec, .number year] =>
      toTime mon day year hour min sec
    | _ => none

/-- `"%[^,], %u%c%[^-]%c%u %u:%u:%u %s"` -/
def rfc850Format : List Directive :=
  [.upTo 44, .exactly 44, .skip, .unsigned, .byte, .upTo 45, .byte, .unsigned, .skip, .unsigned,
    .exactly 58, .unsigned,
    .exactly 58, .unsigned, .skip, .word]

def uRfc850ToTt (str : Str) : Option ℤ :=
  if BUFSZ ≤ str.length then none
  else match sscanf rfc850Format str with
    | [.text _, .number day, .byte _, .text mon, .byte _, .number year, .number hour, .number min,
      .number sec,
        .text _] => toTime mon day year hour min sec
    | _ => none

/-- `"%[^,], %u %s %u %u:%u:%u %s"` -/
def rfc822Format : List Directive :=
  [.upTo 44, .exactly 44, .skip, .unsigned, .skip, .word, .skip, .unsigned, .skip, .unsigned,
    .exactly 58, .unsigned,
    .exactly 58, .unsigned, .skip, .word]

def uRfc822ToTt (str : Str) : Option ℤ :=
  if BUFSZ ≤ str.length then none
  else match sscanf rfc822Format str with
    | [.text _, .number day, .text mon, .number year, .number hour, .number min,
      .number sec, .text _] =>
      toTime mon day year hour min sec
    | _ => none

def uHttpdateToTt (str : Str) : Option ℤ :=
  if str.length < 4 then none
  else if str.getD 3 0 = 44 then uRfc822ToTt str
  else if str.getD 3 0 = 32 then uAsctimeToTt str
  else uRfc850ToTt str

/-- At least two characters; `%02u` fills with zeros. -/
def padTwo (fill : Byte) (n : ℕ) : Str := if n < 10 then fill :: decimal n else decimal n

def RFC822_DATE_BUFSZ : ℕ := 32

def uTtToRfc822 (ts : ℤ) : Option Str :=
  (gmtimeR ts).bind fun tm =>
    if 6 < tm.wday ∨ tm.wday < 0 then none
    else if 11 < tm.mon ∨ tm.mon < 0 then none
    else
      let buf := days3.getD tm.wday.toNat [] ++ bytes ", " ++ padTwo 48 (unsignedOfInt tm.mday) ++
        bytes " " ++
        months.getD tm.mon.toNat [] ++ bytes " " ++ padTwo 48 (unsignedOfInt (tm.year + 1900)) ++
          bytes " " ++
        padTwo 48 (unsignedOfInt tm.hour) ++ bytes ":" ++ padTwo 48 (unsignedOfInt tm.min) ++
          bytes ":" ++
        padTwo 48 (unsignedOfInt tm.sec) ++ bytes " GMT"
      -- the copy is reached only when the text has fitted
      if RFC822_DATE_BUFSZ ≤ buf.length then none else some (strlcpy buf RFC822_DATE_BUFSZ).2

/-- `request_parse_ims`; a date that cannot be read is ignored. -/
def requestParseIms (header : Header) : ℤ :=
  ((headerGetFieldValue header (bytes "If-Modified-Since")).bind uHttpdateToTt).getD 0

/-! ## Numerals -/

theorem digitsValue_decimal (n : ℕ) : digitsValue (decimal n) = n := by
  conv_rhs => rw [← Nat.ofDigitChars_ten_toDigits (n := n), ← decimal_digits]
  unfold digitsValue Nat.ofDigitChars
  rw [List.foldl_map]
  apply List.foldl_ext
  intro acc b _
  have hb := b.toNat_lt
  rw [Char.toNat_ofNat, if_pos (Or.inl (by omega))]
  rfl

theorem isdigit_decimal {n : ℕ} : ∀ c ∈ decimal n, isdigit c = true := by
  intro c hc
  obtain ⟨hlow, hhigh⟩ := mem_decimal_natCast hc
  simp [isdigit, hlow, hhigh]

theorem numeral_decimal {n : ℕ} (h : n < 2 ^ 32) : Numeral (decimal n) n :=
  ⟨decimal_ne_nil _, isdigit_decimal, digitsValue_decimal n, h⟩

theorem numeral_padTwo {n : ℕ} (h : n < 2 ^ 32) : Numeral (padTwo 48 n) n := by
  unfold padTwo
  split
  · exact (numeral_decimal h).zero
  · exact numeral_decimal h

theorem decimal_length_le {n : ℕ} (k : ℕ) (hk : 0 < k) (h : n < 10 ^ k) :
    (decimal n).length ≤ k := by
  rw [decimal_natCast, List.length_map]
  exact (Nat.length_toDigits_le_iff (by decide) hk).mpr h

theorem padTwo_length_le {n : ℕ} (fill : Byte) (k : ℕ) (hk : 2 ≤ k) (h : n < 10 ^ k) :
    (padTwo fill n).length ≤ k := by
  unfold padTwo
  split
  · next hn =>
    have := decimal_length_le 1 one_pos (n := n) (by simpa using hn)
    rw [List.length_cons]
    omega
  · exact decimal_length_le k (by omega) h

/-! ## Scans -/

section
variable {wday mon day year hour min sec zone : Str} {d y h m s : ℕ}

/-- The time of day, with the colons. -/
theorem sscanf_clock {format : List Directive} {rest : Str} (hhour : Numeral hour h)
    (hmin : Numeral min m) (hsec : Numeral sec s) (hrest : ∀ c ∈ rest.head?, isdigit c = false) :
    sscanf (.skip :: .unsigned :: .exactly 58 :: .unsigned :: .exactly 58 :: .unsigned :: format)
        (32 :: (hour ++ 58 :: (min ++ 58 :: (sec ++ rest)))) =
      .number h :: .number m :: .number s :: sscanf format rest := by
  rw [sscanf_skip_space (by decide), hhour.word.sscanf_skip,
    hhour.sscanf_unsigned (by simp; decide), sscanf_exactly,
    hmin.sscanf_unsigned (by simp; decide), sscanf_exactly, hsec.sscanf_unsigned hrest]

theorem sscanf_zone (hzone : Word zone) : sscanf [.skip, .word] (32 :: zone) = [.text zone] := by
  have hskip : sscanf [.skip, .word] (zone ++ []) = sscanf [.word] (zone ++ []) := hzone.sscanf_skip
  have hword : sscanf [.word] (zone ++ []) = .text zone :: sscanf [] [] :=
    hzone.sscanf_word (by simp)
  rw [List.append_nil] at hskip hword
  rw [sscanf_skip_space (by decide), hskip, hword, sscanf_nil]

theorem sscanf_rfc822 (hw : wday ≠ []) (hcomma : 44 ∉ wday) (hday : Numeral day d) (hmon : Word mon)
    (hyear : Numeral year y) (hhour : Numeral hour h) (hmin : Numeral min m) (hsec : Numeral sec s)
    (hzone : Word zone) :
    sscanf rfc822Format (wday ++ 44 :: 32 ::
      (day ++ 32 :: (mon ++ 32 :: (year ++ 32 :: (hour ++ 58 :: (min ++ 58 ::
      (sec ++ 32 :: zone))))))) =
      [.text wday, .number d, .text mon, .number y, .number h, .number m, .number s,
        .text zone] := by
  unfold rfc822Format
  rw [sscanf_upTo hw hcomma, sscanf_exactly, sscanf_skip_space (by decide), hday.word.sscanf_skip,
    hday.sscanf_unsigned (by simp; decide), sscanf_skip_space (by decide), hmon.sscanf_skip,
    hmon.sscanf_word (by simp; decide), sscanf_skip_space (by decide), hyear.word.sscanf_skip,
    hyear.sscanf_unsigned (by simp; decide), sscanf_clock hhour hmin hsec (by simp; decide),
      sscanf_zone hzone]

theorem sscanf_rfc850 (hw : wday ≠ []) (hcomma : 44 ∉ wday) (hday : Numeral day d) (hmon : Word mon)
    (hdash : 45 ∉ mon) (hyear : Numeral year y) (hhour : Numeral hour h) (hmin : Numeral min m)
    (hsec : Numeral sec s) (hzone : Word zone) :
    sscanf rfc850Format (wday ++ 44 :: 32 ::
      (day ++ 45 :: (mon ++ 45 :: (year ++ 32 :: (hour ++ 58 :: (min ++ 58 ::
      (sec ++ 32 :: zone))))))) =
      [.text wday, .number d, .byte 45, .text mon, .byte 45, .number y, .number h, .number m,
        .number s, .text zone] := by
  unfold rfc850Format
  rw [sscanf_upTo hw hcomma, sscanf_exactly, sscanf_skip_space (by decide), hday.word.sscanf_skip,
    hday.sscanf_unsigned (by simp; decide), sscanf_byte, sscanf_upTo hmon.nonempty hdash,
      sscanf_byte,
    hyear.sscanf_unsigned (by simp; decide), sscanf_clock hhour hmin hsec (by simp; decide),
      sscanf_zone hzone]

/-- The day may be filled with a blank. -/
theorem sscanf_asctime {blanks : Str} (hw : Word wday) (hmon : Word mon)
    (hblanks : ∀ c ∈ blanks, isspace c = true) (hday : Numeral day d) (hhour : Numeral hour h)
    (hmin : Numeral min m) (hsec : Numeral sec s) (hyear : Numeral year y) :
    sscanf asctimeFormat (wday ++ 32 ::
      (mon ++ 32 :: (blanks ++ (day ++ 32 :: (hour ++ 58 :: (min ++ 58 ::
      (sec ++ 32 :: year))))))) =
      [.text wday, .text mon, .number d, .number h, .number m, .number s, .number y] := by
  have hskip : sscanf [.skip, .unsigned] (year ++ []) = sscanf [.unsigned] (year ++ []) :=
    hyear.word.sscanf_skip
  have hend : sscanf [.unsigned] (year ++ []) = .number y :: sscanf [] [] :=
    hyear.sscanf_unsigned (by simp)
  rw [List.append_nil] at hskip hend
  unfold asctimeFormat
  rw [hw.sscanf_word (by simp; decide), sscanf_skip_space (by decide), hmon.sscanf_skip,
    hmon.sscanf_word (by simp; decide), sscanf_skip_space (by decide), sscanf_skip_spaces hblanks,
      hday.word.sscanf_skip,
    hday.sscanf_unsigned (by simp; decide), sscanf_clock hhour hmin hsec (by simp; decide),
      sscanf_skip_space (by decide),
    hskip, hend, sscanf_nil]

end

end Klone.Date
