import Klone.Response.Header

/-! # Setting the fields of a response

A field is set in place when the header has one of that name, in any case, and is
added at the end when it has none. Sizes are printed as `unsigned int`.
-/
namespace Klone.Page

def headerSetField : Header → Str → Str → Header
  | [], name, value => [⟨name, value⟩]
  | f :: h, name, value =>
    if strcasecmpEq f.name name then ⟨name, value⟩ :: h else f :: headerSetField h name value

def responseSetField (rs : Response) (name value : Str) : Response :=
  { rs with header := headerSetField rs.header name value }

def responseSetStatus (rs : Response) (status : Int32) : Response := { rs with status := status }

def responseSetContentType (rs : Response) (mime : Str) : Response :=
  responseSetField rs (bytes "Content-Type") mime

def responseSetContentEncoding (rs : Response) (encoding : Str) : Response :=
  responseSetField rs (bytes "Content-Encoding") encoding

/-- `%u` of `printf`. -/
def unsignedDecimal (n : ℕ) : Str := decimal (n % 2 ^ 32 : ℕ)

def responseSetContentLength (rs : Response) (sz : ℕ) : Response :=
  responseSetField rs (bytes "Content-Length") (unsignedDecimal sz)

/-- `date` prints a time; it can fail. -/
def responseSetLastModified (date : ℤ → Option Str) (rs : Response) (mtime : ℤ) : Option Response :=
  (date mtime).map (responseSetField rs (bytes "Last-Modified"))

def responseDisableCaching (rs : Response) : Response :=
  let rs := responseSetField rs (bytes "Cache-Control") (bytes "no-cache, must-revalidate")
  let rs := responseSetField rs (bytes "Expires") (bytes "Mon, 1 Jan 1990 05:00:00 GMT")
  responseSetField rs (bytes "Pragma") (bytes "no-cache")

def httpAddDefaultHeader (rs : Response) (serverSig now : Str) : Response :=
  responseSetField (responseSetField rs (bytes "Server") serverSig) (bytes "Date") now

def encodingDelim (c : Byte) : Bool := c == 32 || c == 44

def requestIsEncodingAccepted (header : Header) (encoding : Str) : Bool :=
  ((headerGetFieldValue header (bytes "Accept-Encoding")).map fun value =>
    (strtok encodingDelim value).any fun tok => strcasecmpEq tok encoding).getD false

/-! ## Reading a field back -/

theorem headerGetFieldValue_set (h : Header) (name value : Str) :
    headerGetFieldValue (headerSetField h name value) name = some value := by
  induction h with
  | nil => simp [headerSetField, headerGetFieldValue, headerGetField, strcasecmpEq]
  | cons f h ih =>
    unfold headerSetField
    split
    · simp [headerGetFieldValue, headerGetField, strcasecmpEq]
    · next hf =>
      unfold headerGetFieldValue headerGetField at ih ⊢
      simpa [List.find?_cons, hf] using ih

/-- A field of another name is left as it is. -/
theorem headerGetFieldValue_set_of_ne (h : Header) {name other : Str} (value : Str)
    (hne : strcasecmpEq name other = false) :
    headerGetFieldValue (headerSetField h name value) other = headerGetFieldValue h other := by
  unfold headerGetFieldValue headerGetField
  congr 1
  induction h with
  | nil => simp [headerSetField, hne]
  | cons f h ih =>
    unfold headerSetField
    split
    · next hf =>
      have hother : strcasecmpEq f.name other = false := by
        unfold strcasecmpEq at hf hne ⊢
        rw [beq_iff_eq.mp hf]
        exact hne
      simp [hne, hother]
    · simp [List.find?_cons, ih]

theorem headerGetFieldValue_append_of_ne (h : Header) {name : Str} {fields : Header}
    (hne : ∀ f ∈ fields, strcasecmpEq f.name name = false) :
    headerGetFieldValue (h ++ fields) name = headerGetFieldValue h name := by
  have hnone : fields.find? (fun f => strcasecmpEq f.name name) = none := by
    rw [List.find?_eq_none]
    intro f hf
    rw [hne f hf]
    exact Bool.false_ne_true
  unfold headerGetFieldValue headerGetField
  rw [List.find?_append, hnone, Option.or_none]

/-! ## Printed sizes -/

theorem decimal_natCast (n : ℕ) :
    decimal n = (Nat.toDigits 10 n).map fun c => UInt8.ofNat c.toNat := by
  have hn : ¬ (n : ℤ) < 0 := by omega
  unfold decimal
  rw [if_neg hn, List.nil_append, Int.natAbs_natCast]

/-- A number that is not negative is written with digits alone. -/
theorem mem_decimal_natCast {n : ℕ} {c : Byte} (h : c ∈ decimal n) : 48 ≤ c ∧ c ≤ 57 := by
  rcases mem_decimal h with rfl | hdigit
  · rw [decimal_natCast] at h
    obtain ⟨d, hd, hsign⟩ := List.mem_map.mp h
    have hdigit := Nat.isDigit_of_mem_toDigits (by decide) (by decide) hd
    rw [Char.isDigit_iff_toNat] at hdigit
    obtain ⟨hlow, hhigh⟩ : 48 ≤ d.toNat ∧ d.toNat ≤ 57 := hdigit
    have hnat := congrArg UInt8.toNat hsign
    rw [UInt8.toNat_ofNat', Nat.mod_eq_of_lt (by omega)] at hnat
    have : d.toNat = 45 := hnat
    omega
  · exact hdigit

/-- The digits can be read back from the bytes. -/
theorem decimal_digits (n : ℕ) :
    (decimal n).map (fun b => Char.ofNat b.toNat) = Nat.toDigits 10 n := by
  rw [decimal_natCast, List.map_map]
  conv_rhs => rw [← List.map_id (Nat.toDigits 10 n)]
  apply List.map_congr_left
  intro c hc
  have hdigit := Nat.isDigit_of_mem_toDigits (by decide) (by decide) hc
  rw [Char.isDigit_iff_toNat] at hdigit
  obtain ⟨-, hle⟩ : 48 ≤ c.toNat ∧ c.toNat ≤ 57 := hdigit
  simp [Nat.mod_eq_of_lt (show c.toNat < 256 by omega)]

theorem decimal_inj {m n : ℕ} (h : decimal m = decimal n) : m = n := by
  have hdigits : Nat.toDigits 10 m = Nat.toDigits 10 n := by
    rw [← decimal_digits, h, decimal_digits]
  rw [← Nat.ofDigitChars_ten_toDigits (n := m), hdigits, Nat.ofDigitChars_ten_toDigits]

/-- A size is printed as it is when it fits in an `unsigned int`. -/
theorem unsignedDecimal_eq_iff (m n : ℕ) : unsignedDecimal m = decimal n ↔ m % 2 ^ 32 = n :=
  ⟨fun h => decimal_inj h, fun h => by rw [unsignedDecimal, h]⟩

end Klone.Page
