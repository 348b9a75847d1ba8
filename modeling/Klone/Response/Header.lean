import Klone.Request.Header

/-! # The header of a response

The header as it is printed, and the estimate of its size that the buffer for it is
allocated with. Names and values of fields are C strings.
-/
namespace Klone.Page

inductive Method where
  | unknown
  | get
  | head
  | post
  | put
  | delete
  deriving DecidableEq, Repr

structure Response where
  cgi : Bool
  method : Method
  status : Int32
  header : Header
  deriving DecidableEq, Repr

def httpStatusMap : List (Int32 × Str) :=
  [(200, bytes "OK"), (304, bytes "Not Modified"), (404, bytes "Not Found"),
    (500, bytes "Internal Server Error"),
    (301, bytes "Moved Permanently"), (302, bytes "Moved Temporarily"), (201, bytes "Created"),
    (202, bytes "Accepted"), (204, bytes "No Content"), (400, bytes "Bad Request"),
      (401, bytes "Unauthorized"),
    (403, bytes "Forbidden"), (411, bytes "Content-Length required"),
      (413, bytes "Request data too big"),
    (430, bytes "Key needed"), (501, bytes "Not Implemented"), (502, bytes "Bad Gateway"),
    (503, bytes "Service Unavailable")]

def httpGetStatusDesc (status : Int32) : Str :=
  ((httpStatusMap.find? fun m => m.1 = status).map Prod.snd).getD (bytes "Unknown Status Code")

/-- `%d` of `printf`. -/
def decimal (n : ℤ) : Str :=
  (if n < 0 then bytes "-" else []) ++ (Nat.toDigits 10 n.natAbs).map fun c => UInt8.ofNat c.toNat

def responsePrintStatus (rs : Response) : Str :=
  bytes "HTTP/1.0 " ++ decimal rs.status.toInt ++ bytes " " ++ httpGetStatusDesc rs.status ++
    bytes "\r\n"

def responsePrintField (f : Field) : Str := f.name ++ bytes ": " ++ f.value ++ bytes "\r\n"

/-- The strings that `response_print_header_to_io` prints one after the other. -/
def responsePrintHeader (rs : Response) : List Str :=
  (if rs.cgi then [] else [responsePrintStatus rs]) ++ rs.header.map responsePrintField ++
    [bytes "\r\n"]

def responseGetMaxHeaderSize (rs : Response) : ℕ :=
  16 + (httpGetStatusDesc rs.status).length +
    (rs.header.map fun f => f.name.length + f.value.length + 4).sum + 2 + 64

/-- An `int` has at most ten digits and a sign. -/
theorem decimal_length (n : Int32) : (decimal n.toInt).length ≤ 11 := by
  have hlt := n.toInt_lt
  have hle := n.le_toInt
  have hdigits : (Nat.toDigits 10 n.toInt.natAbs).length ≤ 10 := by
    rw [Nat.length_toDigits_le_iff (by decide) (by decide)]
    omega
  have hsign : (if n.toInt < 0 then bytes "-" else []).length ≤ 1 := by
    split
    · exact le_refl _
    · exact Nat.zero_le _
  unfold decimal
  rw [List.length_append, List.length_map]
  omega

theorem decimal_ne_nil (n : ℤ) : decimal n ≠ [] := by
  unfold decimal
  intro he
  have hd := (List.append_eq_nil_iff.mp he).2
  exact Nat.toDigits_ne_nil (List.map_eq_nil_iff.mp hd)

/-- A number is written with digits and a sign. -/
theorem mem_decimal {n : ℤ} {c : Byte} (h : c ∈ decimal n) : c = 45 ∨ 48 ≤ c ∧ c ≤ 57 := by
  unfold decimal at h
  rcases List.mem_append.mp h with h | h
  · split at h
    · exact Or.inl (List.mem_singleton.mp h)
    · cases h
  · obtain ⟨d, hd, rfl⟩ := List.mem_map.mp h
    have hdigit := Nat.isDigit_of_mem_toDigits (by decide) (by decide) hd
    rw [Char.isDigit_iff_toNat] at hdigit
    obtain ⟨h₁, h₂⟩ : 48 ≤ d.toNat ∧ d.toNat ≤ 57 := hdigit
    have hnat : (UInt8.ofNat d.toNat).toNat = d.toNat := by
      rw [UInt8.toNat_ofNat']
      exact Nat.mod_eq_of_lt (by omega)
    refine Or.inr ⟨?_, ?_⟩
    · rw [UInt8.le_iff_toNat_le, hnat]
      exact h₁
    · rw [UInt8.le_iff_toNat_le, hnat]
      exact h₂

theorem responsePrintStatus_length (rs : Response) :
    (responsePrintStatus rs).length ≤ 23 + (httpGetStatusDesc rs.status).length := by
  have hd := decimal_length rs.status
  have h₁ : (bytes "HTTP/1.0 ").length = 9 := by decide
  have h₂ : (bytes " ").length = 1 := by decide
  have h₃ : (bytes "\r\n").length = 2 := by decide
  simp only [responsePrintStatus, List.length_append]
  omega

theorem printFields_length (header : Header) :
    (header.map responsePrintField).flatten.length =
    (header.map fun f => f.name.length + f.value.length + 4).sum := by
  have h₁ : (bytes ": ").length = 2 := by decide
  have h₂ : (bytes "\r\n").length = 2 := by decide
  induction header with
  | nil => rfl
  | cons f header ih =>
    rw [List.map_cons, List.flatten_cons, List.length_append, ih, List.map_cons, List.sum_cons]
    simp only [responsePrintField, List.length_append]
    omega

/-- The estimate covers the header. -/
theorem responsePrintHeader_length (rs : Response) :
    (responsePrintHeader rs).flatten.length ≤ responseGetMaxHeaderSize rs := by
  have hs := responsePrintStatus_length rs
  have hf := printFields_length rs.header
  have h₃ : (bytes "\r\n").length = 2 := by decide
  have hstatus : (if rs.cgi then [] else [responsePrintStatus rs]).flatten.length ≤
      (responsePrintStatus rs).length := by
    split
    · exact Nat.zero_le _
    · simp
  have hlast : [bytes "\r\n"].flatten.length = 2 := by decide
  unfold responsePrintHeader responseGetMaxHeaderSize
  rw [List.flatten_append, List.flatten_append, List.length_append, List.length_append, hf, hlast]
  omega

end Klone.Page
