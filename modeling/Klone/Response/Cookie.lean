import Klone.Response.Header
import Klone.Utils.Urlncpy

/-! # Cookies of a response

`response_set_cookie` builds the value of a `Set-Cookie` field in a buffer of fixed
size. The escaped value is copied without regard to that size, so the model keeps the
block of memory: it gets longer when bytes are stored past its end.
-/
namespace Klone.Page

def COOKIE_BUFSZ : ℕ := 4096

structure Cookie where
  name : Str
  value : Option Str
  expire : ℤ
  path : Option Str
  domain : Option Str
  secure : Bool
  deriving DecidableEq, Repr

def Cookie.plain (name : Str) (value : Option Str) : Cookie := ⟨name, value, 0, none, none, false⟩

structure CookieSet where
  mem : List Byte
  field : Option Field
  deriving DecidableEq, Repr

/-- `BUFSZ - strlen(buf)`, a `size_t`: behind a string that has overrun the buffer it is no
small number. -/
def sizeBehind (len : ℕ) : ℕ := (((COOKIE_BUFSZ : ℤ) - len) % sizeMod).toNat

/-- `u_snprintf` of `t` behind the string `s` of the buffer; it fails when the text and its NUL
do not fit the size that is passed, or its length is no `int`. -/
def printfBehind (s t : Str) : Option Str :=
  if t.length < min (sizeBehind s.length) (2 ^ 31) then some (s ++ t) else none

def inCookieBuf (s : Str) : List Byte := store (List.replicate COOKIE_BUFSZ 0) (s ++ [0])

/-- What is printed behind the value; `none` when the date has no text. -/
def cookieAttributes (date : ℤ → Option Str) (c : Cookie) : Option (List Str) :=
  (if c.expire = 0 then some [] else (date c.expire).map fun t => [bytes "; expires=" ++ t]).map
    fun expires =>
    expires ++ (c.path.map (bytes "; path=" ++ ·)).toList ++
      (c.domain.map (bytes "; domain=" ++ ·)).toList ++
      (if c.secure then [bytes "; secure"] else [])

def cookieField (s : Str) : CookieSet := ⟨inCookieBuf s, some ⟨bytes "Set-Cookie", s⟩⟩

def responseSetCookie (date : ℤ → Option Str) (c : Cookie) : CookieSet :=
  match c.value with
  | none =>
    match printfBehind [] (c.name ++ bytes "=; expires=Wed, 01-Jan-1990 10:10:10 GMT") with
    | none => ⟨List.replicate COOKIE_BUFSZ 0, none⟩
    | some s => cookieField s
  | some value =>
    match printfBehind [] (c.name ++ [61]) with
    | none => ⟨List.replicate COOKIE_BUFSZ 0, none⟩
    | some s =>
      let t := s ++ uUrlncpyEncode value
      if value = [] then ⟨inCookieBuf t, none⟩
      else match (cookieAttributes date c).bind fun attrs => attrs.foldlM printfBehind t with
        | none => ⟨inCookieBuf t, none⟩
        | some u => cookieField u

/-- Inside the buffer the size is the room that is left. -/
theorem sizeBehind_inside {len : ℕ} (h : len ≤ COOKIE_BUFSZ) :
    min (sizeBehind len) (2 ^ 31) = COOKIE_BUFSZ - len := by
  unfold sizeBehind COOKIE_BUFSZ sizeMod at *
  omega

/-- Behind an overrun the size is larger than any length. -/
theorem sizeBehind_overrun {len : ℕ} (h : COOKIE_BUFSZ < len) (hlen : len ≤ 2 ^ 32) :
    min (sizeBehind len) (2 ^ 31) = 2 ^ 31 := by
  unfold sizeBehind COOKIE_BUFSZ sizeMod at *
  omega

/-- The first text in the buffer. -/
theorem printfBehind_nil (t : Str) :
    printfBehind [] t = if t.length < COOKIE_BUFSZ then some t else none := by
  unfold printfBehind
  rw [List.length_nil, sizeBehind_inside (Nat.zero_le _)]
  rfl

theorem inCookieBuf_fits {s : Str} :
    (inCookieBuf s).length = COOKIE_BUFSZ ↔ s.length < COOKIE_BUFSZ := by
  rw [inCookieBuf, store_length, List.length_replicate, List.length_append, List.length_singleton]
  omega

/-- A cookie with no attributes is written whatever its size. -/
theorem responseSetCookie_plain (date : ℤ → Option Str) {name value : Str}
    (hname : name.length + 1 < COOKIE_BUFSZ) (hvalue : value ≠ []) :
    responseSetCookie date (Cookie.plain name (some value)) =
    cookieField (name ++ 61 :: uUrlncpyEncode value) := by
  have hprint : printfBehind [] (name ++ [61]) = some (name ++ [61]) := by
    rw [printfBehind_nil, if_pos]
    simpa using hname
  simp [responseSetCookie, Cookie.plain, hprint, hvalue, cookieAttributes]

end Klone.Page
