import Klone.Request.Cookie
import Klone.Response.Cookie
import Klone.Session.Text
import Klone.Utils.Hexncpy

/-! # Sessions kept by the client

The text of a session is encrypted, written in hexadecimal and given to the client in
a cookie, with further cookies for the initialisation vector, the time and a keyed hash
of all of them. Encryption is always on for these sessions.
-/
namespace Klone.Session
open Page

def COOKIE_MAX_SIZE : ℕ := 4096
def EVP_MAX_BLOCK_LENGTH : ℕ := 32
def CIPHER_IV_LEN : ℕ := 16

def EBUF_SIZE : ℕ := COOKIE_MAX_SIZE + EVP_MAX_BLOCK_LENGTH + 96

def KL1_CLISES_DATA : Str := bytes "KL1_CLISES_DATA"
def KL1_CLISES_MTIME : Str := bytes "KL1_CLISES_MTIME"
def KL1_CLISES_HMAC : Str := bytes "KL1_CLISES_HMAC"
def KL1_CLISES_IV : Str := bytes "KL1_CLISES_IV"

/-- A hash function keyed with the secret of the server. -/
structure Mac where
  hash : Str → List Byte
  nonempty : ∀ s, hash s ≠ []

structure Signed where
  data : Str
  sid : Str
  mtime : Str
  iv : Str
  deriving DecidableEq, Repr

def Signed.fed (t : Signed) : Str := t.data ++ t.sid ++ t.mtime ++ t.iv

def sessionClientHmac (m : Mac) (data sid mtime : Str) (iv : Option Str) : Str :=
  uHexncpyEncode (m.hash (data ++ sid ++ mtime ++ iv.getD []))

/-- `u_hexncpy` into a buffer of `size` bytes, with its NUL. -/
def hexBuf (size : ℕ) (s : Str) : List Byte := store (List.replicate size 0) (s ++ [0])

/-- Calls of `response_set_cookie` up to the first that fails. -/
def setCookies (date : ℤ → Option Str) : List Cookie → List CookieSet
  | [] => []
  | c :: cs =>
    let r := responseSetCookie date c
    if r.field = none then [r] else r :: setCookies date cs

/-- What a save has done: its buffer for the hexadecimal text, its calls of
`response_set_cookie`, and what it has signed. -/
structure ClientSave where
  ebuf : List Byte
  cookies : List CookieSet
  signed : Option Signed

def signedFor (iv buf : List Byte) (sid : Str) (now : Int32) : Signed :=
  ⟨uHexncpyEncode buf, sid, decimal now.toInt, uHexncpyEncode iv⟩

/-- The cookies for what is signed, in the order in which they are set. -/
def clientCookies (m : Mac) (t : Signed) : List Cookie :=
  [.plain KL1_CLISES_IV (some t.iv), .plain KL1_CLISES_DATA (some t.data),
    .plain KL1_CLISES_MTIME (some t.mtime),
    .plain KL1_CLISES_HMAC (some (sessionClientHmac m t.data t.sid t.mtime (some t.iv)))]

/-- `session_client_save`: `iv` is the new initialisation vector, `buf` the encrypted text
and `now` the time. -/
def sessionClientSave (date : ℤ → Option Str) (m : Mac) (iv buf : List Byte) (sid : Str)
    (now : Int32) : ClientSave :=
  let t := signedFor iv buf sid now
  if COOKIE_MAX_SIZE < buf.length then
    ⟨List.replicate EBUF_SIZE 0, setCookies date [.plain KL1_CLISES_IV (some t.iv)], none⟩
  else if buf = [] then ⟨hexBuf EBUF_SIZE [],
    setCookies date [.plain KL1_CLISES_IV (some t.iv)], none⟩
  else
    let sets := setCookies date (clientCookies m t)
    ⟨hexBuf EBUF_SIZE t.data, sets, if sets.all (·.field.isSome) then some t else none⟩

/-! ## Loading -/

def strtoulDigit (c : Byte) : ℕ :=
  if 48 ≤ c ∧ c ≤ 57 then (c - 48).toNat
  else if 97 ≤ c ∧ c ≤ 122 then (c - 87).toNat
  else if 65 ≤ c ∧ c ≤ 90 then (c - 55).toNat
  else 255

/-- The number at the start of a string in the given base, at most the largest `unsigned long`. -/
def strtoulIn (base : ℕ) (s : Str) : ℕ :=
  min ((s.takeWhile fun c => strtoulDigit c < base).foldl (fun n c => n * base + strtoulDigit c) 0)
    (2 ^ 64 - 1)

/-- `strtoul` with base 0: the prefix tells the base. -/
def strtoul (s : Str) : ℕ :=
  let t := s.dropWhile isspace
  let u := if t.head? = some 45 ∨ t.head? = some 43 then t.tail else t
  let n := match u with
    | 48 :: 120 :: rest => strtoulIn 16 rest
    | 48 :: 88 :: rest => strtoulIn 16 rest
    | 48 :: rest => strtoulIn 8 rest
    | _ => strtoulIn 10 u
  if t.head? = some 45 then (2 ^ 64 - n) % 2 ^ 64 else n

/-- What `session_client_load` comes to; without the cookie for the initialisation vector
it goes on with a null pointer after the hash has been found good. -/
inductive ClientLoad where
  | failed
  | crashed
  | loaded (mtime : Int32) (cipherIv : List Byte) (vars : List Var)
  deriving DecidableEq, Repr

def clientBuf (data : List Byte) : List Byte :=
  store (List.replicate COOKIE_MAX_SIZE 0) (data ++ [0])

/-- What the codecs of a session make of a buffer: `decode` under an initialisation
vector, as a stream to read from. -/
abbrev Decode := List Byte → List Byte → Source

def sessionPrvLoadFromBuf (key : KeyCipher) (decode : Decode) (iv buf : List Byte) :
    Option (List Var) :=
  let r := sessionPrvLoadFromIo (some key) [] (decode iv buf)
  if r.ok then some r.vars else none

/-- The rest of `session_client_load` when the hash is good. -/
def clientLoadData (key : KeyCipher) (decode : Decode) (cipherIv : List Byte)
    (ebuf mtime iv : Str) : ClientLoad :=
  match uHexncpyDecode iv with
  | none => .failed
  | some [] => .failed
  | some (b :: bs) =>
    let cipherIv := store cipherIv (b :: bs ++ [0])
    if COOKIE_MAX_SIZE < ebuf.length then .failed
    else match uHexncpyDecode ebuf with
      | none => .failed
      | some [] => .failed
      | some (c :: cs) =>
        match sessionPrvLoadFromBuf key decode (cipherIv.take CIPHER_IV_LEN) (c :: cs) with
        | none => .failed
        | some vars => .loaded (Int32.ofInt (strtoul mtime)) cipherIv vars

/-- `session_client_load` for the session `sid`, with the cookies of the request. -/
def sessionClientLoad (m : Mac) (key : KeyCipher) (decode : Decode) (cipherIv : List Byte)
    (sid : Str) (cookies : List Var) : ClientLoad :=
  match requestGetCookie cookies KL1_CLISES_DATA, requestGetCookie cookies KL1_CLISES_MTIME,
    requestGetCookie cookies KL1_CLISES_HMAC with
  | some ebuf, some mtime, some hmac =>
    let iv := requestGetCookie cookies KL1_CLISES_IV
    if sessionClientHmac m ebuf sid mtime iv ≠ hmac then .failed
    else match iv with
      | none => .crashed
      | some iv => clientLoadData key decode cipherIv ebuf mtime iv
  | _, _, _ => .failed

end Klone.Session
