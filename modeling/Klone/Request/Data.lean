import Klone.Http.Serve
import Klone.Request.Multipart
import Klone.Request.Vars
import Klone.Utils.Htmlncpy
import Klone.Response.Header

/-! # The data of a request

The variables of a request come from the query string and, if it is a POST, from its
body, which is either urlencoded or in multipart format. The declared length is compared
with the limit before anything is read.
-/
namespace Klone.Multipart
open Loop Page

def HTTP_STATUS_BAD_REQUEST : ℕ := 400
def HTTP_STATUS_LENGTH_REQUIRED : ℕ := 411
def HTTP_STATUS_REQUEST_TOO_LARGE : ℕ := 413

def BOUNDARY_BUFSZ : ℕ := 128
def LINE_BUFSZ : ℕ := 1024

def sizeOfInt (n : Int32) : ℕ := (n.toInt % sizeMod).toNat

/-- The length of a `Content-Length` field; a negative one is a very large `size_t`. -/
def contentLengthOf (h : Header) : Option ℕ :=
  (headerGetFieldValue h (bytes "Content-Length")).map fun clen => sizeOfInt (Http.atoi clen)

def requestSetContentLength (rq : Request) : Option Request :=
  (contentLengthOf rq.header).map fun len => { rq with contentLength := len }

def requestCbAddGetVar (rq : Request) (tok : Str) : Request :=
  match urlVar tok with
  | none => rq
  | some v => { rq with args := rq.args ++ [v], argsGet := rq.argsGet ++ [v] }

def requestCbAddPostVar (rq : Request) (tok : Str) : Request :=
  match urlVar tok with
  | none => rq
  | some v => { rq with args := rq.args ++ [v], argsPost := rq.argsPost ++ [v] }

def queryVars (query : List Byte) : List Str := strtok (· == 38) (cstr query)

def requestParseQueryArgs (rq : Request) : Request :=
  match rq.query with
  | none => rq
  | some query => (queryVars query).foldl requestCbAddGetVar rq

def requestIsMultipartFormdata (rq : Request) : Bool :=
  matchContentType rq.header (bytes "multipart/form-data")

def requestIsUrlencoded (rq : Request) : Bool :=
  (headerGetFieldValue rq.header (bytes "Content-Type")).isNone ||
    matchContentType rq.header (bytes "application/x-www-form-urlencoded")

/-- The body is appended to the query string, and the variables are those behind the old end. -/
def requestParseUrlencodedData (rq : Request) (src : Source) : Bool × Request × Source :=
  let old := match rq.query with
    | none => []
    | some query => if query = [] then [] else query ++ [38]
  let r := ioRead src rq.contentLength
  let rq := { rq with query := some (old ++ r.data) }
  if r.rc = some rq.contentLength then
    (true, (queryVars r.data).foldl requestCbAddPostVar rq, r.src)
  else (false, rq, r.src)

def requestGetFieldparam (h : Header) (fieldName paramName : Str) (size : ℕ) : Option Str :=
  match headerGetFieldValue h fieldName with
  | none => none
  | some value =>
    match (uStristr value paramName).map fun t : Str => t.drop paramName.length with
    | some (61 :: rest) =>
      let pv := rest.takeWhile fun c => !(c == 59 || isspace c)
      if size < pv.length + 1 then none else some pv
    | _ => none

def preambleBody (boundary : Str) (src : Source) : Option (Iter Source (Bool × Source)) :=
  let r := ioGets src LINE_BUFSZ
  match r.rc with
  | none => some (.leave (false, r.src))
  | some 0 => some (.leave (false, r.src))
  | some _ => if boundary.isPrefixOf r.data then some (.leave (true, r.src)) else some (.again
    r.src)

/-- Skip the lines before the first one that begins with the boundary. -/
def skipPreamble (boundary : Str) (src : Source) : Bool × Source :=
  (run (preambleBody boundary) (src.bytes.length + 1) src).getD (false, src)

structure PartsState where
  part : ℕ
  rq : Request
  src : Source

/-- The stack buffer of `request_parse_multipart_chunk` when it is called. -/
def stackBuf : List Byte := List.replicate BUFSZ 0

def partsBody (boundary : Str) (tmp : ℕ → TmpFile) (s : PartsState) :
    Option (Iter PartsState (Bool × Request × Source)) :=
  let r := requestParseMultipartChunk s.rq s.src boundary (tmp s.part) stackBuf
  if r.ok = false then some (.leave (false, r.rq, r.src))
  else if r.eof then some (.leave (true, r.rq, r.src))
  else some (.again ⟨s.part + 1, r.rq, r.src⟩)

def parseParts (boundary : Str) (tmp : ℕ → TmpFile) (rq : Request) (src : Source) :
    Bool × Request × Source :=
  (run (partsBody boundary tmp) (src.bytes.length + 1) ⟨0, rq, src⟩).getD (false, rq, src)

def requestParseMultipartData (rq : Request) (src : Source) (tmp : ℕ → TmpFile) :
    Bool × Request × Source :=
  match requestGetFieldparam rq.header (bytes "Content-Type") (bytes "boundary")
    (BOUNDARY_BUFSZ - 2) with
  | none => (false, rq, src)
  | some b =>
    let boundary := bytes "--" ++ b
    let p := skipPreamble boundary src
    if p.1 = false then (false, rq, p.2)
    else if BOUNDARY_BUFSZ ≤ (bytes "\r\n" ++ boundary).length then (false, rq, p.2)
    else parseParts (bytes "\r\n" ++ boundary) tmp rq p.2

/-- The return value of `request_parse_data`, the request and its stream afterwards. -/
structure Parsed where
  rc : ℕ
  rq : Request
  src : Source

def statusOf (ok : Bool) : ℕ := if ok then 0 else HTTP_STATUS_BAD_REQUEST

def requestParseData (method : Method) (rq : Request) (src : Source) (tmp : ℕ → TmpFile) : Parsed :=
  let rq := requestParseQueryArgs rq
  if method ≠ .post then ⟨0, rq, src⟩
  else match requestSetContentLength rq with
    | none => ⟨HTTP_STATUS_LENGTH_REQUIRED, rq, src⟩
    | some rq =>
      if rq.contentLength = 0 then ⟨0, rq, src⟩
      else
        let rq := { rq with bodyOff := src.rtot }
        if rq.postMaxsize < rq.contentLength then ⟨HTTP_STATUS_REQUEST_TOO_LARGE, rq, src⟩
        else if requestIsMultipartFormdata rq then
          let r := requestParseMultipartData rq src tmp
          ⟨statusOf r.1, r.2.1, r.2.2⟩
        else if requestIsUrlencoded rq then
          let r := requestParseUrlencodedData rq src
          ⟨statusOf r.1, r.2.1, r.2.2⟩
        else ⟨0, rq, src⟩

/-! ## The variables of a query string -/

theorem foldl_requestCbAddGetVar (toks : List Str) (rq : Request) :
    toks.foldl requestCbAddGetVar rq =
      { rq with
          args := rq.args ++ toks.filterMap urlVar, argsGet := rq.argsGet ++ toks.filterMap urlVar } := by
  induction toks generalizing rq with
  | nil => simp
  | cons tok toks ih =>
    rw [List.foldl_cons, ih, requestCbAddGetVar]
    cases hu : urlVar tok with
    | none => simp [hu]
    | some v => simp [hu]

theorem foldl_requestCbAddPostVar (toks : List Str) (rq : Request) :
    toks.foldl requestCbAddPostVar rq =
      { rq with
          args := rq.args ++ toks.filterMap urlVar, argsPost := rq.argsPost ++ toks.filterMap urlVar } := by
  induction toks generalizing rq with
  | nil => simp
  | cons tok toks ih =>
    rw [List.foldl_cons, ih, requestCbAddPostVar]
    cases hu : urlVar tok with
    | none => simp [hu]
    | some v => simp [hu]

def queryArgs (rq : Request) : List Var := ((rq.query.map queryVars).getD []).filterMap urlVar

theorem requestParseQueryArgs_eq (rq : Request) :
    requestParseQueryArgs rq = { rq with
      args := rq.args ++ queryArgs rq, argsGet := rq.argsGet ++ queryArgs rq } := by
  unfold requestParseQueryArgs
  split
  next hq =>
    have hargs : queryArgs rq = [] := by simp [queryArgs, hq]
    rw [hargs, List.append_nil, List.append_nil]
  next query hq =>
    have hargs : queryArgs rq = (queryVars query).filterMap urlVar := by simp [queryArgs, hq]
    rw [hargs, foldl_requestCbAddGetVar]

/-! ## The boundary -/

theorem boundary_clean {h : Header} {field param : Str} {size : ℕ} {b : Str}
    (hb : requestGetFieldparam h field param size = some b) : ∀ c ∈ b, isspace c = false := by
  unfold requestGetFieldparam at hb
  split at hb
  · cases hb
  · split at hb
    next rest hrest =>
      dsimp only at hb
      split at hb
      · cases hb
      · obtain rfl := Option.some.inj hb
        intro c hc
        have hp := List.mem_takeWhile_imp hc
        simp only [Bool.not_eq_true', Bool.or_eq_false_iff] at hp
        exact hp.2
    · cases hb

end Klone.Multipart
