import Klone.Request.Basic
import Klone.Utils.Addr

/-! # The environment of a CGI program

The variables stand in an array of pointers that grows by chunks. Nothing is written
behind the last variable: only what a chunk leaves over ends the array.
-/
namespace Klone.Cgi
open Klone.Page (decimal)
open Klone.Addr (uAddrGetIp uAddrGetPort)

/-- `cgi_env_t`; the array has no elements before the first call. -/
structure CgiEnv where
  env : List (Option Str)
  size : ℕ
  count : ℕ
  deriving DecidableEq, Repr

def CgiEnv.empty : CgiEnv := ⟨[], 0, 0⟩

def CHUNK : ℕ := 32

def keyval (var : Str × Str) : Str := var.1 ++ 61 :: var.2

/-- The array for `CHUNK` more pointers; those behind the variables are zeroed out. -/
def CgiEnv.grow (e : CgiEnv) : CgiEnv :=
  let size := e.size + CHUNK
  ⟨e.env.take e.count ++ List.replicate (size - e.count) none, size, e.count⟩

def cgiSetenv (e : CgiEnv) (var : Str × Str) : Bool × CgiEnv :=
  if var.1 = [] then (false, e)
  else
    let e := if e.size = 0 ∨ e.size = e.count then e.grow else e
    (true, ⟨e.env.set e.count (some (keyval var)), e.size, e.count + 1⟩)

def cgiSetenvs (calls : List (Str × Str)) : CgiEnv :=
  calls.foldl (fun e var => (cgiSetenv e var).2) .empty

def stored (calls : List (Str × Str)) : List (Str × Str) := calls.filter fun var => var.1 ≠ []

/-! ## The variables of a request -/

structure CgiRequest where
  rq : Request
  addr : Option Str
  peerAddr : Option Str
  method : Page.Method
  secure : Bool

def toupper (c : Byte) : Byte := if 97 ≤ c ∧ c ≤ 122 then c - 32 else c

def methodName : Page.Method → Str
  | .get => bytes "GET"
  | .head => bytes "HEAD"
  | .post => bytes "POST"
  | _ => bytes "UNKNOWN"

def optVar (name : String) (value : Option Str) : List (Str × Str) :=
  (value.map fun v => (bytes name, v)).toList

def cgiSetenvAddr (addr : Str) (labelAddr labelPort : String) : List (Str × Str) :=
  optVar labelAddr (uAddrGetIp addr 128) ++ optVar labelPort (uAddrGetPort addr 128)

/-- `request_get_content_length`: the `size_t` of the request as a `ssize_t`. -/
def requestGetContentLength (rq : Request) : ℤ := (BitVec.ofNat 64 rq.contentLength).toInt

def cgiSetenvClen (rq : Request) : List (Str × Str) :=
  let len := requestGetContentLength rq
  if 0 < len then [(bytes "CONTENT_LENGTH", decimal len.toNat)] else []

/-- The name of a field as a variable; it must fit the buffer of 1024 bytes. -/
def headerVarName (name : Str) : Option Str :=
  let buf := bytes "HTTP_" ++ name
  if 1024 ≤ buf.length then none
  else some ((buf.takeWhile (· ≠ 58)).map (fun c => if c = 45 then 95 else toupper c) ++
    buf.dropWhile (· ≠ 58))

/-- The calls for the header, up to the first field whose name does not fit. -/
def headerCalls : Header → Bool × List (Str × Str)
  | [] => (true, [])
  | f :: h =>
    match headerVarName f.name with
    | none => (false, [])
    | some name => ((headerCalls h).1, (name, f.value) :: (headerCalls h).2)

def fixedCalls (version : Str) (systemroot : Option Str) (r : CgiRequest) : List (Str × Str) :=
  [(bytes "SERVER_SOFTWARE", bytes "klone/" ++ version),
    (bytes "SERVER_PROTOCOL", bytes "HTTP/1.0"),
    (bytes "GATEWAY_INTERFACE", bytes "CGI/1.1"), (bytes "REDIRECT_STATUS", bytes "200")] ++
  (match r.addr with
    | none => []
    | some addr =>
      cgiSetenvAddr addr "SERVER_ADDR" "SERVER_PORT" ++ optVar "SERVER_NAME" (uAddrGetIp addr 1024)) ++
  (match r.peerAddr with
    | none => []
    | some addr => cgiSetenvAddr addr "REMOTE_ADDR" "REMOTE_PORT") ++
  [(bytes "REQUEST_METHOD", methodName r.method)] ++
  (if r.secure then [(bytes "HTTPS", bytes "on")] else []) ++
  optVar "PATH_INFO" r.rq.pathInfo ++ optVar "PATH_TRANSLATED" r.rq.resolvedPathInfo ++
  optVar "QUERY_STRING" r.rq.query ++ cgiSetenvClen r.rq ++
  optVar "CONTENT_TYPE" (headerGetFieldValue r.rq.header (bytes "Content-type")) ++
  optVar "SCRIPT_NAME" r.rq.filename ++ optVar "REQUEST_URI" r.rq.uri ++
  optVar "SCRIPT_FILENAME" r.rq.resolvedFilename ++ optVar "SYSTEMROOT" systemroot

/-- The calls of `cgi_setenv` that `cgi_makeenv` makes, in their order. -/
def makeenvCalls (version : Str) (systemroot : Option Str) (r : CgiRequest) : List (Str × Str) :=
  fixedCalls version systemroot r ++ (headerCalls r.rq.header).2

def cgiMakeenv (version : Str) (systemroot : Option Str) (r : CgiRequest) : Bool × CgiEnv :=
  ((headerCalls r.rq.header).1, cgiSetenvs (makeenvCalls version systemroot r))

/-! ## The array -/

structure NullTerminated (e : CgiEnv) (vars : List (Str × Str)) : Prop where
  room : e.count < e.size
  vars : e.env.take e.count = vars.map fun var => some (keyval var)
  null : e.env[e.count]? = some none

structure Holds (e : CgiEnv) (vars : List (Str × Str)) : Prop where
  env : e.env = (vars.map fun var => some (keyval var)) ++ List.replicate (e.size - e.count) none
  count : e.count = vars.length
  fits : e.count ≤ e.size
  tight : e.size < e.count + CHUNK
  chunks : CHUNK ∣ e.size

variable {e : CgiEnv} {vars calls : List (Str × Str)} {var : Str × Str}

theorem holds_empty : Holds .empty [] := ⟨rfl, rfl, le_rfl, by decide, dvd_zero _⟩

/-- A variable takes the place of the first null pointer. -/
theorem Holds.store
    (henv : e.env = (vars.map fun var => some (keyval var)) ++
      List.replicate (e.size - e.count) none)
    (hcount : e.count = vars.length) (hroom : e.count < e.size) (htight : e.size ≤ e.count + CHUNK)
    (hchunks : CHUNK ∣ e.size) :
    Holds ⟨e.env.set e.count (some (keyval var)), e.size, e.count + 1⟩ (vars ++ [var]) := by
  have hnull : List.replicate (e.size - e.count) (none : Option Str) =
      none :: List.replicate (e.size - (e.count + 1)) none := by
    rw [← List.replicate_succ, show e.size - (e.count + 1) + 1 = e.size - e.count by omega]
  refine ⟨?_, by simp [hcount], hroom, by dsimp only; omega, hchunks⟩
  dsimp only
  rw [henv, hnull, hcount, List.set_append_right _ _ (by simp)]
  simp

/-- An array that is full grows by a chunk of null pointers. -/
theorem Holds.setenv (h : Holds e vars) (hname : var.1 ≠ []) :
    Holds (cgiSetenv e var).2 (vars ++ [var]) := by
  obtain ⟨henv, hcount, hfits, htight, hchunks⟩ := h
  have hchunk : 0 < CHUNK := by decide
  unfold cgiSetenv
  rw [if_neg hname]
  dsimp only
  by_cases hfull : e.size = 0 ∨ e.size = e.count
  · have hsame : e.size = e.count := by omega
    rw [if_pos hfull]
    apply Holds.store
    · have htake : e.env.take e.count = vars.map fun var => some (keyval var) := by
        rw [henv, hcount]
        exact List.take_left' (List.length_map _)
      simp only [CgiEnv.grow, htake]
    · exact hcount
    · simp only [CgiEnv.grow]
      omega
    · simp only [CgiEnv.grow]
      omega
    · exact (Nat.dvd_add_right hchunks).mpr dvd_rfl
  · rw [if_neg hfull]
    exact Holds.store henv hcount (by omega) htight.le hchunks

theorem cgiSetenv_nil (h : var.1 = []) : (cgiSetenv e var).2 = e := by
  unfold cgiSetenv
  rw [if_pos h]

/-- The run: what holds after a sequence of calls. -/
theorem holds_setenvs (calls : List (Str × Str)) : Holds (cgiSetenvs calls) (stored calls) := by
  induction calls using List.reverseRecOn with
  | nil => exact holds_empty
  | append_singleton calls var ih =>
    have hcalls : cgiSetenvs (calls ++ [var]) = (cgiSetenv (cgiSetenvs calls) var).2 :=
      List.foldl_append
    have hstored : stored (calls ++ [var]) = stored calls ++ stored [var] := List.filter_append ..
    rw [hcalls, hstored]
    by_cases hname : var.1 = []
    · rw [cgiSetenv_nil hname, show stored [var] = [] by simp [stored, hname], List.append_nil]
      exact ih
    · rw [show stored [var] = [var] by simp [stored, hname]]
      exact ih.setenv hname

/-- A null pointer is left over unless the variables fill their chunks. -/
theorem Holds.nullTerminated_iff (h : Holds e vars) :
    NullTerminated e vars ↔ vars.length % 32 ≠ 0 := by
  obtain ⟨henv, hcount, hfits, htight, k, hk⟩ := h
  have hchunk : CHUNK = 32 := rfl
  rw [hchunk] at hk htight
  have htake : e.env.take e.count = vars.map fun var => some (keyval var) := by
    rw [henv, hcount]
    exact List.take_left' (List.length_map _)
  constructor
  · rintro ⟨hroom, -, -⟩
    omega
  · intro hpart
    have hroom : e.count < e.size := by
      by_contra hfull
      omega
    refine ⟨hroom, htake, ?_⟩
    rw [henv, hcount, List.getElem?_append_right (by simp), List.length_map, Nat.sub_self,
      List.getElem?_replicate_of_lt (by omega)]

/-- After any calls, and after those for a request, the array is ended by a null pointer
exactly when the number of its variables is no multiple of 32. -/
theorem env_null_terminated_iff (calls : List (Str × Str)) (version : Str) (systemroot : Option Str)
    (r : CgiRequest) :
    (NullTerminated (cgiSetenvs calls) (stored calls) ↔ (stored calls).length % 32 ≠ 0) ∧
      (NullTerminated (cgiMakeenv version systemroot r).2
        (stored (makeenvCalls version systemroot r)) ↔
        (stored (makeenvCalls version systemroot r)).length % 32 ≠ 0) := by
  constructor
  · exact (holds_setenvs calls).nullTerminated_iff
  · rw [cgiMakeenv]
    generalize makeenvCalls version systemroot r = calls
    exact (holds_setenvs calls).nullTerminated_iff

/-- A request with 19 fields: with the 13 other variables they fill a chunk, and the array
for `execve` has no end. -/
theorem env_unterminated :
    let h := (List.range 19).map fun i => ⟨bytes "X-" ++ decimal i, bytes "v"⟩
    let rq := { Request.zero with
      header := h, filename := some (bytes "/cgi-bin/a"), uri := some (bytes "/cgi-bin/a"),
      resolvedFilename := some (bytes "/srv/cgi-bin/a") }
    let r : CgiRequest := ⟨rq, some (bytes "127.0.0.1:80"), some (bytes "127.0.0.1:4000"),
      .get, false⟩
    (cgiMakeenv (bytes "3.1.0") none r).1 = true ∧
    (makeenvCalls (bytes "3.1.0") none r).length = 32 ∧
      ¬ NullTerminated (cgiMakeenv (bytes "3.1.0") none r).2
        (stored (makeenvCalls (bytes "3.1.0") none r)) := by
  refine ⟨by decide +kernel, by decide +kernel, fun h => absurd h.room ?_⟩
  decide +kernel

end Klone.Cgi
