import Klone.Request.ReadUntil
import Klone.Request.Basic

/-! # One part of a multipart body

`request_read_until_boundary` and the upload loop of `request_parse_multipart_chunk`
call `read_until` with the same stack buffer until the delimiter is found. The
buffer is a block of memory that grows only when a store goes past its end.
-/
namespace Klone.Multipart
open Loop Matcher

def BUFSZ : ℕ := 4096
def PRMSZ : ℕ := 512

/-- One `read_until` call of a part loop, with the delimiter taken off the count;
`rc = none` is the jump to `err`. -/
structure PartRead where
  rc : Option ℕ
  found : Bool
  dst : List Byte
  src : Source
  deriving DecidableEq, Repr

def partRead (src : Source) (boundary : Str) (size : ℕ) : PartRead :=
  let r := readUntil src boundary size
  let rc := match r.1 with
    | none => none
    | some 0 => none
    | some n =>
      if r.2.found then if n < boundary.length then none else some (n - boundary.length)
      else some n
  ⟨rc, r.2.found, r.2.dst, r.2.src⟩

/-- The state of a part loop: stream, stack buffer, the data passed on so far, and
whether a chunk without delimiter has been seen. -/
structure PartState where
  src : Source
  buf : List Byte
  data : List Byte
  split : Bool
  deriving DecidableEq, Repr

/-- Both part loops: `zeroTerm` for the store of the terminating NUL, `accepts` for
the test on the total number of bytes that lets the loop go on. -/
def partBody (boundary : Str) (size : ℕ) (zeroTerm : Bool) (accepts : ℕ → Bool) (s : PartState) :
    Option (Iter PartState (Bool × PartState)) :=
  let p := partRead s.src boundary size
  let buf := store s.buf p.dst
  match p.rc with
  | none => some (.leave (false, { s with src := p.src, buf := buf }))
  | some rc =>
    let buf := if p.found && zeroTerm then buf.set rc 0 else buf
    let t : PartState := ⟨p.src, buf, s.data ++ p.dst.take rc, s.split || !p.found⟩
    if accepts (s.data.length + rc) = false then some (.leave (false, { s with
      src := p.src, buf := buf }))
    else if p.found then some (.leave (true, t)) else some (.again t)

def partLoop (boundary : Str) (size : ℕ) (zeroTerm : Bool) (accepts : ℕ → Bool) (src : Source)
    (buf : List Byte) : Bool × PartState :=
  (run (partBody boundary size zeroTerm accepts) (src.bytes.length + 1) ⟨src, buf, [], false⟩).getD
    (false, ⟨src, buf, [], false⟩)

/-- The value read and whether it was returned in a heap buffer; `none` on error. -/
structure BoundaryRead where
  value : Option (List Byte × Bool)
  src : Source
  buf : List Byte
  deriving DecidableEq, Repr

def requestReadUntilBoundary (rq : Request) (src : Source) (boundary : Str) (size : ℕ)
    (buf : List Byte) :
    BoundaryRead :=
  let r := partLoop boundary size true (fun trb => decide (trb ≤ rq.postMaxsize)) src buf
  ⟨if r.1 then some (r.2.data, r.2.split) else none, r.2.src, r.2.buf⟩

def isMultipartMixed (h : Header) : Bool := matchContentType h (bytes "multipart/mixed")

def isEncoded (h : Header) : Bool :=
  match headerGetFieldValue h (bytes "Content-Transfer-Encoding") with
  | none => false
  | some cte => !strcasecmpEq cte (bytes "binary")

def isQuote (c : Byte) : Bool := c == 34 || c == 39

/-- Remove a leading quote and, if there was one, the same quote at the end. -/
def unquote : Str → Str
  | [] => []
  | q :: rest => if isQuote q then if rest.getLast? = some q then rest.dropLast else rest else q :: rest

def contentDispositionToken (acc : Str × Str) (tok : Str) : Str × Str :=
  let tok := tok.dropWhile isspace
  if (bytes "form-data").isPrefixOf tok then acc
  else if (bytes "name=").isPrefixOf tok then
    ((strlcpy (unquote (tok.drop (bytes "name=").length)) PRMSZ).2, acc.2)
  else if (bytes "filename=").isPrefixOf tok then
    (acc.1, (strlcpy (unquote (tok.drop (bytes "filename=").length)) PRMSZ).2)
  else acc

def parseContentDisposition (h : Header) : Option (Str × Str) :=
  match headerGetFieldValue h (bytes "Content-Disposition") with
  | none => none
  | some cd =>
    if 512 ≤ cd.length then none
    else if (bytes "form-data").isPrefixOf cd then
      some ((strtok (· == 59) cd).foldl contentDispositionToken ([], []))
    else none

/-- The temporary file of an upload: its name if one can be created, up to which
size the device takes it, and whether it can be stat'ed afterwards. -/
structure TmpFile where
  name : Option Str
  accepts : ℕ → Bool
  statOk : Bool

def ioNameGet (name : Str) (sz : ℕ) : List Byte := name.take (sz - 1) ++ [0]

structure ChunkResult where
  ok : Bool
  eof : Bool
  rq : Request
  src : Source
  buf : List Byte

/-- Reading and ignoring the epilogue up to the declared content length. -/
def epilogueBody (rall : ℕ) (s : Source × List Byte) :
    Option (Iter (Source × List Byte) (Source × List Byte)) :=
  if s.1.rtot < rall then
    let r := ioRead s.1 (min (rall - s.1.rtot) BUFSZ)
    match r.rc with
    | none => some (.leave (r.src, store s.2 r.data))
    | some 0 => some (.leave (r.src, store s.2 r.data))
    | some _ => some (.again (r.src, store s.2 r.data))
  else some (.leave s)

def epilogue (rall : ℕ) (src : Source) (buf : List Byte) : Source × List Byte :=
  (run (epilogueBody rall) (src.bytes.length + 1) (src, buf)).getD (src, buf)

/-- What follows a part: `--` ends the body, anything else starts the next part. -/
def afterPart (rq : Request) (src : Source) (buf : List Byte) : ChunkResult :=
  let r := ioRead src 2
  let buf := store buf r.data
  match r.rc with
  | none => ⟨false, false, rq, r.src, buf⟩
  | some 0 => ⟨false, false, rq, r.src, buf⟩
  | some _ =>
    if buf.take 2 = bytes "--" then
      let e := epilogue (rq.contentLength + rq.bodyOff) r.src buf
      ⟨true, true, rq, e.1, e.2⟩
    else ⟨true, false, rq, r.src, buf⟩

def uploadPart (rq : Request) (h : Header) (name filename tmpName : Str) (tmp : TmpFile)
    (src : Source) (boundary : Str) (buf : List Byte) : ChunkResult :=
  let r := partLoop boundary BUFSZ false tmp.accepts src buf
  let buf := store r.2.buf (ioNameGet tmpName BUFSZ)
  if r.1 = false then ⟨false, false, rq, r.2.src, buf⟩
  else if tmp.statOk = false then ⟨false, false, rq, r.2.src, buf⟩
  else
    let mime := ((headerGetFieldValue h (bytes "Content-Type")).getD []).take 255
    afterPart { rq with uploads := rq.uploads ++ [⟨name, tmpName, filename, mime, r.2.data.length⟩] }
      r.2.src buf

def fieldPart (rq : Request) (name : Str) (src : Source) (boundary : Str) (buf : List Byte) :
    ChunkResult :=
  let r := requestReadUntilBoundary rq src boundary BUFSZ buf
  match r.value with
  | none => ⟨false, false, rq, r.src, r.buf⟩
  | some (value, _) =>
    afterPart { rq with args := rq.args ++ [⟨name, value⟩], argsPost := rq.argsPost ++ [⟨name, value⟩] }
      r.src r.buf

def requestParseMultipartChunk (rq : Request) (src : Source) (boundary : Str) (tmp : TmpFile)
    (buf : List Byte) : ChunkResult :=
  let (header, src) := headerLoad src
  match header with
  | none => ⟨false, false, rq, src, buf⟩
  | some h =>
    if isMultipartMixed h then ⟨false, false, rq, src, buf⟩
    else if isEncoded h then ⟨false, false, rq, src, buf⟩
    else match parseContentDisposition h with
      | none => ⟨false, false, rq, src, buf⟩
      | some (name, filename) =>
        if filename ≠ [] then
          if BUFSZ ≤ boundary.length then ⟨false, false, rq, src, buf⟩
          else match tmp.name with
            | none => ⟨false, false, rq, src, buf⟩
            | some tmpName => uploadPart rq h name filename tmpName tmp src boundary buf
        else fieldPart rq name src boundary buf

end Klone.Multipart
