import Klone.Emb.EndToEnd
import Klone.Http.Head
import Klone.Request.Encodings

/-! # Uploaded files

A part with a file name is copied, piece by piece, to a temporary file, and the request keeps
the name of that file and what the client has said about it. Here the temporary files are
streams, so that what is in them can be compared with what has been posted.
-/
namespace Klone.Uploads
open Chain Loop Multipart Page

variable {e : Device}

/-- The temporary file of a part: its name if one can be created, the device behind it, and the
size that `stat` reports. -/
structure TmpStream (e : Device) where
  name : Option Str
  dev : e.State
  stat : e.State → Option ℕ

structure Dump (e : Device) where
  src : Source
  buf : List Byte
  tmpio : Io e

/-- What the loop over an upload does after a piece has been written. -/
def dumpWritten (p : PartRead) (buf : List Byte) (w : Io e × Option ℕ) :
    Iter (Dump e) (Bool × Dump e) :=
  match w.2 with
  | none => .leave (false, ⟨p.src, buf, w.1⟩)
  | some _ => if p.found then .leave (true, ⟨p.src, buf, w.1⟩) else .again ⟨p.src, buf, w.1⟩

def dumpBody (boundary : Str) (n : ℕ) (s : Dump e) : Option (Iter (Dump e) (Bool × Dump e)) :=
  let p := partRead s.src boundary Multipart.BUFSZ
  let buf := store s.buf p.dst
  match p.rc with
  | none => some (.leave (false, ⟨p.src, buf, s.tmpio⟩))
  | some rc => (ioWrite n s.tmpio (p.dst.take rc)).map (dumpWritten p buf)

/-- The name of the temporary file is stored in the stack buffer, and the file is closed before
its size is looked at. -/
def uploadPart (n : ℕ) (rq : Request) (h : Header) (name filename tmpName : Str) (tmp : TmpStream e)
    (src : Source) (boundary : Str) (buf : List Byte) : Option (ChunkResult × Option e.State) :=
  (run (dumpBody boundary n) n ⟨src, buf, ioCreate tmp.dev []⟩).bind fun r =>
    let buf := store r.2.buf (ioNameGet tmpName Multipart.BUFSZ)
    if r.1 = false then some (⟨false, false, rq, r.2.src, buf⟩, none)
    else (Emb.ioFree n r.2.tmpio).map fun tmpio =>
      match tmp.stat tmpio.dev with
      | none => (⟨false, false, rq, r.2.src, buf⟩, none)
      | some size =>
        let mime := ((headerGetFieldValue h (bytes "Content-Type")).getD []).take 255
        (afterPart { rq with uploads := rq.uploads ++ [⟨name, tmpName, filename, mime, size⟩] }
          r.2.src buf, some tmpio.dev)

def requestParseMultipartChunk (n : ℕ) (rq : Request) (src : Source) (boundary : Str)
    (tmp : TmpStream e) (buf : List Byte) : Option (ChunkResult × Option e.State) :=
  let (header, src) := headerLoad src
  match header with
  | none => some (⟨false, false, rq, src, buf⟩, none)
  | some h =>
    if isMultipartMixed h then some (⟨false, false, rq, src, buf⟩, none)
    else if isEncoded h then some (⟨false, false, rq, src, buf⟩, none)
    else match parseContentDisposition h with
      | none => some (⟨false, false, rq, src, buf⟩, none)
      | some (name, filename) =>
        if filename ≠ [] then
          if Multipart.BUFSZ ≤ boundary.length then some (⟨false, false, rq, src, buf⟩, none)
          else match tmp.name with
            | none => some (⟨false, false, rq, src, buf⟩, none)
            | some tmpName => uploadPart n rq h name filename tmpName tmp src boundary buf
        else some (fieldPart rq name src boundary buf, none)

structure PartsState (e : Device) where
  part : ℕ
  rq : Request
  src : Source
  files : List e.State

structure Parsed (e : Device) where
  rc : ℕ
  rq : Request
  src : Source
  files : List e.State

def partsBody (boundary : Str) (tmp : ℕ → TmpStream e) (n : ℕ) (s : PartsState e) :
    Option (Iter (PartsState e) (Bool × PartsState e)) :=
  (requestParseMultipartChunk n s.rq s.src boundary (tmp s.part) stackBuf).map fun r =>
    let t : PartsState e := ⟨s.part + 1, r.1.rq, r.1.src, s.files ++ r.2.toList⟩
    if r.1.ok = false then .leave (false, t) else if r.1.eof then .leave (true, t) else .again t

def requestParseMultipartData (n : ℕ) (rq : Request) (src : Source) (tmp : ℕ → TmpStream e) :
    Option (Parsed e) :=
  match requestGetFieldparam rq.header (bytes "Content-Type") (bytes "boundary")
    (BOUNDARY_BUFSZ - 2) with
  | none => some ⟨HTTP_STATUS_BAD_REQUEST, rq, src, []⟩
  | some b =>
    let boundary := bytes "--" ++ b
    let p := skipPreamble boundary src
    if p.1 = false then some ⟨HTTP_STATUS_BAD_REQUEST, rq, p.2, []⟩
    else if BOUNDARY_BUFSZ ≤ (bytes "\r\n" ++ boundary).length then
      some ⟨HTTP_STATUS_BAD_REQUEST, rq, p.2, []⟩
    else (run (partsBody (bytes "\r\n" ++ boundary) tmp n) n ⟨0, rq, p.2, []⟩).map fun r =>
      ⟨Multipart.statusOf r.1, r.2.rq, r.2.src, r.2.files⟩

def requestParseData (n : ℕ) (method : Method) (rq : Request) (src : Source)
    (tmp : ℕ → TmpStream e) : Option (Parsed e) :=
  let rq := requestParseQueryArgs rq
  if method ≠ .post then some ⟨0, rq, src, []⟩
  else match requestSetContentLength rq with
    | none => some ⟨HTTP_STATUS_LENGTH_REQUIRED, rq, src, []⟩
    | some rq =>
      if rq.contentLength = 0 then some ⟨0, rq, src, []⟩
      else
        let rq := { rq with bodyOff := src.rtot }
        if rq.postMaxsize < rq.contentLength then some ⟨HTTP_STATUS_REQUEST_TOO_LARGE, rq, src, []⟩
        else if requestIsMultipartFormdata rq then requestParseMultipartData n rq src tmp
        else if requestIsUrlencoded rq then
          let r := requestParseUrlencodedData rq src
          some ⟨Multipart.statusOf r.1, r.2.1, r.2.2, []⟩
        else some ⟨0, rq, src, []⟩

/-! ## The file of a part -/

section
variable {received : e.State → Str}

/-- The copy has come as far as the loop over the part, and the file has all of its data. -/
structure Copied (received : e.State → Str) (pre : Str) (s : PartState) (t : Dump e) : Prop where
  src : t.src = s.src
  buf : t.buf = s.buf
  plain : t.tmpio.Plain
  sent : t.tmpio.sent received = pre ++ s.data

structure CopyEnds (received : e.State → Str) (pre : Str) (r : Bool × PartState)
    (r' : Bool × Dump e) : Prop where
  ok : r'.1 = r.1
  src : r'.2.src = r.2.src
  buf : r'.2.buf = r.2.buf
  plain : r'.2.tmpio.Plain
  sent : r.1 = true → r'.2.tmpio.sent received = pre ++ r.2.data

/-- A round of the copy to a file that takes all its bytes is a round of the loop over the part. -/
theorem dumpBody_follows (he : Accepts e received) {boundary pre : Str} {s : PartState} {t : Dump e}
    (h : Copied received pre s t) {i : Iter PartState (Bool × PartState)}
    (hi : partBody boundary Multipart.BUFSZ false (fun _ => true) s = some i) :
    i.Followed (Copied received pre) (CopyEnds received pre) fun n => dumpBody boundary n t := by
  obtain ⟨src, buf, tmpio⟩ := t
  obtain ⟨rfl, rfl, hplain, hsent⟩ := h
  unfold partBody at hi
  unfold dumpBody
  dsimp only at hi hsent hplain ⊢
  cases hrc : (partRead s.src boundary Multipart.BUFSZ).rc with
  | none =>
    rw [hrc] at hi
    obtain rfl := Option.some.inj hi
    exact ⟨_, Ends.const _, rfl, rfl, rfl, hplain, fun h => absurd h Bool.false_ne_true⟩
  | some rc =>
    rw [hrc] at hi
    simp only [Bool.and_false, Bool.false_eq_true, if_false, Bool.true_eq_false] at hi
    obtain ⟨tmpio', hwrite, hkept⟩ :=
      ioWrite_accepted he hplain ((partRead s.src boundary Multipart.BUFSZ).dst.take rc)
    have hsent' := hkept.sent
    rw [hsent, List.append_assoc] at hsent'
    cases hfound : (partRead s.src boundary Multipart.BUFSZ).found with
    | false =>
      rw [hfound] at hi
      obtain rfl := Option.some.inj hi
      exact ⟨⟨_, _, tmpio'⟩, hwrite.map_eq (by simp [dumpWritten, hfound]), rfl, rfl,
        hkept.plain, hsent'⟩
    | true =>
      rw [hfound] at hi
      obtain rfl := Option.some.inj hi
      exact ⟨(true, ⟨_, _, tmpio'⟩), hwrite.map_eq (by simp [dumpWritten, hfound]), rfl, rfl, rfl,
        hkept.plain, fun _ => hsent'⟩

/-- The temporary files take all that is written, and `stat` reports their lengths. -/
structure Sound (received : e.State → Str) (tmp : TmpStream e) : Prop where
  accepts : Accepts e received
  stat : ∀ s, tmp.stat s = some (received s).length
  empty : received tmp.dev = []

/-- The file of an upload has the data of the part. -/
theorem uploadPart_follows {tmp : TmpStream e} (htmp : Sound received tmp) {boundary : Str}
    {src : Source} {buf : List Byte} {t : PartState} {fuel : ℕ}
    (hrun : run (partBody boundary Multipart.BUFSZ false fun _ => true) fuel ⟨src, buf, [], false⟩ =
      some (true, t))
    (rq : Request) (h : Header) (name filename tmpName : Str) :
    ∃ dev', received dev' = t.data ∧
    Ends (fun n => uploadPart n rq h name filename tmpName tmp src boundary buf)
      (afterPart { rq with uploads := rq.uploads ++ [⟨name, tmpName, filename,
        ((headerGetFieldValue h (bytes "Content-Type")).getD []).take 255, t.data.length⟩] } t.src
        (store t.buf (ioNameGet tmpName Multipart.BUFSZ)), some dev') := by
  have hempty := Emb.ioCreate_unwritten tmp.dev
  have hstart : Copied received [] ⟨src, buf, [], false⟩ ⟨src, buf, ioCreate tmp.dev []⟩ :=
    ⟨rfl, rfl, Static.unwritten_plain hempty,
      (Static.unwritten_sent hempty received).trans htmp.empty⟩
  obtain ⟨⟨ok, src', buf', tmpio⟩, ⟨rfl, rfl, rfl, hplain, hsent⟩, hends⟩ :=
    run_followed (fun _ _ _ hs hi => dumpBody_follows htmp.accepts hs hi) hstart hrun
  obtain ⟨tmpio', hfree, hrec⟩ := Emb.ioFree_ends htmp.accepts hplain.ok hplain.chain
  rw [hsent rfl, List.nil_append] at hrec
  refine ⟨tmpio'.dev, hrec, ?_⟩
  unfold uploadPart
  refine hends.bind ?_
  simp only [Bool.true_eq_false, if_false]
  refine hfree.map_eq ?_
  simp only [htmp.stat, hrec]

end

end Klone.Uploads
