import Klone.Http.CgiEnv
import Klone.Http.Dypage
import Klone.Http.Head
import Klone.Http.Serve
import Klone.Io.Pipe
import Klone.Request.HeaderStream

/-! # Serving the output of a program

The posted data is copied to the standard input of the program. Its output begins with a
header, which is merged into that of the response, unless the name of the program says that
the output goes to the client as it is.
-/
namespace Klone.Cgi
open Chain Loop Page Emb

/-- A program that has been started: the pipe to its standard input, and the one from its
standard output, by what has been written to the former and by whether that has been closed.
There is no answer where the program waits for ever: for the end of an input that is left open,
or for its output to be read while it is still being given input that it does not take. -/
structure Program (e d : Device) where
  stdin : e.State
  stdout : e.State → Bool → Option d.State

/-- The stream of the request and that of the response, after the request has been served. -/
structure Served (c o : Device) where
  body : Io c
  io : Io o
  rs : Response
  ok : Bool

variable {c d e o : Device}

def lastSegment (fqn : Str) : Option Str :=
  if slash ∈ fqn then some (fqn.reverse.takeWhile (· ≠ slash)).reverse else none

def Posts (r : CgiRequest) : Prop := r.method = .post ∧ 0 < requestGetContentLength r.rq

instance (r : CgiRequest) : Decidable (Posts r) := inferInstanceAs (Decidable (_ ∧ _))

/-- The data of a POST request goes to the program, whose input is then closed; an error of
`io_copy` is not looked at. -/
def postData (n : ℕ) (r : CgiRequest) (stdin : e.State) (body : Io c) : Option (e.State × Io c) :=
  if Posts r then
    (ioCopy n (ioCreate stdin []) body (requestGetContentLength r.rq).toNat).bind fun q =>
      (ioFree n q.1.dst).map fun out => (out.dev, q.1.src)
  else some (stdin, body)

/-- The status of a response into which the header of a program has been merged. -/
def cgiStatus (rs : Response) : Response :=
  match headerGetField rs.header (bytes "Status") with
  | some f => responseSetStatus rs (Http.atoi f.value)
  | none => responseSetStatus rs (if (headerGetField rs.header (bytes "Location")).isSome then
    302 else 200)

/-- What is left of the output is written to the client, and a byte if there is nothing. The
loop is that of `io_pipe`. -/
def relay (n : ℕ) (cgiIn : Io d) (out : Io o) : Option (Io o) :=
  (ioPipe n out cgiIn).bind fun q =>
    if q.1.count = 0 then (ioWrite n q.1.dst (bytes "\n")).map Prod.fst else some q.1.dst

/-- The output of the program. The response filter refers to the response, which is complete
when the first byte is written. -/
def cgiOutput (n : ℕ) (filename : Str) (rs : Response) (cgiIn : Io d) (out : Io o) :
    Option (Io o × (Response × Bool)) :=
  if (bytes "nph-").isPrefixOf filename then (relay n cgiIn out).map fun io =>
    (io, responseSetStatus rs 200, true)
  else
    (Chain.headerLoadEx n .override ⟨rs.header, rs.header.length⟩ cgiIn).bind fun l =>
      let rs := { rs with header := l.2.2.fields }
      if l.2.1 = false then some (ioCodecAddTail out (staticFilter rs), rs, false)
      else (relay n l.1 (ioCodecAddTail out (staticFilter (cgiStatus rs)))).map fun io =>
        (io, cgiStatus rs, true)

def cgiServe (n : ℕ) (r : CgiRequest) (rs : Response) (prog : Option (Program e d)) (body : Io c)
    (out : Io o) :
    Option (Served c o) :=
  let rs := responseSetStatus rs 400
  match prog with
  | none => some ⟨body, out, rs, false⟩
  | some prog =>
    let rs := responseDisableCaching rs
    (postData n r prog.stdin body).bind fun q =>
      match r.rq.resolvedFilename.bind lastSegment with
      | none => some ⟨q.2, out, rs, false⟩
      | some filename =>
        (prog.stdout q.1 (decide (Posts r))).bind fun stdout =>
          (cgiOutput n filename rs (ioCreate stdout []) out).map fun w => ⟨q.2, w.1, w.2.1, w.2.2⟩

def startedResponse (rs : Response) : Response := responseDisableCaching (responseSetStatus rs 400)

section
variable {pending : d.State → Str} {input : e.State → Str} {content : c.State → Str}
    {received : o.State → Str}
  {rs : Response} {io : Io o}

end

end Klone.Cgi
