import Klone.Http.Slash

/-! # Requests for a directory

A request that gets 404 and below whose file name there is an index page is redirected. The
new URI is made of the URI as it came, query included, a slash, the path info and the
query again.
-/
namespace Klone.Http

def HTTP_STATUS_BAD_REQUEST : ℕ := 400
def HTTP_STATUS_MOVED_TEMPORARILY : ℕ := 302

/-- A request that is about to be served: its host, what its URI was split into, its names
and the supplier that the split has found. -/
structure Pending where
  vhost : Vhost
  split : SetUri
  target : Target
  cached : Option SupInfo

/-- The request up to the point where its file name is resolved. -/
def parseRequest (site : Site) (s : Server) (fs : FileSystem) (rq : Incoming) : Option Pending :=
  (parseUri site s fs rq.uri).bind fun p =>
    (httpGetVhost s rq.header).bind fun v =>
      match httpResolvRequest site.lib v (targetOf p.1) with
      | (false, _) => none
      | (true, t) => some ⟨v, p.1, t, p.2⟩

structure Answer where
  status : ℕ
  location : Option Str
  deriving DecidableEq, Repr

/-- `nuri`, cut to its buffer. -/
def redirectUri (r : SetUri) (pathInfo : Option Str) : Str :=
  (r.uri ++ slash :: (pathInfo.getD [] ++ (r.query.map (63 :: ·)).getD [])).take (URI_MAX - 1)

section
variable (site : Site) (fs : FileSystem)

/-- The index page is looked for below the resolved file name. -/
def setIndex (v : Vhost) (t : Target) (cached : Option SupInfo) : Bool × Target × Option SupInfo :=
  httpSetIndexRequest site.lib v (cacheSup (brokerIsValidUri site v fs)) t cached

/-- The file name ends with a slash, no supplier has been found, and there is an index page. -/
def indexFound (v : Vhost) (t : Target) (cached : Option SupInfo) : Bool :=
  decide (cached = none ∧ t.filename.getLast? = some slash) && (setIndex site fs v t cached).1

def indexGiven (r : Pending) : Bool := indexFound site fs r.vhost r.target r.cached

/-- The names and the supplier with which the request goes to the broker. -/
def prepared (r : Pending) : Target × Option SupInfo := giveIndex site r.vhost fs r.target r.cached

def servedStatus (rq : Incoming) (r : Pending) : ℕ :=
  brokerServe site r.vhost fs rq.ims rq.head (prepared site fs r).2 (prepared site fs r).1

def indexBelow (r : Pending) : Bool :=
  (setIndex site fs r.vhost (prepared site fs r).1 (prepared site fs r).2).1

/-- `http_serve`, as far as the status and the `Location` field. -/
def httpAnswer (s : Server) (rq : Incoming) : Answer :=
  match parseRequest site s fs rq with
  | none => ⟨HTTP_STATUS_BAD_REQUEST, none⟩
  | some r =>
    let status := servedStatus site fs rq r
    if status = HTTP_STATUS_NOT_FOUND ∧ r.split.uri.getLast? ≠ some slash ∧
      indexBelow site fs r then
      ⟨HTTP_STATUS_MOVED_TEMPORARILY, some (redirectUri r.split (prepared site fs r).1.pathInfo)⟩
    else ⟨status, none⟩

/-! ## What is expected -/

/-- The answer is no redirection, and it is 404 unless an index page is served. -/
def Settled (s : Server) (rq : Incoming) : Prop :=
  (httpAnswer site fs s rq).location = none ∧
    ((httpAnswer site fs s rq).status = HTTP_STATUS_NOT_FOUND ∨
      ∃ r, parseRequest site s fs rq = some r ∧ indexGiven site fs r = true)

/-- A page that fails, or says itself that it is not there. -/
def Gone (status : Option ℕ) : Prop := status = none ∨ status = some HTTP_STATUS_NOT_FOUND

def Absent (head : Bool) (handle : Option ℕ) (t : Target) : Supplier → Prop
  | .emb =>
    ∀ path, t.resolvedFilename = some path → ∀ e, embLookup site path = some e → Gone (site.embServe path)
  | .kilt => ∀ utk, handle = some utk → Gone (site.kiltServe utk t.filename)
  | .cgi => ∀ path, t.resolvedFilename = some path → Gone (site.cgiServe path (stat fs path))
  | .fs =>
    ∀ path, t.resolvedFilename = some path → ∀ st, stat fs path = some st → head = false ∧ st.readable = false

structure NothingAt (rq : Incoming) (info : SupInfo) (handle : Option ℕ) (t : Target) : Prop where
  modified : ¬ (rq.ims ≠ 0 ∧ info.mtime ≠ 0 ∧ info.mtime ≤ rq.ims)
  absent : Absent site fs rq.head handle t info.sup

def Nobody (v : Vhost) (rq : Incoming) (cached : Option SupInfo) (t : Target) : Prop :=
  ∀ info, cached.or (t.resolvedFilename.bind (brokerIsValidUri site v fs)) = some info →
    NothingAt site fs rq info (cached.bind SupInfo.handle) t

def Fits (v : Vhost) (uri : Str) : Prop :=
  (httpAliasResolv site.lib v uri site.lib.filenameMax).isSome = true

/-- The names of a request for the path `q` that is not split. -/
def wholePath (q resolved : Str) : Target := ⟨q, none, some resolved, none, [(q, resolved)]⟩

/-- No page but an index page is under the path `q`: neither as a page of the default host,
by which paths are split, nor, when nothing of the path is one and there is no index, as a
page of the host. -/
structure Free (s : Server) (v : Vhost) (rq : Incoming) (q : Str) : Prop where
  filename : Fits site v (splitOf (httpIsValidUri site s.main fs) q).filename
  pathInfo : ∀ pi, (splitOf (httpIsValidUri site s.main fs) q).pathInfo = some pi → Fits site v pi
  noPage : ∀ info resolved, httpIsValidUri site s.main fs q = some info →
    httpAliasResolv site.lib v q site.lib.filenameMax = some resolved →
    NothingAt site fs rq info info.handle (wholePath q resolved)
  noOther : (∀ f ∈ candidates q, httpIsValidUri site s.main fs f = none) → ∀ resolved,
    httpAliasResolv site.lib v q site.lib.filenameMax = some resolved →
    indexFound site fs v (wholePath q resolved) none = false →
    Nobody site fs v rq (giveIndex site v fs (wholePath q resolved) none).2
      (giveIndex site v fs (wholePath q resolved) none).1

end

variable {site : Site} {s : Server} {fs : FileSystem} {rq : Incoming} {r : Pending}

end Klone.Http
