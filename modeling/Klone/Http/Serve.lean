import Klone.Http.Supplier

/-! # Serving a request

The virtual hosts of a server, the limits taken from the configuration when the
request object is created, and the way of a request from its first line to the
status of the response. The headers are read after the URI has been split, so
until then the virtual host is the default one.
-/
namespace Klone.Http

/-- The main configuration is the first virtual host. -/
structure Server where
  main : Vhost
  others : List Vhost

def Server.vhosts (s : Server) : List Vhost := s.main :: s.others

def vhostListGet (vhosts : List Vhost) (host : Str) : Option Vhost :=
  vhosts.find? fun v => v.host = host

def hostOf (value : Str) : Str :=
  if 58 ∈ value then ((value.reverse.dropWhile (· ≠ 58)).tail).reverse else value

def httpGetVhost (s : Server) (header : Header) : Option Vhost :=
  match headerGetFieldValue header (bytes "Host") with
  | none => some s.main
  | some host =>
    if (strlcpy host 128).1 then none else some ((vhostListGet s.vhosts (hostOf host)).getD s.main)

def atoiDigits : ℕ → Str → ℕ
  | acc, [] => acc
  | acc, c :: rest => if 48 ≤ c ∧ c ≤ 57 then atoiDigits (acc * 10 + (c - 48).toNat) rest else acc

/-- A number that is no `long` is the next one that is. -/
def strtol (s : Str) : ℤ :=
  max (-2 ^ 63) <| min (2 ^ 63 - 1) <|
    match s.dropWhile isspace with
    | 45 :: rest => -(atoiDigits 0 rest : ℤ)
    | 43 :: rest => atoiDigits 0 rest
    | rest => atoiDigits 0 rest

/-- Of the `long` the low 32 bits are taken. -/
def atoi (s : Str) : Int32 := Int32.ofInt (strtol s)

structure Limits where
  idleTimeout : ℤ
  postTimeout : ℤ
  postMaxsize : ℤ
  deriving DecidableEq, Repr

/-- A configured value that is not below `low`, or the default. -/
def limitFrom (low dflt : ℤ) (value : Option Str) : ℤ :=
  (value.map fun v => max low (atoi v).toInt).getD dflt

def requestLoadConfig (v : Vhost) : Limits :=
  ⟨limitFrom 1 10 v.idleTimeout, limitFrom 5 600 v.postTimeout,
    limitFrom 1024 (5 * 1024000) v.postMaxsize⟩

structure Incoming where
  uri : Str
  header : Header
  ims : ℕ
  head : Bool
  deriving DecidableEq, Repr

def URI_MAX : ℕ := 2048

def httpIsValidUri (site : Site) (v : Vhost) (fs : FileSystem) (uri : Str) : Option SupInfo :=
  if URI_MAX < uri.length + 1 then none
  else
    (brokerIsValidUri site v fs uri).or
      ((httpAliasResolv site.lib v uri site.lib.filenameMax).bind (brokerIsValidUri site v fs))

/-- The header is still empty when the request line is parsed. -/
def parseUri (site : Site) (s : Server) (fs : FileSystem) (uri : Str) :
    Option (SetUri × Option SupInfo) :=
  (httpGetVhost s []).bind fun v => requestSetUri (cacheSup (httpIsValidUri site v fs)) none uri

def createLimits (s : Server) : Option Limits := (httpGetVhost s []).map requestLoadConfig

/-- What is observed of a request: the split with the supplier cached for it, the
supplier cached when the page is served, and the status. -/
structure Observed where
  split : Option Split
  cached : Option Supplier
  served : Option Supplier
  status : Option ℕ
  deriving DecidableEq, Repr

/-- A request without supplier whose file name ends with a slash gets an index page. -/
def giveIndex (site : Site) (v : Vhost) (fs : FileSystem) (t : Target) (cached : Option SupInfo) :
    Target × Option SupInfo :=
  if cached = none ∧ t.filename.getLast? = some slash then
    (httpSetIndexRequest site.lib v (cacheSup (brokerIsValidUri site v fs)) t cached).2
  else (t, cached)

def serveResolved (site : Site) (v : Vhost) (fs : FileSystem) (rq : Incoming) (t : Target)
    (cached : Option SupInfo) : Option Supplier × Option ℕ :=
  let s := giveIndex site v fs t cached
  (s.2.map SupInfo.sup, some (brokerServe site v fs rq.ims rq.head s.2 s.1))

def httpServe (site : Site) (s : Server) (fs : FileSystem) (rq : Incoming) : Observed :=
  match parseUri site s fs rq.uri with
  | none => ⟨none, none, none, none⟩
  | some (r, cached) =>
    let served :=
      match httpGetVhost s rq.header with
      | none => (none, none)
      | some v =>
        match httpResolvRequest site.lib v (targetOf r) with
        | (false, _) => (none, none)
        | (true, t) => serveResolved site v fs rq t cached
    ⟨some ⟨r.filename, r.pathInfo⟩, cached.map SupInfo.sup, served.1, served.2⟩

/-- The paths below the document root and the alias targets of a virtual host. -/
def Vhost.bases (v : Vhost) : List Str :=
  v.dirRoot :: v.aliases.filterMap fun rule => (strtok isblank rule)[1]?

def Vhost.Area (v : Vhost) (path : Str) : Prop :=
  ∃ base ∈ v.bases, ∃ suffix, dotdot ∉ segments suffix ∧ path = squeeze (base ++ slash :: suffix)

/-- The area of the virtual host that the request selects. -/
def requestArea (s : Server) (rq : Incoming) (path : Str) : Prop :=
  ∃ v, httpGetVhost s rq.header = some v ∧ v.Area path

def Agree (area : Str → Prop) (fs fs' : FileSystem) : Prop := ∀ path, area path → fs path = fs' path

/-! ## The files that the split depends on -/

/-- For one prefix of the URI: the paths that the file suppliers are asked for when
no file is there, and whether a supplier without files takes the prefix. -/
def tried (site : Site) (v : Vhost) (uri : Str) : List Str × Bool :=
  if URI_MAX < uri.length + 1 then ([], false)
  else if (fixedValid site uri).isSome then ([], true)
  else
    match httpAliasResolv site.lib v uri site.lib.filenameMax with
    | none => ([uri], false)
    | some resolved => if (fixedValid site resolved).isSome then ([uri], true) else ([uri,
      resolved], false)

def probes (site : Site) (v : Vhost) (cp : Str) : ℕ → ℕ → List Str
  | 0, _ => []
  | turns + 1, len =>
    let t := tried site v (cp.take len)
    t.1 ++
      if t.2 then []
      else
        match uStrnrchr cp slash len with
        | none => []
        | some p => probes site v cp turns p

def uriProbes (site : Site) (v : Vhost) (uri : Str) : List Str :=
  match (decodedPath uri).bind uUriNormalize with
  | none => []
  | some cp => probes site v cp (cp.length + 1) cp.length

/-- A regular file under this path would be taken by a file supplier. -/
def wouldTake (site : Site) (v : Vhost) (path : Str) : Bool :=
  !refused site path && decide (path ≠ []) &&
    (site.enableFs || (site.enableCgi && (cgiExt site v path || inScriptDir v path)))

end Klone.Http
