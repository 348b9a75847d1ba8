import Klone.Http.Uri

/-! # Resolving a request to a file

Aliases and document root of a virtual host, and the choice of an index page.
`Libu` collects what is used of the support library: the size of file name
buffers and the function that prints a path, which concatenates its two parts with
a slash, collapses repeated slashes, and may fail.
-/
namespace Klone.Http

structure CgiConfig where
  scriptAlias : List Str
  handlers : List (Str × Str)
  deriving DecidableEq, Repr

structure Vhost where
  host : Str
  dirRoot : Str
  dirAlias : List Str
  cgi : Option CgiConfig
  index : Option Str
  idleTimeout : Option Str
  postTimeout : Option Str
  postMaxsize : Option Str
  deriving DecidableEq, Repr

def Vhost.scriptAlias (v : Vhost) : List Str := (v.cgi.map CgiConfig.scriptAlias).getD []

def Vhost.aliases (v : Vhost) : List Str := v.dirAlias ++ v.scriptAlias

structure Libu where
  filenameMax : ℕ
  pathSnprintf : ℕ → Str → Str → Option Str
  path_eq : ∀ sz a b r, pathSnprintf sz a b = some r → r = squeeze (a ++ slash :: b)

def httpTryResolv (lib : Libu) (rule uri : Str) (sz : ℕ) : Option Str :=
  if (strlcpy rule 1024).1 then none
  else
    match strtok isblank rule with
    | [] => none
    | src :: rest =>
      if src.isPrefixOf uri = false then none
      else if src.getLast? ≠ some slash ∧ (uri.drop src.length).head? ≠ some slash then none
      else
        match rest with
        | [] => none
        | res :: _ => lib.pathSnprintf sz res (uri.drop src.length)

theorem httpTryResolv_some {lib : Libu} {rule uri path : Str} {sz : ℕ}
    (h : httpTryResolv lib rule uri sz = some path) :
    ∃ src target rest suffix, strtok isblank rule = src :: target :: rest ∧ uri = src ++ suffix ∧
      (src.getLast? = some slash ∨ suffix.head? = some slash) ∧
      path = squeeze (target ++ slash :: suffix) := by
  unfold httpTryResolv at h
  split at h
  · cases h
  split at h
  · cases h
  next src rest hstr =>
    split at h
    · cases h
    next hpre =>
      split at h
      · cases h
      next hnext =>
        split at h
        · cases h
        next res more =>
          have hp : src <+: uri := List.isPrefixOf_iff_prefix.mp (by simpa using hpre)
          obtain ⟨suffix, rfl⟩ := hp
          rw [List.drop_left] at h hnext
          have hb : src.getLast? = some slash ∨ suffix.head? = some slash := by
            by_contra hc
            rw [not_or] at hc
            exact hnext hc
          exact ⟨src, res, more, suffix, hstr, rfl, hb, lib.path_eq _ _ _ _ h⟩

def httpAliasResolv (lib : Libu) (v : Vhost) (uri : Str) (sz : ℕ) : Option Str :=
  match v.aliases.findSome? fun rule => httpTryResolv lib rule uri sz with
  | some dst => some dst
  | none => lib.pathSnprintf sz v.dirRoot uri

/-- The names of a request; `stored` logs every resolved file name with the file
name it was stored for. -/
structure Target where
  filename : Str
  pathInfo : Option Str
  resolvedFilename : Option Str
  resolvedPathInfo : Option Str
  stored : List (Str × Str)

def targetOf (r : SetUri) : Target := ⟨r.filename, r.pathInfo, none, none, []⟩

def httpResolvRequest (lib : Libu) (v : Vhost) (t : Target) : Bool × Target :=
  match httpAliasResolv lib v t.filename lib.filenameMax with
  | none => (false, t)
  | some resolved =>
    let t := { t with resolvedFilename := some resolved, stored := (t.filename, resolved) :: t.stored }
    match t.pathInfo with
    | none => (true, t)
    | some pi =>
      match httpAliasResolv lib v pi lib.filenameMax with
      | none => (false, t)
      | some resolved => (true, { t with resolvedPathInfo := some resolved })

variable {σ : Type*}

/-- The first of the names that the callback accepts below the resolved file name,
if it fits the buffer of 128 bytes. -/
def firstIndex (lib : Libu) (valid : σ → Str → Bool × σ) (t : Target) :
    List Str → σ → Option Str × σ
  | [], st => (none, st)
  | name :: rest, st =>
    match t.resolvedFilename.bind fun r => lib.pathSnprintf lib.filenameMax r name with
    | none => firstIndex lib valid t rest st
    | some path =>
      let r := valid st path
      if r.1 then (if (strlcpy name 128).1 then none else some name, r.2)
      else firstIndex lib valid t rest r.2

def httpGetConfigIndex (lib : Libu) (v : Vhost) (valid : σ → Str → Bool × σ) (t : Target) (st : σ) :
    Option Str × σ :=
  match v.index with
  | none => (none, st)
  | some cindex =>
    if (strlcpy cindex 256).1 then (none, st)
    else firstIndex lib valid t (strtok isblank cindex) st

def defaultIndexes : List Str :=
  [bytes "/index.kl1", bytes "/index.html", bytes "/index.htm", bytes "/index.klx",
    bytes "/index.klone",
    bytes "/index.klc"]

def httpGetIndex (lib : Libu) (v : Vhost) (valid : σ → Str → Bool × σ) (t : Target) (st : σ) :
    Option Str × σ :=
  match httpGetConfigIndex lib v valid t st with
  | (some idx, st) => (some idx, st)
  | (none, st) => firstIndex lib valid t defaultIndexes st

def httpSetIndexRequest (lib : Libu) (v : Vhost) (valid : σ → Str → Bool × σ) (t : Target)
    (st : σ) :
    Bool × Target × σ :=
  match httpGetIndex lib v valid t st with
  | (none, st) => (false, t, st)
  | (some idx, st) =>
    if 1024 ≤ (t.filename ++ idx).length then (false, t, st)
    else
      let r := httpResolvRequest lib v { t with filename := t.filename ++ idx }
      (r.1, r.2, st)

end Klone.Http
