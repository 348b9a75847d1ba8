import Klone.Http.Resolve
import Klone.Request.Basic

/-! # Suppliers and the broker

The file system, the embedded resources and the patterns of dynamic pages as the
suppliers see them, and the broker that asks the suppliers in turn. The pages and
programs that produce a response are parameters: for a program it is given what
the file system has under the path it is run from.
-/
namespace Klone.Http

structure FileInfo where
  regular : Bool
  mtime : ℕ
  executable : Bool
  readable : Bool
  deriving DecidableEq, Repr

abbrev FileSystem := Str → Option FileInfo

/-- `stat`; the empty path names nothing. -/
def stat (fs : FileSystem) (path : Str) : Option FileInfo := if path = [] then none else fs path

structure EmbRes where
  isFile : Bool
  encrypted : Bool
  mtime : ℕ
  deriving DecidableEq, Repr

/-- The parts of the server that are the same for all its virtual hosts. -/
structure Site where
  lib : Libu
  embmap : Str → Option EmbRes
  kiltUrls : Str → Option ℕ
  enableKilt : Bool
  enableCgi : Bool
  enableFs : Bool
  embServe : Str → Option ℕ
  kiltServe : ℕ → Str → Option ℕ
  cgiServe : Str → Option FileInfo → Option ℕ

structure SupInfo where
  sup : Supplier
  handle : Option ℕ
  mtime : ℕ
  deriving DecidableEq, Repr

def embLookup (site : Site) (path : Str) : Option EmbRes :=
  if path = [] then none else site.embmap path

def supembIsValidUri (site : Site) (uri : Str) : Option SupInfo :=
  if site.lib.filenameMax < uri.length + 1 then none
  else (embLookup site uri).map fun e =>
    ⟨.emb, none, if e.isFile && !e.encrypted then e.mtime else 0⟩

def kiltIsValidUri (site : Site) (uri : Str) : Option SupInfo :=
  if site.lib.filenameMax < uri.length + 1 then none
  else (site.kiltUrls uri).map fun i => ⟨.kilt, some i, 0⟩

def extension (fqn : Str) : Option Str :=
  if 46 ∈ fqn then some (fqn.reverse.takeWhile (· ≠ 46)).reverse else none

def cgiExt (site : Site) (v : Vhost) (fqn : Str) : Bool :=
  match extension fqn, v.cgi with
  | some ext, some config =>
    decide (ext.length + 8 < site.lib.filenameMax) &&
      (config.handlers.find? fun h => h.1 = ext).isSome
  | _, _ => false

/-- The directory part of a `script_alias` value, what follows its last blank; a
blank in the first place does not count, and an empty value passes whole. -/
def scriptDir (rule : Str) : Option Str :=
  if rule = [] then some []
  else
    match ((List.range' 1 (rule.length - 1)).reverse.find? fun t =>
      (rule[t]?.map isblank).getD false) with
    | none => none
    | some t => some (rule.drop (t + 1))

def inScriptDir (v : Vhost) (fqn : Str) : Bool :=
  v.scriptAlias.any fun rule =>
    match scriptDir rule with
    | none => false
    | some dir => dir.isPrefixOf fqn

def cgiScript (v : Vhost) (fqn : Str) (st : FileInfo) : Bool := inScriptDir v fqn && st.executable

/-- What the file suppliers do before they look at the file system. -/
def refused (site : Site) (uri : Str) : Bool :=
  decide (site.lib.filenameMax < uri.length + 1) || decide (hasDots uri)

def cgiIsValidUri (site : Site) (v : Vhost) (fs : FileSystem) (uri : Str) : Option SupInfo :=
  if refused site uri then none
  else
    match stat fs uri with
    | none => none
    | some st =>
      if st.regular && (cgiExt site v uri || cgiScript v uri st) then
        some ⟨.cgi, none, st.mtime⟩ else none

def fsIsValidUri (site : Site) (fs : FileSystem) (uri : Str) : Option SupInfo :=
  if refused site uri then none
  else
    match stat fs uri with
    | none => none
    | some st => if st.regular then some ⟨.fs, none, st.mtime⟩ else none

def fixedValid (site : Site) (uri : Str) : Option SupInfo :=
  (supembIsValidUri site uri).or (if site.enableKilt then kiltIsValidUri site uri else none)

def filesValid (site : Site) (v : Vhost) (fs : FileSystem) (uri : Str) : Option SupInfo :=
  (if site.enableCgi then cgiIsValidUri site v fs uri else none).or
    (if site.enableFs then fsIsValidUri site fs uri else none)

def brokerIsValidUri (site : Site) (v : Vhost) (fs : FileSystem) (uri : Str) : Option SupInfo :=
  (fixedValid site uri).or (filesValid site v fs uri)

/-- A supplier's callback for the request: on success it caches the supplier. -/
def cacheSup (found : Str → Option SupInfo) (cached : Option SupInfo) (uri : Str) :
    Bool × Option SupInfo :=
  match found uri with
  | none => (false, cached)
  | some info => (true, some info)

def HTTP_STATUS_OK : ℕ := 200
def HTTP_STATUS_NOT_MODIFIED : ℕ := 304
def HTTP_STATUS_NOT_FOUND : ℕ := 404

def supembServe (site : Site) (resolved : Option Str) : Option ℕ :=
  match resolved with
  | none => some HTTP_STATUS_NOT_FOUND
  | some path =>
    match embLookup site path with
    | none => some HTTP_STATUS_NOT_FOUND
    | some _ => site.embServe path

def fsServe (fs : FileSystem) (head : Bool) (resolved : Str) : Option ℕ :=
  match stat fs resolved with
  | none => none
  | some st => if head || st.readable then some HTTP_STATUS_OK else none

/-- The status that a supplier leaves in the response; `none` if it fails. The handle is
that of the request. -/
def supServe (site : Site) (fs : FileSystem) (head : Bool) (sup : Supplier) (handle : Option ℕ)
    (t : Target) : Option ℕ :=
  match sup with
  | .emb => supembServe site t.resolvedFilename
  | .kilt => handle.bind fun utk => site.kiltServe utk t.filename
  | .cgi => t.resolvedFilename.bind fun path => site.cgiServe path (stat fs path)
  | .fs => t.resolvedFilename.bind (fsServe fs head)

/-- What is found here is not stored in the request, so it is served without a handle. -/
def brokerServe (site : Site) (v : Vhost) (fs : FileSystem) (ims : ℕ) (head : Bool)
    (cached : Option SupInfo) (t : Target) : ℕ :=
  match cached.or (t.resolvedFilename.bind (brokerIsValidUri site v fs)) with
  | none => HTTP_STATUS_NOT_FOUND
  | some info =>
    if ims ≠ 0 ∧ info.mtime ≠ 0 ∧ info.mtime ≤ ims then HTTP_STATUS_NOT_MODIFIED
    else (supServe site fs head info.sup (cached.bind SupInfo.handle) t).getD HTTP_STATUS_NOT_FOUND

theorem fixedValid_sup {site : Site} {uri : Str} {info : SupInfo}
    (h : fixedValid site uri = some info) :
    info.sup = .emb ∨ info.sup = .kilt := by
  unfold fixedValid supembIsValidUri kiltIsValidUri at h
  rcases Option.or_eq_some_iff.mp h with h | ⟨-, h⟩
  · split at h
    · cases h
    · obtain ⟨e, -, rfl⟩ := Option.map_eq_some_iff.mp h
      exact Or.inl rfl
  · split at h
    · split at h
      · cases h
      · obtain ⟨i, -, rfl⟩ := Option.map_eq_some_iff.mp h
        exact Or.inr rfl
    · cases h

theorem filesValid_sup {site : Site} {v : Vhost} {fs : FileSystem} {uri : Str} {info : SupInfo}
    (h : filesValid site v fs uri = some info) :
    (info.sup = .cgi ∨ info.sup = .fs) ∧ refused site uri = false := by
  unfold filesValid cgiIsValidUri fsIsValidUri at h
  cases hr : refused site uri with
  | true => simp [hr] at h
  | false =>
    refine ⟨?_, rfl⟩
    rcases Option.or_eq_some_iff.mp h with h | ⟨-, h⟩
    · repeat' split at h
      all_goals cases h
      exact Or.inl rfl
    · repeat' split at h
      all_goals cases h
      exact Or.inr rfl

/-- The answer of the file suppliers depends on the file under that very path. -/
theorem filesValid_congr {site : Site} {v : Vhost} {fs fs' : FileSystem} {uri : Str}
    (h : refused site uri = true ∨ stat fs uri = stat fs' uri) :
    filesValid site v fs uri = filesValid site v fs' uri := by
  unfold filesValid cgiIsValidUri fsIsValidUri
  rcases h with h | h
  · rw [h]
    rfl
  · rw [h]

theorem filesValid_none {site : Site} {v : Vhost} {fs : FileSystem} {uri : Str}
    (h : stat fs uri = none) :
    filesValid site v fs uri = none := by
  unfold filesValid cgiIsValidUri fsIsValidUri
  rw [h]
  simp

end Klone.Http
