import Klone.Request.Header

/-! # The request object -/
namespace Klone

structure Var where
  name : Str
  value : List Byte
  deriving DecidableEq, Repr

structure Upload where
  name : Str
  tmpFilename : Str
  filename : Str
  mimeType : Str
  size : ℕ
  deriving DecidableEq, Repr

inductive Supplier where
  | emb
  | kilt
  | cgi
  | fs
  deriving DecidableEq, Repr

structure Request where
  header : Header
  uri : Option Str
  query : Option Str
  pathInfo : Option Str
  filename : Option Str
  resolvedPathInfo : Option Str
  resolvedFilename : Option Str
  args : List Var
  argsGet : List Var
  argsPost : List Var
  uploads : List Upload
  contentLength : ℕ
  bodyOff : ℕ
  ifModifiedSince : ℕ
  idleTimeout : ℕ
  postTimeout : ℕ
  postMaxsize : ℕ
  vhost : Option ℕ
  siSup : Option Supplier
  siHandle : Option ℕ
  siMtime : ℕ
  deriving DecidableEq, Repr

/-- The zeroed object of `u_zalloc` with an empty header and empty lists. -/
def Request.zero : Request :=
  { header := [], uri := none, query := none, pathInfo := none, filename := none,
    resolvedPathInfo := none, resolvedFilename := none, args := [], argsGet := [],
    argsPost := [], uploads := [], contentLength := 0, bodyOff := 0,
    ifModifiedSince := 0, idleTimeout := 0, postTimeout := 0, postMaxsize := 0, vhost := none,
    siSup := none, siHandle := none, siMtime := 0 }

end Klone
