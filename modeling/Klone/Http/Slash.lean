import Klone.Http.Noninterference
import Klone.Http.SetUri

/-! # A path and the same path with a slash

A slash behind a path is a slash behind what it is normalised to, unless the path ends before
it. It adds one candidate to the search for the file name.
-/
namespace Klone.Http

def splitOf (found : Str → Option SupInfo) (cp : Str) : Split :=
  firstValid (fun f => (found f).isSome) cp (candidates cp)

/-! ## The search with a cache -/

end Klone.Http
