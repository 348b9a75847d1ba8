import Klone.Http.Normalize
import Klone.Utils.Urlncpy

/-! # File name, path info and query

`request_set_uri` decodes the URI, cuts the query, normalises the path and looks for the
longest part of it that is valid.
-/
namespace Klone.Http

/-! ## The search -/

/-- The places of the slashes in the first `len` bytes, the last one first. -/
def slashesBelow (cp : Str) (len : ℕ) : List ℕ :=
  (List.range len).reverse.filter fun i => cp[i]? = some slash

/-- The first `len` bytes and their parts before a slash, the longest first. -/
def candidatesFrom (cp : Str) (len : ℕ) : List Str :=
  cp.take len :: (slashesBelow cp len).map fun i => cp.take i

def candidates (cp : Str) : List Str := candidatesFrom cp cp.length

def splitAfter (cp f : Str) : Split :=
  ⟨f, if f.length < cp.length then some (cp.drop f.length) else none⟩

def firstValid (valid : Str → Bool) (cp : Str) (cs : List Str) : Split :=
  match cs.find? valid with
  | some f => splitAfter cp f
  | none => ⟨cp, none⟩

/-- The candidates up to and including the first valid one. -/
def upToValid (valid : Str → Bool) : List Str → List Str
  | [] => []
  | c :: cs => if valid c then [c] else c :: upToValid valid cs

/-- A predicate as a callback that records what it is asked. -/
def recording (valid : Str → Bool) (asked : List Str) (s : Str) : Bool × List Str :=
  (valid s, asked ++ [s])

theorem slashesBelow_succ (cp : Str) (n : ℕ) :
    slashesBelow cp (n + 1) = if cp[n]? = some slash then n :: slashesBelow cp n
    else slashesBelow cp n := by
  rw [slashesBelow, List.range_succ, List.reverse_append, List.reverse_singleton,
    List.singleton_append, List.filter_cons]
  simp only [decide_eq_true_eq]
  rfl

theorem slashesBelow_eq (cp : Str) (len : ℕ) :
    slashesBelow cp len = match uStrnrchr cp slash len with
      | none => []
      | some p => p :: slashesBelow cp p := by
  have hhead : uStrnrchr cp slash len = (slashesBelow cp len).head? := by
    rw [slashesBelow, List.head?_filter, uStrnrchr]
  rw [hhead]
  induction len with
  | zero => rfl
  | succ n ih =>
    rw [slashesBelow_succ]
    split
    · rfl
    · exact ih (by rw [slashesBelow, List.head?_filter, uStrnrchr])

/-- From the first `len` bytes on the search tries the candidates one after the other, and
has turns enough. -/
theorem splitLoop_eq (valid : Str → Bool) (cp : Str) {turns len : ℕ} (hturns : len < turns)
    (hlen : len ≤ cp.length) (asked : List Str) :
    splitLoop (recording valid) cp turns len asked =
      (firstValid valid cp (candidatesFrom cp len),
        asked ++ upToValid valid (candidatesFrom cp len)) := by
  induction turns generalizing len asked with
  | zero => omega
  | succ turns ih =>
    have htake : (cp.take len).length = len := List.length_take_of_le hlen
    have hbelow := slashesBelow_eq cp len
    rw [splitLoop, candidatesFrom, firstValid, List.find?_cons, upToValid]
    cases hv : valid (cp.take len) with
    | true => simp [recording, hv, splitAfter, htake]
    | false =>
      cases hp : uStrnrchr cp slash len with
      | none =>
        rw [hp] at hbelow
        simp [recording, hv, hbelow, upToValid]
      | some p =>
        have hlt := (uStrnrchr_some hp).1
        rw [hp] at hbelow
        have hturns' : p < turns := by omega
        have hnext := ih hturns' (by omega) (asked ++ [cp.take len])
        simp only [recording, hv, hbelow, List.map_cons, Bool.false_eq_true, if_false]
        rw [hnext, firstValid, candidatesFrom, List.append_assoc]
        rfl

theorem upToValid_initial (valid : Str → Bool) (cs : List Str) : upToValid valid cs <+: cs := by
  induction cs with
  | nil => exact List.prefix_rfl
  | cons c cs ih =>
    rw [upToValid]
    split
    · exact ⟨cs, rfl⟩
    · exact List.cons_prefix_cons.mpr ⟨rfl, ih⟩

theorem mem_slashesBelow {cp : Str} {len i : ℕ} (h : i ∈ slashesBelow cp len) :
    i < len ∧ cp[i]? = some slash := by
  obtain ⟨hm, hs⟩ := List.mem_filter.mp h
  exact ⟨List.mem_range.mp (List.mem_reverse.mp hm), of_decide_eq_true hs⟩

theorem slashesBelow_sorted (cp : Str) (len : ℕ) :
    (slashesBelow cp len).Pairwise fun i j => j < i :=
  (List.pairwise_reverse.mpr List.pairwise_lt_range).filter _

/-- The candidates get shorter. -/
theorem candidates_sorted (cp : Str) : (candidates cp).Pairwise fun f g => g.length < f.length := by
  have hlen : ∀ i ∈ slashesBelow cp cp.length, (cp.take i).length = i := fun i hi =>
    List.length_take_of_le (mem_slashesBelow hi).1.le
  rw [candidates, candidatesFrom, List.take_length, List.pairwise_cons]
  refine ⟨?_, ?_⟩
  · intro f hf
    obtain ⟨i, hi, rfl⟩ := List.mem_map.mp hf
    rw [hlen i hi]
    exact (mem_slashesBelow hi).1
  · rw [List.pairwise_map]
    refine (slashesBelow_sorted cp _).imp_of_mem ?_
    intro i j hi hj hlt
    rwa [hlen i hi, hlen j hj]

/-- The candidates are the path and its parts before a slash. -/
theorem mem_candidates {cp f : Str} : f ∈ candidates cp ↔ f = cp ∨ f ++ [slash] <+: cp := by
  rw [candidates, candidatesFrom, List.take_length, List.mem_cons]
  refine or_congr_right ⟨?_, ?_⟩
  · intro h
    obtain ⟨i, hi, rfl⟩ := List.mem_map.mp h
    obtain ⟨hlt, hc⟩ := List.getElem?_eq_some_iff.mp (mem_slashesBelow hi).2
    refine ⟨cp.drop (i + 1), ?_⟩
    rw [← hc, List.append_assoc, List.singleton_append, ← List.drop_eq_getElem_cons hlt,
      List.take_append_drop]
  · rintro ⟨rest, rfl⟩
    refine List.mem_map.mpr ⟨f.length, List.mem_filter.mpr ⟨?_, ?_⟩, ?_⟩
    · simp
    · simp
    · simp

theorem firstValid_append (valid : Str → Bool) (cp : Str) :
    (firstValid valid cp (candidates cp)).filename ++
    ((firstValid valid cp (candidates cp)).pathInfo).getD [] = cp := by
  unfold firstValid
  split
  · next f hf =>
    have hpre : f <+: cp := by
      rcases mem_candidates.mp (List.mem_of_find?_eq_some hf) with rfl | hslash
      · exact List.prefix_rfl
      · exact (List.prefix_append f [slash]).trans hslash
    obtain ⟨rest, rfl⟩ := hpre
    unfold splitAfter
    split
    · simp
    · next hc =>
      have hnil : rest = [] := by
        rw [List.length_append] at hc
        exact List.length_eq_zero_iff.mp (by omega)
      simp [hnil]
  · simp

theorem firstValid_pathInfo (valid : Str → Bool) (cp : Str) (cs : List Str) :
    (firstValid valid cp cs).pathInfo ≠ some [] := by
  unfold firstValid
  split
  · next f _ =>
    unfold splitAfter
    split
    · next hlt =>
      intro he
      have hle := List.drop_eq_nil_iff.mp (Option.some.inj he)
      omega
    · exact Option.some_ne_none _ ∘ Eq.symm
  · exact Option.some_ne_none _ ∘ Eq.symm

/-- The search of `request_set_uri`: the file name is the longest valid candidate, the path
info is the rest of the path, and no candidate is asked for twice. -/
theorem set_uri_splits (valid : Str → Bool) {uri : Str} {r : SetUri} {asked : List Str}
    (h : requestSetUri (recording valid) [] uri = some (r, asked)) :
    ∃ cp, (decodedPath uri).bind uUriNormalize = some cp ∧
      (⟨r.filename, r.pathInfo⟩ : Split) = firstValid valid cp (candidates cp) ∧
      r.filename ++ r.pathInfo.getD [] = cp ∧ r.pathInfo ≠ some [] ∧
      asked = upToValid valid (candidates cp) ∧ asked.Nodup ∧
      ∀ turns, cp.length < turns →
        splitLoop (recording valid) cp turns cp.length [] = (⟨r.filename, r.pathInfo⟩, asked) := by
  unfold requestSetUri at h
  cases hn : (decodedPath uri).bind uUriNormalize with
  | none =>
    rw [hn] at h
    cases h
  | some cp =>
    rw [hn] at h
    have hloop : ∀ turns, cp.length < turns → splitLoop (recording valid) cp turns cp.length [] =
        (firstValid valid cp (candidates cp), upToValid valid (candidates cp)) :=
          fun turns hturns =>
      splitLoop_eq valid cp hturns (le_refl _) []
    simp only [hloop _ (Nat.lt_succ_self _)] at h
    obtain ⟨rfl, rfl⟩ := Prod.mk.inj (Option.some.inj h)
    have hnodup : (candidates cp).Nodup := by
      refine (candidates_sorted cp).imp ?_
      rintro f g hlt rfl
      exact lt_irrefl _ hlt
    exact ⟨cp, rfl, rfl, firstValid_append valid cp, firstValid_pathInfo valid cp _, rfl,
      hnodup.sublist (upToValid_initial valid _).sublist, hloop⟩

/-- Only `/cgi` is valid: it is found after the whole path and the part before the last slash. -/
theorem set_uri_splits_cgi :
    ∃ cp, (decodedPath (bytes "/cgi/a/b?q")).bind uUriNormalize = some cp ∧
      (⟨bytes "/cgi", some (bytes "/a/b")⟩ : Split) =
        firstValid (· == bytes "/cgi") cp (candidates cp) ∧
      bytes "/cgi" ++ (some (bytes "/a/b")).getD [] = cp ∧ some (bytes "/a/b") ≠ some [] ∧
      [bytes "/cgi/a/b", bytes "/cgi/a", bytes "/cgi"] =
        upToValid (· == bytes "/cgi") (candidates cp) ∧
      [bytes "/cgi/a/b", bytes "/cgi/a", bytes "/cgi"].Nodup ∧
      ∀ turns, cp.length < turns →
        splitLoop (recording (· == bytes "/cgi")) cp turns cp.length [] =
          (⟨bytes "/cgi", some (bytes "/a/b")⟩,
            [bytes "/cgi/a/b", bytes "/cgi/a", bytes "/cgi"]) := by
  have h : requestSetUri (recording (· == bytes "/cgi")) [] (bytes "/cgi/a/b?q") =
      some (⟨bytes "/cgi/a/b?q", some (bytes "q"), bytes "/cgi", some (bytes "/a/b")⟩,
        [bytes "/cgi/a/b", bytes "/cgi/a", bytes "/cgi"]) := by decide +kernel
  exact set_uri_splits (· == bytes "/cgi") h

/-! ## Path and query -/

def uriOf (p : Str) : Option Str → Str
  | none => p
  | some q => p ++ 63 :: q

/-- What `request_set_uri` makes of the path `p` when nothing else matters. -/
def pathOnly {σ : Type} (valid : σ → Str → Bool × σ) (st : σ) (p : Str) (query : Option Str) :
    Option (SetUri × σ) :=
  ((uUrlncpyDecode p).bind uUriNormalize).map fun cp =>
    let r := splitLoop valid cp (cp.length + 1) cp.length st
    (⟨uriOf p query, query, r.1.filename, r.1.pathInfo⟩, r.2)

/-- Path and query do not interfere: the result is that of the path alone, with the query,
and no byte of the path has been cut when the URI is accepted. -/
structure Separate (p : Str) (query : Option Str) : Prop where
  result : ∀ (σ : Type) (valid : σ → Str → Bool × σ) (st : σ),
    requestSetUri valid st (uriOf p query) = pathOnly valid st p query
  kept : ∀ cp, (decodedPath (uriOf p query)).bind uUriNormalize = some cp →
    decodedPath (uriOf p query) = uUrlncpyDecode p

def AbsolutePath (p d : Str) : Prop :=
  uUrlncpyDecode p = some d ∧ (d.map toSlash).head? = some slash

structure Unmixed (d : Str) (query : Option Str) : Prop where
  noMark : (63 : Byte) ∉ d
  noNul : (0 : Byte) ∉ d
  query : ∀ q, query = some q → (uUrlncpyDecode q).isSome = true

def cutPath (d : Str) : Str := (cstr d).takeWhile (· ≠ 63)

/-- The question mark cannot be a part of an escape. -/
theorem decode_mark (rest : Str) (h : rest.length < 2) (q : Str) :
    uUrlncpyDecode (37 :: (rest ++ 63 :: q)) = none := by
  have hmark : isxdigit 63 = false := by decide
  match rest with
  | [] =>
    cases q with
    | nil => rfl
    | cons b q => simp [uUrlncpyDecode, hmark]
  | [a] => simp [uUrlncpyDecode, hmark]

/-- The path and the query are decoded on their own. -/
theorem decode_query (p q : Str) :
    uUrlncpyDecode (p ++ 63 :: q) = (uUrlncpyDecode p).bind fun d => (uUrlncpyDecode q).map fun e =>
    d ++ 63 :: e := by
  have hmark : (63 : Byte) ≠ 37 := by decide
  induction p using uUrlncpyDecode.induct with
  | case1 => simp [uUrlncpyDecode_cons hmark, uUrlncpyDecode]
  | case2 a b rest hx ih =>
    simp only [List.cons_append, uUrlncpyDecode, hx, if_true, ih]
    cases uUrlncpyDecode rest <;> cases uUrlncpyDecode q <;> rfl
  | case3 a b rest hx => simp [uUrlncpyDecode, hx]
  | case4 rest hne =>
    rw [List.cons_append, decode_mark rest (length_lt_two hne) q, uUrlncpyDecode.eq_3 _ hne]
    rfl
  | case5 c rest hne₁ hne₂ ih =>
    have hc : c ≠ 37 := by
      rintro rfl
      exact hne₂ rfl
    rw [List.cons_append, uUrlncpyDecode_cons hc, uUrlncpyDecode_cons hc, ih]
    cases uUrlncpyDecode rest <;> cases uUrlncpyDecode q <;> rfl

theorem cutPath_eq_self {d : Str} : cutPath d = d ↔ (63 : Byte) ∉ d ∧ (0 : Byte) ∉ d := by
  unfold cutPath cstr
  rw [List.takeWhile_takeWhile, List.takeWhile_eq_self_iff]
  constructor
  · intro h
    refine ⟨fun hm => ?_, fun hm => ?_⟩
    · have hc := h 63 hm
      simp at hc
    · have hc := h 0 hm
      simp at hc
  · rintro ⟨h₆₃, h₀⟩ c hc
    simp only [ne_eq, decide_not, Bool.not_eq_true', decide_eq_false_iff_not, decide_eq_true_eq]
    refine ⟨?_, ?_⟩
    · rintro rfl
      exact h₆₃ hc
    · rintro rfl
      exact h₀ hc

/-- The query is cut off again. -/
theorem cutPath_query (d e : Str) : cutPath (d ++ 63 :: e) = cutPath d := by
  unfold cutPath cstr
  rw [List.takeWhile_takeWhile, List.takeWhile_takeWhile]
  induction d with
  | nil => simp
  | cons c d ih =>
    rw [List.cons_append, List.takeWhile_cons, List.takeWhile_cons, ih]

theorem cutPath_head (d : Str) :
    ((cutPath d).map toSlash).head? = some slash ↔ (d.map toSlash).head? = some slash := by
  cases d with
  | nil => rfl
  | cons c d =>
    unfold cutPath cstr
    by_cases hkeep : c ≠ 0 ∧ c ≠ 63
    · simp [hkeep]
    · have hc : toSlash c ≠ slash := by
        rcases not_and_or.mp hkeep with h | h
        · rw [not_not.mp h]
          decide
        · rw [not_not.mp h]
          decide
      have hcut : ((c :: d).takeWhile (· ≠ 0)).takeWhile (· ≠ 63) = [] := by
        rw [List.takeWhile_takeWhile, List.takeWhile_cons]
        rcases not_and_or.mp hkeep with h | h
        · simp [not_not.mp h]
        · simp [not_not.mp h]
      rw [hcut]
      simp [hc]

theorem uUriNormalize_none {d : Str} (h : (d.map toSlash).head? ≠ some slash) :
    uUriNormalize d = none :=
  if_pos h

/-- The path before it is normalised. -/
theorem decodedPath_uriOf {p : Str} {query : Option Str} (hlen : (uriOf p query).length < 4096)
    {d : Str} (hd : uUrlncpyDecode p = some d) (hne : d ≠ []) :
    decodedPath (uriOf p query) = if ∀ q, query = some q →
    (uUrlncpyDecode q).isSome = true then some (cutPath d) else none := by
  unfold decodedPath
  rw [if_neg (Nat.not_le.mpr hlen)]
  cases query with
  | none =>
    rw [uriOf, hd]
    obtain ⟨c, d, rfl⟩ := List.exists_cons_of_ne_nil hne
    simp [cutPath]
  | some q =>
    rw [uriOf, decode_query, hd]
    cases hq : uUrlncpyDecode q with
    | none => simp [hq]
    | some e =>
      obtain ⟨c, d, rfl⟩ := List.exists_cons_of_ne_nil hne
      have hcut := cutPath_query (c :: d) e
      simpa [hq, cutPath] using hcut

theorem decodedPath_uriOf_none {p : Str} {query : Option Str} (hd : uUrlncpyDecode p = none) :
    decodedPath (uriOf p query) = none := by
  unfold decodedPath
  split
  · rfl
  · cases query with
    | none => rw [uriOf, hd]
    | some q => rw [uriOf, decode_query, hd, Option.bind_none]

theorem queryOf_uriOf {p : Str} (hp : (63 : Byte) ∉ p) (query : Option Str) :
    queryOf (uriOf p query) = query := by
  have hall : ∀ c ∈ p, decide (c ≠ 63) = true := all_ne_iff.mpr hp
  unfold queryOf
  cases query with
  | none =>
    have htake := List.takeWhile_eq_self_iff.mpr hall
    have hdrop := List.dropWhile_eq_nil_iff.mpr hall
    rw [uriOf, List.span_eq_takeWhile_dropWhile, htake, hdrop]
  | some q =>
    rw [uriOf, List.span_eq_takeWhile_dropWhile, List.dropWhile_append_of_pos hall]
    simp

/-- A path without a slash at its beginning is not accepted, whatever the query is. -/
theorem not_accepted {p : Str} {query : Option Str} (hlen : (uriOf p query).length < 4096) {d : Str}
    (hd : uUrlncpyDecode p = some d) (hhead : (d.map toSlash).head? ≠ some slash) :
    (decodedPath (uriOf p query)).bind uUriNormalize = none := by
  have hcut : uUriNormalize (cutPath d) = none :=
    uUriNormalize_none fun hc => hhead ((cutPath_head d).mp hc)
  by_cases hne : d = []
  · subst hne
    unfold decodedPath
    rw [if_neg (Nat.not_le.mpr hlen)]
    cases query with
    | none =>
      rw [uriOf, hd]
      rfl
    | some q =>
      rw [uriOf, decode_query, hd]
      cases uUrlncpyDecode q with
      | none => rfl
      | some e => simp [cstr, uUriNormalize]
  · rw [decodedPath_uriOf hlen hd hne]
    split
    · rw [Option.bind_some, hcut]
    · rfl

/-- Path and query do not interfere exactly when the query can be decoded and neither a
question mark nor a NUL comes out of the escapes in the path. -/
theorem path_query_separate_iff {p : Str} {query : Option Str} (hp : (63 : Byte) ∉ p)
    (hlen : (uriOf p query).length < 4096) :
    Separate p query ↔ ∀ d, AbsolutePath p d → Unmixed d query := by
  constructor
  · rintro h d ⟨hd, hhead⟩
    have hne : d ≠ [] := by
      rintro rfl
      cases hhead
    have hpath := decodedPath_uriOf hlen hd hne
    obtain ⟨cp, hcp⟩ : ∃ cp, uUriNormalize d = some cp := by
      refine Option.ne_none_iff_exists'.mp fun hn => ?_
      exact (uri_normalize_spec d).2.1.mp hn hhead
    have haccepted := h.result Unit (fun _ _ => (true, ())) ()
    have hright : (uUrlncpyDecode p).bind uUriNormalize = some cp := by
      rw [hd, Option.bind_some, hcp]
    rw [pathOnly, hright] at haccepted
    have hleft : ∃ cp', (decodedPath (uriOf p query)).bind uUriNormalize = some cp' := by
      refine Option.ne_none_iff_exists'.mp fun hn => ?_
      rw [requestSetUri, hn] at haccepted
      cases haccepted
    obtain ⟨cp', hcp'⟩ := hleft
    have hkept := h.kept cp' hcp'
    rw [hpath, hd] at hkept
    split at hkept
    · next hquery =>
      obtain ⟨hmark, hnul⟩ := cutPath_eq_self.mp (Option.some.inj hkept)
      exact ⟨hmark, hnul, hquery⟩
    · cases hkept
  · intro h
    have hsame : (decodedPath (uriOf p query)).bind uUriNormalize =
      (uUrlncpyDecode p).bind uUriNormalize ∧
        ∀ cp, (decodedPath (uriOf p query)).bind uUriNormalize = some cp →
          decodedPath (uriOf p query) = uUrlncpyDecode p := by
      cases hd : uUrlncpyDecode p with
      | none =>
        rw [decodedPath_uriOf_none hd]
        exact ⟨rfl, fun cp hcp => rfl⟩
      | some d =>
        by_cases hhead : (d.map toSlash).head? = some slash
        · obtain ⟨hmark, hnul, hquery⟩ := h d ⟨hd, hhead⟩
          have hne : d ≠ [] := by
            rintro rfl
            cases hhead
          rw [decodedPath_uriOf hlen hd hne, if_pos hquery, cutPath_eq_self.mpr ⟨hmark, hnul⟩]
          exact ⟨rfl, fun cp hcp => rfl⟩
        · rw [not_accepted hlen hd hhead, Option.bind_some, uUriNormalize_none hhead]
          exact ⟨rfl, fun cp hcp => by cases hcp⟩
    refine ⟨fun σ valid st => ?_, hsame.2⟩
    rw [requestSetUri, pathOnly, hsame.1]
    cases (uUrlncpyDecode p).bind uUriNormalize with
    | none => rfl
    | some cp =>
      simp only [queryOf_uriOf hp]
      rfl

theorem path_query_separate_plain :
    Separate (bytes "/a%20b") (some (bytes "c?d")) ↔
      ∀ d, AbsolutePath (bytes "/a%20b") d → Unmixed d (some (bytes "c?d")) :=
  path_query_separate_iff (by decide +kernel) (by decide +kernel)

/-- An escaped question mark cuts the path, and a bad escape in the query refuses it. -/
theorem path_query_interfere :
    ¬ Separate (bytes "/a%3Fb") none ∧ ¬ Separate (bytes "/a") (some (bytes "%zz")) := by
  have hcut : requestSetUri (fun (_ : Unit) _ => (true, ())) () (uriOf (bytes "/a%3Fb") none) ≠
      pathOnly (fun (_ : Unit) _ => (true, ())) () (bytes "/a%3Fb") none := by decide +kernel
  have hbad : requestSetUri (fun (_ : Unit) _ => (true, ())) ()
    (uriOf (bytes "/a") (some (bytes "%zz"))) ≠
      pathOnly (fun (_ : Unit) _ => (true, ())) () (bytes "/a") (some (bytes "%zz")) := by
        decide +kernel
  exact ⟨fun h => hcut (h.result Unit _ ()), fun h => hbad (h.result Unit _ ())⟩

end Klone.Http
