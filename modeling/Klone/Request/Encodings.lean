import Klone.Request.Cookie
import Klone.Request.Data
import Klone.Request.Delimiting
import Klone.Request.MultipartBounds

/-! # The two encodings of a form

The same names and values can be posted urlencoded or in multipart format. Here a form is
encoded in both ways and the variables that the two parsers make of it are compared.
-/
namespace Klone.Multipart
open Loop Matcher Page Http

/-! ## Forms and their encodings -/

def quotedString (s : Str) : Str :=
  34 :: (s.flatMap fun c => if c = 34 ∨ c = 92 then [92, c] else [c]) ++ [34]

/-- The value of the `Content-Disposition` field of a form field. -/
def disposition (name : Str) : Str := bytes "form-data; name=" ++ quotedString name

def partHead (name : Str) : Str := bytes "Content-Disposition: " ++ disposition name

/-- What follows a boundary: the parts that are left, or the end. -/
def multipartTail (b : Str) : List (Str × Str) → List Byte
  | [] => bytes "--\r\n"
  | p :: pairs =>
    bytes "\r\n" ++ partHead p.1 ++ bytes "\r\n\r\n" ++ p.2 ++ nlBoundary b ++ multipartTail b pairs

def multipartBody (b : Str) (pairs : List (Str × Str)) : List Byte :=
  bytes "--" ++ b ++ multipartTail b pairs

def urlPair (p : Str × Str) : Str := uUrlncpyEncode p.1 ++ 61 :: uUrlncpyEncode p.2

def urlBody : List (Str × Str) → Str
  | [] => []
  | [p] => urlPair p
  | p :: pairs => urlPair p ++ 38 :: urlBody pairs

/-- The name of a variable and the string that `var_get_value` returns for it. -/
def varText (v : Var) : Str × Option Str :=
  (v.name, if v.value = [] then none else some (cstr v.value))

structure FormField (b : Str) (p : Str × Str) : Prop where
  name_ne : p.1 ≠ []
  name_line : ∀ c ∈ p.1, c ≠ 0 ∧ c ≠ 10 ∧ c ≠ 13
  value_str : 0 ∉ p.2
  value_free : ¬ nlBoundary b <:+: p.2

/-- A field that both parsers can carry: its value is not empty, and its name needs no
quoting, has no semicolon and leaves the `Content-Disposition` field below its limit. -/
structure Carried (b : Str) (p : Str × Str) : Prop extends FormField b p where
  value_ne : p.2 ≠ []
  name_plain : ∀ c ∈ p.1, c ≠ 34 ∧ c ≠ 59 ∧ c ≠ 92
  name_short : (disposition p.1).length < 512

structure MultipartPost (rq : Request) (b : Str) (pairs : List (Str × Str)) : Prop where
  multipart : requestIsMultipartFormdata rq = true
  boundary : requestGetFieldparam rq.header (bytes "Content-Type") (bytes "boundary")
    (BOUNDARY_BUFSZ - 2) = some b
  short : b.length + 4 < BOUNDARY_BUFSZ
  length : contentLengthOf rq.header = some (multipartBody b pairs).length
  limit : (multipartBody b pairs).length ≤ rq.postMaxsize

structure UrlencodedPost (rq : Request) (pairs : List (Str × Str)) : Prop where
  single : requestIsMultipartFormdata rq = false
  urlencoded : requestIsUrlencoded rq = true
  length : contentLengthOf rq.header = some (urlBody pairs).length
  limit : (urlBody pairs).length ≤ rq.postMaxsize

def fieldVar (p : Str × Str) : Var := ⟨p.1, p.2⟩

/-! ## Parsing the urlencoded form -/

theorem urlPair_urlChar (p : Str × Str) : ∀ c ∈ urlPair p, urlChar c = true ∨ c = 61 := by
  intro c hc
  rcases List.mem_append.mp hc with h | h
  · exact Or.inl (mem_uUrlncpyEncode h)
  · rcases List.mem_cons.mp h with h | h
    · exact Or.inr h
    · exact Or.inl (mem_uUrlncpyEncode h)

theorem urlPair_undelimited (p : Str × Str) : ∀ c ∈ urlPair p, (c == 38) = false := by
  intro c hc
  rcases urlPair_urlChar p c hc with h | rfl
  · simpa using ne_of_apply_ne urlChar (by rw [h]; decide : urlChar c ≠ urlChar 38)
  · decide

theorem urlPair_ne_nil (p : Str × Str) : urlPair p ≠ [] := by simp [urlPair]

theorem urlBody_cons (p q : Str × Str) (pairs : List (Str × Str)) :
    urlBody (p :: q :: pairs) = urlPair p ++ 38 :: urlBody (q :: pairs) := rfl

theorem strtok_urlBody (pairs : List (Str × Str)) :
    strtok (· == 38) (urlBody pairs) = pairs.map urlPair := by
  induction pairs with
  | nil => exact strtok_nil _
  | cons p pairs ih =>
    cases pairs with
    | nil => exact strtok_token (urlPair_ne_nil p) (urlPair_undelimited p)
    | cons q pairs =>
      have hsep : ((38 : Byte) == 38) = true := rfl
      rw [urlBody_cons, strtok_append (urlPair_ne_nil p) (urlPair_undelimited p) hsep, ih]
      rfl

theorem zero_not_mem_urlBody (pairs : List (Str × Str)) : (0 : Byte) ∉ urlBody pairs := by
  have hpair : ∀ p : Str × Str, (0 : Byte) ∉ urlPair p := by
    intro p h
    rcases urlPair_urlChar p 0 h with h | h
    · exact absurd h (by decide)
    · exact absurd h (by decide)
  induction pairs with
  | nil => simp [urlBody]
  | cons p pairs ih =>
    cases pairs with
    | nil => exact hpair p
    | cons q pairs =>
      rw [urlBody_cons, List.mem_append, List.mem_cons]
      simp [hpair p, ih]

theorem urlVar_urlPair {p : Str × Str} (hname : p.1 ≠ []) (hzero : (0 : Byte) ∉ p.1)
    (hvalue : p.2 ≠ []) :
    urlVar (urlPair p) = some (fieldVar p) := by
  rw [urlPair, urlVar_split (fun c hc => mem_uUrlncpyEncode hc) (fun c hc => mem_uUrlncpyEncode hc)]
  exact urlNamed_encode (v := fieldVar p) hname hzero hvalue

theorem Carried.urlVar {b : Str} {p : Str × Str} (h : Carried b p) :
    urlVar (urlPair p) = some (fieldVar p) :=
  urlVar_urlPair h.name_ne (fun hm => (h.name_line 0 hm).1 rfl) h.value_ne

theorem queryVars_urlBody {pairs : List (Str × Str)}
    (h : ∀ p ∈ pairs, urlVar (urlPair p) = some (fieldVar p)) :
    (queryVars (urlBody pairs)).filterMap urlVar = pairs.map fieldVar := by
  rw [queryVars, cstr_of_not_mem (zero_not_mem_urlBody pairs), strtok_urlBody, List.filterMap_map]
  induction pairs with
  | nil => rfl
  | cons p pairs ih =>
    have hp := h p List.mem_cons_self
    have hrest := ih fun q hq => h q (List.mem_cons_of_mem p hq)
    rw [List.filterMap_cons, Function.comp_apply, hp, hrest, List.map_cons]

structure UrlencodedBody (rq : Request) (body : Str) : Prop where
  single : requestIsMultipartFormdata rq = false
  urlencoded : requestIsUrlencoded rq = true
  length : contentLengthOf rq.header = some body.length
  limit : body.length ≤ rq.postMaxsize

theorem UrlencodedPost.body {rq : Request} {pairs : List (Str × Str)}
    (h : UrlencodedPost rq pairs) :
    UrlencodedBody rq (urlBody pairs) := ⟨h.single, h.urlencoded, h.length, h.limit⟩

/-- The variables of the query string and those of the body are added one after the other. -/
theorem urlencodedBody_parsed {rq : Request} {body : Str} (h : UrlencodedBody rq body) (rest : Str)
    (fails : Bool) (rtot : ℕ) (tmp : ℕ → TmpFile) :
    let r := requestParseData .post rq ⟨body ++ rest, fails, rtot⟩ tmp
    r.rc = 0 ∧ r.rq.args = rq.args ++ queryArgs rq ++ (queryVars body).filterMap urlVar ∧
      r.rq.argsGet = rq.argsGet ++ queryArgs rq ∧
      r.rq.argsPost = rq.argsPost ++ (queryVars body).filterMap urlVar := by
  have hq := requestParseQueryArgs_eq rq
  dsimp only
  rw [requestParseData, hq, if_neg (by simp)]
  simp only [requestSetContentLength, h.length, Option.map_some]
  by_cases hzero : body.length = 0
  · obtain rfl := List.length_eq_zero_iff.mp hzero
    simp [queryVars, cstr, strtok_nil]
  · have hsingle := h.single
    have hurl := h.urlencoded
    rw [if_neg hzero, if_neg (not_lt.mpr h.limit)]
    split
    next hm => exact absurd (hsingle.symm.trans hm) Bool.false_ne_true
    next =>
      split
      next =>
        have hread : ioRead ⟨body ++ rest, fails, rtot⟩ body.length =
            ⟨some body.length, body, Source.skip ⟨body ++ rest, fails, rtot⟩ body.length⟩ := by
          simp [ioRead]
        simp [requestParseUrlencodedData, hread, foldl_requestCbAddPostVar, statusOf]
      next hno => exact absurd hurl hno

theorem urlencoded_parsed {rq : Request} {b : Str} {pairs : List (Str × Str)}
    (h : UrlencodedPost rq pairs) (hpairs : ∀ p ∈ pairs, Carried b p) (rtot : ℕ)
    (tmp : ℕ → TmpFile) :
    (requestParseData .post rq ⟨urlBody pairs, false, rtot⟩ tmp).rq.args =
        rq.args ++ queryArgs rq ++ pairs.map fieldVar ∧
      (requestParseData .post rq ⟨urlBody pairs, false, rtot⟩ tmp).rq.argsPost =
        rq.argsPost ++ pairs.map fieldVar := by
  obtain ⟨-, hargs, -, hpost⟩ := urlencodedBody_parsed h.body [] false rtot tmp
  rw [List.append_nil, queryVars_urlBody fun p hp => (hpairs p hp).urlVar] at hargs hpost
  exact ⟨hargs, hpost⟩

/-! ## Parsing a part -/

section
variable {b : Str} {p : Str × Str} (h : Carried b p)
include h

theorem disposition_plain : disposition p.1 = bytes "form-data; name=\"" ++ (p.1 ++ [34]) := by
  have hflat : (p.1.flatMap fun c => if c = 34 ∨ c = 92 then [92, c] else [c]) = p.1 := by
    have hmap : (p.1.flatMap fun c => if c = 34 ∨ c = 92 then [92, c] else [c]) =
        p.1.flatMap fun c => [c] := by
      rw [List.flatMap_def, List.flatMap_def]
      congr 1
      refine List.map_congr_left fun c hc => ?_
      obtain ⟨hquote, -, hback⟩ := h.name_plain c hc
      rw [if_neg (not_or.mpr ⟨hquote, hback⟩)]
    rw [hmap, List.flatMap_singleton']
  have hopen : bytes "form-data; name=\"" = bytes "form-data; name=" ++ [34] := rfl
  rw [disposition, quotedString, hflat, hopen]
  simp

theorem name_length : p.1.length < 494 := by
  have hlen := h.name_short
  rw [disposition_plain h, List.length_append, List.length_append, List.length_singleton,
    show (bytes "form-data; name=\"").length = 17 from rfl] at hlen
  omega

theorem partHead_line : (10 : Byte) ∉ partHead p.1 ++ [13] ∧ (0 : Byte) ∉ partHead p.1 := by
  have hname₁₀ : (10 : Byte) ∉ p.1 := fun hm => (h.name_line 10 hm).2.1 rfl
  have hname₀ : (0 : Byte) ∉ p.1 := fun hm => (h.name_line 0 hm).1 rfl
  have hfirst : (10 : Byte) ∉ bytes "Content-Disposition: " ++ bytes "form-data; name=\"" ∧
      (0 : Byte) ∉ bytes "Content-Disposition: " ++ bytes "form-data; name=\"" := by decide
  rw [List.mem_append, List.mem_append, not_or, not_or] at hfirst
  rw [partHead, disposition_plain h]
  simp [hfirst, hname₁₀, hname₀]

theorem stripNl_partHead : stripNl (partHead p.1 ++ [13]) = partHead p.1 := by
  have hend : partHead p.1 =
      (bytes "Content-Disposition: " ++ bytes "form-data; name=\"" ++ p.1) ++ [34] := by
    rw [partHead, disposition_plain h]
    simp
  rw [stripNl, List.rdropWhile_concat_pos _ _ _ (by decide), hend,
    List.rdropWhile_concat_neg _ _ _ (by decide)]

theorem headerProcessLine_partHead :
    headerProcessLine [] (partHead p.1) = [⟨bytes "Content-Disposition", disposition p.1⟩] := by
  have hspan : (partHead p.1).span (fun c => decide (c ≠ 58)) =
      (bytes "Content-Disposition", 58 :: (32 :: disposition p.1)) := by
    have hcolon : ∀ c ∈ bytes "Content-Disposition", decide (c ≠ 58) = true :=
      List.all_eq_true.mp rfl
    have hlabel : bytes "Content-Disposition: " = bytes "Content-Disposition" ++ [58, 32] := rfl
    rw [partHead, hlabel, List.append_assoc]
    exact span_delim hcolon (by decide) (32 :: disposition p.1)
  have hblank : (32 :: disposition p.1).dropWhile isblank = disposition p.1 := by
    have hhead : disposition p.1 = 102 :: (bytes "orm-data; name=" ++ quotedString p.1) := rfl
    rw [List.dropWhile_cons_of_pos (by decide), hhead, List.dropWhile_cons_of_neg (by decide)]
  have hne : partHead p.1 ≠ [] := by simp [partHead, bytes]
  rw [headerProcessLine, if_neg hne, fieldSetFromLine, cstr_of_not_mem (partHead_line h).2, hspan]
  simp only [hblank, List.nil_append]

theorem headerLoad_part (rest : List Byte) (rtot : ℕ) :
    headerLoad ⟨partHead p.1 ++ bytes "\r\n\r\n" ++ rest, false, rtot⟩ =
      (some [⟨bytes "Content-Disposition", disposition p.1⟩],
        ⟨rest, false, rtot + ((partHead p.1).length + 4)⟩) := by
  have hlen : (partHead p.1 ++ [13]).length ≤ 1022 := by
    have hshort := h.name_short
    rw [partHead, List.length_append, List.length_append, List.length_singleton,
      show (bytes "Content-Disposition: ").length = 21 from rfl]
    omega
  have hblank : (10 : Byte) ∉ ([13] : List Byte) := by decide
  have hsrc : partHead p.1 ++ bytes "\r\n\r\n" ++ rest =
      (partHead p.1 ++ [13]) ++ 10 :: ([13] ++ 10 :: rest) := by
    simp [bytes]
  have hhead : partHead p.1 = 67 :: (bytes "ontent-Disposition: " ++ disposition p.1) := rfl
  have hstrip := stripNl_partHead h
  have hprocess := headerProcessLine_partHead h
  rw [hhead] at hstrip hprocess
  rw [hsrc, headerLoad, headerMaxFieldCount, headerLoop,
    uGetline_line (partHead_line h).1 _ _ _ hlen]
  rw [hhead]
  simp only [hstrip, Bool.true_eq_false, if_false]
  rw [if_neg (by decide), headerLoop, uGetline_line hblank _ _ _ (by decide)]
  have hstrip₂ : stripNl [13] = [] := by decide
  have hfold : headerProcessLine (headerProcessLine [] [])
    (67 :: (bytes "ontent-Disposition: " ++ disposition p.1)) =
      [⟨bytes "Content-Disposition", disposition p.1⟩] := hprocess
  simp only [hstrip₂, Bool.true_eq_false, if_false, hfold]
  simp [add_assoc]

theorem parseContentDisposition_part :
    parseContentDisposition [⟨bytes "Content-Disposition", disposition p.1⟩] = some (p.1, []) := by
  have hvalue : headerGetFieldValue [⟨bytes "Content-Disposition", disposition p.1⟩]
    (bytes "Content-Disposition") =
      some (disposition p.1) := by
    have hsame : strcasecmpEq (bytes "Content-Disposition") (bytes "Content-Disposition") = true :=
      strcasecmpEq_self _
    simp [headerGetFieldValue, headerGetField, hsame]
  have hform : (bytes "form-data").isPrefixOf (disposition p.1) = true := by
    rw [List.isPrefixOf_iff_prefix]
    exact ⟨bytes "; name=" ++ quotedString p.1, rfl⟩
  have hname : ∀ c ∈ bytes " name=\"" ++ (p.1 ++ [34]), (c == 59) = false := by
    intro c hc
    have hlit : ∀ c ∈ bytes " name=\"", (c == 59) = false := eq_false_of_any rfl
    rcases List.mem_append.mp hc with hc | hc
    · exact hlit c hc
    · rcases List.mem_append.mp hc with hc | hc
      · simpa using (h.name_plain c hc).2.1
      · rw [List.mem_singleton.mp hc]
        decide
  have htoks : strtok (· == 59) (disposition p.1) =
      [bytes "form-data", bytes " name=\"" ++ (p.1 ++ [34])] := by
    have hlit : ∀ c ∈ bytes "form-data", (c == 59) = false := eq_false_of_any rfl
    have hcut : disposition p.1 =
        bytes "form-data" ++ 59 :: (bytes " name=\"" ++ (p.1 ++ [34])) := by
      rw [disposition_plain h]
      rfl
    rw [hcut, strtok_append (by decide) hlit (by decide), strtok_token (by simp [bytes]) hname]
  have hunquote : unquote (34 :: (p.1 ++ [34])) = p.1 := by
    simp [unquote, isQuote]
  have htok : contentDispositionToken ([], []) (bytes " name=\"" ++ (p.1 ++ [34])) = (p.1, []) := by
    have hdrop : (bytes " name=\"" ++ (p.1 ++ [34])).dropWhile isspace =
      bytes "name=" ++ 34 :: (p.1 ++ [34]) := rfl
    have hno : (bytes "form-data").isPrefixOf (bytes "name=" ++ 34 :: (p.1 ++ [34])) = false := rfl
    have hyes : (bytes "name=").isPrefixOf (bytes "name=" ++ 34 :: (p.1 ++ [34])) = true := by
      rw [List.isPrefixOf_iff_prefix]
      exact List.prefix_append _ _
    have htake : p.1.take (PRMSZ - 1) = p.1 := by
      have hlen := name_length h
      exact List.take_of_length_le (by rw [PRMSZ]; omega)
    rw [contentDispositionToken, hdrop]
    simp only [hno, hyes, Bool.false_eq_true, if_false, if_true, List.drop_left, hunquote,
      strlcpy, htake]
  rw [parseContentDisposition, hvalue]
  simp only [if_neg (not_le.mpr h.name_short), hform, if_true, htoks, List.foldl_cons,
    List.foldl_nil]
  have hfirst : contentDispositionToken ([], []) (bytes "form-data") = ([], []) := by decide
  rw [hfirst, htok]

end

/-! ## Reading a field up to the next boundary -/

section
variable {a : Byte} {d : Str} (ha : a ∉ d) {size : ℕ} (hsize : (a :: d).length + 1 ≤ size)
include ha hsize

/-- The loop over a part ends behind the delimiter with the bytes before it. -/
theorem partLoop_run (zeroTerm : Bool) {accepts : ℕ → Bool} {s value rest : List Byte} (rtot : ℕ)
    (buf data : List Byte) (split : Bool) (hfirst : FirstAt (a :: d) s value rest)
    (haccepts : ∀ k, k ≤ data.length + value.length → accepts k = true) {fuel : ℕ}
    (hfuel : s.length < fuel) :
    ∃ t, run (partBody (a :: d) size zeroTerm accepts) fuel ⟨⟨s, false, rtot⟩, buf, data, split⟩ =
    some (true, t) ∧
      t.data = data ++ value ∧ ∃ n, t.src = ⟨rest, false, n⟩ := by
  induction fuel generalizing s value rtot buf data split with
  | zero => omega
  | succ fuel ih =>
    obtain ⟨k, sc, hcall, hk, hdst, hsrc, hreturns⟩ := readUntil_returns ha s rtot hsize
    have hlen : sc.dst.length = k := by rw [hdst, List.length_take, Nat.min_eq_left hk]
    cases hreturns with
    | delimited pre hpre hfirst' hfound =>
      obtain ⟨rfl, hrest⟩ := hfirst.unique hfirst' (List.cons_ne_nil a d)
      have hpos := congrArg List.length hpre
      rw [List.length_append, List.length_take, Nat.min_eq_left hk] at hpos
      obtain ⟨k, rfl⟩ : ∃ j, k = j + 1 := ⟨k - 1, by rw [List.length_cons] at hpos; omega⟩
      have hpart : partRead ⟨s, false, rtot⟩ (a :: d) size =
          ⟨some value.length, true, sc.dst, sc.src⟩ := by
        simp only [partRead, hcall, hfound, if_true]
        rw [if_neg (by omega), show k + 1 - (a :: d).length = value.length by omega]
      have htake : sc.dst.take value.length = value := by rw [hdst, ← hpre, List.take_left]
      have hok : accepts (data.length + value.length) = true := haccepts _ le_rfl
      refine ⟨_, run_leave (by simp only [partBody, hpart, hok, Bool.true_eq_false, if_false, if_true]; rfl) fuel,
        ?_, ?_⟩
      · simp [htake]
      · exact ⟨rtot + (k + 1), by rw [hsrc, hrest]⟩
    | between hpos hno habsent hfound =>
      obtain ⟨k, rfl⟩ : ∃ j, k = j + 1 := ⟨k - 1, by omega⟩
      have hpart : partRead ⟨s, false, rtot⟩ (a :: d) size =
          ⟨some (k + 1), false, sc.dst, sc.src⟩ := by
        simp [partRead, hcall, hfound]
      have hcut : s.take (k + 1) ++ s.drop (k + 1) = s := List.take_append_drop _ _
      rw [← hcut] at hfirst
      obtain ⟨value', rfl, hfirst'⟩ := hfirst.past (List.cons_ne_nil a d) hno habsent
      have htake : sc.dst.take (k + 1) = s.take (k + 1) := by rw [hdst, List.take_take, min_self]
      have hlen' : (s.take (k + 1)).length = k + 1 := by rw [List.length_take, Nat.min_eq_left hk]
      rw [List.length_append, hlen'] at haccepts
      have hok : accepts (data.length + (k + 1)) = true := haccepts _ (by omega)
      have hbody : partBody (a :: d) size zeroTerm accepts ⟨⟨s, false, rtot⟩, buf, data, split⟩ =
          some (.again ⟨sc.src, store buf sc.dst, data ++ s.take (k + 1), true⟩) := by
        simp [partBody, hpart, hok, htake]
      obtain ⟨t, ht, hdata, hend⟩ :=
        ih (rtot + (k + 1)) (store buf sc.dst) (data ++ s.take (k + 1)) true hfirst'
        (by rw [List.length_append, hlen']; exact fun j hj => haccepts j (by omega))
          (by rw [List.length_drop]; omega)
      refine ⟨t, ?_, by rw [hdata, List.append_assoc], hend⟩
      rw [run_again hbody, hsrc]
      exact ht
    | ended hend habsent hfound => exact absurd hfirst.occurs habsent

end

theorem fieldPart_parsed (rq : Request) {b : Str} (hb : (13 : Byte) ∉ b)
    (hshort : b.length + 4 < BOUNDARY_BUFSZ) (name : Str) {value : List Byte}
    (habsent : ¬ nlBoundary b <:+: value) (hlimit : value.length ≤ rq.postMaxsize)
    (rest : List Byte) (rtot : ℕ) (buf : List Byte) :
    ∃ n buf', fieldPart rq name ⟨value ++ nlBoundary b ++ rest, false, rtot⟩ (nlBoundary b) buf =
      afterPart { rq with
          args := rq.args ++ [⟨name, value⟩], argsPost := rq.argsPost ++ [⟨name, value⟩] }
        ⟨rest, false, n⟩ buf' := by
  have ha := nlBoundary_unique hb
  have hsize : (nlBoundary b).length + 1 ≤ BUFSZ := by
    rw [nlBoundary, List.length_append, show (bytes "\r\n--").length = 4 from rfl, BUFSZ]
    rw [BOUNDARY_BUFSZ] at hshort
    omega
  have hfirst : FirstAt (nlBoundary b) (value ++ nlBoundary b ++ rest) value rest :=
    firstAt_append ha habsent
  have haccepts : ∀ k, k ≤ ([] : List Byte).length + value.length →
      (fun trb => decide (trb ≤ rq.postMaxsize)) k = true := by
    intro k hk
    rw [List.length_nil, zero_add] at hk
    exact decide_eq_true (hk.trans hlimit)
  obtain ⟨t, ht, hdata, n, hend⟩ :=
    partLoop_run ha hsize true rtot buf [] false hfirst haccepts (Nat.lt_succ_self _)
  have hloop : partLoop (nlBoundary b) BUFSZ true (fun trb => decide (trb ≤ rq.postMaxsize))
      ⟨value ++ nlBoundary b ++ rest, false, rtot⟩ buf = (true, t) := by
    rw [partLoop]
    exact congrArg (fun r => Option.getD r _) ht
  refine ⟨n, t.buf, ?_⟩
  rw [fieldPart, requestReadUntilBoundary, hloop]
  simp only [if_true, hdata, hend, List.nil_append]

/-! ## Parsing the multipart form -/

def addField (rq : Request) (p : Str × Str) : Request :=
  { rq with args := rq.args ++ [fieldVar p], argsPost := rq.argsPost ++ [fieldVar p] }

/-- A part and what follows it, up to the end of the body. -/
def partsFrom (b : Str) (p : Str × Str) (pairs : List (Str × Str)) : List Byte :=
  partHead p.1 ++ bytes "\r\n\r\n" ++ (p.2 ++ nlBoundary b ++ multipartTail b pairs)

theorem multipartTail_cons (b : Str) (p : Str × Str) (pairs : List (Str × Str)) :
    multipartTail b (p :: pairs) = bytes "\r\n" ++ partsFrom b p pairs := by
  simp [multipartTail, partsFrom]

theorem part_parsed {rq : Request} {b : Str} {p : Str × Str} (hb : (13 : Byte) ∉ b)
    (hshort : b.length + 4 < BOUNDARY_BUFSZ) (h : Carried b p)
    (hlimit : p.2.length ≤ rq.postMaxsize) (pairs : List (Str × Str)) (rtot : ℕ) (tmp : TmpFile)
    (buf : List Byte) :
    ∃ n buf', requestParseMultipartChunk rq ⟨partsFrom b p pairs, false, rtot⟩
    (nlBoundary b) tmp buf =
      afterPart (addField rq p) ⟨multipartTail b pairs, false, n⟩ buf' := by
  have hmixed : isMultipartMixed [⟨bytes "Content-Disposition", disposition p.1⟩] = false := by
    have hother : strcasecmpEq (bytes "Content-Disposition") (bytes "Content-Type") = false := rfl
    simp [isMultipartMixed, matchContentType, headerGetFieldValue, headerGetField, hother]
  have hencoded : isEncoded [⟨bytes "Content-Disposition", disposition p.1⟩] = false := by
    have hother : strcasecmpEq (bytes "Content-Disposition") (bytes "Content-Transfer-Encoding") =
      false := rfl
    simp [isEncoded, headerGetFieldValue, headerGetField, hother]
  obtain ⟨n, buf', hfield⟩ :=
    fieldPart_parsed rq hb hshort p.1 h.value_free hlimit (multipartTail b pairs)
    (rtot + ((partHead p.1).length + 4)) buf
  refine ⟨n, buf', ?_⟩
  rw [requestParseMultipartChunk, partsFrom, headerLoad_part h]
  simp only [hmixed, hencoded, Bool.false_eq_true, if_false, parseContentDisposition_part h, ne_eq,
    not_true_eq_false]
  exact hfield

theorem afterPart_next (rq : Request) (b : Str) (p : Str × Str) (pairs : List (Str × Str)) (n : ℕ)
    (buf : List Byte) :
    ∃ buf', afterPart rq ⟨multipartTail b (p :: pairs), false, n⟩ buf =
      ⟨true, false, rq, ⟨partsFrom b p pairs, false, n + 2⟩, buf'⟩ := by
  have hread : ioRead ⟨13 :: 10 :: partsFrom b p pairs, false, n⟩ 2 =
      ⟨some 2, [13, 10], ⟨partsFrom b p pairs, false, n + 2⟩⟩ := by simp [ioRead, Source.skip]
  have hne : (store buf [13, 10]).take 2 ≠ bytes "--" := by simp [store, bytes]
  refine ⟨store buf [13, 10], ?_⟩
  rw [multipartTail_cons, show bytes "\r\n" ++ partsFrom b p pairs =
    13 :: 10 :: partsFrom b p pairs from rfl, afterPart,
    hread]
  simp only [if_neg hne]

theorem afterPart_last (rq : Request) (b : Str) (n : ℕ) (buf : List Byte) :
    ∃ src buf', afterPart rq ⟨multipartTail b [], false, n⟩ buf = ⟨true, true, rq, src, buf'⟩ := by
  have hread : ioRead ⟨bytes "--\r\n", false, n⟩ 2 = ⟨some 2, bytes "--", ⟨bytes "\r\n", false, n + 2⟩⟩ := rfl
  have hyes : (store buf (bytes "--")).take 2 = bytes "--" := by simp [store, bytes]
  rw [multipartTail, afterPart, hread]
  simp only [if_pos hyes]
  exact ⟨_, _, rfl⟩

/-- The parts of a form add its fields, in order. -/
theorem parts_run {b : Str} (hb : (13 : Byte) ∉ b) (hshort : b.length + 4 < BOUNDARY_BUFSZ)
    (tmp : ℕ → TmpFile) {pairs : List (Str × Str)} {p : Str × Str} {rq : Request}
    (hpairs : ∀ q ∈ p :: pairs, Carried b q ∧ q.2.length ≤ rq.postMaxsize) (k rtot : ℕ) {fuel : ℕ}
    (hfuel : pairs.length < fuel) :
    ∃ rq' src, run (partsBody (nlBoundary b) tmp) fuel ⟨k, rq, ⟨partsFrom b p pairs, false, rtot⟩⟩ =
        some (true, rq', src) ∧ rq'.args = rq.args ++ (p :: pairs).map fieldVar ∧
      rq'.argsPost = rq.argsPost ++ (p :: pairs).map fieldVar := by
  induction pairs generalizing p rq k rtot fuel with
  | nil =>
    obtain ⟨fuel, rfl⟩ : ∃ j, fuel = j + 1 := ⟨fuel - 1, by omega⟩
    obtain ⟨hp, hlimit⟩ := hpairs p List.mem_cons_self
    obtain ⟨n, buf, hchunk⟩ := part_parsed hb hshort hp hlimit [] rtot (tmp k) stackBuf
    obtain ⟨src, buf', hafter⟩ := afterPart_last (addField rq p) b n buf
    refine ⟨addField rq p, src, run_leave ?_ fuel, rfl, rfl⟩
    rw [partsBody, hchunk, hafter]
    simp
  | cons q pairs ih =>
    obtain ⟨fuel, rfl⟩ : ∃ j, fuel = j + 1 := ⟨fuel - 1, by omega⟩
    obtain ⟨hp, hlimit⟩ := hpairs p List.mem_cons_self
    obtain ⟨n, buf, hchunk⟩ := part_parsed hb hshort hp hlimit (q :: pairs) rtot (tmp k) stackBuf
    obtain ⟨buf', hafter⟩ := afterPart_next (addField rq p) b q pairs n buf
    have hbody : partsBody (nlBoundary b) tmp ⟨k, rq, ⟨partsFrom b p (q :: pairs), false, rtot⟩⟩ =
        some (.again ⟨k + 1, addField rq p, ⟨partsFrom b q pairs, false, n + 2⟩⟩) := by
      rw [partsBody, hchunk, hafter]
      simp
    rw [List.length_cons] at hfuel
    have hrest : ∀ r ∈ q :: pairs, Carried b r ∧ r.2.length ≤ (addField rq p).postMaxsize :=
      fun r hr => hpairs r (List.mem_cons_of_mem p hr)
    obtain ⟨rq', src, hrun, hargs, hpost⟩ :=
      ih hrest (k + 1) (n + 2) (by omega : pairs.length < fuel)
    refine ⟨rq', src, by rw [run_again hbody, hrun], ?_, ?_⟩
    · rw [hargs]
      simp [addField]
    · rw [hpost]
      simp [addField]

/-- The line of the first boundary is found at once. -/
theorem skipPreamble_found {b x : Str} (hb : (10 : Byte) ∉ b) (hx : (10 : Byte) ∉ x)
    (hlen : b.length + x.length + 4 ≤ LINE_BUFSZ) (rest : List Byte) (rtot : ℕ) :
    ∃ n, skipPreamble (bytes "--" ++ b) ⟨bytes "--" ++ b ++ x ++ 10 :: rest, false, rtot⟩ =
      (true, ⟨rest, false, n⟩) := by
  have hline : (10 : Byte) ∉ bytes "--" ++ b ++ x := by
    have hlit : (10 : Byte) ∉ bytes "--" := by decide
    simp [hlit, hb, hx]
  have hsize : (bytes "--" ++ b ++ x).length + 2 ≤ LINE_BUFSZ := by
    rw [List.length_append, List.length_append, show (bytes "--").length = 2 from rfl]
    omega
  have hbegins : (bytes "--" ++ b).isPrefixOf (bytes "--" ++ b ++ x ++ [10]) = true := by
    rw [List.isPrefixOf_iff_prefix, List.append_assoc (bytes "--" ++ b)]
    exact List.prefix_append _ _
  refine ⟨rtot + ((bytes "--" ++ b ++ x).length + 1), ?_⟩
  have hbody : preambleBody (bytes "--" ++ b) ⟨bytes "--" ++ b ++ x ++ 10 :: rest, false, rtot⟩ =
      some (.leave (true, ⟨rest, false, rtot + ((bytes "--" ++ b ++ x).length + 1)⟩)) := by
    rw [preambleBody, ioGets_line hline rest false rtot hsize]
    simp only [hbegins, if_true]
  rw [skipPreamble, run_leave hbody]
  rfl

/-- Without a part the parser finds no header. -/
theorem parseParts_none (b : Str) (tmp : ℕ → TmpFile) (rq : Request) (n : ℕ) :
    (parseParts b tmp rq ⟨[], false, n⟩).2.1 = rq := by
  have hline : ioGets ⟨[], false, n⟩ 1024 = ⟨some 0, [], ⟨[], false, n⟩⟩ := rfl
  have hload : headerLoad ⟨[], false, n⟩ = (some [], ⟨[], false, n⟩) := by
    rw [headerLoad, headerMaxFieldCount, headerLoop, uGetline]
    simp [getlineLoop, hline, headerProcessLine]
  have hchunk : requestParseMultipartChunk rq ⟨[], false, n⟩ b (tmp 0) stackBuf =
      ⟨false, false, rq, ⟨[], false, n⟩, stackBuf⟩ := by
    rw [requestParseMultipartChunk, hload]
    rfl
  have hbody : partsBody b tmp ⟨0, rq, ⟨[], false, n⟩⟩ =
      some (.leave (false, rq, ⟨[], false, n⟩)) := by
    rw [partsBody, hchunk]
    rfl
  rw [parseParts, run_leave hbody]
  rfl

theorem value_length_le (b : Str) {pairs : List (Str × Str)} {p : Str × Str} (hp : p ∈ pairs) :
    p.2.length ≤ (multipartBody b pairs).length := by
  have htail : p.2.length ≤ (multipartTail b pairs).length := by
    induction pairs with
    | nil => exact absurd hp List.not_mem_nil
    | cons q pairs ih =>
      simp only [multipartTail, List.length_append]
      rcases List.mem_cons.mp hp with rfl | hp
      · omega
      · have hle := ih hp
        omega
  rw [multipartBody, List.length_append]
  omega

theorem parts_length_le (b : Str) (p : Str × Str) (pairs : List (Str × Str)) :
    pairs.length ≤ (partsFrom b p pairs).length := by
  have htail : pairs.length ≤ (multipartTail b pairs).length := by
    induction pairs with
    | nil => exact Nat.zero_le _
    | cons q pairs ih =>
      simp only [multipartTail, List.length_append, List.length_cons,
        show (bytes "\r\n").length = 2 from rfl]
      omega
  simp only [partsFrom, List.length_append]
  omega

theorem multipartData_parsed (rq : Request) {b : Str} {pairs : List (Str × Str)}
    (hfield : requestGetFieldparam rq.header (bytes "Content-Type") (bytes "boundary")
      (BOUNDARY_BUFSZ - 2) = some b)
    (hshort : b.length + 4 < BOUNDARY_BUFSZ)
    (hlimit : (multipartBody b pairs).length ≤ rq.postMaxsize) (hpairs : ∀ p ∈ pairs, Carried b p)
    (rtot : ℕ) (tmp : ℕ → TmpFile) :
    (requestParseMultipartData rq ⟨multipartBody b pairs, false, rtot⟩ tmp).2.1.args =
    rq.args ++ pairs.map fieldVar ∧
      (requestParseMultipartData rq ⟨multipartBody b pairs, false, rtot⟩ tmp).2.1.argsPost =
        rq.argsPost ++ pairs.map fieldVar := by
  have hclean := boundary_clean hfield
  have hcr : (13 : Byte) ∉ b := fun hm => absurd (hclean 13 hm) (by decide)
  have hlf : (10 : Byte) ∉ b := fun hm => absurd (hclean 10 hm) (by decide)
  rw [BOUNDARY_BUFSZ] at hshort
  have hroom : ¬ BOUNDARY_BUFSZ ≤ (bytes "\r\n" ++ (bytes "--" ++ b)).length := by
    rw [List.length_append, List.length_append, show (bytes "--").length = 2 from rfl,
      show (bytes "\r\n").length = 2 from rfl, BOUNDARY_BUFSZ]
    omega
  have hnl : bytes "\r\n" ++ (bytes "--" ++ b) = nlBoundary b := rfl
  rw [requestParseMultipartData, hfield]
  cases pairs with
  | nil =>
    have hbody : multipartBody b [] = bytes "--" ++ b ++ bytes "--\r" ++ 10 :: [] := by
      simp [multipartBody, multipartTail, bytes]
    have hlen : b.length + (bytes "--\r").length + 4 ≤ LINE_BUFSZ := by
      rw [show (bytes "--\r").length = 3 from rfl, LINE_BUFSZ]
      omega
    obtain ⟨n, hskip⟩ := skipPreamble_found hlf (by decide) hlen [] rtot
    simp only [hbody, hskip, Bool.true_eq_false, if_false, hroom, parseParts_none]
    simp
  | cons p pairs =>
    have hbody : multipartBody b (p :: pairs) =
        bytes "--" ++ b ++ bytes "\r" ++ 10 :: partsFrom b p pairs := by
      simp [multipartBody, multipartTail_cons, bytes]
    have hlen : b.length + (bytes "\r").length + 4 ≤ LINE_BUFSZ := by
      rw [show (bytes "\r").length = 1 from rfl, LINE_BUFSZ]
      omega
    obtain ⟨n, hskip⟩ := skipPreamble_found hlf (by decide) hlen (partsFrom b p pairs) rtot
    have hvalues : ∀ q ∈ p :: pairs, Carried b q ∧ q.2.length ≤ rq.postMaxsize :=
      fun q hq => ⟨hpairs q hq, (value_length_le b hq).trans hlimit⟩
    obtain ⟨rq', src, hrun, hargs, hpost⟩ :=
      parts_run hcr (by rw [BOUNDARY_BUFSZ]; exact hshort) tmp hvalues 0 n
      (Nat.lt_succ_of_le (parts_length_le b p pairs))
    have hparse : parseParts (nlBoundary b) tmp rq ⟨partsFrom b p pairs, false, n⟩ =
        (true, rq', src) := by
      rw [parseParts, hrun]
      rfl
    have hroom : ¬ BOUNDARY_BUFSZ ≤ (nlBoundary b).length := hroom
    simp only [hbody, hskip, Bool.true_eq_false, if_false, hnl, hroom, hparse]
    exact ⟨hargs, hpost⟩

theorem multipart_parsed {rq : Request} {b : Str} {pairs : List (Str × Str)}
    (h : MultipartPost rq b pairs) (hpairs : ∀ p ∈ pairs, Carried b p) (rtot : ℕ)
    (tmp : ℕ → TmpFile) :
    (requestParseData .post rq ⟨multipartBody b pairs, false, rtot⟩ tmp).rq.args =
        rq.args ++ queryArgs rq ++ pairs.map fieldVar ∧
      (requestParseData .post rq ⟨multipartBody b pairs, false, rtot⟩ tmp).rq.argsPost =
        rq.argsPost ++ pairs.map fieldVar := by
  have hq := requestParseQueryArgs_eq rq
  have hlimit := h.limit
  have hpos : (multipartBody b pairs).length ≠ 0 := by
    rw [multipartBody, List.length_append, List.length_append, show (bytes "--").length = 2 from rfl]
    omega
  rw [requestParseData, hq, if_neg (by simp)]
  simp only [requestSetContentLength, h.length, Option.map_some]
  rw [if_neg hpos, if_neg (not_lt.mpr hlimit)]
  split
  next =>
    exact multipartData_parsed { rq with
      args := rq.args ++ queryArgs rq, argsGet := rq.argsGet ++ queryArgs rq
      contentLength := (multipartBody b pairs).length, bodyOff := rtot }
      h.boundary h.short hlimit hpairs rtot tmp
  next hno => exact absurd h.multipart hno

def SameVariables (rq₁ rq₂ : Request) (b : Str) (pairs : List (Str × Str)) (rtot₁ rtot₂ : ℕ)
    (tmp₁ tmp₂ : ℕ → TmpFile) : Prop :=
  let r₁ := requestParseData .post rq₁ ⟨urlBody pairs, false, rtot₁⟩ tmp₁
  let r₂ := requestParseData .post rq₂ ⟨multipartBody b pairs, false, rtot₂⟩ tmp₂
  r₁.rq.args.map varText = r₂.rq.args.map varText ∧
  r₁.rq.argsPost.map varText = r₂.rq.argsPost.map varText

/-- A form whose fields both parsers can carry leaves the same variables, urlencoded or in
multipart format. -/
theorem forms_agree {rq₁ rq₂ : Request} {b : Str} {pairs : List (Str × Str)}
    (hquery : rq₁.query = rq₂.query) (hargs : rq₁.args = rq₂.args)
    (hpost : rq₁.argsPost = rq₂.argsPost) (h₁ : UrlencodedPost rq₁ pairs)
    (h₂ : MultipartPost rq₂ b pairs) (hpairs : ∀ p ∈ pairs, Carried b p) (rtot₁ rtot₂ : ℕ)
    (tmp₁ tmp₂ : ℕ → TmpFile) :
    SameVariables rq₁ rq₂ b pairs rtot₁ rtot₂ tmp₁ tmp₂ := by
  obtain ⟨hurl, hurlPost⟩ := urlencoded_parsed h₁ hpairs rtot₁ tmp₁
  obtain ⟨hmulti, hmultiPost⟩ := multipart_parsed h₂ hpairs rtot₂ tmp₂
  have hvars : queryArgs rq₁ = queryArgs rq₂ := by rw [queryArgs, queryArgs, hquery]
  refine ⟨?_, ?_⟩
  · rw [hurl, hmulti, hargs, hvars]
  · rw [hurlPost, hmultiPost, hpost]

def urlencodedRequest (clen : String) : Request :=
  { Request.zero with
    header := [⟨bytes "Content-Length", bytes clen⟩,
      ⟨bytes "Content-Type", bytes "application/x-www-form-urlencoded"⟩]
    postMaxsize := 5120000 }

def multipartRequest (clen : String) : Request :=
  { Request.zero with
    header := [⟨bytes "Content-Length", bytes clen⟩,
      ⟨bytes "Content-Type", bytes "multipart/form-data; boundary=b"⟩]
    postMaxsize := 5120000 }

def noTmpFile (_ : ℕ) : TmpFile := ⟨none, fun _ => true, true⟩

/-- Two fields, one with a blank in its name and a separator in its value. -/
def samplePairs : List (Str × Str) := [(bytes "a", bytes "1"), (bytes "b c", bytes "2&3")]

theorem samplePairs_carried : ∀ p ∈ samplePairs, Carried (bytes "b") p := by
  intro p hp
  rcases List.mem_cons.mp hp with rfl | hp
  · exact ⟨⟨by decide, by decide +kernel, by decide +kernel, by decide +kernel⟩, by decide, by decide +kernel,
      by decide +kernel⟩
  · obtain rfl := List.mem_singleton.mp hp
    exact ⟨⟨by decide, by decide +kernel, by decide +kernel, by decide +kernel⟩, by decide, by decide +kernel,
      by decide +kernel⟩

theorem contentType_second (clen ctype : Str) :
    headerGetFieldValue [⟨bytes "Content-Length", clen⟩, ⟨bytes "Content-Type", ctype⟩]
    (bytes "Content-Type") = some ctype := by
  have hlength : strcasecmpEq (bytes "Content-Length") (bytes "Content-Type") = false := rfl
  have htype := strcasecmpEq_self (bytes "Content-Type")
  simp [headerGetFieldValue, headerGetField, hlength, htype]

theorem urlencodedRequest_body {clen : String} {body : Str}
    (hlen : contentLengthOf (urlencodedRequest clen).header = some body.length)
    (hlimit : body.length ≤ 5120000) :
    UrlencodedBody (urlencodedRequest clen) body := by
  refine ⟨?_, ?_, hlen, hlimit⟩
  · have hother : startsWithCase (bytes "application/x-www-form-urlencoded")
      (bytes "multipart/form-data") = false := rfl
    simp only [requestIsMultipartFormdata, urlencodedRequest, matchContentType,
      contentType_second, hother]
  · have hsame : startsWithCase (bytes "application/x-www-form-urlencoded")
      (bytes "application/x-www-form-urlencoded") =
        true := rfl
    simp only [requestIsUrlencoded, urlencodedRequest, matchContentType, contentType_second, hsame,
      Bool.or_true]

theorem urlencodedRequest_post {clen : String} {pairs : List (Str × Str)}
    (hlen : contentLengthOf (urlencodedRequest clen).header = some (urlBody pairs).length)
    (hlimit : (urlBody pairs).length ≤ 5120000) :
    UrlencodedPost (urlencodedRequest clen) pairs := by
  obtain ⟨hsingle, hurl, -, -⟩ := urlencodedRequest_body hlen hlimit
  exact ⟨hsingle, hurl, hlen, hlimit⟩

theorem multipartRequest_post {clen : String} {pairs : List (Str × Str)}
    (hlen : contentLengthOf (multipartRequest clen).header =
      some (multipartBody (bytes "b") pairs).length)
    (hlimit : (multipartBody (bytes "b") pairs).length ≤ 5120000) :
    MultipartPost (multipartRequest clen) (bytes "b") pairs := by
  have hstarts : startsWithCase (bytes "multipart/form-data; boundary=b")
    (bytes "multipart/form-data") = true := rfl
  have hfound : uStristr (bytes "multipart/form-data; boundary=b") (bytes "boundary") =
    some (bytes "boundary=b") := rfl
  refine ⟨?_, ?_, by decide, hlen, hlimit⟩
  · simp only [requestIsMultipartFormdata, multipartRequest, matchContentType,
      contentType_second, hstarts]
  · simp only [requestGetFieldparam, multipartRequest, contentType_second, hfound]
    rfl

theorem forms_agree_two :
    SameVariables (urlencodedRequest "13") (multipartRequest "115")
    (bytes "b") samplePairs 0 0 noTmpFile noTmpFile :=
  have h₁ : UrlencodedPost (urlencodedRequest "13") samplePairs :=
    urlencodedRequest_post (by decide +kernel) (by decide +kernel)
  have h₂ : MultipartPost (multipartRequest "115") (bytes "b") samplePairs :=
    multipartRequest_post (by decide +kernel) (by decide +kernel)
  have hquery : (urlencodedRequest "13").query = (multipartRequest "115").query := rfl
  have hargs : (urlencodedRequest "13").args = (multipartRequest "115").args := rfl
  have hpost : (urlencodedRequest "13").argsPost = (multipartRequest "115").argsPost := rfl
  forms_agree hquery hargs hpost h₁ h₂ samplePairs_carried 0 0 noTmpFile noTmpFile

/-- A form with one field, posted in both ways, that leaves different variables. -/
def Differs (p : Str × Str) (clen₁ clen₂ : String) : Prop :=
  FormField (bytes "b") p ∧ UrlencodedPost (urlencodedRequest clen₁) [p] ∧
    MultipartPost (multipartRequest clen₂) (bytes "b") [p] ∧
    ¬ SameVariables (urlencodedRequest clen₁) (multipartRequest clen₂) (bytes "b")
      [p] 0 0 noTmpFile noTmpFile

theorem differs_of {p : Str × Str} {clen₁ clen₂ : String} (hfield : FormField (bytes "b") p)
    (h₁ : contentLengthOf (urlencodedRequest clen₁).header = some (urlBody [p]).length)
    (h₂ : contentLengthOf (multipartRequest clen₂).header =
      some (multipartBody (bytes "b") [p]).length)
    (hlimit₁ : (urlBody [p]).length ≤ 5120000)
    (hlimit₂ : (multipartBody (bytes "b") [p]).length ≤ 5120000)
    (hargs : ¬ (requestParseData .post (urlencodedRequest clen₁) ⟨urlBody [p], false,
      0⟩ noTmpFile).rq.args.map varText =
        (requestParseData .post (multipartRequest clen₂) ⟨multipartBody (bytes "b") [p], false,
          0⟩ noTmpFile).rq.args.map varText) :
    Differs p clen₁ clen₂ :=
  ⟨hfield, urlencodedRequest_post h₁ hlimit₁, multipartRequest_post h₂ hlimit₂, fun h => hargs h.1⟩

/-- A name that takes the `Content-Disposition` field to its limit, and further an empty
value, a semicolon and a quotation mark in the name. -/
theorem forms_differ :
    Differs (List.replicate 494 97, bytes "x") "496" "552" ∧ Differs (bytes "a", []) "2" "58" ∧
    Differs (bytes "a;b", bytes "x") "7" "61" ∧ Differs (bytes "a\"b", bytes "x") "7" "62" := by
  refine ⟨?_, ?_, ?_, ?_⟩
  · refine differs_of ⟨by decide, ?_, by decide +kernel, by decide +kernel⟩ (by decide +kernel)
      (by decide +kernel) (by decide +kernel)
      (by decide +kernel) (by decide +kernel)
    intro c hc
    obtain rfl := List.eq_of_mem_replicate hc
    decide
  · exact differs_of ⟨by decide, by decide +kernel, by decide +kernel, by decide +kernel⟩
      (by decide +kernel) (by decide +kernel)
      (by decide +kernel) (by decide +kernel) (by decide +kernel)
  · exact differs_of ⟨by decide, by decide +kernel, by decide +kernel, by decide +kernel⟩
      (by decide +kernel) (by decide +kernel)
      (by decide +kernel) (by decide +kernel) (by decide +kernel)
  · exact differs_of ⟨by decide, by decide +kernel, by decide +kernel, by decide +kernel⟩
      (by decide +kernel) (by decide +kernel)
      (by decide +kernel) (by decide +kernel) (by decide +kernel)

end Klone.Multipart
