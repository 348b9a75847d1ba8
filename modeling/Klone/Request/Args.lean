import Klone.Request.Encodings
import Klone.Utils.UrlncpyLoop

/-! # The arguments of a request

The three lists of variables of a request, as a function of the tokens of its query string
and of its urlencoded body.
-/
namespace Klone.Multipart
open Loop Page Http

/-- Every percent sign is followed by two hexadecimal digits. -/
def validEscapes (s : Str) : Bool := s.tails.all fun
  | 37 :: rest => digitsFollow rest
  | _ => true

/-- The text with its escapes replaced by their bytes, and blanks for plus signs. -/
def decoded : Str → List Byte
  | 37 :: a :: b :: rest => (htoi a <<< 4 ||| htoi b) :: decoded rest
  | c :: rest => (if c = 43 then 32 else c) :: decoded rest
  | [] => []

def namePart (tok : Str) : Str := tok.takeWhile (· ≠ 61)
def valuePart (tok : Str) : Str := (tok.dropWhile (· ≠ 61)).drop 1

/-- The argument that a token stands for, if there is one. -/
def argOf (tok : Str) : Option Var :=
  if 61 ∈ tok ∧ namePart tok ≠ [] ∧ validEscapes (namePart tok) ∧ validEscapes (valuePart tok) then
    some ⟨cstr (decoded (namePart tok)), if valuePart tok = [] then [0]
      else decoded (valuePart tok)⟩
  else none

def argsOf (text : Str) : List Var := (strtok (· == 38) text).filterMap argOf

/-! ## One token -/

theorem validEscapes_iff {s : Str} : validEscapes s = true ↔ ¬ BadEscape s := by
  unfold validEscapes BadEscape
  rw [List.all_eq_true]
  constructor
  · rintro h ⟨rest, hs, hbad⟩
    have hrest : digitsFollow rest = true := h _ ((List.mem_tails _ _).mpr hs)
    rw [hbad] at hrest
    cases hrest
  · intro h t ht
    split
    · next rest =>
      by_contra hbad
      exact h ⟨rest, (List.mem_tails _ _).mp ht, Bool.eq_false_of_not_eq_true hbad⟩
    · rfl

theorem decoded_cons {c : Byte} (h : c ≠ 37) (rest : Str) :
    decoded (c :: rest) = (if c = 43 then 32 else c) :: decoded rest := by
  rw [decoded]
  rintro a b r rfl rfl
  exact h rfl

/-- The decoder accepts the texts whose escapes are valid. -/
theorem uUrlncpyDecode_eq (s : Str) :
    uUrlncpyDecode s = if validEscapes s then some (decoded s) else none := by
  cases hv : validEscapes s with
  | false =>
    rw [if_neg Bool.false_ne_true]
    by_contra hne
    have hno : ¬ BadEscape s := fun hbad => hne (badEscape_iff.mp hbad)
    rw [validEscapes_iff.mpr hno] at hv
    cases hv
  | true =>
    rw [if_pos rfl]
    obtain ⟨w, hw⟩ : ∃ w, uUrlncpyDecode s = some w := by
      by_contra hnone
      have hd : uUrlncpyDecode s = none :=
        Option.eq_none_iff_forall_ne_some.mpr (not_exists.mp hnone)
      exact validEscapes_iff.mp hv (badEscape_iff.mpr hd)
    rw [hw]
    refine congrArg some (decode_induction (P := fun t w => w = decoded t) rfl ?_ ?_ hw)
    · rintro a b rest w rfl
      rw [decoded]
    · rintro c rest w hc rfl
      rw [decoded_cons hc]

theorem decoded_eq_nil {s : Str} : decoded s = [] ↔ s = [] := by
  constructor
  · intro h
    unfold decoded at h
    split at h
    · cases h
    · cases h
    · rfl
  · rintro rfl
    rfl

theorem urlValue_eq (val : Str) :
    urlValue val = if validEscapes val then some (if val = [] then [0] else decoded val)
    else none := by
  by_cases hnil : val = []
  · subst hnil
    rfl
  · unfold urlValue
    rw [if_neg hnil, uUrlncpyDecode_eq]
    cases hv : validEscapes val with
    | false => rfl
    | true =>
      rw [if_pos rfl, if_pos rfl, if_neg hnil]
      obtain ⟨c, w, hw⟩ := List.exists_cons_of_ne_nil fun h => hnil (decoded_eq_nil.mp h)
      rw [hw]

theorem urlNamed_eq (nam val : Str) :
    urlNamed nam val = if nam ≠ [] ∧ validEscapes nam ∧ validEscapes val then
      some ⟨cstr (decoded nam), if val = [] then [0] else decoded val⟩ else none := by
  unfold urlNamed
  rw [uUrlncpyDecode_eq, urlValue_eq]
  by_cases hnil : nam = []
  · subst hnil
    rfl
  · obtain ⟨c, w, hw⟩ := List.exists_cons_of_ne_nil fun h => hnil (decoded_eq_nil.mp h)
    cases hn : validEscapes nam with
    | false => simp
    | true =>
      cases hv : validEscapes val with
      | false => simp [hw]
      | true => simp [hw, hnil, varBinCreate]

/-- A token gives the argument that it stands for, and otherwise none. -/
theorem urlVar_eq_argOf {tok : Str} (h : (0 : Byte) ∉ tok) : urlVar tok = argOf tok := by
  rw [urlVar, cstr_of_not_mem h, List.span_eq_takeWhile_dropWhile, argOf]
  cases hd : tok.dropWhile (fun c => decide (c ≠ 61)) with
  | nil =>
    have hno : (61 : Byte) ∉ tok := dropWhile_ne_eq_nil.mp hd
    rw [if_neg fun hc => hno hc.1]
  | cons c val =>
    have hm : (61 : Byte) ∈ tok := by
      by_contra hno
      rw [dropWhile_ne_eq_nil.mpr hno] at hd
      cases hd
    have hval : valuePart tok = val := by
      rw [valuePart, hd]
      rfl
    rw [hval, ← namePart]
    dsimp only
    rw [urlNamed_eq]
    simp [hm]

theorem filterMap_urlVar {text : Str} (h : (0 : Byte) ∉ text) :
    (strtok (· == 38) text).filterMap urlVar = argsOf text := by
  refine List.filterMap_congr fun tok ht => urlVar_eq_argOf fun h0 => h ?_
  exact ((mem_strtok ht).2 0 h0).2

/-! ## A whole request -/

structure Fresh (rq : Request) : Prop where
  args : rq.args = []
  argsGet : rq.argsGet = []
  argsPost : rq.argsPost = []

def queryText (rq : Request) : Str := cstr (rq.query.getD [])

theorem cstr_noNul (s : List Byte) : (0 : Byte) ∉ cstr s := by
  intro h
  have hp := List.mem_takeWhile_imp h
  simp at hp

theorem queryArgs_eq (rq : Request) : queryArgs rq = argsOf (queryText rq) := by
  unfold queryArgs queryText
  cases rq.query with
  | none => rfl
  | some query => exact filterMap_urlVar (cstr_noNul query)

/-- Names and values that can be carried: names without a NUL byte, and neither of them empty. -/
def Sendable (pairs : List (Str × List Byte)) : Prop :=
  ∀ p ∈ pairs, p.1 ≠ [] ∧ (0 : Byte) ∉ p.1 ∧ p.2 ≠ []

/-- Pairs that are joined come back from the text. -/
theorem argsOf_urlBody {pairs : List (Str × List Byte)} (h : Sendable pairs) :
    argsOf (urlBody pairs) = pairs.map fieldVar := by
  have hzero := zero_not_mem_urlBody pairs
  have hvars := queryVars_urlBody fun p hp => urlVar_urlPair (h p hp).1 (h p hp).2.1 (h p hp).2.2
  rwa [queryVars, cstr_of_not_mem hzero, filterMap_urlVar hzero] at hvars

/-- After parsing, the arguments are those that the tokens of the query string and of the body
stand for, in order; encoded pairs in either place come back as they were. -/
theorem args_parsed {rq : Request} {body : Str} (hrq : Fresh rq) (h : UrlencodedBody rq body)
    (hbody : (0 : Byte) ∉ body) (rest : Str) (fails : Bool) (rtot : ℕ) (tmp : ℕ → TmpFile) :
    let r := requestParseData .post rq ⟨body ++ rest, fails, rtot⟩ tmp
    r.rc = 0 ∧ r.rq.argsGet = argsOf (queryText rq) ∧ r.rq.argsPost = argsOf body ∧
      r.rq.args = r.rq.argsGet ++ r.rq.argsPost ∧
      ∀ pairs, Sendable pairs →
      (rq.query = some (urlBody pairs) → r.rq.argsGet = pairs.map fieldVar) ∧
        (body = urlBody pairs → r.rq.argsPost = pairs.map fieldVar) := by
  obtain ⟨hrc, hargs, hget, hpost⟩ := urlencodedBody_parsed h rest fails rtot tmp
  rw [queryVars, cstr_of_not_mem hbody, filterMap_urlVar hbody] at hargs hpost
  rw [hrq.args, List.nil_append, queryArgs_eq] at hargs
  rw [hrq.argsGet, List.nil_append, queryArgs_eq] at hget
  rw [hrq.argsPost, List.nil_append] at hpost
  refine ⟨hrc, hget, hpost, ?_, ?_⟩
  · rw [hargs, hget, hpost]
  · intro pairs hpairs
    refine ⟨?_, ?_⟩
    · intro hq
      rw [hget, queryText, hq, Option.getD_some, cstr_of_not_mem (zero_not_mem_urlBody pairs),
        argsOf_urlBody hpairs]
    · intro hb
      rw [hpost, hb, argsOf_urlBody hpairs]

/-- A query string and a body with tokens of all kinds. -/
theorem args_parsed_mixed :
    let rq := { urlencodedRequest "13" with query := some (bytes "a=1&&b&=c") }
    let r := requestParseData .post rq ⟨bytes "d=%41+&e=%4&f" ++ bytes "more", false, 0⟩ noTmpFile
    r.rc = 0 ∧ r.rq.argsGet = argsOf (queryText rq) ∧
    r.rq.argsPost = argsOf (bytes "d=%41+&e=%4&f") ∧
      r.rq.args = r.rq.argsGet ++ r.rq.argsPost ∧
      ∀ pairs, Sendable pairs →
      (rq.query = some (urlBody pairs) → r.rq.argsGet = pairs.map fieldVar) ∧
        (bytes "d=%41+&e=%4&f" = urlBody pairs → r.rq.argsPost = pairs.map fieldVar) := by
  have h : UrlencodedBody (urlencodedRequest "13") (bytes "d=%41+&e=%4&f") :=
    urlencodedRequest_body (by decide +kernel) (by decide)
  have hquery : UrlencodedBody { urlencodedRequest "13" with
      query := some (bytes "a=1&&b&=c") } (bytes "d=%41+&e=%4&f") :=
    ⟨h.single, h.urlencoded, h.length, h.limit⟩
  exact args_parsed ⟨rfl, rfl, rfl⟩ hquery (by decide) (bytes "more") false 0 noTmpFile

end Klone.Multipart
