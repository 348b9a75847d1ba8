import Klone.Request.Vars

/-! # Cookies of a request

A `Cookie` field is copied to a buffer of fixed size, cut when it is longer, and taken
apart at blanks and semicolons.
-/
namespace Klone
open Http

def COOKIE_FIELD_BUFSZ : ℕ := 4096

def cookieDelim (c : Byte) : Bool := c == 32 || c == 59

def addCookie (cookies : List Var) (tok : Str) : List Var :=
  match varsAddUrlvar cookies tok with
  | none => cookies
  | some r => r.1

def requestParseCookie (cookies : List Var) (value : Str) : List Var :=
  (strtok cookieDelim (strlcpy (cstr value) COOKIE_FIELD_BUFSZ).2).foldl addCookie cookies

def requestParseCookies (h : Header) : List Var :=
  (h.filter fun f => strcasecmpEq f.name (bytes "cookie")).foldl
    (fun cookies f => requestParseCookie cookies f.value) []

def requestGetCookie (cookies : List Var) (name : Str) : Option Str :=
  (varsGet cookies name).bind fun v => if v.value = [] then none else some (cstr v.value)

theorem foldl_addCookie (toks : List Str) (cookies : List Var) :
    toks.foldl addCookie cookies = cookies ++ toks.filterMap urlVar := by
  induction toks generalizing cookies with
  | nil => simp
  | cons tok toks ih =>
    rw [List.foldl_cons, ih, addCookie, varsAddUrlvar]
    cases hu : urlVar tok with
    | none => simp [hu]
    | some v => simp [hu]

/-! ## Tokens of a list of cookies -/

def joinCookies : List Str → Str
  | [] => []
  | [c] => c
  | c :: cs => c ++ 59 :: 32 :: joinCookies cs

/-- The parts of the cookies that are left when the field is cut after `n` bytes. -/
def cutCookies : ℕ → List Str → List Str
  | _, [] => []
  | n, c :: cs => if n = 0 then [] else c.take n :: cutCookies (n - (c.length + 2)) cs

def Undelimited (c : Str) : Prop := c ≠ [] ∧ ∀ b ∈ c, cookieDelim b = false

theorem joinCookies_cons (c : Str) {cs : List Str} (h : cs ≠ []) :
    joinCookies (c :: cs) = c ++ 59 :: 32 :: joinCookies cs := by
  obtain ⟨c', cs, rfl⟩ := List.exists_cons_of_ne_nil h
  rfl

/-- The tokens of a field that has been cut. -/
theorem strtok_cut {cs : List Str} (h : ∀ c ∈ cs, Undelimited c) (n : ℕ) :
    strtok cookieDelim ((joinCookies cs).take n) = cutCookies n cs := by
  induction cs generalizing n with
  | nil => simp [joinCookies, cutCookies, strtok_nil]
  | cons c cs ih =>
    obtain ⟨hne, hc⟩ := h c List.mem_cons_self
    have ih := ih (fun c' hc' => h c' (List.mem_cons_of_mem _ hc'))
    rw [cutCookies]
    by_cases hz : n = 0
    · rw [if_pos hz, hz, List.take_zero, strtok_nil]
    rw [if_neg hz]
    have htoken : n ≤ c.length → strtok cookieDelim (c.take n) = [c.take n] := by
      intro _
      apply strtok_token
      · intro he
        rcases List.take_eq_nil_iff.mp he with he | he
        · exact hz he
        · exact hne he
      · exact fun b hb => hc b (List.mem_of_mem_take hb)
    cases cs with
    | nil =>
      simp only [joinCookies, cutCookies]
      by_cases hle : n ≤ c.length
      · exact htoken hle
      · rw [List.take_of_length_le (by omega)]
        exact strtok_token hne hc
    | cons c' cs =>
      rw [joinCookies_cons c (List.cons_ne_nil c' cs)]
      by_cases hle : n ≤ c.length
      · have hzero : n - (c.length + 2) = 0 := by omega
        rw [List.take_append_of_le_length hle, htoken hle, hzero, cutCookies, if_pos rfl]
      rw [List.take_append, List.take_of_length_le (by omega : c.length ≤ n)]
      by_cases hone : n = c.length + 1
      · have hrest : n - c.length = 1 := by omega
        have hzero : n - (c.length + 2) = 0 := by omega
        rw [hrest, hzero, List.take_succ_cons, List.take_zero, strtok_append hne hc (by rfl),
          strtok_nil, cutCookies,
          if_pos rfl]
      · obtain ⟨k, hk⟩ : ∃ k, n - c.length = k + 2 := ⟨n - c.length - 2, by omega⟩
        have hk' : n - (c.length + 2) = k := by omega
        rw [hk, hk', List.take_succ_cons, List.take_succ_cons, strtok_append hne hc (by rfl),
          strtok_delim (by rfl), ih]

/-- The bytes that cookies take in a field, each with a delimiter. -/
def cookiesLength (cs : List Str) : ℕ := (cs.map fun c => c.length + 2).sum

/-- Cookies before the cut are whole. -/
theorem cutCookies_whole {cs : List Str} (h : ∀ c ∈ cs, Undelimited c) (after : List Str) {n : ℕ}
    (hn : cookiesLength cs ≤ n + 2) : ∃ more, cutCookies n (cs ++ after) = cs ++ more := by
  induction cs generalizing n with
  | nil => exact ⟨_, rfl⟩
  | cons c cs ih =>
    have hpos := List.length_pos_iff.mpr (h c List.mem_cons_self).1
    simp only [cookiesLength, List.map_cons, List.sum_cons] at hn
    rw [List.cons_append, cutCookies, if_neg (by omega), List.take_of_length_le (by omega)]
    cases cs with
    | nil => exact ⟨_, rfl⟩
    | cons c' cs =>
      obtain ⟨more, hmore⟩ := ih (fun d hd => h d (List.mem_cons_of_mem _ hd))
        (n := n - (c.length + 2)) (by
        simp only [cookiesLength, List.map_cons, List.sum_cons] at hn ⊢
        omega)
      exact ⟨more, by rw [hmore]; rfl⟩

def cookieName (c : Str) : Option Str := (uUrlncpyDecode (c.takeWhile (· ≠ 61))).map cstr

/-- A part of a cookie that has a name and a value has the name of the cookie, and a
value that is no longer than its text. -/
theorem urlVar_take {c : Str} (hzero : (0 : Byte) ∉ c) {k : ℕ} {v : Var}
    (h : urlVar (c.take k) = some v) :
    cookieName c = some v.name ∧
    (cstr v.value).length + (c.takeWhile (· ≠ 61)).length + 1 ≤ (c.take k).length := by
  obtain ⟨nam, val, hs, hnam, hnamed⟩ := urlVar_some (fun hm => hzero (List.mem_of_mem_take hm)) h
  obtain ⟨name, hname, hcstr, hvalue⟩ := urlNamed_some hnamed
  have hwhile : c.takeWhile (· ≠ 61) = nam := by
    rw [← List.take_append_drop k c, hs, List.append_assoc, List.cons_append,
      List.takeWhile_append_of_pos]
    · simp
    · exact all_ne_iff.mpr hnam
  refine ⟨by rw [cookieName, hwhile, hname, Option.map_some, hcstr], ?_⟩
  have hle : (cstr v.value).length ≤ val.length := by
    rcases urlValue_some hvalue with ⟨-, hz⟩ | hd
    · rw [hz]
      exact Nat.zero_le _
    · exact (cstr_begins _).length_le.trans (decode_length_le hd)
  rw [hwhile, hs, List.length_append, List.length_cons]
  omega

/-- When the cut is inside `c`, only parts of `c` can have its name. -/
theorem cutCookies_inside {name : Str} {before : List Str} (hzero : ∀ b ∈ before, (0 : Byte) ∉ b)
    (hname : ∀ b ∈ before, ∀ s, cookieName b = some s → strcasecmpEq s name = false) {c : Str}
    {after : List Str} {n : ℕ} (hn : cookiesLength before + c.length > n) {tok : Str}
    (htok : tok ∈ cutCookies n (before ++ c :: after)) {v : Var} (hv : urlVar tok = some v)
    (hvn : strcasecmpEq v.name name = true) : ∃ k < c.length, tok = c.take k := by
  induction before generalizing n with
  | nil =>
    simp only [cookiesLength, List.map_nil, List.sum_nil, Nat.zero_add] at hn
    have hcut : n - (c.length + 2) = 0 := by omega
    have hnil : cutCookies 0 after = [] := by cases after <;> rfl
    rw [List.nil_append, cutCookies, hcut, hnil] at htok
    split at htok
    · cases htok
    · exact ⟨n, hn, List.mem_singleton.mp htok⟩
  | cons b before ih =>
    rw [List.cons_append, cutCookies] at htok
    split at htok
    · cases htok
    rcases List.mem_cons.mp htok with rfl | htok
    · have hb := (urlVar_take (hzero b List.mem_cons_self) hv).1
      rw [hname b List.mem_cons_self _ hb] at hvn
      cases hvn
    · simp only [cookiesLength, List.map_cons, List.sum_cons] at hn
      by_cases hlt : b.length + 2 ≤ n
      · refine ih (fun b' hb' => hzero b' (List.mem_cons_of_mem _ hb'))
          (fun b' hb' => hname b' (List.mem_cons_of_mem _ hb'))
          ?_ htok
        simp only [cookiesLength]
        omega
      · have hcut : n - (b.length + 2) = 0 := by omega
        rw [hcut] at htok
        have hnil : ∀ cs, cutCookies 0 cs = [] := by
          intro cs
          cases cs <;> rfl
        rw [hnil] at htok
        cases htok

/-- The first cookie with a name is the one that is returned. -/
theorem requestGetCookie_first {name value : Str} {before after : List Str}
    (hzero : ∀ b ∈ before, (0 : Byte) ∉ b)
    (hname : ∀ b ∈ before, ∀ s, cookieName b = some s → strcasecmpEq s name = false) {c : Str}
    (hc : urlVar c = some ⟨name, value⟩) (hvalue : value ≠ []) (hvzero : (0 : Byte) ∉ value) :
    requestGetCookie ((before ++ c :: after).filterMap urlVar) name = some value := by
  have hnone : ∀ v ∈ before.filterMap urlVar, ¬ strcasecmpEq v.name name = true := by
    intro v hv
    obtain ⟨b, hb, hu⟩ := List.mem_filterMap.mp hv
    have htake : urlVar (b.take b.length) = some v := by rwa [List.take_length]
    rw [hname b hb _ (urlVar_take (hzero b hb) htake).1]
    exact Bool.false_ne_true
  have hsame : strcasecmpEq name name = true := by simp [strcasecmpEq]
  rw [requestGetCookie, varsGet, List.filterMap_append, List.find?_append,
    List.find?_eq_none.mpr hnone, Option.none_or,
    List.filterMap_cons_some hc, List.find?_cons_of_pos (by exact hsame)]
  simp [hvalue, cstr_of_not_mem hvzero]

end Klone
