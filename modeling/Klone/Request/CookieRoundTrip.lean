import Klone.Response.Cookie
import Klone.Request.Cookie
import Klone.Utils.UrlncpyLoop

/-! # Cookies that come back

What `response_set_cookie` makes of a name and a value, read by `request_parse_cookies`
in a request whose `Cookie` field has that text anywhere in the part of it that is read.
-/
namespace Klone
open Http Page

def tokenChar (c : Byte) : Bool :=
  isalnum c || [33, 35, 36, 37, 38, 39, 42, 43, 45, 46, 94, 95, 96, 124, 126].contains c

structure Token (name : Str) : Prop where
  ne : name ≠ []
  chars : ∀ c ∈ name, tokenChar c = true

/-- The text has the cookie between delimiters, before the end of the buffer that the
field is copied to. -/
def Carries (part text : Str) : Prop :=
  ∃ pre post, text = pre ++ part ++ post ∧
    (pre = [] ∨ ∃ s d, pre = s ++ [d] ∧ cookieDelim d = true) ∧
    (post = [] ∨ ∃ d s, post = d :: s ∧ cookieDelim d = true) ∧ (0 : Byte) ∉ pre ∧
      (pre ++ part).length < COOKIE_FIELD_BUFSZ

/-- A cookie with this name and this value, as the page sees them. -/
def HasVar (cookies : List Var) (name value : Str) : Prop :=
  ∃ v ∈ cookies, v.name = name ∧ cstr v.value = value

/-- `name=value` of the text of a field, without the attributes. -/
def cookiePart (text : Str) : Str := text.takeWhile (· ≠ 59)

/-- Every request that carries what was produced has the cookie. -/
def ComesBack (name value produced : Str) : Prop :=
  ∀ h : Header, (∃ f ∈ h, strcasecmpEq f.name (bytes "cookie") = true ∧
    Carries (cookiePart produced) f.value) →
    HasVar (requestParseCookies h) name value

/-- The whole text of the field; `none` when the date has no text. -/
def encodedForm (date : ℤ → Option Str) (c : Cookie) (value : Str) : Option Str :=
  (cookieAttributes date c).map fun attrs => c.name ++ 61 :: uUrlncpyEncode value ++ attrs.flatten

def FitsBuffer (date : ℤ → Option Str) (c : Cookie) (value : Str) : Prop :=
  ∃ t, encodedForm date c value = some t ∧ t.length < COOKIE_BUFSZ

/-- A text that has to be printed is too long for the size that is passed with it. -/
def Refused (s : Str) (attrs : List Str) : Prop :=
  ∃ pre t post, attrs = pre ++ t :: post ∧
    min (sizeBehind (s ++ pre.flatten).length) (2 ^ 31) ≤ t.length

/-- A call that succeeds stays inside its buffer and the cookie comes back; a call for a
cookie that fits succeeds. -/
structure CookieKept (date : ℤ → Option Str) (c : Cookie) (value : Str) : Prop where
  inside : ∀ f, (responseSetCookie date c).field = some f →
    (responseSetCookie date c).mem.length ≤ COOKIE_BUFSZ
  back : ∀ f, (responseSetCookie date c).field = some f → ComesBack c.name value f.value
  succeeds : FitsBuffer date c value → (responseSetCookie date c).field.isSome = true

/-! ## The field that is set -/

variable {date : ℤ → Option Str} {c : Cookie} {value : Str}

theorem refused_nil (s : Str) : ¬ Refused s [] := by
  rintro ⟨pre, t, post, h, -⟩
  cases pre <;> cases h

theorem refused_cons {s t : Str} {attrs : List Str} :
    Refused s (t :: attrs) ↔ min (sizeBehind s.length) (2 ^ 31) ≤ t.length ∨
    Refused (s ++ t) attrs := by
  constructor
  · rintro ⟨pre, t', post, h, hlong⟩
    cases pre with
    | nil =>
      obtain ⟨rfl, rfl⟩ := List.cons.inj h
      rw [List.flatten_nil, List.append_nil] at hlong
      exact Or.inl hlong
    | cons t'' pre =>
      obtain ⟨rfl, rfl⟩ := List.cons.inj h
      rw [List.flatten_cons, ← List.append_assoc] at hlong
      exact Or.inr ⟨pre, t', post, rfl, hlong⟩
  · rintro (hlong | ⟨pre, t', post, rfl, hlong⟩)
    · refine ⟨[], t, attrs, rfl, ?_⟩
      rwa [List.flatten_nil, List.append_nil]
    · refine ⟨t :: pre, t', post, rfl, ?_⟩
      rwa [List.flatten_cons, ← List.append_assoc]

/-- What fits the buffer is printed. -/
theorem not_refused_of_fits {attrs : List Str} {s : Str}
    (h : (s ++ attrs.flatten).length < COOKIE_BUFSZ) :
    ¬ Refused s attrs := by
  rintro ⟨pre, t, post, rfl, hlong⟩
  simp only [List.flatten_append, List.flatten_cons, List.length_append] at h hlong
  rw [sizeBehind_inside (by omega)] at hlong
  omega

/-- Printing behind a text fails at the first part that is too long. -/
theorem printedBehind_iff {attrs : List Str} {s u : Str} :
    attrs.foldlM printfBehind s = some u ↔ u = s ++ attrs.flatten ∧ ¬ Refused s attrs := by
  induction attrs generalizing s with
  | nil => simp [eq_comm, refused_nil]
  | cons t attrs ih =>
    rw [List.foldlM_cons, printfBehind, refused_cons, not_or, Nat.not_le]
    by_cases h : t.length < min (sizeBehind s.length) (2 ^ 31)
    · rw [if_pos h, Option.bind_eq_bind, Option.bind_some, ih, List.flatten_cons, List.append_assoc,
        and_iff_right h]
    · rw [if_neg h, Option.bind_eq_bind, Option.bind_none]
      refine iff_of_false (fun hnone => by cases hnone) fun hall => h hall.2.1

theorem responseSetCookie_cases (date : ℤ → Option Str) (c : Cookie) :
    (responseSetCookie date c).field = none ∨ ∃ u, responseSetCookie date c = cookieField u := by
  unfold responseSetCookie
  dsimp only
  split
  · split
    · exact Or.inl rfl
    · next u _ => exact Or.inr ⟨u, rfl⟩
  · split
    · exact Or.inl rfl
    · split
      · exact Or.inl rfl
      · split
        · exact Or.inl rfl
        · next u _ => exact Or.inr ⟨u, rfl⟩

/-- When the call succeeds, and with which text. -/
theorem responseSetCookie_iff (hval : c.value = some value) {u : Str} :
    responseSetCookie date c = cookieField u ↔ c.name.length + 1 < COOKIE_BUFSZ ∧ value ≠ [] ∧
      ∃ attrs, cookieAttributes date c = some attrs ∧
      u = c.name ++ 61 :: uUrlncpyEncode value ++ attrs.flatten ∧
        ¬ Refused (c.name ++ 61 :: uUrlncpyEncode value) attrs := by
  simp only [responseSetCookie, hval]
  by_cases hname : c.name.length + 1 < COOKIE_BUFSZ
  · have hprint : printfBehind [] (c.name ++ [61]) = some (c.name ++ [61]) := by
      rw [printfBehind_nil, if_pos]
      simpa using hname
    simp only [hprint, hname, true_and]
    by_cases hv : value = []
    · simp [hv, cookieField]
    have htext : c.name ++ [61] ++ uUrlncpyEncode value =
      c.name ++ 61 :: uUrlncpyEncode value := by simp
    simp only [hv, if_false, ne_eq, not_false_eq_true, true_and, htext]
    cases ha : cookieAttributes date c with
    | none => simp [cookieField]
    | some attrs =>
      simp only [Option.bind_some, Option.some.injEq, exists_eq_left']
      rw [← printedBehind_iff]
      cases hp : attrs.foldlM printfBehind (c.name ++ 61 :: uUrlncpyEncode value) with
      | none => simp [cookieField]
      | some w =>
        constructor
        · intro h
          have hfield : (cookieField w).field = (cookieField u).field := congrArg CookieSet.field h
          simpa [cookieField] using hfield
        · rintro h
          rw [Option.some.inj h]
  · have hprint : printfBehind [] (c.name ++ [61]) = none := by
      rw [printfBehind_nil, if_neg]
      simpa using hname
    simp [hprint, hname, cookieField]

/-- The attributes begin with the delimiter. -/
theorem cookieAttributes_delim {attrs : List Str} (h : cookieAttributes date c = some attrs) :
    attrs.flatten = [] ∨ ∃ s, attrs.flatten = 59 :: s := by
  unfold cookieAttributes at h
  obtain ⟨expires, hexp, rfl⟩ := Option.map_eq_some_iff.mp h
  have hexpires : expires = [] ∨ ∃ t, expires = [bytes "; expires=" ++ t] := by
    split at hexp
    · exact Or.inl (Option.some.inj hexp).symm
    · obtain ⟨t, -, rfl⟩ := Option.map_eq_some_iff.mp hexp
      exact Or.inr ⟨t, rfl⟩
  rcases hexpires with rfl | ⟨t, rfl⟩
  · cases c.path with
    | none =>
      cases c.domain with
      | none =>
        cases c.secure with
        | false => exact Or.inl rfl
        | true => exact Or.inr ⟨_, rfl⟩
      | some t => exact Or.inr ⟨_, rfl⟩
    | some t => exact Or.inr ⟨_, rfl⟩
  · exact Or.inr ⟨_, rfl⟩

/-! ## The name and the value -/

theorem tokenChar_special {c : Byte} (h : tokenChar c = true) :
    c ≠ 0 ∧ c ≠ 61 ∧ c ≠ 59 ∧ c ≠ 32 := by
  refine ⟨?_, ?_, ?_, ?_⟩ <;>
  · rintro rfl
    revert h
    decide

theorem Token.not_mem {name : Str} (h : Token name) :
    (0 : Byte) ∉ name ∧ (61 : Byte) ∉ name ∧ (59 : Byte) ∉ name :=
  ⟨fun hm => (tokenChar_special (h.chars _ hm)).1 rfl,
    fun hm => (tokenChar_special (h.chars _ hm)).2.1 rfl,
    fun hm => (tokenChar_special (h.chars _ hm)).2.2.1 rfl⟩

theorem encode_not_mem (value : Str) {b : Byte} (hb : urlChar b = false) :
    b ∉ uUrlncpyEncode value :=
  not_mem_of_urlChar (fun _ h => mem_uUrlncpyEncode h) hb

/-- The text of a cookie is one token for the parser. -/
theorem Token.undelimited {name : Str} (h : Token name) (value : Str) :
    Undelimited (name ++ 61 :: uUrlncpyEncode value) := by
  refine ⟨by simp, ?_⟩
  intro b hb
  have hne : b ≠ 32 ∧ b ≠ 59 := by
    rcases List.mem_append.mp hb with hb | hb
    · exact ⟨(tokenChar_special (h.chars b hb)).2.2.2, (tokenChar_special (h.chars b hb)).2.2.1⟩
    rcases List.mem_cons.mp hb with rfl | hb
    · decide
    · refine ⟨?_, ?_⟩ <;>
      · rintro rfl
        exact encode_not_mem value rfl hb
  simp [cookieDelim, hne]

theorem Token.noNul {name : Str} (h : Token name) (value : Str) :
    (0 : Byte) ∉ name ++ 61 :: uUrlncpyEncode value := by
  simp [h.not_mem.1, encode_not_mem value (rfl : urlChar 0 = false)]

theorem cookiePart_form {name : Str} (h : Token name) (value : Str) {rest : Str}
    (hrest : rest = [] ∨ ∃ s, rest = 59 :: s) :
    cookiePart (name ++ 61 :: uUrlncpyEncode value ++ rest) =
    name ++ 61 :: uUrlncpyEncode value := by
  have hall : ∀ b ∈ name ++ 61 :: uUrlncpyEncode value, decide (b ≠ 59) = true := by
    apply all_ne_iff.mpr
    simp [h.not_mem.2.2, encode_not_mem value (rfl : urlChar 59 = false)]
  rw [cookiePart, List.takeWhile_append_of_pos hall]
  rcases hrest with rfl | ⟨s, rfl⟩
  · simp
  · simp

/-- Without escapes the decoder only puts the blanks back. -/
theorem decode_percentless {s : Str} (h : (37 : Byte) ∉ s) :
    uUrlncpyDecode s = some (s.map fun c => if c = 43 then 32 else c) := by
  induction s with
  | nil => rfl
  | cons c s ih =>
    simp only [List.mem_cons, not_or] at h
    rw [uUrlncpyDecode_cons (Ne.symm h.1), ih h.2]
    rfl

/-- An escape makes the text shorter. -/
theorem decode_shorter {t : Str} {s : List Byte} (h : uUrlncpyDecode t = some s)
    (hm : (37 : Byte) ∈ t) :
    s.length < t.length := by
  have hboth : s.length ≤ t.length ∧ ((37 : Byte) ∈ t → s.length < t.length) := by
    apply decode_induction (P := fun t s => s.length ≤ t.length ∧
      (37 ∈ t → s.length < t.length)) ?_ ?_ ?_ h
    · exact ⟨le_rfl, fun hm => by cases hm⟩
    · intro a b rest s ih
      have hle := ih.1
      simp only [List.length_cons]
      exact ⟨by omega, fun _ => by omega⟩
    · intro c rest s hc ih
      refine ⟨Nat.succ_le_succ ih.1, fun hm => ?_⟩
      rcases List.mem_cons.mp hm with he | hm
      · exact absurd he.symm hc
      · exact Nat.succ_lt_succ (ih.2 hm)
  exact hboth.2 hm

/-- Names are not encoded, and those without escapes and blanks are read as they are. -/
theorem decode_name_iff {name : Str} (hzero : (0 : Byte) ∉ name) :
    (uUrlncpyDecode name).map cstr = some name ↔ (43 : Byte) ∉ name ∧ (37 : Byte) ∉ name := by
  constructor
  · intro h
    obtain ⟨s, hs, hc⟩ := Option.map_eq_some_iff.mp h
    have hle : name.length ≤ s.length := by
      rw [← hc]
      exact (cstr_begins s).length_le
    have hpercent : (37 : Byte) ∉ name := fun hm => absurd (decode_shorter hs hm) (by omega)
    refine ⟨?_, hpercent⟩
    rw [decode_percentless hpercent, Option.some.injEq] at hs
    have hwhole : s = name := by
      rw [← hc]
      apply ((cstr_begins s).eq_of_length ?_).symm
      rw [hc, ← hs, List.length_map]
    rw [← hwhole, ← hs]
    intro hm
    obtain ⟨c, -, hc⟩ := List.mem_map.mp hm
    split at hc
    · cases hc
    · next hne => exact hne hc
  · rintro ⟨hplus, hpercent⟩
    have hsame : (name.map fun c => if c = 43 then 32 else c) = name := by
      nth_rewrite 2 [← List.map_id name]
      apply List.map_congr_left
      rintro c hc
      rw [if_neg, id]
      rintro rfl
      exact hplus hc
    rw [decode_percentless hpercent, hsame, Option.map_some, cstr_of_not_mem hzero]

/-- The variable of a cookie that has been set. -/
theorem urlVar_cookie {name : Str} (h : Token name) {value : Str} (hvalue : value ≠ [])
    (hzero : (0 : Byte) ∉ value) :
    (∃ v, urlVar (name ++ 61 :: uUrlncpyEncode value) = some v ∧ v.name = name ∧
      cstr v.value = value) ↔
      (43 : Byte) ∉ name ∧ (37 : Byte) ∉ name := by
  have hval : urlValue (uUrlncpyEncode value) = some value := by
    have hne : uUrlncpyEncode value ≠ [] := fun he => hvalue (uUrlncpyEncode_eq_nil.mp he)
    rw [urlValue, if_neg hne, uUrlncpyDecode_encode]
    cases value with
    | nil => exact absurd rfl hvalue
    | cons b value => rfl
  rw [urlVar_named (h.noNul value) h.not_mem.2.1, ← decode_name_iff h.not_mem.1]
  constructor
  · rintro ⟨v, hv, hname, -⟩
    obtain ⟨s, hs, hcstr, -⟩ := urlNamed_some hv
    rw [hs, Option.map_some, ← hcstr, hname]
  · intro hname
    obtain ⟨s, hs, hc⟩ := Option.map_eq_some_iff.mp hname
    have hne : s ≠ [] := by
      rintro rfl
      exact h.ne hc.symm
    refine ⟨⟨name, value⟩, ?_, rfl, cstr_of_not_mem hzero⟩
    cases s with
    | nil => exact absurd rfl hne
    | cons b s => simp [urlNamed, hs, hval, varBinCreate, hc]

/-! ## The field that is read -/

/-- A token between delimiters is delivered. -/
theorem mem_strtok {p : Byte → Bool} {part pre post : Str} (hne : part ≠ [])
    (hpart : ∀ b ∈ part, p b = false) (hpre : pre = [] ∨ ∃ s d, pre = s ++ [d] ∧ p d = true)
    (hpost : post = [] ∨ ∃ d s, post = d :: s ∧ p d = true) :
    part ∈ strtok p (pre ++ part ++ post) := by
  have htail : part ∈ strtok p (part ++ post) := by
    rcases hpost with rfl | ⟨d, s, rfl, hd⟩
    · rw [List.append_nil, strtok_token hne hpart]
      exact List.mem_singleton_self part
    · rw [strtok_append hne hpart hd]
      exact List.mem_cons_self
  rcases hpre with rfl | ⟨s, d, rfl, hd⟩
  · exact htail
  · rw [List.append_assoc, List.append_assoc, List.singleton_append, strtok_split s _ hd]
    exact List.mem_append_right _ htail

/-- What is read of the field still has the cookie. -/
theorem Carries.read {part text : Str} (h : Carries part text) (hpart : Undelimited part)
    (hzero : (0 : Byte) ∉ part) :
    part ∈ strtok cookieDelim (strlcpy (cstr text) COOKIE_FIELD_BUFSZ).2 := by
  obtain ⟨pre, post, rfl, hpre, hpost, hprezero, hlen⟩ := h
  have hbefore : (0 : Byte) ∉ pre ++ part := by simp [hprezero, hzero]
  have hcstr : cstr (pre ++ part ++ post) = pre ++ part ++ cstr post :=
    List.takeWhile_append_of_pos (all_ne_iff.mpr hbefore)
  have hcut : (strlcpy (cstr (pre ++ part ++ post)) COOKIE_FIELD_BUFSZ).2 =
      pre ++ part ++ (cstr post).take (COOKIE_FIELD_BUFSZ - 1 - (pre ++ part).length) := by
    rw [hcstr, strlcpy, List.take_append, List.take_of_length_le (by omega)]
  rw [hcut]
  apply mem_strtok hpart.1 hpart.2 hpre
  rcases hpost with rfl | ⟨d, s, rfl, hd⟩
  · exact Or.inl (by simp [cstr])
  · have hd0 : d ≠ 0 := by
      rintro rfl
      cases hd
    have hs : cstr (d :: s) = d :: cstr s := List.takeWhile_cons_of_pos (by simpa using hd0)
    rw [hs]
    cases COOKIE_FIELD_BUFSZ - 1 - (pre ++ part).length with
    | zero => exact Or.inl rfl
    | succ k => exact Or.inr ⟨d, _, rfl, hd⟩

theorem foldl_requestParseCookie (fs : List Field) (cookies : List Var) :
    fs.foldl (fun cookies f => requestParseCookie cookies f.value) cookies =
    cookies ++ fs.flatMap fun f =>
      (strtok cookieDelim (strlcpy (cstr f.value) COOKIE_FIELD_BUFSZ).2).filterMap urlVar := by
  induction fs generalizing cookies with
  | nil => simp
  | cons f fs ih => rw [List.foldl_cons, ih, requestParseCookie, foldl_addCookie, List.flatMap_cons,
    List.append_assoc]

/-- The cookies of a request are the variables of the tokens of its fields. -/
theorem mem_requestParseCookies {h : Header} {v : Var} :
    v ∈ requestParseCookies h ↔ ∃ f ∈ h, strcasecmpEq f.name (bytes "cookie") = true ∧
      ∃ tok ∈ strtok cookieDelim (strlcpy (cstr f.value) COOKIE_FIELD_BUFSZ).2,
        urlVar tok = some v := by
  rw [requestParseCookies, foldl_requestParseCookie, List.nil_append]
  simp only [List.mem_flatMap, List.mem_filter, List.mem_filterMap, and_assoc]

/-- A cookie that fits comes back exactly when the decoder leaves its name alone. -/
theorem comesBack_iff {name : Str} (h : Token name) (hvalue : value ≠ [])
    (hzero : (0 : Byte) ∉ value) {u : Str}
    (hpart : cookiePart u = name ++ 61 :: uUrlncpyEncode value)
    (hfits : (name ++ 61 :: uUrlncpyEncode value).length < COOKIE_FIELD_BUFSZ) :
    ComesBack name value u ↔ (43 : Byte) ∉ name ∧ (37 : Byte) ∉ name := by
  have hund := h.undelimited value
  have hnul := h.noNul value
  rw [← urlVar_cookie h hvalue hzero]
  unfold ComesBack
  rw [hpart]
  constructor
  · intro hback
    have hcarries : Carries (name ++ 61 :: uUrlncpyEncode value)
        (name ++ 61 :: uUrlncpyEncode value) :=
      ⟨[], [], by simp, Or.inl rfl, Or.inl rfl, List.not_mem_nil, hfits⟩
    obtain ⟨v, hv, hname, hval⟩ :=
      hback [⟨bytes "Cookie", name ++ 61 :: uUrlncpyEncode value⟩]
        ⟨_, List.mem_singleton_self _, rfl, hcarries⟩
    obtain ⟨f, hf, -, tok, htok, hvar⟩ := mem_requestParseCookies.mp hv
    obtain rfl := List.mem_singleton.mp hf
    have htoks : strtok cookieDelim
      (strlcpy (cstr (name ++ 61 :: uUrlncpyEncode value)) COOKIE_FIELD_BUFSZ).2 =
        [name ++ 61 :: uUrlncpyEncode value] := by
      rw [cstr_of_not_mem hnul, strlcpy, List.take_of_length_le (by omega),
        strtok_token hund.1 hund.2]
    rw [htoks, List.mem_singleton] at htok
    rw [htok] at hvar
    exact ⟨v, hvar, hname, hval⟩
  · rintro ⟨v, hvar, hname, hval⟩ hd ⟨f, hf, hcookie, hcarries⟩
    exact ⟨v, mem_requestParseCookies.mpr ⟨f, hf, hcookie, _, hcarries.read hund hnul, hvar⟩,
      hname, hval⟩

theorem le_inCookieBuf (s : Str) : COOKIE_BUFSZ ≤ (inCookieBuf s).length := by
  rw [inCookieBuf, store_length, List.length_replicate]
  exact le_max_left _ _

theorem fitsBuffer_iff : FitsBuffer date c value ↔ ∃ attrs, cookieAttributes date c = some attrs ∧
    (c.name ++ 61 :: uUrlncpyEncode value ++ attrs.flatten).length < COOKIE_BUFSZ := by
  unfold FitsBuffer encodedForm
  constructor
  · rintro ⟨t, ht, hlen⟩
    obtain ⟨attrs, ha, rfl⟩ := Option.map_eq_some_iff.mp ht
    exact ⟨attrs, ha, hlen⟩
  · rintro ⟨attrs, ha, hlen⟩
    exact ⟨_, by rw [ha, Option.map_some], hlen⟩

/-- What is known of a call that has succeeded. -/
theorem set_field (hval : c.value = some value) {f : Field}
    (hf : (responseSetCookie date c).field = some f) :
    c.name.length + 1 < COOKIE_BUFSZ ∧ value ≠ [] ∧
    (responseSetCookie date c).mem = inCookieBuf f.value ∧
      ∃ attrs, cookieAttributes date c = some attrs ∧
      f.value = c.name ++ 61 :: uUrlncpyEncode value ++ attrs.flatten ∧
        ¬ Refused (c.name ++ 61 :: uUrlncpyEncode value) attrs := by
  rcases responseSetCookie_cases date c with hnone | ⟨u, hu⟩
  · rw [hf] at hnone
    cases hnone
  · have huf : f.value = u := by
      rw [hu] at hf
      exact (congrArg Field.value (Option.some.inj hf)).symm
    obtain ⟨hlen, hne, attrs, ha, hform, hroom⟩ := (responseSetCookie_iff hval).mp hu
    rw [huf]
    exact ⟨hlen, hne, congrArg CookieSet.mem hu, attrs, ha, hform, hroom⟩

theorem set_comesBack_iff (hval : c.value = some value) (hname : Token c.name)
    (hzero : (0 : Byte) ∉ value) (hfits : FitsBuffer date c value) {f : Field}
    (hf : (responseSetCookie date c).field = some f) :
    ComesBack c.name value f.value ↔ (43 : Byte) ∉ c.name ∧ (37 : Byte) ∉ c.name := by
  obtain ⟨-, hne, -, attrs, ha, hform, -⟩ := set_field hval hf
  obtain ⟨attrs', ha', hlen⟩ := fitsBuffer_iff.mp hfits
  apply comesBack_iff hname hne hzero
  · rw [hform]
    exact cookiePart_form hname value (cookieAttributes_delim ha)
  · rw [List.length_append] at hlen
    exact lt_of_le_of_lt (Nat.le_add_right _ _) hlen

theorem set_of_fits (hval : c.value = some value) (hne : value ≠ [])
    (hfit : FitsBuffer date c value) :
    (responseSetCookie date c).field.isSome := by
  obtain ⟨attrs, ha, hlen⟩ := fitsBuffer_iff.mp hfit
  have hname : c.name.length + 1 < COOKIE_BUFSZ := by
    simp only [List.length_append, List.length_cons] at hlen
    omega
  have hset := (responseSetCookie_iff hval).mpr
    ⟨hname, hne, attrs, ha, rfl, not_refused_of_fits hlen⟩
  rw [hset]
  rfl

/-- What makes the call for a cookie that does not fit fail. -/
def SetFails (date : ℤ → Option Str) (c : Cookie) (value : Str) : Prop :=
  COOKIE_BUFSZ ≤ c.name.length + 1 ∨ value = [] ∨
    ∀ attrs, cookieAttributes date c = some attrs →
    Refused (c.name ++ 61 :: uUrlncpyEncode value) attrs

theorem not_set_of_fails (hval : c.value = some value) (hfails : SetFails date c value)
    {f : Field} :
    ¬ (responseSetCookie date c).field = some f := by
  intro hf
  obtain ⟨hlen, hne, -, attrs, ha, -, hroom⟩ := set_field hval hf
  rcases hfails with hname | hnil | hrefused
  · omega
  · exact hne hnil
  · exact hroom (hrefused attrs ha)

/-- Otherwise a cookie that does not fit is written past the end of the buffer. -/
theorem fails_of_kept (hval : c.value = some value) (hkept : CookieKept date c value)
    (hlong : ¬ FitsBuffer date c value) :
    SetFails date c value := by
  by_contra hset
  simp only [SetFails, not_or, not_le, not_forall] at hset
  obtain ⟨hname, hne, attrs, ha, hroom⟩ := hset
  have hset := (responseSetCookie_iff hval).mpr ⟨hname, hne, attrs, ha, rfl, hroom⟩
  have hinside := hkept.inside _ (congrArg CookieSet.field hset)
  rw [hset] at hinside
  exact hlong (fitsBuffer_iff.mpr ⟨attrs, ha,
    inCookieBuf_fits.mp (le_antisymm hinside (le_inCookieBuf _))⟩)

/-- A call that succeeds keeps to its buffer and gives a cookie that comes back, and a
cookie that fits is set, exactly under these conditions: where the text of the field fits,
the value is not empty and the name has neither `+` nor `%`; where it does not, the name
alone is too long, the value is empty, the date has no text, or an attribute is too long for
the size that is passed with it. -/
theorem cookie_round_trip_iff (date : ℤ → Option Str) (c : Cookie) (value : Str)
    (hval : c.value = some value) (hname : Token c.name) (hzero : (0 : Byte) ∉ value) :
    CookieKept date c value ↔
      (FitsBuffer date c value → value ≠ [] ∧ (43 : Byte) ∉ c.name ∧ (37 : Byte) ∉ c.name) ∧
        (¬ FitsBuffer date c value → SetFails date c value) := by
  constructor
  · intro hkept
    refine ⟨fun hfits => ?_, fails_of_kept hval hkept⟩
    obtain ⟨f, hf⟩ := Option.isSome_iff_exists.mp (hkept.succeeds hfits)
    exact ⟨(set_field hval hf).2.1,
      (set_comesBack_iff hval hname hzero hfits hf).mp (hkept.back f hf)⟩
  · rintro ⟨hshort, hlong⟩
    have hfits : ∀ {f}, (responseSetCookie date c).field = some f → FitsBuffer date c value := by
      intro f hf
      by_contra hnot
      exact not_set_of_fails hval (hlong hnot) hf
    constructor
    · intro f hf
      obtain ⟨-, -, hmem, attrs, ha, hform, -⟩ := set_field hval hf
      obtain ⟨attrs', ha', hlen⟩ := fitsBuffer_iff.mp (hfits hf)
      rw [ha, Option.some.injEq] at ha'
      rw [hmem, inCookieBuf_fits.mpr]
      rw [hform, ha']
      exact hlen
    · intro f hf
      exact (set_comesBack_iff hval hname hzero (hfits hf) hf).mpr (hshort (hfits hf)).2
    · exact fun hfit => set_of_fits hval (hshort hfit).1 hfit

theorem cookie_round_trip_sid :
    CookieKept (fun _ => none) (.plain (bytes "sid") (some (bytes "a b;c"))) (bytes "a b;c") :=
  (cookie_round_trip_iff (fun _ => none) (.plain (bytes "sid") (some (bytes "a b;c")))
    (bytes "a b;c") rfl
    ⟨by decide, by decide +kernel⟩ (by decide)).mpr
      ⟨fun _ => by decide, fun hlong => absurd (fitsBuffer_iff.mpr ⟨[], rfl, by decide⟩) hlong⟩

/-- A path that is printed behind a long value is passed a size that has wrapped. -/
def overrunCookie : Cookie :=
  ⟨bytes "n", some (List.replicate 4096 97), 0, some (bytes "/p"), none, false⟩

/-- The text of the cookie with the long value. -/
theorem long_text : (bytes "n" ++ 61 :: uUrlncpyEncode (List.replicate 4096 97)).length = 4098 := by
  have hsafe : ∀ b ∈ List.replicate 4096 (97 : Byte), urlSafe b = true := by
    intro b hb
    rw [List.eq_of_mem_replicate hb]
    rfl
  rw [uUrlncpyEncode_safe hsafe, List.length_append, List.length_cons, List.length_replicate]
  rfl

theorem long_not_kept {c : Cookie} (hname : c.name = bytes "n")
    (hval : c.value = some (List.replicate 4096 97)) {attrs : List Str}
    (ha : cookieAttributes date c = some attrs)
    (hroom : ¬ Refused (c.name ++ 61 :: uUrlncpyEncode (List.replicate 4096 97)) attrs) :
    ¬ CookieKept date c (List.replicate 4096 97) := by
  intro hkept
  have hlong : ¬ FitsBuffer date c (List.replicate 4096 97) := by
    intro hfits
    obtain ⟨attrs', -, hlen⟩ := fitsBuffer_iff.mp hfits
    rw [hname, List.length_append, long_text] at hlen
    unfold COOKIE_BUFSZ at hlen
    omega
  rcases fails_of_kept hval hkept hlong with hlen | hnil | hrefused
  · rw [hname] at hlen
    exact absurd hlen (by decide)
  · exact absurd (congrArg List.length hnil) (by rw [List.length_replicate]; decide)
  · exact hroom (hrefused attrs ha)

/-- An empty value is taken for an error of the encoder, a long one is written past the end
of the buffer, with an attribute behind it or without, and a blank comes back for the `+` of
a name. -/
theorem cookie_not_kept :
    ¬ CookieKept (fun _ => none) (.plain (bytes "n") (some [])) [] ∧
      ¬ CookieKept (fun _ => none) (.plain (bytes "n") (some (List.replicate 4096 97)))
        (List.replicate 4096 97) ∧
        ¬ CookieKept (fun _ => none) overrunCookie (List.replicate 4096 97) ∧
          ¬ CookieKept (fun _ => none) (.plain (bytes "a+b") (some (bytes "1"))) (bytes "1") := by
  refine ⟨?_, ?_, ?_, ?_⟩
  · intro hkept
    obtain ⟨f, hf⟩ := Option.isSome_iff_exists.mp
      (hkept.succeeds (fitsBuffer_iff.mpr ⟨[], rfl, by decide⟩))
    exact (set_field rfl hf).2.1 rfl
  · exact long_not_kept rfl rfl rfl (refused_nil _)
  · have ha : cookieAttributes (fun _ => none) overrunCookie = some [bytes "; path=/p"] := rfl
    refine long_not_kept rfl rfl ha ?_
    rw [refused_cons, not_or]
    refine ⟨?_, refused_nil _⟩
    have hlen := long_text
    change ¬ min (sizeBehind (bytes "n" ++ 61 :: uUrlncpyEncode (List.replicate 4096 97)).length)
      (2 ^ 31) ≤ _
    rw [hlen, sizeBehind_overrun (by decide) (by decide)]
    decide
  · intro hkept
    have hfits : FitsBuffer (fun _ => none) (.plain (bytes "a+b") (some (bytes "1"))) (bytes "1") :=
      fitsBuffer_iff.mpr ⟨[], rfl, by decide⟩
    obtain ⟨f, hf⟩ := Option.isSome_iff_exists.mp (hkept.succeeds hfits)
    have hname := (set_comesBack_iff rfl ⟨by decide, by decide +kernel⟩ (by decide) hfits hf).mp
      (hkept.back f hf)
    exact absurd hname.1 (by decide)

end Klone
