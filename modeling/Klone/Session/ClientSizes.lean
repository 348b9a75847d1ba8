import Klone.Session.Client

/-! # The limits for sessions kept by the client

Five buffers and checks limit the data of a session on its way to the client and back:
the check of the save, its buffer for the hexadecimal text, the buffer of a `Set-Cookie`
field, the buffer of a `Cookie` field, and the check and the buffer of the load. Here it
is settled for which sizes they agree.
-/
namespace Klone.Session
open Page

def clientNames : List Str := [KL1_CLISES_IV, KL1_CLISES_DATA, KL1_CLISES_MTIME, KL1_CLISES_HMAC]

structure OtherCookie (c : Str) : Prop where
  undelimited : Undelimited c
  noNul : (0 : Byte) ∉ c
  named : ∀ name ∈ clientNames, ∀ s, cookieName c = some s → strcasecmpEq s name = false

def givenCookies (s : ClientSave) : List Str := s.cookies.filterMap fun c => c.field.map (·.value)

/-- The cookies of a request with all that the client sends in one field. -/
def sentBack (cookies : List Str) : List Var :=
  requestParseCookies [⟨bytes "Cookie", joinCookies cookies⟩]

/-- Nothing is written past the end of a buffer, and what was given to the client comes
back whole and passes the checks of the load. -/
structure SizesAgree (m : Mac) (s : ClientSave) (t : Signed) (buf : List Byte)
    (before after : List Str) : Prop where
  ebuf : s.ebuf.length = EBUF_SIZE
  set : ∀ c ∈ s.cookies, c.mem.length = COOKIE_BUFSZ
  iv : requestGetCookie (sentBack (before ++ givenCookies s ++ after)) KL1_CLISES_IV = some t.iv
  data : requestGetCookie (sentBack (before ++ givenCookies s ++ after)) KL1_CLISES_DATA =
    some t.data
  mtime : requestGetCookie (sentBack (before ++ givenCookies s ++ after)) KL1_CLISES_MTIME =
    some t.mtime
  hmac : requestGetCookie (sentBack (before ++ givenCookies s ++ after)) KL1_CLISES_HMAC =
    some (sessionClientHmac m t.data t.sid t.mtime (some t.iv))
  check : t.data.length ≤ COOKIE_MAX_SIZE
  decoded : uHexncpyDecode t.data = some buf
  buf : (clientBuf buf).length = COOKIE_MAX_SIZE

/-! ## The cookies that are set -/

structure SafeCookie (name value : Str) : Prop where
  nameSafe : ∀ c ∈ name, urlSafe c = true
  valueSafe : ∀ c ∈ value, urlSafe c = true
  nameNe : name ≠ []
  valueNe : value ≠ []

theorem not_special_of_urlSafe {c : Byte} (h : urlSafe c = true) :
    cookieDelim c = false ∧ c ≠ 0 ∧ c ≠ 61 := by
  refine ⟨?_, ne_of_urlSafe h rfl, ne_of_urlSafe h rfl⟩
  simp [cookieDelim, ne_of_urlSafe h (rfl : urlSafe 32 = false),
    ne_of_urlSafe h (rfl : urlSafe 59 = false)]

theorem SafeCookie.undelimited {name value : Str} (h : SafeCookie name value) :
    Undelimited (name ++ 61 :: value) := by
  refine ⟨by simp, ?_⟩
  intro b hb
  rcases List.mem_append.mp hb with hb | hb
  · exact (not_special_of_urlSafe (h.nameSafe b hb)).1
  · rcases List.mem_cons.mp hb with rfl | hb
    · rfl
    · exact (not_special_of_urlSafe (h.valueSafe b hb)).1

theorem SafeCookie.noNul {name value : Str} (h : SafeCookie name value) :
    (0 : Byte) ∉ name ++ 61 :: value := by
  intro hb
  rcases List.mem_append.mp hb with hb | hb
  · exact (not_special_of_urlSafe (h.nameSafe 0 hb)).2.1 rfl
  · rcases List.mem_cons.mp hb with he | hb
    · cases he
    · exact (not_special_of_urlSafe (h.valueSafe 0 hb)).2.1 rfl

theorem SafeCookie.urlVar {name value : Str} (h : SafeCookie name value) :
    urlVar (name ++ 61 :: value) = some ⟨name, value⟩ :=
  urlVar_safe h.nameSafe h.valueSafe h.nameNe h.valueNe

theorem SafeCookie.takeWhile {name value : Str} (h : SafeCookie name value) :
    (name ++ 61 :: value).takeWhile (· ≠ 61) = name := by
  rw [List.takeWhile_append_of_pos]
  · simp
  · intro b hb
    simpa using (not_special_of_urlSafe (h.nameSafe b hb)).2.2

theorem SafeCookie.cookieName {name value : Str} (h : SafeCookie name value) :
    cookieName (name ++ 61 :: value) = some name := by
  have htake : Klone.urlVar ((name ++ 61 :: value).take (name ++ 61 :: value).length) =
      some ⟨name, value⟩ := by
    rw [List.take_length]
    exact h.urlVar
  exact (urlVar_take h.noNul htake).1

variable {iv buf : List Byte}

def cookieTexts (m : Mac) (t : Signed) : List Str :=
  [KL1_CLISES_IV ++ 61 :: t.iv, KL1_CLISES_DATA ++ 61 :: t.data, KL1_CLISES_MTIME ++ 61 :: t.mtime,
    KL1_CLISES_HMAC ++ 61 :: sessionClientHmac m t.data t.sid t.mtime (some t.iv)]

theorem decimal_safe (n : ℤ) : ∀ c ∈ decimal n, urlSafe c = true := by
  intro c hc
  rcases mem_decimal hc with rfl | h
  · rfl
  · simp [urlSafe, isalnum, h]

theorem clientNames_safe :
    ∀ name ∈ clientNames, (∀ c ∈ name, urlSafe c = true) ∧ name ≠ [] ∧ name.length ≤ 16 := by
  decide +kernel

theorem signedFor_safe (m : Mac) (hiv : iv ≠ []) (hbuf : buf ≠ []) (sid : Str) (now : Int32) :
    SafeCookie KL1_CLISES_IV (signedFor iv buf sid now).iv ∧
    SafeCookie KL1_CLISES_DATA (signedFor iv buf sid now).data ∧
    SafeCookie KL1_CLISES_MTIME (signedFor iv buf sid now).mtime ∧
    SafeCookie KL1_CLISES_HMAC
    (sessionClientHmac m (signedFor iv buf sid now).data sid (signedFor iv buf sid now).mtime
      (some (signedFor iv buf sid now).iv)) := by
  have hn := clientNames_safe
  have h₁ := hn KL1_CLISES_IV (by simp [clientNames])
  have h₂ := hn KL1_CLISES_DATA (by simp [clientNames])
  have h₃ := hn KL1_CLISES_MTIME (by simp [clientNames])
  have h₄ := hn KL1_CLISES_HMAC (by simp [clientNames])
  exact ⟨⟨h₁.1, uHexncpyEncode_safe _, h₁.2.1, uHexncpyEncode_ne_nil hiv⟩,
    ⟨h₂.1, uHexncpyEncode_safe _, h₂.2.1, uHexncpyEncode_ne_nil hbuf⟩,
    ⟨h₃.1, decimal_safe _, h₃.2.1, decimal_ne_nil _⟩,
    ⟨h₄.1, uHexncpyEncode_safe _, h₄.2.1, uHexncpyEncode_ne_nil (m.nonempty _)⟩⟩

theorem responseSetCookie_safe (date : ℤ → Option Str) {name value : Str} (hn : name ∈ clientNames)
    (h : SafeCookie name value) :
    responseSetCookie date (.plain name (some value)) = cookieField (name ++ 61 :: value) := by
  have hlen := (clientNames_safe name hn).2.2
  rw [responseSetCookie_plain date (by unfold COOKIE_BUFSZ; omega) h.valueNe,
    uUrlncpyEncode_safe h.valueSafe]

/-- A save of data that passes its check sets the four cookies. -/
theorem sessionClientSave_sets (date : ℤ → Option Str) (m : Mac) (hiv : iv ≠ []) (hbuf : buf ≠ [])
    (hcheck : buf.length ≤ COOKIE_MAX_SIZE) (sid : Str) (now : Int32) :
    sessionClientSave date m iv buf sid now =
      ⟨hexBuf EBUF_SIZE (uHexncpyEncode buf),
        (cookieTexts m (signedFor iv buf sid now)).map cookieField,
        some (signedFor iv buf sid now)⟩ := by
  obtain ⟨h₁, h₂, h₃, h₄⟩ := signedFor_safe m hiv hbuf sid now
  have hsets : setCookies date (clientCookies m (signedFor iv buf sid now)) =
      (cookieTexts m (signedFor iv buf sid now)).map cookieField := by
    simp only [clientCookies, setCookies, cookieTexts, List.map_cons, List.map_nil]
    rw [responseSetCookie_safe date (by simp [clientNames]) h₁,
      responseSetCookie_safe date (by simp [clientNames]) h₂,
      responseSetCookie_safe date (by simp [clientNames]) h₃]
    have h₄' : SafeCookie KL1_CLISES_HMAC (sessionClientHmac m (signedFor iv buf sid now).data
      (signedFor iv buf sid now).sid (signedFor iv buf sid now).mtime
        (some (signedFor iv buf sid now).iv)) := h₄
    rw [responseSetCookie_safe date (by simp [clientNames]) h₄']
    simp [cookieField]
  unfold sessionClientSave
  dsimp only
  rw [if_neg (by omega), if_neg hbuf, hsets]
  simp [cookieField, signedFor]

theorem givenCookies_eq (date : ℤ → Option Str) (m : Mac) (hiv : iv ≠ []) (hbuf : buf ≠ [])
    (hcheck : buf.length ≤ COOKIE_MAX_SIZE) (sid : Str) (now : Int32) :
    givenCookies (sessionClientSave date m iv buf sid now) =
    cookieTexts m (signedFor iv buf sid now) := by
  rw [sessionClientSave_sets date m hiv hbuf hcheck, givenCookies, List.filterMap_map]
  simp [cookieField, Function.comp_def]

/-! ## The way back -/

theorem joinCookies_noNul {cs : List Str} (h : ∀ c ∈ cs, (0 : Byte) ∉ c) :
    (0 : Byte) ∉ joinCookies cs := by
  induction cs with
  | nil => exact List.not_mem_nil
  | cons c cs ih =>
    have hc := h c List.mem_cons_self
    have ih := ih (fun d hd => h d (List.mem_cons_of_mem _ hd))
    cases cs with
    | nil => exact hc
    | cons c' cs =>
      rw [joinCookies_cons c (List.cons_ne_nil c' cs)]
      simp [hc, ih]

/-- What a request has of the cookies that a client sends. -/
theorem sentBack_eq {cs : List Str} (h : ∀ c ∈ cs, Undelimited c)
    (hzero : ∀ c ∈ cs, (0 : Byte) ∉ c) :
    sentBack cs = (cutCookies 4095 cs).filterMap urlVar := by
  have hname : strcasecmpEq (bytes "Cookie") (bytes "cookie") = true := by decide
  rw [sentBack, requestParseCookies, List.filter_cons_of_pos (by exact hname), List.filter_nil,
    List.foldl_cons,
    List.foldl_nil, requestParseCookie, foldl_addCookie, List.nil_append,
      cstr_of_not_mem (joinCookies_noNul hzero)]
  exact congrArg _ (strtok_cut h 4095)

theorem requestGetCookie_some {vs : List Var} {name value : Str}
    (h : requestGetCookie vs name = some value) :
    ∃ v ∈ vs, strcasecmpEq v.name name = true ∧ cstr v.value = value := by
  unfold requestGetCookie varsGet at h
  obtain ⟨v, hv, hval⟩ := Option.bind_eq_some_iff.mp h
  have hname : strcasecmpEq v.name name = true := by simpa using List.find?_some hv
  refine ⟨v, List.mem_of_find?_eq_some hv, hname, ?_⟩
  split at hval
  · cases hval
  · exact Option.some.inj hval

/-- A cookie that does not come back whole does not come back with its value. -/
theorem cookie_back_whole {name value : Str} {before after : List Str} {n : ℕ}
    (h : SafeCookie name value) (hzero : ∀ b ∈ before, (0 : Byte) ∉ b)
    (hname : ∀ b ∈ before, ∀ s, cookieName b = some s → strcasecmpEq s name = false)
    (hget : requestGetCookie ((cutCookies n (before ++ (name ++ 61 :: value) :: after)).filterMap
      urlVar) name = some value) :
    cookiesLength before + (name ++ 61 :: value).length ≤ n := by
  by_contra hlong
  obtain ⟨v, hv, hvn, hvalue⟩ := requestGetCookie_some hget
  obtain ⟨tok, htok, hu⟩ := List.mem_filterMap.mp hv
  obtain ⟨k, hk, rfl⟩ := cutCookies_inside hzero hname (by omega) htok hu hvn
  have hlen := (urlVar_take h.noNul hu).2
  rw [h.takeWhile, hvalue, List.length_take] at hlen
  rw [List.length_append, List.length_cons] at hk hlen
  omega

theorem clientNames_distinct :
    ∀ a ∈ clientNames, ∀ b ∈ clientNames, a ≠ b → strcasecmpEq a b = false := by
  decide

theorem cookiesLength_append (as bs : List Str) :
    cookiesLength (as ++ bs) = cookiesLength as + cookiesLength bs := by
  simp [cookiesLength]

theorem cookieTexts_length (m : Mac) (hiv : iv.length = CIPHER_IV_LEN) (buf : List Byte) (sid : Str)
    (now : Int32) :
    cookiesLength (cookieTexts m (signedFor iv buf sid now)) =
      2 * buf.length + (decimal now.toInt).length + 2 *
        (m.hash (signedFor iv buf sid now).fed).length + 103 := by
  have h₁ : KL1_CLISES_IV.length = 13 := by decide
  have h₂ : KL1_CLISES_DATA.length = 15 := by decide
  have h₃ : KL1_CLISES_MTIME.length = 16 := by decide
  have h₄ : KL1_CLISES_HMAC.length = 15 := by decide
  have hfed : sessionClientHmac m (signedFor iv buf sid now).data (signedFor iv buf sid now).sid
      (signedFor iv buf sid now).mtime (some (signedFor iv buf sid now).iv) =
      uHexncpyEncode (m.hash (signedFor iv buf sid now).fed) := rfl
  unfold CIPHER_IV_LEN at hiv
  simp only [cookieTexts, cookiesLength, List.map_cons, List.map_nil, List.sum_cons, List.sum_nil,
    List.length_append,
    List.length_cons, h₁, h₂, h₃, h₄, hfed, uHexncpyEncode_length]
  simp only [signedFor, uHexncpyEncode_length, hiv]
  omega

/-- A cookie of the session is not taken for another one of them. -/
theorem SafeCookie.other {name value name' : Str} (h : SafeCookie name value)
    (hn : name ∈ clientNames) (hn' : name' ∈ clientNames) (hne : name ≠ name') :
    ∀ s, Klone.cookieName (name ++ 61 :: value) = some s →
      strcasecmpEq s name' = false := by
  intro s hs
  obtain rfl := Option.some.inj (h.cookieName.symm.trans hs)
  exact clientNames_distinct _ hn _ hn' hne

/-- All cookies before the cut come back with their values. -/
theorem cookies_back {texts : List (Str × Str)}
    (h : ∀ p ∈ texts, SafeCookie p.1 p.2 ∧ p.1 ∈ clientNames) (hnodup : (texts.map Prod.fst).Nodup)
    {before : List Str} (hb : ∀ c ∈ before, OtherCookie c) (after : List Str) {n : ℕ}
    (hn : cookiesLength (before ++ texts.map fun p => p.1 ++ 61 :: p.2) ≤ n + 2) :
    ∀ p ∈ texts, requestGetCookie ((cutCookies n
      (before ++ (texts.map fun p => p.1 ++ 61 :: p.2) ++ after)).filterMap urlVar) p.1 =
        some p.2 := by
  have hund : ∀ c ∈ before ++ texts.map fun p => p.1 ++ 61 :: p.2, Undelimited c := by
    intro c hc
    rcases List.mem_append.mp hc with hc | hc
    · exact (hb c hc).undelimited
    · obtain ⟨p, hp, rfl⟩ := List.mem_map.mp hc
      exact (h p hp).1.undelimited
  obtain ⟨more, hmore⟩ := cutCookies_whole hund after hn
  rw [hmore]
  intro p hp
  obtain ⟨as, bs, rfl⟩ := List.append_of_mem hp
  rw [List.map_append, List.map_cons, ← List.append_assoc, List.append_assoc, List.cons_append]
  have hsafe := (h p hp).1
  have hother : ∀ c ∈ before ++ as.map (fun p => p.1 ++ 61 :: p.2), (0 : Byte) ∉ c ∧
      ∀ s, cookieName c = some s → strcasecmpEq s p.1 = false := by
    intro c hc
    rcases List.mem_append.mp hc with hc | hc
    · exact ⟨(hb c hc).noNul, (hb c hc).named p.1 (h p hp).2⟩
    · obtain ⟨q, hq, rfl⟩ := List.mem_map.mp hc
      have hq' := h q (List.mem_append_left _ hq)
      refine ⟨hq'.1.noNul, hq'.1.other hq'.2 (h p hp).2 ?_⟩
      rw [List.map_append, List.map_cons] at hnodup
      exact fun he => (List.nodup_append.mp hnodup).2.2 q.1
        (List.mem_map_of_mem hq) p.1 List.mem_cons_self he
  refine requestGetCookie_first (fun c hc => (hother c hc).1)
    (fun c hc => (hother c hc).2) hsafe.urlVar hsafe.valueNe ?_
  exact fun hz => (not_special_of_urlSafe (hsafe.valueSafe 0 hz)).2.1 rfl

/-! ## For which sizes the limits agree -/

def cookiePairs (m : Mac) (t : Signed) : List (Str × Str) :=
  [(KL1_CLISES_IV, t.iv), (KL1_CLISES_DATA, t.data), (KL1_CLISES_MTIME, t.mtime),
    (KL1_CLISES_HMAC, sessionClientHmac m t.data t.sid t.mtime (some t.iv))]

theorem cookieTexts_eq (m : Mac) (t : Signed) :
    cookieTexts m t = (cookiePairs m t).map fun p => p.1 ++ 61 :: p.2 := rfl

theorem cookiePairs_names (m : Mac) (t : Signed) :
    (cookiePairs m t).map Prod.fst = clientNames := rfl

theorem cookiePairs_safe (m : Mac) (hiv : iv ≠ []) (hbuf : buf ≠ []) (sid : Str) (now : Int32) :
    ∀ p ∈ cookiePairs m (signedFor iv buf sid now), SafeCookie p.1 p.2 ∧ p.1 ∈ clientNames := by
  obtain ⟨h₁, h₂, h₃, h₄⟩ := signedFor_safe m hiv hbuf sid now
  intro p hp
  refine ⟨?_, cookiePairs_names m (signedFor iv buf sid now) ▸ List.mem_map_of_mem hp⟩
  simp only [cookiePairs, List.mem_cons, List.not_mem_nil, or_false] at hp
  rcases hp with rfl | rfl | rfl | rfl
  · exact h₁
  · exact h₂
  · exact h₃
  · exact h₄

theorem cookieTexts_plain (m : Mac) (hiv : iv ≠ []) (hbuf : buf ≠ []) (sid : Str) (now : Int32) :
    ∀ c ∈ cookieTexts m (signedFor iv buf sid now), Undelimited c ∧ (0 : Byte) ∉ c := by
  intro c hc
  rw [cookieTexts_eq] at hc
  obtain ⟨p, hp, rfl⟩ := List.mem_map.mp hc
  have hsafe := (cookiePairs_safe m hiv hbuf sid now p hp).1
  exact ⟨hsafe.undelimited, hsafe.noNul⟩

/-- What a request has when the four cookies come back among others. -/
theorem sentBack_given (m : Mac) (hiv : iv ≠ []) (hbuf : buf ≠ []) (sid : Str) (now : Int32)
    {before after : List Str} (hb : ∀ c ∈ before, OtherCookie c) (ha : ∀ c ∈ after, OtherCookie c) :
    sentBack (before ++ cookieTexts m (signedFor iv buf sid now) ++ after) =
      (cutCookies 4095 (before ++ cookieTexts m (signedFor iv buf sid now) ++ after)).filterMap
        urlVar := by
  have hall : ∀ c ∈ before ++ cookieTexts m (signedFor iv buf sid now) ++ after, Undelimited c ∧
      (0 : Byte) ∉ c := by
    intro c hc
    rcases List.mem_append.mp hc with hc | hc
    · rcases List.mem_append.mp hc with hc | hc
      · exact ⟨(hb c hc).undelimited, (hb c hc).noNul⟩
      · exact cookieTexts_plain m hiv hbuf sid now c hc
    · exact ⟨(ha c hc).undelimited, (ha c hc).noNul⟩
  exact sentBack_eq (fun c hc => (hall c hc).1) (fun c hc => (hall c hc).2)

theorem iv_ne_nil (hiv : iv.length = CIPHER_IV_LEN) : iv ≠ [] := by
  rintro rfl
  cases hiv

/-- When the last of the four cookies comes back, the field was not cut before its end. -/
theorem hmac_back_whole (m : Mac) (hiv : iv ≠ []) (hbuf : buf ≠ []) (sid : Str) (now : Int32)
    {before after : List Str} {n : ℕ} (hb : ∀ c ∈ before, OtherCookie c)
    (hget : requestGetCookie
      ((cutCookies n (before ++ cookieTexts m (signedFor iv buf sid now) ++ after)).filterMap
        urlVar) KL1_CLISES_HMAC =
          some (sessionClientHmac m (signedFor iv buf sid now).data sid
            (signedFor iv buf sid now).mtime (some (signedFor iv buf sid now).iv))) :
    cookiesLength (before ++ cookieTexts m (signedFor iv buf sid now)) ≤ n + 2 := by
  obtain ⟨h₁, h₂, h₃, h₄⟩ := signedFor_safe m hiv hbuf sid now
  generalize hmac : sessionClientHmac m (signedFor iv buf sid now).data sid
    (signedFor iv buf sid now).mtime
    (some (signedFor iv buf sid now).iv) = hash at h₄ hget
  have htexts : cookieTexts m (signedFor iv buf sid now) =
      [KL1_CLISES_IV ++ 61 :: (signedFor iv buf sid now).iv,
        KL1_CLISES_DATA ++ 61 :: (signedFor iv buf sid now).data,
        KL1_CLISES_MTIME ++ 61 :: (signedFor iv buf sid now).mtime] ++
          [KL1_CLISES_HMAC ++ 61 :: hash] := by
    rw [← hmac]
    rfl
  rw [htexts, ← List.append_assoc, List.append_assoc, List.singleton_append] at hget
  have hbefore : ∀ c ∈ before ++ [KL1_CLISES_IV ++ 61 :: (signedFor iv buf sid now).iv,
      KL1_CLISES_DATA ++ 61 :: (signedFor iv buf sid now).data,
        KL1_CLISES_MTIME ++ 61 :: (signedFor iv buf sid now).mtime],
      (0 : Byte) ∉ c ∧ ∀ s, cookieName c = some s → strcasecmpEq s KL1_CLISES_HMAC = false := by
    intro c hc
    rcases List.mem_append.mp hc with hc | hc
    · exact ⟨(hb c hc).noNul, (hb c hc).named _ (by simp [clientNames])⟩
    · simp only [List.mem_cons, List.not_mem_nil, or_false] at hc
      rcases hc with rfl | rfl | rfl
      · exact ⟨h₁.noNul, h₁.other (by simp [clientNames]) (by simp [clientNames]) (by decide)⟩
      · exact ⟨h₂.noNul, h₂.other (by simp [clientNames]) (by simp [clientNames]) (by decide)⟩
      · exact ⟨h₃.noNul, h₃.other (by simp [clientNames]) (by simp [clientNames]) (by decide)⟩
  have hwhole := cookie_back_whole h₄ (fun c hc => (hbefore c hc).1)
    (fun c hc => (hbefore c hc).2) hget
  rw [htexts, ← List.append_assoc, cookiesLength_append]
  have hlast : cookiesLength [KL1_CLISES_HMAC ++ 61 :: hash] =
      (KL1_CLISES_HMAC ++ 61 :: hash).length + 2 := by
    simp [cookiesLength]
  omega

/-- All limits agree for exactly the sessions whose cookies, with those before them, fit
the buffer for a `Cookie` field. -/
theorem session_client_sizes_agree_iff (date : ℤ → Option Str) (m : Mac)
    (hiv : iv.length = CIPHER_IV_LEN) (hbuf : buf ≠ []) (hcheck : buf.length ≤ COOKIE_MAX_SIZE)
    (sid : Str) (now : Int32) {before after : List Str} (hb : ∀ c ∈ before, OtherCookie c)
    (ha : ∀ c ∈ after, OtherCookie c) :
    SizesAgree m (sessionClientSave date m iv buf sid now)
    (signedFor iv buf sid now) buf before after ↔
      cookiesLength before + 2 * buf.length + (decimal now.toInt).length +
        2 * (m.hash (signedFor iv buf sid now).fed).length + 101 < COOKIE_FIELD_BUFSZ := by
  have hivne := iv_ne_nil hiv
  have hlen := cookieTexts_length m hiv buf sid now
  have hsent := sentBack_given m hivne hbuf sid now hb ha
  have hgiven := givenCookies_eq date m hivne hbuf hcheck sid now
  have happ := cookiesLength_append before (cookieTexts m (signedFor iv buf sid now))
  unfold COOKIE_FIELD_BUFSZ
  constructor
  · intro h
    have hget := h.hmac
    rw [hgiven, hsent] at hget
    have hwhole := hmac_back_whole m hivne hbuf sid now hb hget
    omega
  · intro hle
    have hback := cookies_back (cookiePairs_safe m hivne hbuf sid now)
      (by rw [cookiePairs_names]; decide) hb after (n := 4095)
      (by rw [← cookieTexts_eq]; omega)
    rw [← cookieTexts_eq, ← hsent, ← hgiven] at hback
    simp only [cookiePairs, List.forall_mem_cons] at hback
    obtain ⟨hback₁, hback₂, hback₃, hback₄, -⟩ := hback
    have hmem : ∀ c ∈ cookieTexts m (signedFor iv buf sid now), c.length < COOKIE_BUFSZ := by
      intro c hc
      have hsum := List.single_le_sum (by simp) _
        (List.mem_map_of_mem (f := fun c : Str => c.length + 2) hc)
      unfold COOKIE_BUFSZ
      rw [cookiesLength] at hlen
      omega
    refine ⟨?_, ?_, hback₁, hback₂, hback₃, hback₄, ?_, uHexncpyDecode_encode buf, ?_⟩
    · rw [sessionClientSave_sets date m hivne hbuf hcheck, hexBuf, store_length,
        List.length_replicate, List.length_append,
        uHexncpyEncode_length, List.length_singleton]
      unfold EBUF_SIZE COOKIE_MAX_SIZE EVP_MAX_BLOCK_LENGTH
      omega
    · rw [sessionClientSave_sets date m hivne hbuf hcheck]
      intro c hc
      obtain ⟨text, htext, rfl⟩ := List.mem_map.mp hc
      exact inCookieBuf_fits.mpr (hmem text htext)
    · rw [signedFor, uHexncpyEncode_length]
      unfold COOKIE_MAX_SIZE
      omega
    · rw [clientBuf, store_length, List.length_replicate, List.length_append, List.length_singleton]
      unfold COOKIE_MAX_SIZE
      omega

/-- A keyed SHA-1 as far as it is needed for one session with one block of data. -/
def sampleMac : Mac where
  hash _ := [255, 193, 51, 14, 135, 109, 127, 174, 197, 100, 68, 119, 81, 38, 216, 135, 128,
    74, 169, 239]
  nonempty _ := List.cons_ne_nil _ _

theorem session_client_sizes_agree_block :
    SizesAgree sampleMac
      (sessionClientSave (fun _ => none) sampleMac [0, 1, 2, 3, 4, 5, 6, 7, 8, 9, 10, 11, 12, 13,
        14, 15] (List.replicate 16 42)
        (bytes "0123456789abcdef0123456789abcdef") 1300000000)
      (signedFor [0, 1, 2, 3, 4, 5, 6, 7, 8, 9, 10, 11, 12, 13, 14, 15] (List.replicate 16 42)
        (bytes "0123456789abcdef0123456789abcdef") 1300000000)
      (List.replicate 16 42) [] [] := by
  refine (session_client_sizes_agree_iff _ sampleMac rfl ?_ (by decide) _ _ ?_ ?_).mpr ?_
  · decide
  · exact fun c hc => absurd hc List.not_mem_nil
  · exact fun c hc => absurd hc List.not_mem_nil
  · decide

/-- Data of the largest size that a save accepts are written past the end of the buffer
for the hexadecimal text. -/
theorem session_client_sizes_disagree :
    (List.replicate 4096 (42 : Byte)).length ≤ COOKIE_MAX_SIZE ∧
    ¬ SizesAgree sampleMac
      (sessionClientSave (fun _ => none) sampleMac (List.replicate 16 7) (List.replicate 4096 42)
        (bytes "0123456789abcdef0123456789abcdef") 1300000000)
      (signedFor (List.replicate 16 7) (List.replicate 4096 42)
        (bytes "0123456789abcdef0123456789abcdef") 1300000000)
      (List.replicate 4096 42) [] [] := by
  have hcheck : (List.replicate 4096 (42 : Byte)).length ≤ COOKIE_MAX_SIZE :=
    List.length_replicate.le
  have hne : List.replicate 4096 (42 : Byte) ≠ [] := by
    rw [Ne, List.replicate_eq_nil_iff]
    omega
  refine ⟨hcheck, ?_⟩
  intro h
  have hebuf := h.ebuf
  rw [sessionClientSave_sets _ _ (by decide) hne hcheck, hexBuf, store_length,
    List.length_replicate, List.length_append,
    uHexncpyEncode_length, List.length_replicate] at hebuf
  simp [EBUF_SIZE, COOKIE_MAX_SIZE, EVP_MAX_BLOCK_LENGTH] at hebuf

end Klone.Session
