import Klone.Http.Uri

/-! # URL escaping

The encoder of `u_urlncpy`, and how its output is read back by the decoder. Bytes
are taken as `unsigned char` in the C locale.
-/
namespace Klone
open Http

def isalnum (c : Byte) : Bool := (48 ≤ c && c ≤ 57) || (65 ≤ c && c ≤ 90) || (97 ≤ c && c ≤ 122)

def hexc (n : Byte) : Byte :=
  [48, 49, 50, 51, 52, 53, 54, 55, 56, 57, 65, 66, 67, 68, 69, 70].getD n.toNat 0

def urlSafe (c : Byte) : Bool := isalnum c || c == 95 || c == 45 || c == 46

def urlEscape (c : Byte) : Str :=
  if c = 32 then [43]
  else if urlSafe c then [c]
  else [37, hexc ((c >>> 4) &&& 15), hexc (c &&& 15)]

def uUrlncpyEncode (s : List Byte) : Str := s.flatMap urlEscape

def urlPlain (c : Byte) : Bool := c == 32 || urlSafe c

def urlChar (c : Byte) : Bool := urlSafe c || c == 43 || c == 37

theorem ne_of_urlSafe {c b : Byte} (hc : urlSafe c = true) (hb : urlSafe b = false) : c ≠ b := by
  rintro rfl
  simp [hb] at hc

theorem urlSafe_of_urlPlain {c : Byte} (h : urlPlain c = true) (hc : c ≠ 32) :
    urlSafe c = true := by
  simpa [urlPlain, hc] using h

theorem urlEscape_safe {c : Byte} (h : urlSafe c = true) : urlEscape c = [c] := by
  simp [urlEscape, ne_of_urlSafe h (rfl : urlSafe 32 = false), h]

theorem urlEscape_plain {c : Byte} (h : urlPlain c = true) :
    urlEscape c = [if c = 32 then 43 else c] ∧ (if c = 32 then 43 else c) ≠ 37 := by
  by_cases hc : c = 32
  · subst hc
    exact ⟨rfl, by decide⟩
  · have hs := urlSafe_of_urlPlain h hc
    simp only [if_neg hc]
    exact ⟨urlEscape_safe hs, ne_of_urlSafe hs rfl⟩

theorem urlEscape_coded {c : Byte} (h : urlPlain c = false) :
    urlEscape c = [37, hexc ((c >>> 4) &&& 15), hexc (c &&& 15)] := by
  simp only [urlPlain, Bool.or_eq_false_iff, beq_eq_false_iff_ne] at h
  simp [urlEscape, h]

theorem plus_back {c : Byte} (h : urlPlain c = true) :
    (if (if c = 32 then 43 else c) = 43 then 32 else if c = 32 then 43 else c) = c := by
  by_cases hc : c = 32
  · simp [hc]
  · simp [hc, ne_of_urlSafe (urlSafe_of_urlPlain h hc) (rfl : urlSafe 43 = false)]

/-- The two halves of a byte. -/
theorem nibbles : ∀ c : Byte, (c >>> 4) &&& 15 ≤ 15 ∧ c &&& 15 ≤ 15 ∧
    ((c >>> 4) &&& 15) <<< 4 ||| (c &&& 15) = c := by
  decide +kernel

theorem htoi_hexc : ∀ n : Byte, n ≤ 15 → isxdigit (hexc n) = true ∧ htoi (hexc n) = n := by
  decide +kernel

/-- Two digits are read back as the byte. -/
theorem hexc_back (c : Byte) :
    (isxdigit (hexc ((c >>> 4) &&& 15)) && isxdigit (hexc (c &&& 15))) = true ∧
      htoi (hexc ((c >>> 4) &&& 15)) <<< 4 ||| htoi (hexc (c &&& 15)) = c := by
  obtain ⟨h₁, h₂, h⟩ := nibbles c
  simp [htoi_hexc _ h₁, htoi_hexc _ h₂, h]

/-- Digits need no escape. -/
theorem urlSafe_of_isxdigit {c : Byte} (h : isxdigit c = true) : urlSafe c = true := by
  have hle : c ≤ 70 → c ≤ 90 := fun h => UInt8.le_trans h (by decide)
  have hle' : c ≤ 102 → c ≤ 122 := fun h => UInt8.le_trans h (by decide)
  simp only [isxdigit, Bool.or_eq_true, Bool.and_eq_true, decide_eq_true_eq] at h
  rcases h with (h | h) | h
  · simp [urlSafe, isalnum, h]
  · simp [urlSafe, isalnum, h, hle h.2]
  · simp [urlSafe, isalnum, h, hle' h.2]

theorem urlEscape_urlChar {c e : Byte} (he : e ∈ urlEscape c) : urlChar e = true := by
  cases hc : urlPlain c with
  | true =>
    rw [(urlEscape_plain hc).1, List.mem_singleton] at he
    by_cases h : c = 32
    · simp [he, h, urlChar]
    · simp [he, h, urlChar, urlSafe_of_urlPlain hc h]
  | false =>
    have hx := (hexc_back c).1
    rw [Bool.and_eq_true] at hx
    simp only [urlEscape_coded hc, List.mem_cons, List.not_mem_nil, or_false] at he
    rcases he with rfl | rfl | rfl
    · rfl
    · simp [urlChar, urlSafe_of_isxdigit hx.1]
    · simp [urlChar, urlSafe_of_isxdigit hx.2]

@[simp] theorem uUrlncpyEncode_nil : uUrlncpyEncode [] = [] := rfl

@[simp] theorem uUrlncpyEncode_cons (c : Byte) (s : List Byte) :
    uUrlncpyEncode (c :: s) = urlEscape c ++ uUrlncpyEncode s := rfl

/-- What is left of the string when an escape does not find its two characters. -/
theorem length_lt_two {rest : Str} (h : ∀ a b r, rest = a :: b :: r → False) : rest.length < 2 := by
  rcases rest with _ | ⟨a, _ | ⟨b, r⟩⟩
  · decide
  · simp
  · exact absurd rfl (h a b r)

theorem uUrlncpyDecode_cons {c : Byte} (h : c ≠ 37) (rest : Str) :
    uUrlncpyDecode (c :: rest) = (uUrlncpyDecode rest).map ((if c = 43 then 32 else c) :: ·) := by
  rw [uUrlncpyDecode] <;> simp_all

theorem uUrlncpyDecode_urlEscape (c : Byte) (rest : Str) :
    uUrlncpyDecode (urlEscape c ++ rest) = (uUrlncpyDecode rest).map (c :: ·) := by
  cases hc : urlPlain c with
  | true =>
    obtain ⟨he, hne⟩ := urlEscape_plain hc
    rw [he, List.singleton_append, uUrlncpyDecode_cons hne, plus_back hc]
  | false => simp [urlEscape_coded hc, uUrlncpyDecode, hexc_back]

/-- Decoding undoes encoding, for every sequence of bytes. -/
theorem uUrlncpyDecode_encode (s : List Byte) : uUrlncpyDecode (uUrlncpyEncode s) = some s := by
  induction s with
  | nil => rfl
  | cons c s ih => simp [uUrlncpyDecode_urlEscape, ih]

theorem mem_uUrlncpyEncode {s : List Byte} {e : Byte} (h : e ∈ uUrlncpyEncode s) :
    urlChar e = true := by
  obtain ⟨c, -, he⟩ := List.mem_flatMap.mp h
  exact urlEscape_urlChar he

/-- Text without special bytes is written as it is. -/
theorem uUrlncpyEncode_safe {s : Str} (h : ∀ c ∈ s, urlSafe c = true) : uUrlncpyEncode s = s := by
  induction s with
  | nil => rfl
  | cons c s ih =>
    rw [uUrlncpyEncode_cons, urlEscape_safe (h c List.mem_cons_self),
      ih (fun d hd => h d (List.mem_cons_of_mem _ hd))]
    rfl

theorem uUrlncpyEncode_eq_nil {s : List Byte} : uUrlncpyEncode s = [] ↔ s = [] := by
  constructor
  · intro h
    have hd := uUrlncpyDecode_encode s
    rw [h] at hd
    exact (Option.some.inj hd).symm
  · rintro rfl
    rfl

/-! ## Lengths -/

/-- The number of bytes that the encoder does not blow up. -/
def plainCount (s : List Byte) : ℕ := s.countP urlPlain

theorem urlEscape_length (c : Byte) :
    (urlEscape c).length + 2 * (if urlPlain c then 1 else 0) = 3 := by
  cases hc : urlPlain c with
  | true => simp [(urlEscape_plain hc).1]
  | false => simp [urlEscape_coded hc]

theorem uUrlncpyEncode_length (s : List Byte) :
    (uUrlncpyEncode s).length + 2 * plainCount s = 3 * s.length := by
  induction s with
  | nil => rfl
  | cons c s ih =>
    have hc := urlEscape_length c
    simp only [uUrlncpyEncode_cons, plainCount, List.countP_cons, List.length_append,
      List.length_cons] at ih ⊢
    omega

/-- Induction along the decoder. -/
theorem decode_induction {P : Str → List Byte → Prop} (nil : P [] [])
    (coded : ∀ a b rest s, P rest s → P (37 :: a :: b :: rest) ((htoi a <<< 4 ||| htoi b) :: s))
    (plain : ∀ c rest s, c ≠ 37 → P rest s → P (c :: rest) ((if c = 43 then 32 else c) :: s))
    {t : Str} {s : List Byte} (h : uUrlncpyDecode t = some s) : P t s := by
  induction t using uUrlncpyDecode.induct generalizing s with
  | case1 =>
    obtain rfl := Option.some.inj (by simpa [uUrlncpyDecode] using h)
    exact nil
  | case2 a b rest hx ih =>
    simp only [uUrlncpyDecode, hx, if_true, Option.map_eq_some_iff] at h
    obtain ⟨s', hs', rfl⟩ := h
    exact coded a b rest s' (ih hs')
  | case3 a b rest hx => simp [uUrlncpyDecode, hx] at h
  | case4 rest hne =>
    rw [uUrlncpyDecode.eq_3 _ hne] at h
    cases h
  | case5 c rest hne₁ hne₂ ih =>
    have hc : c ≠ 37 := by
      rintro rfl
      exact hne₂ rfl
    rw [uUrlncpyDecode_cons hc] at h
    obtain ⟨s', hs', rfl⟩ := Option.map_eq_some_iff.mp h
    exact plain c rest s' hc (ih hs')

theorem decode_length_le {t : Str} {s : List Byte} (h : uUrlncpyDecode t = some s) :
    s.length ≤ t.length := by
  apply decode_induction (P := fun t s => s.length ≤ t.length) ?_ ?_ ?_ h
  · exact le_rfl
  · intro a b rest s hle
    simp only [List.length_cons]
    omega
  · intro c rest s _ hle
    exact Nat.succ_le_succ hle

theorem urlChar_back {c : Byte} (h : urlChar c = true) (hne : c ≠ 37) :
    (urlEscape (if c = 43 then 32 else c)).length = 1 := by
  by_cases hc : c = 43
  · simp [hc, urlEscape]
  · have hs : urlSafe c = true := by simpa [urlChar, hc, hne] using h
    simp [hc, urlEscape_safe hs]

/-- What the encoder writes is the shortest text over its bytes with a given meaning. -/
theorem encode_le_of_decode {t : Str} (ht : ∀ c ∈ t, urlChar c = true) {s : List Byte}
    (h : uUrlncpyDecode t = some s) : (uUrlncpyEncode s).length ≤ t.length := by
  apply decode_induction (P := fun t s => (∀ c ∈ t, urlChar c = true) →
    (uUrlncpyEncode s).length ≤ t.length) ?_ ?_ ?_ h ht
  · intro _
    exact le_rfl
  · intro a b rest s ih ht
    have hle := ih (fun c hc => ht c (by simp [hc]))
    have hc := urlEscape_length (htoi a <<< 4 ||| htoi b)
    simp only [uUrlncpyEncode_cons, List.length_append, List.length_cons]
    omega
  · intro c rest s hc ih ht
    have hle := ih (fun e he => ht e (List.mem_cons_of_mem _ he))
    have hp := urlChar_back (ht c List.mem_cons_self) hc
    simp only [uUrlncpyEncode_cons, List.length_append, List.length_cons, hp]
    omega

end Klone
