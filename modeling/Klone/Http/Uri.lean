import Klone.Lib.Path

/-! # The request URI

Decoding, cutting the query, normalisation, and the search for the split into
file name and path info. The validity callback is a function that may keep a
state of its own and may answer anything.
-/
namespace Klone.Http

def isxdigit (c : Byte) : Bool := (48 ≤ c && c ≤ 57) || (65 ≤ c && c ≤ 70) || (97 ≤ c && c ≤ 102)

def htoi (c : Byte) : Byte := if c ≤ 57 then c - 48 else if c ≤ 70 then c - 55 else c - 87

/-- `u_urlncpy` with `URLCPY_DECODE`; an encoded NUL is copied like any other byte. -/
def uUrlncpyDecode : Str → Option (List Byte)
  | [] => some []
  | 37 :: a :: b :: rest =>
    if isxdigit a && isxdigit b then (uUrlncpyDecode rest).map ((htoi a <<< 4 ||| htoi b) :: ·)
    else none
  | 37 :: _ => none
  | c :: rest => (uUrlncpyDecode rest).map ((if c = 43 then 32 else c) :: ·)

/-- The end of the path up to and without its last slash. -/
def eatLastDir (s : Str) : Str := (s.reverse.dropWhile (· ≠ slash)).tail.reverse

def normalizeStep (s tok : Str) : Str :=
  if tok = dot then s
  else if tok = dotdot then eatLastDir s
  else s ++ slash :: tok

def toSlash (c : Byte) : Byte := if c = backslash then slash else c

def uUriNormalize (path : Str) : Option Str :=
  let path := path.map toSlash
  if path.head? ≠ some slash then none
  else
    let s := (strtok (· = slash) path).foldl normalizeStep []
    if s = [] ∨ path.getLast? = some slash then some (s ++ [slash]) else some s

/-- `u_strnrchr`: the last place of `c` in the first `len` bytes. -/
def uStrnrchr (s : Str) (c : Byte) (len : ℕ) : Option ℕ :=
  (List.range len).reverse.find? fun i => s[i]? = some c

structure Split where
  filename : Str
  pathInfo : Option Str
  deriving DecidableEq, Repr

/-- The search for the split, from the prefix of `len` bytes on. The prefixes get
shorter, so their number bounds the turns. -/
def splitLoop {σ : Type*} (valid : σ → Str → Bool × σ) (cp : Str) : ℕ → ℕ → σ → Split × σ
  | 0, _, st => (⟨cp, none⟩, st)
  | turns + 1, len, st =>
    let r := valid st (cp.take len)
    if r.1 then (⟨cp.take len, if len < cp.length then some (cp.drop len) else none⟩, r.2)
    else
      match uStrnrchr cp slash len with
      | none => (⟨cp, none⟩, r.2)
      | some p => splitLoop valid cp turns p r.2

structure SetUri where
  uri : Str
  query : Option Str
  filename : Str
  pathInfo : Option Str
  deriving DecidableEq, Repr

def queryOf (uri : Str) : Option Str :=
  match uri.span (· ≠ 63) with
  | (_, []) => none
  | (_, _ :: q) => some q

def decodedPath (uri : Str) : Option Str :=
  if 4096 ≤ uri.length then none
  else
    match uUrlncpyDecode uri with
    | none => none
    | some [] => none
    | some cp => some ((cstr cp).takeWhile (· ≠ 63))

def requestSetUri {σ : Type*} (valid : σ → Str → Bool × σ) (st : σ) (uri : Str) :
    Option (SetUri × σ) :=
  match (decodedPath uri).bind uUriNormalize with
  | none => none
  | some cp =>
    let r := splitLoop valid cp (cp.length + 1) cp.length st
    some (⟨uri, queryOf uri, r.1.filename, r.1.pathInfo⟩, r.2)

/-! ## Normalised paths -/

structure Clean (s : Str) : Prop where
  noBackslash : backslash ∉ s
  noDotdot : dotdot ∉ segments s
  noLastDot : (segments s).getLast? ≠ some dot

structure Plain (seg : Str) : Prop where
  noSlash : slash ∉ seg
  noBackslash : backslash ∉ seg
  notDot : seg ≠ dot
  notDotdot : seg ≠ dotdot

theorem eatLastDir_joined (segs : List Str) {t : Str} (ht : slash ∉ t) :
    eatLastDir (joined (segs ++ [t])) = joined segs := by
  have hpos : ∀ c ∈ t.reverse, decide (c ≠ slash) = true := by
    intro c hc
    apply decide_eq_true
    intro he
    exact ht (he ▸ List.mem_reverse.mp hc)
  rw [joined_append, eatLastDir, List.reverse_append, List.reverse_cons, List.append_assoc,
    List.dropWhile_append_of_pos hpos]
  simp

theorem eatLastDir_nil : eatLastDir [] = [] := rfl

theorem normalizeStep_joined {segs : List Str} (h : ∀ t ∈ segs, Plain t) {tok : Str}
    (hs : slash ∉ tok) (hb : backslash ∉ tok) :
    ∃ segs', normalizeStep (joined segs) tok = joined segs' ∧ ∀ t ∈ segs', Plain t := by
  unfold normalizeStep
  by_cases hd : tok = dot
  · exact ⟨segs, if_pos hd, h⟩
  rw [if_neg hd]
  by_cases hdd : tok = dotdot
  · rw [if_pos hdd]
    rcases List.eq_nil_or_concat segs with rfl | ⟨init, t, rfl⟩
    · exact ⟨[], eatLastDir_nil, h⟩
    · rw [List.concat_eq_append] at h ⊢
      refine ⟨init, eatLastDir_joined init (h t (by simp)).noSlash, ?_⟩
      intro u hu
      exact h u (List.mem_append_left _ hu)
  · refine ⟨segs ++ [tok], ?_, ?_⟩
    · rw [if_neg hdd, joined_append]
    · intro t ht
      rcases List.mem_append.mp ht with ht | ht
      · exact h t ht
      · rw [List.mem_singleton.mp ht]
        exact ⟨hs, hb, hd, hdd⟩

theorem foldl_normalizeStep {toks : List Str} (ht : ∀ tok ∈ toks, slash ∉ tok ∧ backslash ∉ tok)
    {segs : List Str} (h : ∀ t ∈ segs, Plain t) :
    ∃ segs', toks.foldl normalizeStep (joined segs) = joined segs' ∧ ∀ t ∈ segs', Plain t := by
  induction toks generalizing segs with
  | nil => exact ⟨segs, rfl, h⟩
  | cons tok rest ih =>
    obtain ⟨hs, hb⟩ := ht tok List.mem_cons_self
    obtain ⟨segs₁, he, h₁⟩ := normalizeStep_joined h hs hb
    rw [List.foldl_cons, he]
    exact ih (fun t hm => ht t (List.mem_cons_of_mem _ hm)) h₁

theorem mem_splitOnP {p : Byte → Bool} {s t : Str} (h : t ∈ s.splitOnP p) :
    ∀ c ∈ t, p c = false ∧ c ∈ s := by
  induction s generalizing t with
  | nil =>
    intro c hc
    rw [List.splitOnP_nil, List.mem_singleton] at h
    rw [h] at hc
    exact absurd hc List.not_mem_nil
  | cons a rest ih =>
    intro c hc
    rw [List.splitOnP_cons_eq_if_modifyHead] at h
    by_cases ha : p a = true
    · rw [if_pos ha] at h
      rcases List.mem_cons.mp h with rfl | h
      · exact absurd hc List.not_mem_nil
      · obtain ⟨h₁, h₂⟩ := ih h c hc
        exact ⟨h₁, List.mem_cons_of_mem _ h₂⟩
    · rw [if_neg ha] at h
      obtain ⟨hd, tl, he⟩ := List.exists_cons_of_ne_nil (List.splitOnP_ne_nil p rest)
      rw [he, List.modifyHead_cons] at h
      rw [he] at ih
      rcases List.mem_cons.mp h with rfl | h
      · rcases List.mem_cons.mp hc with rfl | hc
        · exact ⟨Bool.eq_false_iff.mpr ha, List.mem_cons_self⟩
        · obtain ⟨h₁, h₂⟩ := ih List.mem_cons_self c hc
          exact ⟨h₁, List.mem_cons_of_mem _ h₂⟩
      · obtain ⟨h₁, h₂⟩ := ih (List.mem_cons_of_mem _ h) c hc
        exact ⟨h₁, List.mem_cons_of_mem _ h₂⟩

theorem mem_strtok {p : Byte → Bool} {s t : Str} (h : t ∈ strtok p s) :
    t ≠ [] ∧ ∀ c ∈ t, p c = false ∧ c ∈ s := by
  obtain ⟨hm, hne⟩ := List.mem_filter.mp h
  exact ⟨of_decide_eq_true hne, mem_splitOnP hm⟩

theorem plain_nil : Plain [] :=
  ⟨List.not_mem_nil, List.not_mem_nil, (List.cons_ne_nil _ _).symm, (List.cons_ne_nil _ _).symm⟩

/-- A normalised path is a non-empty sequence of plain names, each after a slash. -/
theorem uUriNormalize_joined {path cp : Str} (h : uUriNormalize path = some cp) :
    ∃ segs, segs ≠ [] ∧ cp = joined segs ∧ ∀ t ∈ segs, Plain t := by
  unfold uUriNormalize at h
  dsimp only at h
  split at h
  · cases h
  have htok : ∀ tok ∈ strtok (fun c => decide (c = slash)) (path.map toSlash),
      slash ∉ tok ∧ backslash ∉ tok := by
    intro tok ht
    obtain ⟨-, hc⟩ := mem_strtok ht
    refine ⟨fun hs => absurd rfl (of_decide_eq_false (hc slash hs).1), fun hb => ?_⟩
    obtain ⟨c, -, he⟩ := List.mem_map.mp (hc backslash hb).2
    unfold toSlash at he
    split at he
    · exact absurd he (by decide)
    · next hne => exact hne he
  obtain ⟨segs, he, hp⟩ := foldl_normalizeStep htok
    (fun t (ht : t ∈ ([] : List Str)) => absurd ht List.not_mem_nil)
  have he : List.foldl normalizeStep [] (strtok (fun c => decide (c = slash)) (path.map toSlash)) =
      joined segs := he
  rw [he] at h
  split at h
  · obtain rfl : joined segs ++ [slash] = cp := Option.some.inj h
    refine ⟨segs ++ [[]], by simp, (joined_append segs []).symm, ?_⟩
    intro t ht
    rcases List.mem_append.mp ht with ht | ht
    · exact hp t ht
    · rw [List.mem_singleton.mp ht]
      exact plain_nil
  · next hc =>
    obtain rfl : joined segs = cp := Option.some.inj h
    refine ⟨segs, ?_, rfl, hp⟩
    rintro rfl
    exact hc (Or.inl rfl)

theorem clean_joined {segs : List Str} (h : ∀ t ∈ segs, Plain t) : Clean (joined segs) := by
  have hseg := segments_joined (fun t ht => (h t ht).noSlash)
  constructor
  · intro hb
    obtain ⟨t, ht, hm⟩ := List.mem_flatMap.mp hb
    rcases List.mem_cons.mp hm with he | hm
    · exact absurd he (by decide)
    · exact (h t ht).noBackslash hm
  · intro hd
    rw [hseg] at hd
    rcases List.mem_cons.mp hd with he | hd
    · exact absurd he (by decide)
    · exact (h _ hd).notDotdot rfl
  · intro hl
    have hm := List.mem_of_getLast? hl
    rw [hseg] at hm
    rcases List.mem_cons.mp hm with he | hm
    · exact absurd he (by decide)
    · exact (h _ hm).notDot rfl

/-- A cut of a normalised path before a slash separates its names. -/
theorem joined_take {segs : List Str} (h : ∀ t ∈ segs, Plain t) {i : ℕ}
    (hi : (joined segs)[i]? = some slash) :
    ∃ xs ys, segs = xs ++ ys ∧ (joined segs).take i = joined xs := by
  induction segs generalizing i with
  | nil => simp [joined] at hi
  | cons t rest ih =>
    have hj : joined (t :: rest) = (slash :: t) ++ joined rest := by simp [joined]
    by_cases hz : i = 0
    · subst hz
      exact ⟨[], t :: rest, rfl, rfl⟩
    by_cases hlt : i < (slash :: t).length
    · rw [hj, List.getElem?_append_left hlt] at hi
      obtain ⟨k, rfl⟩ : ∃ k, i = k + 1 := ⟨i - 1, by omega⟩
      rw [List.getElem?_cons_succ] at hi
      exact absurd (List.mem_of_getElem? hi) (h t List.mem_cons_self).noSlash
    · have hge : (slash :: t).length ≤ i := Nat.le_of_not_lt hlt
      rw [hj, List.getElem?_append_right hge] at hi
      obtain ⟨xs, ys, he, htake⟩ := ih (fun u hu => h u (List.mem_cons_of_mem _ hu)) hi
      refine ⟨t :: xs, ys, by rw [he]; rfl, ?_⟩
      rw [hj, List.take_append, List.take_of_length_le hge, htake]
      simp [joined]

theorem uStrnrchr_some {s : Str} {c : Byte} {len p : ℕ} (h : uStrnrchr s c len = some p) :
    p < len ∧ s[p]? = some c := by
  have hm := List.mem_of_find?_eq_some h
  have hp := List.find?_some h
  rw [List.mem_reverse, List.mem_range] at hm
  exact ⟨hm, of_decide_eq_true hp⟩

/-- The file name that the search finds is made of plain names. -/
theorem splitLoop_joined {σ : Type*} (valid : σ → Str → Bool × σ) {segs : List Str}
    (h : ∀ t ∈ segs, Plain t) (turns len : ℕ) (st : σ)
    (hlen : ∃ xs ys, segs = xs ++ ys ∧ (joined segs).take len = joined xs) :
    ∃ xs, (splitLoop valid (joined segs) turns len st).1.filename = joined xs ∧ ∀ t ∈ xs,
    Plain t := by
  induction turns generalizing len st with
  | zero => exact ⟨segs, rfl, h⟩
  | succ turns ih =>
    rw [splitLoop]
    split
    · obtain ⟨xs, ys, rfl, htake⟩ := hlen
      exact ⟨xs, htake, fun t ht => h t (List.mem_append_left _ ht)⟩
    · cases hr : uStrnrchr (joined segs) slash len with
      | none => exact ⟨segs, rfl, h⟩
      | some p => exact ih p _ (joined_take h (uStrnrchr_some hr).2)

/-- Whatever the callback answers, an accepted URI gives a clean file name. -/
theorem requestSetUri_clean {σ : Type*} {valid : σ → Str → Bool × σ} {st st' : σ} {uri : Str}
    {r : SetUri} (h : requestSetUri valid st uri = some (r, st')) : Clean r.filename := by
  unfold requestSetUri at h
  cases hn : (decodedPath uri).bind uUriNormalize with
  | none =>
    rw [hn] at h
    cases h
  | some cp =>
    rw [hn] at h
    obtain ⟨path, -, hpath⟩ := Option.bind_eq_some_iff.mp hn
    obtain ⟨segs, -, rfl, hp⟩ := uUriNormalize_joined hpath
    obtain ⟨xs, hx, hxp⟩ := splitLoop_joined valid hp ((joined segs).length + 1)
      (joined segs).length st
      ⟨segs, [], (List.append_nil segs).symm, List.take_length⟩
    obtain ⟨rfl, -⟩ := Prod.mk.inj (Option.some.inj h)
    rw [hx]
    exact clean_joined hxp

end Klone.Http
