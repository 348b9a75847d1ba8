import Klone.Http.Uri
import Klone.Lib.PathStack

/-! # Normalisation of URIs

`u_uri_normalize` keeps what it has normalised as a string and crops it at a slash. It does
what the stack of the names does.
-/
namespace Klone.Http

/-- What `u_uri_normalize` is for: the names that are left, and a slash at the end if there
was one or if nothing else is left. -/
def normalizedUri (s : Str) : Option Str :=
  let p := s.map toSlash
  if p.head? ≠ some slash then none
  else
    let names := resolved (segments p)
    some (joined names ++ if p.getLast? = some slash ∨ names = [] then [slash] else [])

structure UriName (t : Str) : Prop where
  proper : Proper t
  noSlash : slash ∉ t
  noBackslash : backslash ∉ t

/-! ## The string and the stack -/

theorem normalizeStep_stack {stack : List Str} (hstack : ∀ t ∈ stack, slash ∉ t) {tok : Str}
    (htok : tok ≠ []) :
    normalizeStep (joined stack) tok = joined (stackStep stack tok) := by
  unfold normalizeStep stackStep
  by_cases hdot : tok = dot
  · simp [hdot]
  by_cases hdd : tok = dotdot
  · have hkept : ¬ (dotdot = [] ∨ dotdot = dot) := by decide
    subst hdd
    rw [if_neg hdot, if_pos rfl, if_neg hkept, if_pos rfl]
    rcases List.eq_nil_or_concat stack with rfl | ⟨init, t, rfl⟩
    · rfl
    · rw [List.concat_eq_append] at hstack ⊢
      rw [eatLastDir_joined init (hstack t (by simp)), List.dropLast_concat]
  · simp only [hdot, hdd, htok, if_false, or_false, joined_append]

theorem foldl_normalizeStep_stack {toks stack : List Str} (hstack : ∀ t ∈ stack, slash ∉ t)
    (htoks : ∀ tok ∈ toks, tok ≠ [] ∧ slash ∉ tok) :
    toks.foldl normalizeStep (joined stack) = joined (toks.foldl stackStep stack) := by
  induction toks generalizing stack with
  | nil => rfl
  | cons tok toks ih =>
    obtain ⟨hne, hslash⟩ := htoks tok List.mem_cons_self
    rw [List.foldl_cons, normalizeStep_stack hstack hne, List.foldl_cons]
    refine ih ?_ fun t ht => htoks t (List.mem_cons_of_mem _ ht)
    intro t ht
    rcases mem_stackStep ht with ht | ⟨rfl, -⟩
    · exact hstack t ht
    · exact hslash

theorem strtok_slash (s : Str) :
    strtok (fun c => decide (c = slash)) s = (segments s).filter (· ≠ []) := by
  have hp : (fun c : Byte => decide (c = slash)) = fun c => c == slash := by
    funext c
    rfl
  rw [strtok, segments, hp]
  rfl

theorem slash_not_mem_segments {s t : Str} (h : t ∈ segments s) : slash ∉ t := by
  intro hm
  have hc := (mem_splitOnP (p := fun c => c == slash) h slash hm).1
  simp at hc

/-- The code computes what it is for. -/
theorem uUriNormalize_eq (s : Str) : uUriNormalize s = normalizedUri s := by
  have htoks : ∀ tok ∈ (segments (s.map toSlash)).filter (· ≠ []), tok ≠ [] ∧ slash ∉ tok := by
    intro tok ht
    obtain ⟨hm, hne⟩ := List.mem_filter.mp ht
    exact ⟨of_decide_eq_true hne, slash_not_mem_segments hm⟩
  have hempty : ∀ t ∈ ([] : List Str), slash ∉ t := fun t ht => absurd ht List.not_mem_nil
  have hfold := foldl_normalizeStep_stack hempty htoks
  rw [foldl_stackStep_filter] at hfold
  have hnil : joined (resolved (segments (s.map toSlash))) = [] ↔
      resolved (segments (s.map toSlash)) = [] := by
    cases resolved (segments (s.map toSlash)) with
    | nil => simp [joined]
    | cons t rest => simp [joined_cons]
  have hs : (strtok (fun c => decide (c = slash)) (s.map toSlash)).foldl normalizeStep [] =
      joined (resolved (segments (s.map toSlash))) := by
    rw [strtok_slash]
    exact hfold
  unfold uUriNormalize normalizedUri
  simp only [hs, hnil]
  generalize s.map toSlash = p
  split
  · rfl
  · by_cases hlast : p.getLast? = some slash
    · simp [hlast]
    · by_cases hempty : resolved (segments p) = []
      · simp [hempty]
      · simp [hlast, hempty]

/-! ## Normalised URIs -/

theorem toSlash_ne_backslash (c : Byte) : toSlash c ≠ backslash := by
  unfold toSlash
  split
  · decide
  · assumption

theorem uriName_resolved {s t : Str} (h : t ∈ resolved (segments (s.map toSlash))) : UriName t := by
  obtain ⟨hm, hp⟩ := mem_resolved h
  refine ⟨hp, slash_not_mem_segments hm, fun hb => ?_⟩
  obtain ⟨c, -, hc⟩ := List.mem_map.mp (mem_splitOnP (p := fun c => c == slash) hm backslash hb).2
  exact toSlash_ne_backslash c hc

theorem map_toSlash_eq {s : Str} (h : backslash ∉ s) : s.map toSlash = s := by
  have hc : ∀ c ∈ s, toSlash c = c := by
    intro c hc
    apply if_neg
    rintro rfl
    exact h hc
  rw [List.map_congr_left hc, List.map_id']

/-- Names with a slash before each of them, and one behind them if `trailing` or if there
are none. -/
def uriText (names : List Str) (trailing : Bool) : Str :=
  joined names ++ if trailing = true ∨ names = [] then [slash] else []

theorem normalizedUri_some {s r : Str} (h : normalizedUri s = some r) :
    ∃ names trailing, (∀ t ∈ names, UriName t) ∧ r = uriText names trailing := by
  unfold normalizedUri at h
  dsimp only at h
  split at h
  · cases h
  · refine ⟨resolved (segments (s.map toSlash)), decide ((s.map toSlash).getLast? = some slash),
      fun t ht => uriName_resolved ht, ?_⟩
    rw [uriText]
    simp only [decide_eq_true_eq]
    exact (Option.some.inj h).symm

section Text
variable {names : List Str} (h : ∀ t ∈ names, UriName t) (trailing : Bool)
include h

theorem uriText_segments :
    ∃ ends, (ends = [] ∨ ends = [[]]) ∧
    segments (uriText names trailing) = [] :: names ++ ends := by
  have hslash : ∀ t ∈ names, slash ∉ t := fun t ht => (h t ht).noSlash
  unfold uriText
  split
  · refine ⟨[[]], Or.inr rfl, ?_⟩
    rw [← joined_append, segments_joined]
    · rfl
    · intro t ht
      rcases List.mem_append.mp ht with ht | ht
      · exact hslash t ht
      · rw [List.mem_singleton.mp ht]
        exact List.not_mem_nil
  · exact ⟨[], Or.inl rfl, by rw [List.append_nil, List.append_nil, segments_joined hslash]⟩

theorem uriText_resolved : resolved (segments (uriText names trailing)) = names := by
  have hproper := foldl_stackStep_proper (fun t ht => (h t ht).proper) []
  obtain ⟨ends, hends, hseg⟩ := uriText_segments h trailing
  rw [hseg, resolved, List.foldl_append, List.foldl_cons, stackStep_nil, hproper]
  rcases hends with rfl | rfl
  · rfl
  · rfl

theorem uriText_backslash : backslash ∉ uriText names trailing := by
  have hne : backslash ≠ slash := by decide
  have hjoined : backslash ∉ joined names := by
    intro hm
    obtain ⟨t, ht, hm⟩ := List.mem_flatMap.mp hm
    rcases List.mem_cons.mp hm with he | hm
    · exact hne he
    · exact (h t ht).noBackslash hm
  unfold uriText
  split
  · simp [hjoined, hne]
  · simpa using hjoined

omit h in
theorem uriText_head : (uriText names trailing).head? = some slash := by
  cases names with
  | nil => simp [uriText, joined]
  | cons t rest => simp [uriText, joined_cons]

theorem uriText_last :
    (uriText names trailing).getLast? = some slash ↔ trailing = true ∨ names = [] := by
  unfold uriText
  split
  · next hc => simp [hc]
  · next hc =>
    have hne : names ≠ [] := fun he => hc (Or.inr he)
    obtain ⟨init, t, rfl⟩ := (List.eq_nil_or_concat names).resolve_left hne
    rw [List.concat_eq_append] at h hc ⊢
    have ht := h t (by simp)
    obtain ⟨front, c, rfl⟩ := (List.eq_nil_or_concat t).resolve_left ht.proper.notEmpty
    rw [List.concat_eq_append] at ht hc ⊢
    have hcs : c ≠ slash := by
      rintro rfl
      exact ht.noSlash (by simp)
    have hlast : (joined (init ++ [front ++ [c]]) ++ []).getLast? = some c := by
      rw [joined_append, List.append_nil, ← List.cons_append, ← List.append_assoc,
        List.getLast?_append]
      rfl
    rw [hlast]
    exact ⟨fun he => absurd (Option.some.inj he) hcs, fun hc' => absurd hc' hc⟩

/-- A normalised URI is normalised to itself. -/
theorem normalizedUri_uriText :
    normalizedUri (uriText names trailing) = some (uriText names trailing) := by
  have hlast := uriText_last h trailing
  unfold normalizedUri
  rw [map_toSlash_eq (uriText_backslash h trailing)]
  simp only [uriText_head, uriText_resolved h trailing, hlast, or_assoc, or_self]
  rfl

end Text

structure Normalized (r : Str) : Prop where
  noBackslash : backslash ∉ r
  noDots : ∀ t ∈ segments r, t ≠ dot ∧ t ≠ dotdot
  noEmpty : ¬ [slash, slash] <:+: r

theorem normalized_uriText {names : List Str} (h : ∀ t ∈ names, UriName t) (trailing : Bool) :
    Normalized (uriText names trailing) := by
  obtain ⟨ends, hends, hseg⟩ := uriText_segments h trailing
  refine ⟨uriText_backslash h trailing, ?_, ?_⟩
  · intro t ht
    rw [hseg, List.mem_append, List.mem_cons] at ht
    have hnil : ([] : Str) ≠ dot ∧ ([] : Str) ≠ dotdot := by decide
    rcases ht with (rfl | ht) | ht
    · exact hnil
    · exact ⟨(h t ht).proper.notDot, (h t ht).proper.notDotdot⟩
    · rcases hends with rfl | rfl
      · cases ht
      · rw [List.mem_singleton.mp ht]
        exact hnil
  · rintro ⟨a, b, hab⟩
    obtain ⟨x, xs, hx⟩ := List.exists_cons_of_ne_nil (segments_ne_nil a)
    obtain ⟨ys, y, hy⟩ := (List.eq_nil_or_concat (segments b)).resolve_left (segments_ne_nil b)
    rw [List.concat_eq_append] at hy
    -- the part between the slashes is neither the first nor the last
    have hsplit : segments (uriText names trailing) = x :: (xs ++ [] :: ys ++ [y]) := by
      have he : a ++ [slash, slash] ++ b = a ++ slash :: ([] ++ slash :: b) := by simp
      rw [← hab, he, segments_slash, segments_slash, hx, hy]
      simp [segments]
    rw [hsplit] at hseg
    have hinner : xs ++ [] :: ys = (names ++ ends).dropLast := by
      have hdrop := congrArg List.dropLast (List.cons.inj hseg).2
      rwa [List.dropLast_concat] at hdrop
    have hm : ([] : Str) ∈ (names ++ ends).dropLast := by
      rw [← hinner]
      simp
    have hnames : ([] : Str) ∈ names := by
      rcases hends with rfl | rfl
      · rw [List.append_nil] at hm
        exact List.mem_of_mem_dropLast hm
      · rwa [List.dropLast_concat] at hm
    exact (h [] hnames).proper.notEmpty rfl

/-- The result has room where the string was. -/
theorem normalizedUri_length {s r : Str} (h : normalizedUri s = some r) : r.length ≤ s.length := by
  have hlen : (s.map toSlash).length = s.length := List.length_map _
  unfold normalizedUri at h
  dsimp only at h
  rw [← hlen]
  generalize s.map toSlash = p at h
  split at h
  · cases h
  · next hhead =>
    rw [ne_eq, not_not] at hhead
    obtain ⟨q, rfl⟩ := List.head?_eq_some_iff.mp hhead
    obtain rfl := Option.some.inj h
    have hseg : segments (slash :: q) = [] :: segments q := segments_slash [] q
    have hresolved : resolved (segments (slash :: q)) = resolved (segments q) := by
      rw [hseg, resolved, List.foldl_cons, stackStep_nil]
      rfl
    have hle := joined_resolved_length (segments q)
    rw [joined_segments] at hle
    rw [hresolved, List.length_append]
    split
    · next hend =>
      rcases hend with hend | hend
      · -- the last part of the path is empty
        rcases List.eq_nil_or_concat q with rfl | ⟨q', c, rfl⟩
        · exact Nat.le_refl 1
        · rw [List.concat_eq_append] at hend ⊢
          rw [← List.cons_append, List.getLast?_concat] at hend
          obtain rfl := Option.some.inj hend
          have hseg' : segments (q' ++ [slash]) = segments q' ++ [[]] := segments_slash q' []
          have hle' := joined_resolved_length (segments q')
          rw [joined_segments] at hle'
          have hr : resolved (segments q' ++ [[]]) = resolved (segments q') := by
            rw [resolved, List.foldl_append, List.foldl_cons, List.foldl_nil, stackStep_nil]
            rfl
          rw [hseg', hr]
          simp only [List.length_cons, List.length_append, List.length_nil] at hle' ⊢
          omega
      · rw [hend]
        exact Nat.succ_le_succ (Nat.zero_le _)
    · exact hle

/-- `u_uri_normalize` is the interpretation of a path by a stack of names; what it leaves
is normalised, fits in the place of the string and is a fixed point. -/
theorem uri_normalize_spec (s : Str) :
    uUriNormalize s = normalizedUri s ∧
    (uUriNormalize s = none ↔ (s.map toSlash).head? ≠ some slash) ∧
      ∀ r, uUriNormalize s = some r → Normalized r ∧ r.length ≤ s.length ∧
      uUriNormalize r = some r := by
  refine ⟨uUriNormalize_eq s, ?_, ?_⟩
  · rw [uUriNormalize_eq, normalizedUri]
    dsimp only
    split
    · next hhead => exact ⟨fun _ => hhead, fun _ => rfl⟩
    · next hhead => exact ⟨fun hn => (Option.some_ne_none _ hn).elim, fun hc => absurd hc hhead⟩
  · intro r hr
    rw [uUriNormalize_eq] at hr
    obtain ⟨names, trailing, hnames, rfl⟩ := normalizedUri_some hr
    refine ⟨normalized_uriText hnames trailing, normalizedUri_length hr, ?_⟩
    rw [uUriNormalize_eq]
    exact normalizedUri_uriText hnames trailing

/-- Some of the strings that the test suite tries. -/
example : uUriNormalize (bytes "\\/./\\") = some (bytes "/") ∧
    uUriNormalize (bytes "/a/b/../c/") = some (bytes "/a/c/") := by
  decide +kernel

end Klone.Http
