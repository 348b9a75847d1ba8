import Mathlib

/-! # A one-pass matcher for a pattern with a unique first letter

The state is the number of pattern letters matched so far. On a mismatch the
matcher falls back to the first letter only. When the first letter does not
occur again in the pattern this loses nothing: at most one non-empty beginning
of the pattern can end at any point of the text.
-/
namespace Klone.Matcher
variable {α : Type*} [DecidableEq α]

/-- One letter: keep the match going, else fall back to an empty match, and then
take the letter if the (possibly reset) state accepts it. -/
def advance (pattern : List α) (p : ℕ) (c : α) : ℕ :=
  let q := if pattern[p]? = some c then p else 0
  if pattern[q]? = some c then q + 1 else q

def state (pattern text : List α) : ℕ := text.foldl (advance pattern) 0

@[simp] theorem state_nil (pattern : List α) : state pattern [] = 0 := rfl

@[simp] theorem state_snoc (pattern text : List α) (c : α) :
    state pattern (text ++ [c]) = advance pattern (state pattern text) c := by
  simp only [state, List.foldl_append, List.foldl_cons, List.foldl_nil]

/-- Some non-empty beginning of the pattern ends the text. -/
def Partial (pattern text : List α) : Prop := ∃ p, p ≠ [] ∧ p <+: pattern ∧ p <:+ text

omit [DecidableEq α] in
theorem partial_iff (pattern text : List α) :
    Partial pattern text ↔ ∃ j, 0 < j ∧ j ≤ pattern.length ∧ pattern.take j <:+ text := by
  constructor
  · rintro ⟨p, hne, hp, hs⟩
    refine ⟨p.length, List.length_pos_iff.mpr hne, hp.length_le, ?_⟩
    rwa [← List.prefix_iff_eq_take.mp hp]
  · rintro ⟨j, hj, hle, hs⟩
    refine ⟨pattern.take j, ?_, List.take_prefix j pattern, hs⟩
    intro h
    have hl := congrArg List.length h
    simp only [List.length_take, List.length_nil] at hl
    omega

omit [DecidableEq α] in
/-- Two non-empty beginnings of the pattern that end the same text are equal. -/
theorem take_suffix_unique {a : α} {d text : List α} (ha : a ∉ d) {i j : ℕ} (hi : 0 < i)
    (hij : i < j) (hj : j ≤ (a :: d).length) (h : (a :: d).take i <:+ text)
    (h' : (a :: d).take j <:+ text) : False := by
  have hs : (a :: d).take i <:+ (a :: d).take j :=
    List.suffix_of_suffix_length_le h h' (by simp only [List.length_take]; omega)
  obtain ⟨t, ht⟩ := hs
  obtain ⟨i, rfl⟩ : ∃ k, i = k + 1 := ⟨i - 1, by omega⟩
  obtain ⟨j, rfl⟩ : ∃ k, j = k + 1 := ⟨j - 1, by omega⟩
  rw [List.take_succ_cons, List.take_succ_cons] at ht
  have hlen := congrArg List.length ht
  simp only [List.length_cons] at hj
  simp only [List.length_append, List.length_cons, List.length_take] at hlen
  cases t with
  | nil => simp only [List.length_nil] at hlen; omega
  | cons b t =>
    rw [List.cons_append] at ht
    have hmem : a ∈ d.take j := by
      rw [← (List.cons.inj ht).2]
      simp
    exact ha (List.mem_of_mem_take hmem)

/-- What the state says about the text: the match it counts is there, and a zero
state excludes every other one. -/
def Tracks (pattern text : List α) (p : ℕ) : Prop :=
  p ≤ pattern.length ∧ pattern.take p <:+ text ∧ (p = 0 → ¬ Partial pattern text)

omit [DecidableEq α] in
theorem tracks_nil (pattern : List α) : Tracks pattern [] 0 := by
  refine ⟨Nat.zero_le _, by simp, fun _ ⟨p, hne, _, hs⟩ => hne (List.suffix_nil.mp hs)⟩

omit [DecidableEq α] in
private theorem take_suffix_snoc {pattern text : List α} {c : α} {j : ℕ} (hj : j < pattern.length) :
    pattern.take (j + 1) <:+ text ++ [c] ↔ pattern[j]? = some c ∧ pattern.take j <:+ text := by
  rw [List.take_add_one, List.getElem?_eq_getElem hj, Option.toList_some]
  constructor
  · rintro ⟨t, ht⟩
    rw [← List.append_assoc] at ht
    have h := List.append_inj' ht rfl
    exact ⟨congrArg some (by simpa using h.2), t, h.1⟩
  · rintro ⟨hc, t, ht⟩
    refine ⟨t, ?_⟩
    rw [← List.append_assoc, ht, Option.some.inj hc]

/-- The fall-back keeps the tracking invariant as long as the pattern is incomplete. -/
theorem Tracks.advance {a : α} {d text : List α} (ha : a ∉ d) {p : ℕ} (h : Tracks (a :: d) text p)
    (hlt : p < (a :: d).length) (c : α) :
    Tracks (a :: d) (text ++ [c]) (Matcher.advance (a :: d) p c) := by
  obtain ⟨_, hs, h0⟩ := h
  unfold Matcher.advance
  by_cases hp : (a :: d)[p]? = some c
  · simp only [hp, ↓reduceIte]
    refine ⟨hlt, (take_suffix_snoc hlt).mpr ⟨hp, hs⟩, fun h => by omega⟩
  · simp only [hp, ↓reduceIte]
    by_cases hc : (a :: d)[0]? = some c
    · simp only [hc, ↓reduceIte]
      refine ⟨by simp, (take_suffix_snoc (by simp)).mpr ⟨hc, by simp⟩, fun h => by omega⟩
    · simp only [hc, ↓reduceIte]
      refine ⟨Nat.zero_le _, by simp, fun _ hpart => ?_⟩
      obtain ⟨j, hj, hle, hsj⟩ := (partial_iff _ _).mp hpart
      obtain ⟨j, rfl⟩ : ∃ k, j = k + 1 := ⟨j - 1, by omega⟩
      obtain ⟨hcj, hsj⟩ := (take_suffix_snoc (by omega)).mp hsj
      rcases Nat.eq_zero_or_pos j with rfl | hjpos
      · exact hc hcj
      rcases Nat.eq_zero_or_pos p with rfl | hppos
      · exact h0 rfl ((partial_iff _ _).mpr ⟨j, hjpos, by omega, hsj⟩)
      · rcases Nat.lt_trichotomy j p with hlt' | rfl | hlt'
        · exact take_suffix_unique ha hjpos hlt' (by omega) hsj hs
        · exact hp hcj
        · exact take_suffix_unique ha hppos hlt' (by omega) hs hsj

/-- The state tracks every text in which the pattern has not yet been completed
before the last letter. -/
theorem tracks_state {a : α} {d : List α} (ha : a ∉ d) (text : List α)
    (h : ∀ k, k < text.length → state (a :: d) (text.take k) < (a :: d).length) :
    Tracks (a :: d) text (state (a :: d) text) := by
  induction text using List.reverseRecOn with
  | nil => exact tracks_nil _
  | append_singleton text c ih =>
    have hpre : ∀ k, k ≤ text.length → (text ++ [c]).take k = text.take k := by
      intro k hk
      rw [List.take_append_of_le_length hk]
    have ht := ih (fun k hk => by
      have := h k (by simp only [List.length_append, List.length_singleton]; omega)
      rwa [hpre k hk.le] at this)
    have hlt := h text.length (by simp)
    rw [hpre _ le_rfl, List.take_length] at hlt
    rw [state_snoc]
    exact ht.advance ha hlt c

/-- With no completion so far, a half-way state is exactly a partial match. -/
theorem state_pos_iff {a : α} {d text : List α} (ha : a ∉ d)
    (h : ∀ k, k < text.length → state (a :: d) (text.take k) < (a :: d).length) :
    0 < state (a :: d) text ↔ Partial (a :: d) text := by
  obtain ⟨hle, hs, h0⟩ := tracks_state ha text h
  constructor
  · intro hpos
    exact (partial_iff _ _).mpr ⟨_, hpos, hle, hs⟩
  · intro hp
    by_contra hn
    exact h0 (by omega) hp

/-- With no completion so far, the full state is exactly an occurrence ending here. -/
theorem state_full_iff {a : α} {d text : List α} (ha : a ∉ d)
    (h : ∀ k, k < text.length → state (a :: d) (text.take k) < (a :: d).length) :
    state (a :: d) text = (a :: d).length ↔ (a :: d) <:+ text := by
  have ht := tracks_state ha text h
  constructor
  · intro he
    have hs := ht.2.1
    rwa [he, List.take_length] at hs
  · intro hs
    have hpart : Partial (a :: d) text := ⟨_, List.cons_ne_nil _ _, List.prefix_refl _, hs⟩
    have hpos := (state_pos_iff ha h).mpr hpart
    rcases Nat.lt_or_ge (state (a :: d) text) (a :: d).length with hlt | hge
    · refine False.elim (take_suffix_unique ha hpos hlt le_rfl ht.2.1 ?_)
      rwa [List.take_length]
    · exact le_antisymm ht.1 hge

omit [DecidableEq α] in
/-- An occurrence inside a text ends at some point of it. -/
theorem infix_iff_suffix_take (pattern text : List α) :
    pattern <:+: text ↔ ∃ k, k ≤ text.length ∧ pattern <:+ text.take k := by
  constructor
  · rintro ⟨s, t, rfl⟩
    refine ⟨(s ++ pattern).length, by simp only [List.length_append]; omega, ?_⟩
    rw [List.take_left]
    exact List.suffix_append s pattern
  · rintro ⟨k, _, hs⟩
    exact hs.isInfix.trans (List.take_prefix k text).isInfix

/-- What is known of the states before `k` is known of those in the text up to there. -/
theorem state_take_lt {pattern text : List α} {k : ℕ}
    (h : ∀ j, j < k → state pattern (text.take j) < pattern.length) :
    ∀ j, j < (text.take k).length → state pattern ((text.take k).take j) < pattern.length := by
  intro j hj
  rw [List.length_take] at hj
  rw [List.take_take, Nat.min_eq_left (by omega)]
  exact h j (by omega)

/-- The pattern is absent exactly when the matcher never completes. -/
theorem not_infix_iff {a : α} {d text : List α} (ha : a ∉ d) :
    ¬ (a :: d) <:+: text ↔ ∀ k, k ≤ text.length →
    state (a :: d) (text.take k) < (a :: d).length := by
  constructor
  · intro hn k
    induction k using Nat.strong_induction_on with
    | _ k ih =>
      intro hk
      have hbefore := state_take_lt fun j hj => ih j hj (by omega)
      have hle := (tracks_state ha _ hbefore).1
      have hne : state (a :: d) (text.take k) ≠ (a :: d).length := by
        intro he
        exact hn ((infix_iff_suffix_take _ _).mpr ⟨k, hk, (state_full_iff ha hbefore).mp he⟩)
      omega
  · intro hlt hinf
    obtain ⟨k, hk, hs⟩ := (infix_iff_suffix_take _ _).mp hinf
    have hbefore := state_take_lt (k := k) fun j hj => hlt j (by omega)
    have he := (state_full_iff ha hbefore).mpr hs
    exact absurd (hlt k hk) (by omega)

end Klone.Matcher
