import Mathlib

/-! # Lines and their pieces

A text is the concatenation of its lines: each ends at its only separator, which the
last one may lack. A reader with a small buffer meets a line in pieces of at most `n`
elements.
-/
namespace Klone.TextLines
variable {α : Type*} [DecidableEq α] (s : α)

def textLines : List α → List (List α)
  | [] => []
  | c :: rest =>
    if c = s then [c] :: textLines rest
    else match textLines rest with
      | [] => [[c]]
      | l :: ls => (c :: l) :: ls

structure IsLine (l rest : List α) : Prop where
  nonempty : l ≠ []
  inside : s ∉ l.dropLast
  ended : rest = [] ∨ l.getLast? = some s

variable {s} {l rest : List α}

omit [DecidableEq α] in
theorem IsLine.tail {c d : α} {l : List α} (h : IsLine s (c :: d :: l) rest) :
    c ≠ s ∧ IsLine s (d :: l) rest := by
  have hin := h.inside
  rw [List.dropLast_cons_cons, List.mem_cons, not_or] at hin
  refine ⟨Ne.symm hin.1, List.cons_ne_nil d l, hin.2, ?_⟩
  rcases h.ended with he | he
  · exact Or.inl he
  · rw [List.getLast?_cons_cons] at he
    exact Or.inr he

theorem textLines_append (h : IsLine s l rest) :
    textLines s (l ++ rest) = l :: textLines s rest := by
  induction l with
  | nil => exact absurd rfl h.nonempty
  | cons c l ih =>
    cases l with
    | nil =>
      rw [List.singleton_append, textLines]
      rcases h.ended with rfl | he
      · split <;> rfl
      · rw [List.getLast?_singleton] at he
        rw [if_pos (Option.some.inj he)]
    | cons d l =>
      obtain ⟨hc, ht⟩ := h.tail
      rw [List.cons_append, textLines, if_neg hc, ih ht]

/-- A text that is not empty begins with a line. -/
theorem exists_isLine {t : List α} (ht : t ≠ []) : ∃ l rest, t = l ++ rest ∧ IsLine s l rest := by
  induction t with
  | nil => exact absurd rfl ht
  | cons c t ih =>
    by_cases hc : c = s
    · subst hc
      exact ⟨[c], t, rfl, List.cons_ne_nil c [], List.not_mem_nil, Or.inr rfl⟩
    · by_cases ht' : t = []
      · subst ht'
        exact ⟨[c], [], rfl, List.cons_ne_nil c [], List.not_mem_nil, Or.inl rfl⟩
      · obtain ⟨l, rest, rfl, hl⟩ := ih ht'
        obtain ⟨d, l, rfl⟩ := List.exists_cons_of_ne_nil hl.nonempty
        refine ⟨c :: d :: l, rest, rfl, List.cons_ne_nil c _, ?_, ?_⟩
        · rw [List.dropLast_cons_cons, List.mem_cons, not_or]
          exact ⟨Ne.symm hc, hl.inside⟩
        · rw [List.getLast?_cons_cons]
          exact hl.ended

/-- Texts are built line by line. -/
theorem lines_induction {P : List α → Prop} (nil : P [])
    (line : ∀ l rest, IsLine s l rest → P rest → P (l ++ rest)) (t : List α) : P t := by
  induction hn : t.length using Nat.strong_induction_on generalizing t with
  | _ n ih =>
    by_cases ht : t = []
    · rw [ht]
      exact nil
    · obtain ⟨l, rest, rfl, hl⟩ := exists_isLine (s := s) ht
      have hpos := List.length_pos_iff.mpr hl.nonempty
      rw [List.length_append] at hn
      exact line l rest hl (ih rest.length (by omega) rest rfl)

omit [DecidableEq α] in
theorem IsLine.drop {n : ℕ} (h : IsLine s l rest) (hn : n < l.length) :
    IsLine s (l.drop n) rest := by
  refine ⟨?_, ?_, ?_⟩
  · intro hnil
    rw [List.drop_eq_nil_iff] at hnil
    omega
  · intro hm
    have hmem : s ∈ l.dropLast.drop n := by
      have hlen : n + (l.length - n - 1) = l.length - 1 := by omega
      rwa [List.dropLast_eq_take, List.length_drop, List.take_drop, hlen,
        ← List.dropLast_eq_take] at hm
    exact h.inside (List.mem_of_mem_drop hmem)
  · rw [List.getLast?_drop, if_neg (by omega)]
    exact h.ended

theorem IsLine.count (h : IsLine s l rest) (hend : l.getLast? = some s) : l.count s = 1 := by
  have hl : l = l.dropLast ++ [s] := by
    obtain ⟨front, rfl⟩ := List.getLast?_eq_some_iff.mp hend
    rw [List.dropLast_concat]
  rw [hl, List.count_append, List.count_eq_zero_of_not_mem h.inside, List.count_singleton_self]

/-! ## Pieces -/

omit [DecidableEq α]

def pieces (n : ℕ) (l : List α) : List (List α) :=
  if 0 < n ∧ n < l.length then l.take n :: pieces n (l.drop n) else [l]
termination_by l.length
decreasing_by rw [List.length_drop]; omega

theorem pieces_short {n : ℕ} (h : l.length ≤ n) : pieces n l = [l] := by
  rw [pieces, if_neg (by omega)]

theorem pieces_long {n : ℕ} (hn : 0 < n) (h : n < l.length) :
    pieces n l = l.take n :: pieces n (l.drop n) := by
  conv_lhs => rw [pieces, if_pos ⟨hn, h⟩]

/-- A line is short, or it has a full piece and the rest. -/
theorem pieces_induction {n : ℕ} (hn : 0 < n) {P : List α → Prop} (short : ∀ l, l.length ≤ n → P l)
    (long : ∀ l, n < l.length → P (l.drop n) → P l) (l : List α) : P l := by
  induction hm : l.length using Nat.strong_induction_on generalizing l with
  | _ m ih =>
    by_cases h : l.length ≤ n
    · exact short l h
    · exact long l (by omega)
        (ih (l.drop n).length (by rw [List.length_drop]; omega) (l.drop n) rfl)

theorem flatten_pieces {n : ℕ} (hn : 0 < n) (l : List α) : (pieces n l).flatten = l := by
  induction l using pieces_induction hn with
  | short l h => rw [pieces_short h, List.flatten_singleton]
  | long l h ih => rw [pieces_long hn h, List.flatten_cons, ih, List.take_append_drop]

theorem length_pieces {n : ℕ} (hn : 0 < n) (l : List α) :
    (pieces n l).length = (l.length - 1) / n + 1 := by
  induction l using pieces_induction hn with
  | short l h => rw [pieces_short h, List.length_singleton, Nat.div_eq_of_lt (by omega)]
  | long l h ih =>
    have hsub : l.length - 1 = (l.length - n - 1) + n := by omega
    rw [pieces_long hn h, List.length_cons, ih, List.length_drop, hsub, Nat.add_div_right _ hn]

theorem pieces_isInfix {n : ℕ} (hn : 0 < n) (l : List α) : ∀ p ∈ pieces n l, p <:+: l := by
  induction l using pieces_induction hn with
  | short l h =>
    intro p hp
    rw [pieces_short h, List.mem_singleton] at hp
    rw [hp]
  | long l h ih =>
    intro p hp
    rw [pieces_long hn h] at hp
    rcases List.mem_cons.mp hp with rfl | hp
    · exact (List.take_prefix n l).isInfix
    · exact (ih p hp).trans (List.drop_suffix n l).isInfix

theorem pieces_ne_nil {n : ℕ} (hn : 0 < n) (hl : l ≠ []) : ∀ p ∈ pieces n l, p ≠ [] := by
  induction l using pieces_induction hn with
  | short l h =>
    intro p hp
    rw [pieces_short h, List.mem_singleton] at hp
    rwa [hp]
  | long l h ih =>
    intro p hp
    rw [pieces_long hn h] at hp
    rcases List.mem_cons.mp hp with rfl | hp
    · rw [ne_eq, List.take_eq_nil_iff, not_or]
      exact ⟨hn.ne', hl⟩
    · refine ih ?_ p hp
      rw [ne_eq, List.drop_eq_nil_iff]
      omega

/-- Where the pieces are not empty, the text tells how many of them it takes. -/
theorem eq_of_flatten_eq {A B X Y : List (List α)} (hA : ∀ a ∈ A, a ≠ []) (hB : ∀ b ∈ B, b ≠ [])
    (h : A ++ X = B ++ Y) (hf : A.flatten = B.flatten) : A = B := by
  induction A generalizing B with
  | nil =>
    cases B with
    | nil => rfl
    | cons b B => exact absurd (List.append_eq_nil_iff.mp hf.symm).1 (hB b List.mem_cons_self)
  | cons a A ih =>
    cases B with
    | nil => exact absurd (List.append_eq_nil_iff.mp hf).1 (hA a List.mem_cons_self)
    | cons b B =>
      obtain ⟨rfl, htail⟩ := List.cons_eq_cons.mp h
      have hrest := List.append_cancel_left hf
      rw [ih (fun x hx => hA x (List.mem_cons_of_mem _ hx))
        (fun x hx => hB x (List.mem_cons_of_mem _ hx))
        htail hrest]

end Klone.TextLines
