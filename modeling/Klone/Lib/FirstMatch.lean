import Klone.Lib.Matcher

/-! # The first occurrence of a pattern

A text may be cut where it does not end half-way through the pattern: the pattern then
occurs behind the cut where it occurs in the whole text.
-/
namespace Klone.Matcher
variable {α : Type*} {pattern text cut rest pre post : List α}

structure FirstAt (pattern text pre post : List α) : Prop where
  split : text = pre ++ pattern ++ post
  first : ¬ pattern <:+: pre ++ pattern.dropLast

theorem infix_behind (hno : ¬ Partial pattern cut) (habsent : ¬ pattern <:+: cut) :
    pattern <:+: cut ++ rest ↔ pattern <:+: rest := by
  rw [List.infix_append_iff_ne_nil]
  constructor
  · rintro (h | h | ⟨l₁, l₂, hne, -, rfl, hsuffix, -⟩)
    · exact absurd h habsent
    · exact h
    · exact absurd ⟨l₁, hne, List.prefix_append l₁ l₂, hsuffix⟩ hno
  · exact fun h => Or.inr (Or.inl h)

theorem FirstAt.behind (h : FirstAt pattern rest pre post) (hno : ¬ Partial pattern cut)
    (habsent : ¬ pattern <:+: cut) : FirstAt pattern (cut ++ rest) (cut ++ pre) post := by
  refine ⟨by simp [h.split], ?_⟩
  rw [List.append_assoc, infix_behind hno habsent]
  exact h.first

theorem FirstAt.occurs (h : FirstAt pattern text pre post) : pattern <:+: text :=
  ⟨pre, post, h.split.symm⟩

theorem FirstAt.tail {a : α} (h : FirstAt pattern (a :: text) (a :: pre) post) :
    FirstAt pattern text pre post := by
  refine ⟨(List.cons.inj h.split).2, fun hocc => h.first ?_⟩
  exact hocc.trans (List.suffix_cons a _).isInfix

theorem firstAt_of_infix (hne : pattern ≠ []) (h : pattern <:+: text) :
    ∃ pre post, FirstAt pattern text pre post := by
  obtain ⟨n, hn⟩ : ∃ n, text.length = n := ⟨_, rfl⟩
  induction n using Nat.strong_induction_on generalizing text with
  | h n ih =>
    obtain ⟨pre, post, hsplit⟩ := h
    by_cases hfirst : pattern <:+: pre ++ pattern.dropLast
    · have hshort : (pre ++ pattern.dropLast).length < n := by
        have hpos := List.length_pos_iff.mpr hne
        rw [← hn, ← hsplit]
        simp only [List.length_append, List.length_dropLast]
        omega
      obtain ⟨pre', post', hsplit', hfirst'⟩ := ih _ hshort hfirst rfl
      refine ⟨pre', post' ++ [pattern.getLast hne] ++ post, ?_, hfirst'⟩
      calc text = pre ++ (pattern.dropLast ++ [pattern.getLast hne]) ++ post := by
            rw [List.dropLast_append_getLast hne, hsplit]
        _ = pre' ++ pattern ++ (post' ++ [pattern.getLast hne] ++ post) := by
            rw [← List.append_assoc pre, hsplit']
            simp
    · exact ⟨pre, post, hsplit.symm, hfirst⟩

theorem FirstAt.not_later {pre' post' : List α} (h : FirstAt pattern text pre post)
    (h' : FirstAt pattern text pre' post') (hne : pattern ≠ []) : pre'.length ≤ pre.length := by
  by_contra hlt
  apply h'.first
  -- the first occurrence would lie before the end of the second one
  have hle : (pre ++ pattern).length ≤ (pre' ++ pattern.dropLast).length := by
    have hpos := List.length_pos_iff.mpr hne
    simp only [List.length_append, List.length_dropLast]
    omega
  have hp : pre ++ pattern <+: text := ⟨post, by rw [h.split]⟩
  have hp' : pre' ++ pattern.dropLast <+: text := by
    refine ⟨[pattern.getLast hne] ++ post', ?_⟩
    rw [h'.split, List.append_assoc pre', List.append_assoc pre',
      ← List.append_assoc pattern.dropLast,
      List.dropLast_append_getLast hne]
  exact (List.suffix_append pre pattern).isInfix.trans
    (List.prefix_of_prefix_length_le hp hp' hle).isInfix

theorem FirstAt.unique {pre' post' : List α} (h : FirstAt pattern text pre post)
    (h' : FirstAt pattern text pre' post') (hne : pattern ≠ []) : pre = pre' ∧ post = post' := by
  have hlen : pre.length = pre'.length := le_antisymm (h'.not_later h hne) (h.not_later h' hne)
  have hsplit := h.split.symm.trans h'.split
  rw [List.append_assoc, List.append_assoc] at hsplit
  obtain ⟨rfl, htail⟩ := List.append_inj hsplit hlen
  exact ⟨rfl, List.append_cancel_left htail⟩

/-- A cut that is not half-way through the pattern comes before it. -/
theorem FirstAt.past (h : FirstAt pattern (cut ++ rest) pre post) (hne : pattern ≠ [])
    (hno : ¬ Partial pattern cut) (habsent : ¬ pattern <:+: cut) :
    ∃ pre', pre = cut ++ pre' ∧ FirstAt pattern rest pre' post := by
  obtain ⟨pre', post', hfirst⟩ := firstAt_of_infix hne ((infix_behind hno habsent).mp h.occurs)
  obtain ⟨rfl, rfl⟩ := h.unique (hfirst.behind hno habsent) hne
  exact ⟨pre', rfl, hfirst⟩

/-- A pattern with a unique first letter occurs first behind a text that does not have it. -/
theorem firstAt_append {a : α} {d : List α} (ha : a ∉ d) (habsent : ¬ (a :: d) <:+: pre) :
    FirstAt (a :: d) (pre ++ (a :: d) ++ post) pre post := by
  refine ⟨rfl, fun hocc => ?_⟩
  rcases List.infix_append_iff_ne_nil.mp hocc with h | h | ⟨l₁, l₂, hne₁, hne₂, hsplit, -, hbegins⟩
  · exact habsent h
  · have hlen := h.length_le
    simp at hlen
  · -- the part of the pattern at the end would begin with its first letter
    obtain ⟨b, l₁, rfl⟩ := List.exists_cons_of_ne_nil hne₁
    obtain ⟨c, l₂, rfl⟩ := List.exists_cons_of_ne_nil hne₂
    obtain ⟨-, hd⟩ := List.cons.inj hsplit
    have hc : c = a := by
      have hbegins' := hbegins.trans (List.dropLast_prefix (a :: d))
      exact (List.cons_prefix_cons.mp hbegins').1
    exact ha (by rw [hd, hc]; simp)

end Klone.Matcher
