import Klone.Lib.Blocks

/-! # A value that is folded over the blocks of a message

A message comes in pieces of any length. Its full blocks are folded into a value as soon as
they are complete, and the beginning of the next one is kept.
-/
namespace Klone.Digest
open Blocks
variable {S α : Type*} {n : ℕ}

def blocksOf (n : ℕ) (m : List α) : List (List α) :=
  (List.range (m.length / n)).map fun i => (m.drop (n * i)).take n

structure Stream (S α : Type*) where
  value : S
  rest : List α

variable (f : S → List α → S)

def Stream.append (n : ℕ) (st : Stream S α) (x : List α) : Stream S α :=
  ⟨(fill n st.rest x).1.foldl f st.value, (fill n st.rest x).2⟩

variable {f} {st : Stream S α} {x : List α}

/-- The pieces in which a message comes do not matter. -/
theorem append_append (st : Stream S α) (x y : List α) :
    (st.append f n x).append f n y = st.append f n (x ++ y) := by
  simp only [Stream.append, fill_append, List.foldl_append]

theorem append_nil (st : Stream S α) : st.append f n [] = st := rfl

theorem foldl_append (st : Stream S α) (pieces : List (List α)) :
    pieces.foldl (Stream.append f n) st = st.append f n pieces.flatten := by
  induction pieces generalizing st with
  | nil => exact (append_nil st).symm
  | cons x pieces ih => rw [List.foldl_cons, ih, append_append, List.flatten_cons]

theorem append_short (h : st.rest.length + x.length < n) :
    st.append f n x = ⟨st.value, st.rest ++ x⟩ := by
  rw [Stream.append, fill_short h]
  rfl

/-- A piece that completes a block. -/
theorem append_exact (hx : x ≠ []) (h : st.rest.length + x.length = n) :
    st.append f n x = ⟨f st.value (st.rest ++ x), []⟩ := by
  rw [Stream.append, fill_exact hx h]
  rfl

/-- A piece that has a block of its own. -/
theorem append_block (hn : 0 < n) (hrest : st.rest = []) (h : n ≤ x.length) :
    st.append f n x = Stream.append f n ⟨f st.value (x.take n), []⟩ (x.drop n) := by
  have hlen : (x.take n).length = n := List.length_take_of_le h
  have hne : x.take n ≠ [] := List.length_pos_iff.mp (hlen.symm ▸ hn)
  have hfull : st.rest.length + (x.take n).length = n := by
    rw [hrest, hlen, List.length_nil, zero_add]
  have hexact : st.append f n (x.take n) = ⟨f st.value (x.take n), []⟩ := by
    rw [append_exact hne hfull, hrest, List.nil_append]
  rw [← hexact, append_append, List.take_append_drop]

theorem append_rest_length (hst : st.rest.length < n) (x : List α) :
    (st.append f n x).rest.length = (st.rest.length + x.length) % n :=
  fill_length hst x

theorem blocksOf_cons (hn : 0 < n) (h : n ≤ x.length) :
    blocksOf n x = x.take n :: blocksOf n (x.drop n) := by
  have hdiv : x.length / n = (x.drop n).length / n + 1 := by
    rw [List.length_drop, ← Nat.sub_add_cancel h, Nat.add_div_right _ hn, Nat.add_sub_cancel]
  rw [blocksOf, blocksOf, hdiv, List.range_succ_eq_map, List.map_cons, List.map_map, Nat.mul_zero,
    List.drop_zero]
  congr 1
  apply List.map_congr_left
  intro i _
  rw [Function.comp_apply, List.drop_drop, Nat.mul_succ, Nat.add_comm]

/-- A message is folded block by block. -/
theorem append_value (hn : 0 < n) (s : S) (x : List α) :
    (Stream.append f n ⟨s, []⟩ x).value = (blocksOf n x).foldl f s := by
  obtain ⟨k, hk⟩ : ∃ k, x.length = k := ⟨_, rfl⟩
  induction k using Nat.strong_induction_on generalizing s x with
  | h k ih =>
    by_cases h : n ≤ x.length
    · rw [append_block hn rfl h, blocksOf_cons hn h, List.foldl_cons]
      exact ih (x.drop n).length (by rw [List.length_drop]; omega) _ _ rfl
    · have hlt := Nat.lt_of_not_le h
      rw [append_short (by simpa using hlt), blocksOf, Nat.div_eq_of_lt hlt]
      rfl

end Klone.Digest
