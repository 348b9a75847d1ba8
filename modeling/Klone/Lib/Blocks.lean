import Mathlib

/-! # A buffer that is passed on when it is full

Elements are put into a buffer one at a time, and a buffer of `n` elements is passed on
at once and emptied.
-/
namespace Klone.Blocks
variable {α : Type*} {n : ℕ}

/-- The blocks passed on while `x` is put into a buffer that has `b`, and what is then in it. -/
def fill (n : ℕ) : List α → List α → List (List α) × List α
  | b, [] => ([], b)
  | b, c :: x =>
    if b.length + 1 = n then ((b ++ [c]) :: (fill n [] x).1, (fill n [] x).2)
    else fill n (b ++ [c]) x

theorem fill_append (b x y : List α) :
    fill n b (x ++ y) = ((fill n b x).1 ++ (fill n (fill n b x).2 y).1,
      (fill n (fill n b x).2 y).2) := by
  induction x generalizing b with
  | nil => simp [fill]
  | cons c x ih =>
    rw [List.cons_append, fill, fill]
    split
    · simp [ih]
    · exact ih (b ++ [c])

theorem fill_short {b x : List α} (h : b.length + x.length < n) : fill n b x = ([], b ++ x) := by
  induction x generalizing b with
  | nil => simp [fill]
  | cons c x ih =>
    rw [List.length_cons] at h
    rw [fill, if_neg (by omega), ih (by simp; omega)]
    simp

/-- Exactly what the buffer takes. -/
theorem fill_exact {b x : List α} (hx : x ≠ []) (h : b.length + x.length = n) :
    fill n b x = ([b ++ x], []) := by
  obtain ⟨front, c, rfl⟩ := List.eq_nil_or_concat x |>.resolve_left hx
  simp only [List.concat_eq_append, List.length_append, List.length_singleton] at h ⊢
  rw [fill_append, fill_short (by omega)]
  simp [fill, ← h, Nat.add_assoc]

theorem fill_flatten (b x : List α) : (fill n b x).1.flatten ++ (fill n b x).2 = b ++ x := by
  induction x generalizing b with
  | nil => simp [fill]
  | cons c x ih =>
    rw [fill]
    split
    · simpa using ih []
    · simpa using ih (b ++ [c])

theorem fill_length {b : List α} (hb : b.length < n) (x : List α) :
    (fill n b x).2.length = (b.length + x.length) % n := by
  induction x generalizing b with
  | nil => simp [fill, Nat.mod_eq_of_lt hb]
  | cons c x ih =>
    rw [fill, List.length_cons]
    split
    next h =>
      rw [ih (by simp; omega), List.length_nil, zero_add,
        show b.length + (x.length + 1) = x.length + n by omega,
        Nat.add_mod_right]
    next h =>
      rw [ih (by simp; omega), List.length_append, List.length_singleton,
        show b.length + (x.length + 1) =
        b.length + 1 + x.length by omega]

/-- A text that is closed by one more element, which is taken back unless it was passed on. -/
def closed (n : ℕ) (x : List α) (o : α) : List (List α) :=
  (fill n [] (x ++ [o])).1 ++ [(fill n [] (x ++ [o])).2.dropLast].filter (fun b => !b.isEmpty)

/-- The closing element is passed on when it fills the buffer. -/
theorem closed_flatten (hn : 0 < n) (x : List α) (o : α) :
    (closed n x o).flatten = x ++ if (x.length + 1) % n = 0 then [o] else [] := by
  have hall := fill_flatten (n := n) [] (x ++ [o])
  have hlen := fill_length (b := []) hn (x ++ [o])
  have hlast : ([(fill n [] (x ++ [o])).2.dropLast].filter (fun b => !b.isEmpty)).flatten =
      (fill n [] (x ++ [o])).2.dropLast := by
    cases (fill n [] (x ++ [o])).2.dropLast with
    | nil => rfl
    | cons c b => simp
  rw [closed, List.flatten_append, hlast]
  simp only [List.length_nil, zero_add, List.length_append, List.length_singleton,
    List.nil_append] at hlen hall
  split
  next h =>
    have hnil : (fill n [] (x ++ [o])).2 = [] := List.length_eq_zero_iff.mp (hlen.trans h)
    rw [hnil, List.append_nil] at hall
    simp [hnil, hall]
  next h =>
    have hne : (fill n [] (x ++ [o])).2 ≠ [] := fun he => h (by rw [← hlen, he, List.length_nil])
    have hdrop := congrArg List.dropLast hall
    rw [List.dropLast_append_of_ne_nil hne, List.dropLast_concat] at hdrop
    rw [hdrop, List.append_nil]

/-- A text that the buffer takes is one block, or none if it is empty. -/
theorem closed_fits {x : List α} (hle : x.length ≤ n) (hne : x.length + 1 ≠ n) (hn : 1 < n)
    (o : α) :
    closed n x o = [x].filter (fun b => !b.isEmpty) := by
  rcases Nat.lt_or_eq_of_le hle with hlt | heq
  · rw [closed, fill_short (by simp; omega)]
    simp
  · have hx : x ≠ [] := fun h => by simp [h] at heq; omega
    rw [closed, fill_append, fill_exact hx (by simpa using heq)]
    have hempty : x.isEmpty = false := by simpa using hx
    simp [fill, hn.ne, hempty]

/-- Another text is cut, or its last block has the closing element. -/
theorem closed_head {x : List α} (h : n < x.length ∨ x.length + 1 = n) (o : α) (hn : 0 < n) :
    ∃ y rest, closed n x o = y :: rest ∧ y ≠ x := by
  rcases h with hlong | hedge
  · have hcut : x = x.take n ++ x.drop n := (List.take_append_drop n x).symm
    have hlen : (x.take n).length = n := by rw [List.length_take]; omega
    have hne : x.take n ≠ [] := fun he => by simp [he] at hlen; omega
    have hfill : (fill n [] (x ++ [o])).1 = x.take n :: (fill n [] (x.drop n ++ [o])).1 := by
      have hexact := fill_exact (b := []) hne (by rw [List.length_nil, zero_add, hlen])
      have happ := fill_append (n := n) [] (x.take n) (x.drop n ++ [o])
      rw [hexact, ← List.append_assoc, ← hcut] at happ
      simp [happ]
    refine ⟨x.take n, _, by rw [closed, hfill, List.cons_append], fun he => ?_⟩
    rw [he] at hlen
    omega
  · have hexact := fill_exact (b := []) (n := n) (x := x ++ [o]) (by simp) (by simpa using hedge)
    refine ⟨x ++ [o], [], ?_, by simp⟩
    simp [closed, hexact]

end Klone.Blocks
