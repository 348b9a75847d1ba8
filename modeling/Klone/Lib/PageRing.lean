import Mathlib

/-! # Rings of pages

A log of bounded size in `n` pages of `m` elements. One page is written at a time; when
it is full the next one round the ring is emptied and takes its place. `window` is what
the ring has, from the oldest page to the one that is written.
-/
namespace Klone.PageRing
variable {α : Type*} {n m w : ℕ} {page : ℕ → List α} {logged : List α}

/-- The pages other than `w`, from the one after it round the ring. -/
def older (n w : ℕ) (page : ℕ → List α) : List α :=
  (List.range (n - 1)).flatMap fun i => page ((w + 1 + i) % n)

def window (n w : ℕ) (page : ℕ → List α) : List α :=
  (List.range n).flatMap fun i => page ((w + 1 + i) % n)

theorem window_eq (hw : w < n) : window n w page = older n w page ++ page w := by
  obtain ⟨k, rfl⟩ : ∃ k, n = k + 1 := ⟨n - 1, by omega⟩
  have hlast : (w + 1 + k) % (k + 1) = w := by
    rw [show w + 1 + k = w + (k + 1) by omega, Nat.add_mod_right, Nat.mod_eq_of_lt hw]
  simp [window, older, List.range_succ, hlast]

theorem step_ne {i : ℕ} (hw : w < n) (hi : i < n - 1) : (w + 1 + i) % n ≠ w := by
  rcases lt_or_ge (w + 1 + i) n with h | h
  · rw [Nat.mod_eq_of_lt h]
    omega
  · rw [Nat.mod_eq_sub_mod h, Nat.mod_eq_of_lt (by omega)]
    omega

theorem older_update (hw : w < n) (l : List α) :
    older n w (Function.update page w l) = older n w page := by
  simp only [older, List.flatMap_def]
  congr 1
  refine List.map_congr_left fun i hi => ?_
  rw [Function.update_of_ne (step_ne hw (List.mem_range.mp hi))]

theorem window_append (page : ℕ → List α) (hw : w < n) (l : List α) :
    window n w (Function.update page w (page w ++ l)) = window n w page ++ l := by
  simp [window_eq hw, older_update hw]

/-- The next page is the oldest one, and it is what a shift loses. -/
theorem window_shift (page : ℕ → List α) (hw : w < n) :
    window n w page = page ((w + 1) % n) ++ window n ((w + 1) % n)
    (Function.update page ((w + 1) % n) []) := by
  have hn : (w + 1) % n < n := Nat.mod_lt _ (by omega)
  rw [window_eq hn, older_update hn, Function.update_self, List.append_nil]
  obtain ⟨k, rfl⟩ : ∃ k, n = k + 1 := ⟨n - 1, by omega⟩
  have hstep : ∀ i, (w + 1 + (i + 1)) % (k + 1) = ((w + 1) % (k + 1) + 1 + i) % (k + 1) := by
    intro i
    rw [show w + 1 + (i + 1) = w + 1 + (1 + i) by omega, add_assoc ((w + 1) % (k + 1))]
    simp only [Nat.mod_add_mod]
  simp [window, older, List.range_succ_eq_map, List.flatMap_map, hstep]

theorem window_eq_nil_iff (hw : w < n) : window n w page = [] ↔ ∀ i < n, page i = [] := by
  simp only [window, List.flatMap_eq_nil_iff, List.mem_range]
  constructor
  · intro h i hi
    -- page `i` is `i + n - (w + 1)` steps after the one after `w`
    have hk := h ((i + n - (w + 1)) % n) (Nat.mod_lt _ (by omega))
    rwa [Nat.add_mod_mod, show w + 1 + (i + n - (w + 1)) = i + n by omega, Nat.add_mod_right,
      Nat.mod_eq_of_lt hi] at hk
  · exact fun h i _ => h _ (Nat.mod_lt _ (by omega))

theorem older_length (hw : w < n) (h : ∀ i < n, i ≠ w → (page i).length = m) :
    (older n w page).length = (n - 1) * m := by
  have hlen : (List.range (n - 1)).map (fun i => (page ((w + 1 + i) % n)).length) =
      (List.range (n - 1)).map fun _ => m := by
    refine List.map_congr_left fun i hi => ?_
    exact h _ (Nat.mod_lt _ (by omega)) (step_ne hw (List.mem_range.mp hi))
  simp [older, List.length_flatMap, hlen]

/-- What a ring of pages promises for what has been logged: it has the last elements, all
of them or more than what all pages but one hold. -/
structure Holds (n m w : ℕ) (page : ℕ → List α) (logged : List α) : Prop where
  inside : w < n
  bounded : ∀ i < n, (page i).length ≤ m
  recent : window n w page <:+ logged
  most : window n w page = logged ∨ (n - 1) * m < (window n w page).length

/-- The pages before `w` are full and those after it are empty, or all others are full. -/
structure Kept (n m w : ℕ) (page : ℕ → List α) (logged : List α) : Prop where
  inside : w < n
  room : (page w).length ≤ m
  recent : window n w page <:+ logged
  filled : (window n w page = logged ∧ (∀ i < w, (page i).length = m) ∧ ∀ i < n, w < i →
    page i = []) ∨
    page w ≠ [] ∧ ∀ i < n, i ≠ w → (page i).length = m

theorem Kept.holds (h : Kept n m w page logged) : Holds n m w page logged := by
  refine ⟨h.inside, fun i hi => ?_, h.recent, ?_⟩
  · rcases Nat.lt_trichotomy i w with hlt | rfl | hgt
    · rcases h.filled with ⟨-, hfull, -⟩ | ⟨-, hfull⟩
      · exact (hfull i hlt).le
      · exact (hfull i hi hlt.ne).le
    · exact h.room
    · rcases h.filled with ⟨-, -, hempty⟩ | ⟨-, hfull⟩
      · simp [hempty i hi hgt]
      · exact (hfull i hi hgt.ne').le
  · rcases h.filled with ⟨hall, -, -⟩ | ⟨hne, hfull⟩
    · exact Or.inl hall
    · right
      have hpos := List.length_pos_iff.mpr hne
      rw [window_eq h.inside, List.length_append, older_length h.inside hfull]
      omega

theorem kept_empty (hn : 0 < n) (h : ∀ i < n, page i = []) : Kept n m 0 page [] := by
  have hwin : window n 0 page = [] := (window_eq_nil_iff hn).mpr h
  refine ⟨hn, by simp [h 0 hn], by simp [hwin], Or.inl ⟨hwin, ?_, fun i hi _ => h i hi⟩⟩
  exact fun i hi => absurd hi (Nat.not_lt_zero i)

theorem Kept.append (h : Kept n m w page logged) {a : α} (hroom : (page w).length < m) :
    Kept n m w (Function.update page w (page w ++ [a])) (logged ++ [a]) := by
  have hwin := window_append page h.inside [a]
  refine ⟨h.inside, by simpa using hroom, ?_, ?_⟩
  · rw [hwin]
    obtain ⟨old, hold⟩ := h.recent
    exact ⟨old, by simp [← hold]⟩
  · rcases h.filled with ⟨hall, hfull, hempty⟩ | ⟨-, hfull⟩
    · refine Or.inl ⟨by rw [hwin, hall], fun i hi => ?_, fun i hi hgt => ?_⟩
      · simpa [Function.update_of_ne hi.ne] using hfull i hi
      · simpa [Function.update_of_ne hgt.ne'] using hempty i hi hgt
    · refine Or.inr ⟨by simp, fun i hi hne => ?_⟩
      simpa [Function.update_of_ne hne] using hfull i hi hne

/-- A full page is followed by the next one, which starts with the new element. -/
theorem Kept.shift (h : Kept n m w page logged) {a : α} (hn : 2 ≤ n) (hfull : (page w).length = m)
    (hm : 0 < m) :
    Kept n m ((w + 1) % n) (Function.update page ((w + 1) % n) [a]) (logged ++ [a]) := by
  have hw' : (w + 1) % n < n := Nat.mod_lt _ (by omega)
  have hne : (w + 1) % n ≠ w := by simpa using step_ne (i := 0) h.inside (by omega)
  have happ := window_append (Function.update page ((w + 1) % n) []) hw' [a]
  simp only [Function.update_self, Function.update_idem, List.nil_append] at happ
  have hshift := window_shift page h.inside
  refine ⟨hw', by simpa [Nat.succ_le_iff] using hm, ?_, ?_⟩
  · rw [happ]
    obtain ⟨old, hold⟩ := h.recent
    exact ⟨old ++ page ((w + 1) % n), by simp [← hold, hshift]⟩
  · have hother : ∀ i, i ≠ (w + 1) % n → Function.update page ((w + 1) % n) [a] i = page i :=
      fun i hi => Function.update_of_ne hi _ _
    rcases h.filled with ⟨hall, hbefore, hempty⟩ | ⟨-, hbefore⟩
    · by_cases hlast : w + 1 = n
      · -- the first time round: every other page is full by now
        refine Or.inr ⟨by simp, fun i hi hine => ?_⟩
        rw [hother i hine]
        rcases Nat.lt_or_eq_of_le (Nat.le_of_lt_succ (hlast ▸ hi)) with hlt | rfl
        · exact hbefore i hlt
        · exact hfull
      · have hnext : (w + 1) % n = w + 1 := Nat.mod_eq_of_lt (by have := h.inside; omega)
        have hblank : page (w + 1) = [] := hempty (w + 1) (hnext ▸ hw') (by omega)
        refine Or.inl ⟨?_, fun i hi => ?_, fun i hi hgt => ?_⟩
        · rw [happ, ← hall, hshift, hnext, hblank, List.nil_append]
        · rw [hother i (by omega)]
          rcases Nat.lt_or_eq_of_le (Nat.le_of_lt_succ (hnext ▸ hi)) with hlt | rfl
          · exact hbefore i hlt
          · exact hfull
        · rw [hother i (by omega)]
          exact hempty i hi (by omega)
    · refine Or.inr ⟨by simp, fun i hi hine => ?_⟩
      rw [hother i hine]
      by_cases hiw : i = w
      · rw [hiw, hfull]
      · exact hbefore i hi hiw

end Klone.PageRing
