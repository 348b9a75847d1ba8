import Mathlib

/-! # Windows in a block of memory

A buffer of fixed size with an offset and a count: the bytes in use are a window of
the block, bytes are added behind the window and taken from its front.
-/
namespace Klone
variable {α : Type*}

/-- The `count` items from `off` on. -/
def window (mem : List α) (off count : ℕ) : List α := (mem.drop off).take count

def blit (mem : List α) (off : ℕ) (new : List α) : List α :=
  mem.take off ++ new ++ mem.drop (off + new.length)

theorem window_zero (mem : List α) (off : ℕ) : window mem off 0 = [] := rfl

theorem length_window {mem : List α} {off count : ℕ} (h : off + count ≤ mem.length) :
    (window mem off count).length = count := by
  rw [window, List.length_take, List.length_drop]
  omega

theorem length_blit {mem : List α} {off : ℕ} {new : List α} (h : off + new.length ≤ mem.length) :
    (blit mem off new).length = mem.length := by
  simp only [blit, List.length_append, List.length_take, List.length_drop]
  omega

theorem window_take (mem : List α) (off : ℕ) {count k : ℕ} (h : k ≤ count) :
    window mem off k = (window mem off count).take k := by
  rw [window, window, List.take_take, Nat.min_eq_left h]

/-- Items stored behind the window extend it by as many as are counted. -/
theorem window_blit {mem : List α} {off count : ℕ} {new : List α}
    (h : off + count + new.length ≤ mem.length) {n : ℕ} (hn : n ≤ new.length) :
    window (blit mem (off + count) new) off (count + n) = window mem off count ++ new.take n := by
  have hlen : (mem.take (off + count)).length = off + count := by
    rw [List.length_take]
    omega
  have hdrop : (mem.take (off + count)).drop off = window mem off count := by
    rw [List.drop_take, Nat.add_sub_cancel_left]
    rfl
  have hw : (window mem off count).length = count := length_window (by omega)
  have hz : n - new.length = 0 := by omega
  rw [window, blit, List.append_assoc, List.drop_append_of_le_length (by omega), hdrop,
    List.take_append, hw,
    Nat.add_sub_cancel_left, List.take_of_length_le (by omega), List.take_append, hz,
      List.take_zero,
    List.append_nil]

/-- A block filled from its start. -/
theorem window_blit_start {mem new : List α} (h : new.length ≤ mem.length) :
    window (blit mem 0 new) 0 new.length = new := by
  have hb : window (blit mem (0 + 0) new) 0 (0 + new.length) =
      window mem 0 0 ++ new.take new.length :=
    window_blit (by omega) (le_refl _)
  rw [Nat.zero_add, Nat.zero_add, window_zero, List.nil_append, List.take_length] at hb
  exact hb

/-- Items taken from the front of the window. -/
theorem window_drop (mem : List α) (off count k : ℕ) :
    window mem (off + k) (count - k) = (window mem off count).drop k := by
  rw [window, window, List.drop_take, List.drop_drop]

end Klone
