import Klone.Request.Delimiting
import Klone.Request.MultipartBounds

/-! # How far the data of a part extends

A part loop reads up to the first delimiter, or to the end of the stream, unless a chunk is
refused on the way. This is said of the bytes alone, chunk by chunk, for every stream, those
included that run over the buffer.
-/
namespace Klone.Multipart
open Loop Matcher

/-- `read_until` returns after `k` bytes for lack of room: they do not end half-way through
the delimiter, as they do at each earlier place without room. -/
structure ChunkEnd (stopAt : Str) (size : ℕ) (s : List Byte) (k : ℕ) : Prop where
  inside : k ≤ s.length
  absent : ¬ stopAt <:+: s.take k
  full : sizeDec^[k] size < stopAt.length + 1
  between : ¬ Partial stopAt (s.take k)
  first : ∀ j < k, sizeDec^[j] size < stopAt.length + 1 → Partial stopAt (s.take j)

/-- The bytes that a part loop takes when `total` bytes of the part have been passed on, and
whether the part is complete then. -/
inductive PartTaken (stopAt : Str) (size : ℕ) (accepts : ℕ → Bool) : ℕ → List Byte → ℕ → Bool → Prop
  | delimited {total : ℕ} {s pre post : List Byte} (hno : ∀ k, ¬ ChunkEnd stopAt size s k)
      (hfirst : FirstAt stopAt s pre post) :
      PartTaken stopAt size accepts total s (pre ++ stopAt).length (accepts (total + pre.length))
  | ended {total : ℕ} {s : List Byte} (hno : ∀ k, ¬ ChunkEnd stopAt size s k)
    (habsent : ¬ stopAt <:+: s) :
      PartTaken stopAt size accepts total s s.length false
  | refused {total k : ℕ} {s : List Byte} (hk : ChunkEnd stopAt size s k)
    (hrefused : accepts (total + k) = false) :
      PartTaken stopAt size accepts total s k false
  | chunk {total k n : ℕ} {s : List Byte} {complete : Bool} (hk : ChunkEnd stopAt size s k)
      (haccepted : accepts (total + k) = true)
      (hrest : PartTaken stopAt size accepts (total + k) (s.drop k) n complete) :
      PartTaken stopAt size accepts total s (k + n) complete

variable {a : Byte} {d : Str} {size : ℕ} {accepts : ℕ → Bool}

/-! ## One call -/

theorem ChunkEnd.pos {s : List Byte} {k : ℕ} (hsize : (a :: d).length + 1 ≤ size)
    (h : ChunkEnd (a :: d) size s k) : 0 < k := by
  by_contra hk
  obtain rfl : k = 0 := by omega
  have hfull := h.full
  rw [Function.iterate_zero_apply] at hfull
  omega

theorem ChunkEnd.unique {stopAt : Str} {s : List Byte} {j k : ℕ} (hj : ChunkEnd stopAt size s j)
    (hk : ChunkEnd stopAt size s k) :
    j = k := by
  rcases Nat.lt_trichotomy j k with hlt | rfl | hgt
  · exact absurd (hk.first j hlt hj.full) hj.between
  · rfl
  · exact absurd (hj.first k hgt hk.full) hk.between

theorem PartTaken.le {stopAt : Str} {total : ℕ} {s : List Byte} {n : ℕ} {complete : Bool}
    (h : PartTaken stopAt size accepts total s n complete) : n ≤ s.length := by
  induction h with
  | delimited _ hfirst =>
    rw [hfirst.split, List.length_append, List.length_append, List.length_append]
    exact Nat.le_add_right _ _
  | ended => exact le_rfl
  | refused hk => exact hk.inside
  | chunk hk _ _ ih =>
    have hinside := hk.inside
    rw [List.length_drop] at ih
    omega

theorem source_skip_skip (src : Source) (m n : ℕ) : (src.skip m).skip n = src.skip (m + n) := by
  simp only [Source.skip, List.drop_drop, Nat.add_assoc]

end Klone.Multipart
