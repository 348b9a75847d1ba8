import Mathlib

/-! # Prefix codes

A symbol by symbol encoding can be read back if no code word begins with another one.
-/
namespace Klone
variable {α β : Type*}

structure PrefixCode (f : α → List β) : Prop where
  nonempty : ∀ a, f a ≠ []
  apart : ∀ a b, f a <+: f b → a = b

/-- Two texts with one encoding are the same. -/
theorem PrefixCode.flatMap_injective {f : α → List β} (h : PrefixCode f) :
    Function.Injective fun s : List α => s.flatMap f := by
  intro s
  induction s with
  | nil =>
    intro t ht
    cases t with
    | nil => rfl
    | cons b t => exact absurd (List.append_eq_nil_iff.mp ht.symm).1 (h.nonempty b)
  | cons a s ih =>
    intro t ht
    cases t with
    | nil => exact absurd (List.append_eq_nil_iff.mp ht).1 (h.nonempty a)
    | cons b t =>
      have heq : f a ++ s.flatMap f = f b ++ t.flatMap f := ht
      have hab : a = b := by
        rcases List.prefix_or_prefix_of_prefix (List.prefix_append (f a) _)
          (heq ▸ List.prefix_append (f b) _) with hp | hp
        · exact h.apart a b hp
        · exact (h.apart b a hp).symm
      subst hab
      rw [ih (List.append_cancel_left heq)]

end Klone
