import Mathlib

/-! # Eviction by age

Elements of a list are evicted one at a time, each time the last of those with
the least key. `outlive a xs` lists the elements that are still there after `a`
has gone, and eviction of another element does not change it.
-/
namespace Klone.Evict
variable {α : Type*} [DecidableEq α] (key : α → ℕ)

def older (o a : α) : α := if key a ≤ key o then a else o

def victim : List α → Option α
  | [] => none
  | a :: rest => some (rest.foldl (older key) a)

def outlive (a : α) : List α → List α
  | [] => []
  | b :: rest =>
    if b = a then rest.filter (fun c => decide (key a < key c))
    else if key a ≤ key b then b :: outlive a rest
    else outlive a rest

/-- The element `v` splits `xs` into elements before it that are not older and
elements after it that are younger. -/
def Splits (v : α) (xs : List α) : Prop :=
  ∃ ys zs, xs = ys ++ v :: zs ∧ (∀ y ∈ ys, key v ≤ key y) ∧ (∀ z ∈ zs, key v < key z)

omit [DecidableEq α] in
theorem foldl_older_splits (rest ys mid : List α) (a : α) (hys : ∀ y ∈ ys, key a ≤ key y)
    (hmid : ∀ z ∈ mid, key a < key z) :
    Splits key (rest.foldl (older key) a) (ys ++ a :: (mid ++ rest)) := by
  induction rest generalizing ys mid a with
  | nil => exact ⟨ys, mid, by rw [List.append_nil, List.foldl_nil], hys, hmid⟩
  | cons b rest ih =>
    rw [List.foldl_cons, older]
    by_cases hb : key b ≤ key a
    · rw [if_pos hb]
      have hys' : ∀ y ∈ ys ++ a :: mid, key b ≤ key y := by
        intro y hy
        rcases List.mem_append.mp hy with hy | hy
        · exact hb.trans (hys y hy)
        · rcases List.mem_cons.mp hy with rfl | hy
          · exact hb
          · exact hb.trans (hmid y hy).le
      have hs := ih (ys ++ a :: mid) [] b hys' (fun z hz => absurd hz List.not_mem_nil)
      rwa [List.nil_append, List.append_assoc, List.cons_append] at hs
    · rw [if_neg hb]
      have hmid' : ∀ z ∈ mid ++ [b], key a < key z := by
        intro z hz
        rcases List.mem_append.mp hz with hz | hz
        · exact hmid z hz
        · rw [List.mem_singleton.mp hz]
          exact Nat.lt_of_not_le hb
      have hs := ih ys (mid ++ [b]) a hys hmid'
      rwa [List.append_assoc, List.singleton_append] at hs

omit [DecidableEq α] in
theorem victim_splits {xs : List α} {v : α} (h : victim key xs = some v) : Splits key v xs := by
  cases xs with
  | nil => cases h
  | cons a rest =>
    have hs := foldl_older_splits key rest [] [] a (fun y hy => absurd hy List.not_mem_nil)
      (fun z hz => absurd hz List.not_mem_nil)
    have hv : rest.foldl (older key) a = v := Option.some.inj h
    rwa [hv] at hs

omit [DecidableEq α] in
theorem Splits.mem {v : α} {xs : List α} (h : Splits key v xs) : v ∈ xs := by
  obtain ⟨ys, zs, rfl, _, _⟩ := h
  exact List.mem_append_right _ List.mem_cons_self

omit [DecidableEq α] in
theorem victim_isSome {xs : List α} (h : xs ≠ []) : ∃ v, victim key xs = some v := by
  cases xs with
  | nil => exact absurd rfl h
  | cons a rest => exact ⟨_, rfl⟩

/-- Everything but the victim outlives it. -/
theorem Splits.outlive_self {v : α} {xs : List α} (h : Splits key v xs) (hnd : xs.Nodup) :
    outlive key v xs = xs.erase v := by
  obtain ⟨ys, zs, rfl, hys, hzs⟩ := h
  induction ys with
  | nil =>
    rw [List.nil_append, List.erase_cons_head, outlive, if_pos rfl, List.filter_eq_self]
    exact fun z hz => decide_eq_true (hzs z hz)
  | cons y ys ih =>
    obtain ⟨hy, hnd'⟩ := List.nodup_cons.mp hnd
    have hyv : y ≠ v := fun he => hy (he ▸ List.mem_append_right _ List.mem_cons_self)
    rw [List.cons_append, outlive, if_neg hyv, if_pos (hys y List.mem_cons_self),
      ih hnd' (fun c hc => hys c (List.mem_cons_of_mem _ hc)),
      List.erase_cons_tail (by simpa using hyv)]

/-- The eviction of another element does not change what outlives `a`. -/
theorem Splits.outlive_erase {v a : α} {xs : List α} (h : Splits key v xs) (hnd : xs.Nodup)
    (ha : a ∈ xs) (hav : a ≠ v) : outlive key a (xs.erase v) = outlive key a xs := by
  obtain ⟨ys, zs, rfl, hys, hzs⟩ := h
  induction ys with
  | nil =>
    have haz : a ∈ zs := (List.mem_cons.mp ha).resolve_left hav
    rw [List.nil_append, List.erase_cons_head, outlive, if_neg hav.symm,
      if_neg (Nat.not_le.mpr (hzs a haz))]
  | cons y ys ih =>
    obtain ⟨hy, hnd'⟩ := List.nodup_cons.mp hnd
    have hyv : y ≠ v := fun he => hy (he ▸ List.mem_append_right _ List.mem_cons_self)
    have hye : (y :: (ys ++ v :: zs)).erase v = y :: (ys ++ v :: zs).erase v :=
      List.erase_cons_tail (by simpa using hyv)
    rw [List.cons_append, hye, outlive, outlive]
    by_cases hya : y = a
    · have hvy : ¬ key a < key v := Nat.not_lt.mpr (hya ▸ hys y List.mem_cons_self)
      have hvys : v ∉ ys := fun hm => (List.disjoint_of_nodup_append hnd') hm List.mem_cons_self
      rw [if_pos hya, if_pos hya, List.erase_append_right _ hvys, List.erase_cons_head,
        List.filter_append, List.filter_append, List.filter_cons_of_neg (by simpa using hvy)]
    · have ha' : a ∈ ys ++ v :: zs := (List.mem_cons.mp ha).resolve_left (Ne.symm hya)
      rw [if_neg hya, if_neg hya, ih hnd' ha' (fun c hc => hys c (List.mem_cons_of_mem _ hc))]

end Klone.Evict
