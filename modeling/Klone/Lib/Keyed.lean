import Mathlib

/-! # Lists with keys

A list whose items have keys. An item is changed in its place, removed, or added where
there may be one with its key already: at the end instead of that one, or not at all.
-/
namespace Klone.Keyed
variable {α κ : Type*} (key : α → κ)

def Unique (l : List α) : Prop := (l.map key).Nodup

variable {key} {l : List α} {a : α} {k : κ}

theorem unique_cons : Unique key (a :: l) ↔ (∀ b ∈ l, key b ≠ key a) ∧ Unique key l := by
  simp [Unique]

theorem Unique.sublist {l' : List α} (h : Unique key l) (hs : l'.Sublist l) : Unique key l' :=
  List.Nodup.sublist (hs.map key) h

theorem Unique.concat (h : Unique key l) (ha : ∀ b ∈ l, key b ≠ key a) : Unique key (l ++ [a]) := by
  unfold Unique
  rw [List.map_append, List.map_singleton, List.nodup_append]
  refine ⟨h, List.nodup_singleton _, ?_⟩
  intro x hx y hy
  obtain ⟨b, hb, rfl⟩ := List.mem_map.mp hx
  rw [List.mem_singleton.mp hy]
  exact ha b hb

variable [DecidableEq κ] (key)

def lookup (k : κ) (l : List α) : Option α := l.find? fun a => key a = k

/-- The item goes to the end; the first one with its key is removed. -/
def supersede (l : List α) (a : α) : List α := l.eraseP (fun b => key b = key a) ++ [a]

/-- The item goes to the end unless there is one with its key. -/
def addNew (l : List α) (a : α) : List α := if (lookup key (key a) l).isSome then l else l ++ [a]

def adjust (k : κ) (f : α → α) : List α → List α
  | [] => []
  | a :: l => if key a = k then f a :: l else a :: adjust k f l

variable {key}

theorem lookup_cons : lookup key k (a :: l) = if key a = k then some a else lookup key k l := by
  simp only [lookup, List.find?_cons]
  split <;> simp_all

theorem lookup_append (l l' : List α) :
    lookup key k (l ++ l') = (lookup key k l).or (lookup key k l') := List.find?_append

theorem lookup_eq_none : lookup key k l = none ↔ ∀ b ∈ l, key b ≠ k := by
  simp [lookup]

theorem lookup_singleton : lookup key k [a] = if key a = k then some a else none := lookup_cons

/-- Under unique keys every item is the one that its key finds. -/
theorem Unique.lookup_of_mem (h : Unique key l) (ha : a ∈ l) : lookup key (key a) l = some a := by
  induction l with
  | nil => cases ha
  | cons b l ih =>
    rw [unique_cons] at h
    rcases List.mem_cons.mp ha with rfl | ha
    · exact lookup_cons.trans (if_pos rfl)
    · rw [lookup_cons, if_neg (Ne.symm (h.1 a ha))]
      exact ih h.2 ha

theorem lookup_eraseP_of_ne {k' : κ} (h : k' ≠ k) :
    lookup key k (l.eraseP fun b => key b = k') = lookup key k l := by
  induction l with
  | nil => rfl
  | cons b l ih =>
    by_cases hb : key b = k'
    · rw [List.eraseP_cons_of_pos (by simpa using hb), lookup_cons, if_neg (hb ▸ h)]
    · rw [List.eraseP_cons_of_neg (by simpa using hb), lookup_cons, lookup_cons, ih]

theorem Unique.eraseP_absent (h : Unique key l) :
    ∀ b ∈ l.eraseP (fun b => key b = k), key b ≠ k := by
  induction l with
  | nil => simp
  | cons b l ih =>
    obtain ⟨hb, hl⟩ := unique_cons.mp h
    by_cases hbk : key b = k
    · rw [List.eraseP_cons_of_pos (by simpa using hbk), ← hbk]
      exact hb
    · rw [List.eraseP_cons_of_neg (by simpa using hbk)]
      intro c hc
      rcases List.mem_cons.mp hc with rfl | hc
      · exact hbk
      · exact ih hl c hc

/-! ## One item -/

theorem lookup_eraseP (h : Unique key l) (k k' : κ) :
    lookup key k' (l.eraseP fun b => key b = k) = if k = k' then none else lookup key k' l := by
  by_cases hk : k = k'
  · subst hk
    rw [if_pos rfl]
    exact lookup_eq_none.mpr h.eraseP_absent
  · rw [if_neg hk]
    exact lookup_eraseP_of_ne hk

theorem map_adjust {f : α → α} (hf : ∀ a, key (f a) = key a) (l : List α) :
    (adjust key k f l).map key = l.map key := by
  induction l with
  | nil => rfl
  | cons a l ih =>
    unfold adjust
    split
    · rw [List.map_cons, List.map_cons, hf]
    · rw [List.map_cons, List.map_cons, ih]

theorem Unique.adjust {f : α → α} (h : Unique key l) (hf : ∀ a, key (f a) = key a) :
    Unique key (adjust key k f l) := by
  unfold Unique
  rw [map_adjust hf]
  exact h

theorem lookup_adjust {f : α → α} (hf : ∀ a, key (f a) = key a) (l : List α) (k' : κ) :
    lookup key k' (adjust key k f l) = if k = k' then (lookup key k l).map f
    else lookup key k' l := by
  induction l with
  | nil => simp [adjust, lookup]
  | cons a l ih =>
    by_cases ha : key a = k
    · simp only [adjust, if_pos ha, lookup_cons, hf, Option.map_some]
      by_cases hk : k = k'
      · simp [hk, ha]
      · simp [hk, ha]
    · simp only [adjust, if_neg ha, lookup_cons, ih]
      by_cases hk : k = k'
      · simp [← hk, ha]
      · simp [hk]

theorem Unique.supersede (h : Unique key l) (a : α) : Unique key (supersede key l a) :=
  (h.sublist List.eraseP_sublist).concat h.eraseP_absent

theorem lookup_supersede (h : Unique key l) (a : α) :
    lookup key k (supersede key l a) = (lookup key k [a]).or (lookup key k l) := by
  rw [Keyed.supersede, lookup_append, lookup_singleton]
  by_cases ha : key a = k
  · subst ha
    rw [lookup_eq_none.mpr h.eraseP_absent, if_pos rfl]
    rfl
  · rw [lookup_eraseP_of_ne ha, if_neg ha, Option.or_none, Option.none_or]

theorem Unique.addNew (h : Unique key l) (a : α) : Unique key (addNew key l a) := by
  unfold Keyed.addNew
  split
  · exact h
  · next hno =>
    rw [Bool.not_eq_true, Option.isSome_eq_false_iff, Option.isNone_iff_eq_none] at hno
    exact h.concat (lookup_eq_none.mp hno)

theorem lookup_addNew (l : List α) (a : α) :
    lookup key k (addNew key l a) = (lookup key k l).or (lookup key k [a]) := by
  unfold addNew
  split
  · next hsome =>
    rw [lookup_singleton]
    by_cases ha : key a = k
    · subst ha
      obtain ⟨b, hb⟩ := Option.isSome_iff_exists.mp hsome
      rw [hb]
      rfl
    · rw [if_neg ha, Option.or_none]
  · exact lookup_append l [a]

/-- Items that a selection leaves out can come and go. -/
theorem filter_supersede {p : α → Bool} (h : ∀ b, key b = key a → p b = false) :
    (supersede key l a).filter p = l.filter p := by
  have hlast : (supersede key l a).filter p = (l.eraseP fun b => key b = key a).filter p := by
    simp [supersede, List.filter_append, h a rfl]
  rw [hlast]
  clear hlast
  induction l with
  | nil => rfl
  | cons b l ih =>
    by_cases hb : key b = key a
    · rw [List.eraseP_cons_of_pos (by simpa using hb), List.filter_cons_of_neg (by simp [h b hb])]
    · rw [List.eraseP_cons_of_neg (by simpa using hb), List.filter_cons, List.filter_cons, ih]

theorem filter_addNew {p : α → Bool} (h : p a = false) :
    (addNew key l a).filter p = l.filter p := by
  unfold addNew
  split
  · rfl
  · rw [List.filter_append, List.filter_singleton, h]
    simp

/-! ## Items one after the other -/

/-- The last one counts. -/
theorem lookup_foldl_supersede (h : Unique key l) (as : List α) :
    lookup key k (as.foldl (supersede key) l) = (lookup key k as.reverse).or (lookup key k l) := by
  induction as generalizing l with
  | nil => rfl
  | cons a as ih =>
    rw [List.foldl_cons, ih (h.supersede a), lookup_supersede h, List.reverse_cons, lookup_append,
      Option.or_assoc]

theorem filter_foldl_supersede {p : α → Bool} {as : List α}
    (h : ∀ a ∈ as, ∀ b, key b = key a → p b = false) :
    (as.foldl (supersede key) l).filter p = l.filter p := by
  induction as generalizing l with
  | nil => rfl
  | cons a as ih =>
    rw [List.foldl_cons, ih (fun a' ha' => h a' (List.mem_cons_of_mem a ha')),
      filter_supersede (h a List.mem_cons_self)]

/-- The first one counts. -/
theorem lookup_foldl_addNew (l as : List α) :
    lookup key k (as.foldl (addNew key) l) = (lookup key k l).or (lookup key k as) := by
  induction as generalizing l with
  | nil => simp [lookup]
  | cons a as ih =>
    rw [List.foldl_cons, ih, lookup_addNew, Option.or_assoc, ← lookup_append, List.singleton_append]

theorem filter_foldl_addNew {p : α → Bool} {as : List α} (h : ∀ a ∈ as, p a = false) :
    (as.foldl (addNew key) l).filter p = l.filter p := by
  induction as generalizing l with
  | nil => rfl
  | cons a as ih =>
    rw [List.foldl_cons, ih (fun a' ha' => h a' (List.mem_cons_of_mem a ha')),
      filter_addNew (h a List.mem_cons_self)]

end Klone.Keyed
