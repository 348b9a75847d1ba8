import Mathlib

/-! # Intrusive doubly linked lists

The `LIST` macros of the BSD queue header: every element has the address of its
successor and the address of the link that points to it. Removal writes through
these addresses without looking at the list, so it is meaningful also for an
element that is no longer linked. A list that represents `xs` keeps doing so
under insertion of a new element and removal of a linked one.
-/
namespace Klone.Queue
variable {α : Type*} [DecidableEq α]

inductive Slot (α : Type*) where
  | head
  | next (a : α)
  deriving DecidableEq

structure Links (α : Type*) where
  head : Option α
  next : α → Option α
  prev : α → Slot α

def Links.empty : Links α := ⟨none, fun _ => none, fun _ => .head⟩

def Links.get (L : Links α) : Slot α → Option α
  | .head => L.head
  | .next a => L.next a

def Links.set (L : Links α) (s : Slot α) (v : Option α) : Links α :=
  match s with
  | .head => { L with head := v }
  | .next a => { L with next := Function.update L.next a v }

def Links.setPrev (L : Links α) (b : Option α) (s : Slot α) : Links α :=
  match b with
  | none => L
  | some b => { L with prev := Function.update L.prev b s }

def Links.insertHead (L : Links α) (a : α) : Links α :=
  let L := L.set (.next a) L.head
  let L := L.setPrev L.head (.next a)
  let L := L.set .head (some a)
  L.setPrev (some a) .head

def Links.remove (L : Links α) (a : α) : Links α :=
  (L.setPrev (L.next a) (L.prev a)).set (L.prev a) (L.next a)

/-- The elements met by `LIST_FOREACH` within `fuel` steps. -/
def Links.walk (L : Links α) : ℕ → Option α → List α
  | 0, _ => []
  | _ + 1, none => []
  | fuel + 1, some a => a :: L.walk fuel (L.next a)

/-- From link `s` on the list runs through `xs` and ends. -/
def Chain (L : Links α) : Slot α → List α → Prop
  | s, [] => L.get s = none
  | s, a :: rest => L.get s = some a ∧ L.prev a = s ∧ Chain L (.next a) rest

omit [DecidableEq α] in
theorem Chain.walk {L : Links α} {s : Slot α} {xs : List α} (h : Chain L s xs) {fuel : ℕ}
    (hf : xs.length < fuel) : L.walk fuel (L.get s) = xs := by
  induction xs generalizing s fuel with
  | nil =>
    obtain ⟨k, rfl⟩ : ∃ k, fuel = k + 1 := ⟨fuel - 1, by omega⟩
    rw [show L.get s = none from h]
    rfl
  | cons a rest ih =>
    obtain ⟨k, rfl⟩ : ∃ k, fuel = k + 1 := ⟨fuel - 1, by omega⟩
    obtain ⟨hg, _, hr⟩ := h
    rw [hg, Links.walk]
    exact congrArg (List.cons a) (ih hr (by simp only [List.length_cons] at hf; omega))

omit [DecidableEq α] in
/-- A chain only depends on the links it runs through. -/
theorem Chain.frame {L M : Links α} {s : Slot α} {xs : List α} (h : Chain L s xs)
    (hs : M.get s = L.get s) (hn : ∀ a ∈ xs, M.next a = L.next a)
    (hp : ∀ a ∈ xs, M.prev a = L.prev a) : Chain M s xs := by
  induction xs generalizing s with
  | nil => exact hs.trans h
  | cons a rest ih =>
    obtain ⟨hg, hpa, hr⟩ := h
    refine ⟨hs.trans hg, (hp a List.mem_cons_self).trans hpa, ?_⟩
    exact ih hr (hn a List.mem_cons_self) (fun b hb => hn b (List.mem_cons_of_mem _ hb))
      (fun b hb => hp b (List.mem_cons_of_mem _ hb))

@[simp] theorem set_prev_field (L : Links α) (s : Slot α) (v : Option α) :
    (L.set s v).prev = L.prev := by
  cases s <;> rfl

@[simp] theorem setPrev_next (L : Links α) (b : Option α) (s : Slot α) :
    (L.setPrev b s).next = L.next := by
  cases b <;> rfl

@[simp] theorem setPrev_head (L : Links α) (b : Option α) (s : Slot α) :
    (L.setPrev b s).head = L.head := by
  cases b <;> rfl

@[simp] theorem setPrev_get (L : Links α) (b : Option α) (s t : Slot α) :
    (L.setPrev b s).get t = L.get t := by
  cases t <;> simp [Links.get]

theorem get_set_self (L : Links α) (s : Slot α) (v : Option α) : (L.set s v).get s = v := by
  cases s <;> simp [Links.set, Links.get]

theorem get_set_ne (L : Links α) {s t : Slot α} (h : t ≠ s) (v : Option α) :
    (L.set s v).get t = L.get t := by
  cases s with
  | head =>
    cases t with
    | head => exact absurd rfl h
    | next b => rfl
  | next a =>
    cases t with
    | head => rfl
    | next b => exact Function.update_of_ne (fun hab => h (congrArg Slot.next hab)) v L.next

theorem setPrev_prev (L : Links α) (b : Option α) (s : Slot α) (a : α) :
    (L.setPrev b s).prev a = if b = some a then s else L.prev a := by
  cases b with
  | none => rfl
  | some b =>
    simp only [Links.setPrev, Function.update_apply, Option.some.injEq]
    exact if_congr eq_comm rfl rfl

theorem get_set (L : Links α) (s t : Slot α) (v : Option α) :
    (L.set s v).get t = if t = s then v else L.get t := by
  split
  · next h => rw [h, get_set_self]
  · next h => exact get_set_ne L h v

theorem insertHead_next (L : Links α) (a b : α) :
    (L.insertHead a).next b = if b = a then L.head else L.next b := by
  simp only [Links.insertHead, Links.set, setPrev_next, Function.update_apply]

theorem insertHead_prev_self (L : Links α) (a : α) : (L.insertHead a).prev a = .head := by
  unfold Links.insertHead
  exact (setPrev_prev _ _ _ _).trans (if_pos rfl)

theorem insertHead_prev_ne (L : Links α) {a b : α} (h : b ≠ a) :
    (L.insertHead a).prev b = if L.head = some b then .next a else L.prev b := by
  have hab : some a ≠ some b := fun he => h (Option.some.inj he).symm
  have hhead : (L.set (.next a) L.head).head = L.head := rfl
  simp only [Links.insertHead, setPrev_prev, if_neg hab, set_prev_field, hhead]

theorem Chain.insertHead {L : Links α} {xs : List α} (h : Chain L .head xs) (hxs : xs.Nodup) {a : α}
    (ha : a ∉ xs) : Chain (L.insertHead a) .head (a :: xs) := by
  refine ⟨rfl, insertHead_prev_self L a, ?_⟩
  have hna : (L.insertHead a).get (.next a) = L.head := (insertHead_next L a a).trans (if_pos rfl)
  cases xs with
  | nil => exact hna.trans h
  | cons b rest =>
    obtain ⟨hg, _, hr⟩ := h
    have hne : ∀ c ∈ b :: rest, c ≠ a := fun c hc he => ha (he ▸ hc)
    have hnext : ∀ c ∈ b :: rest, (L.insertHead a).next c = L.next c :=
      fun c hc => (insertHead_next L a c).trans (if_neg (hne c hc))
    refine ⟨hna.trans hg, ?_, hr.frame (hnext b List.mem_cons_self) ?_ ?_⟩
    · rw [insertHead_prev_ne L (hne b List.mem_cons_self)]
      exact if_pos hg
    · intro c hc
      exact hnext c (List.mem_cons_of_mem _ hc)
    · intro c hc
      rw [insertHead_prev_ne L (hne c (List.mem_cons_of_mem _ hc)), if_neg]
      intro he
      have hbc : b = c := Option.some.inj (hg.symm.trans he)
      exact (List.nodup_cons.mp hxs).1 (hbc ▸ hc)

theorem remove_get (L : Links α) (a : α) (t : Slot α) :
    (L.remove a).get t = if t = L.prev a then L.next a else L.get t := by
  rw [Links.remove, get_set, setPrev_get]

theorem remove_prev (L : Links α) (a b : α) :
    (L.remove a).prev b = if L.next a = some b then L.prev a else L.prev b := by
  rw [Links.remove, set_prev_field, setPrev_prev]

omit [DecidableEq α] in
theorem Chain.next_eq {L : Links α} {s : Slot α} {ys zs : List α} {a : α}
    (h : Chain L s (ys ++ a :: zs)) : L.next a = zs.head? := by
  induction ys generalizing s with
  | nil =>
    obtain ⟨_, _, hr⟩ := h
    cases zs with
    | nil => exact hr
    | cons b rest => exact hr.1
  | cons y ys ih => exact ih h.2.2

omit [DecidableEq α] in
theorem Chain.prev_mem {L : Links α} {s : Slot α} {ys zs : List α} {a : α}
    (h : Chain L s (ys ++ a :: zs)) : L.prev a = s ∧ ys = [] ∨ ∃ y ∈ ys, L.prev a = .next y := by
  induction ys generalizing s with
  | nil => exact Or.inl ⟨h.2.1, rfl⟩
  | cons y ys ih =>
    refine Or.inr ?_
    rcases ih h.2.2 with ⟨hp, _⟩ | ⟨c, hc, hp⟩
    · exact ⟨y, List.mem_cons_self, hp⟩
    · exact ⟨c, List.mem_cons_of_mem _ hc, hp⟩

theorem Chain.remove_append {L : Links α} {s : Slot α} {ys zs : List α} {a : α}
    (h : Chain L s (ys ++ a :: zs)) (hnd : (ys ++ a :: zs).Nodup)
    (hs : ∀ c ∈ ys ++ a :: zs, s ≠ .next c) : Chain (L.remove a) s (ys ++ zs) := by
  have hnext := h.next_eq
  induction ys generalizing s with
  | nil =>
    obtain ⟨_, hp, hr⟩ := h
    have hgs : (L.remove a).get s = L.next a := by rw [remove_get, hp, if_pos rfl]
    have hfr : ∀ c ∈ zs, (L.remove a).get (.next c) = L.get (.next c) := by
      intro c hc
      rw [remove_get, hp, if_neg (Ne.symm (hs c (List.mem_cons_of_mem _ hc)))]
    cases zs with
    | nil => exact hgs.trans hnext
    | cons b rest =>
      refine ⟨hgs.trans hnext, ?_, hr.2.2.frame (hfr b List.mem_cons_self) ?_ ?_⟩
      · rw [remove_prev, hnext, List.head?_cons, if_pos rfl, hp]
      · intro c hc
        exact hfr c (List.mem_cons_of_mem _ hc)
      · intro c hc
        rw [remove_prev, hnext, if_neg]
        intro he
        have hbc : b = c := Option.some.inj he
        exact (List.nodup_cons.mp (List.nodup_cons.mp hnd).2).1 (hbc ▸ hc)
  | cons y ys ih =>
    obtain ⟨hy, hnd'⟩ := List.nodup_cons.mp hnd
    refine ⟨?_, ?_, ih h.2.2 hnd' (fun c hc he => hy (Slot.next.inj he ▸ hc))⟩
    · rw [remove_get, if_neg]
      · exact h.1
      · intro he
        rcases h.prev_mem with ⟨_, hys⟩ | ⟨c, hc, hp⟩
        · exact absurd hys (List.cons_ne_nil y ys)
        · exact hs c (List.mem_append_left _ hc) (he.trans hp)
    · rw [remove_prev, hnext, if_neg]
      · exact h.2.1
      · intro he
        have hyz : y ∈ zs := List.mem_of_mem_head? (Option.mem_def.mpr he)
        exact hy (List.mem_append_right _ (List.mem_cons_of_mem _ hyz))

/-- Unlinking a linked element leaves a list of the others. -/
theorem Chain.remove {L : Links α} {xs : List α} {a : α} (h : Chain L .head xs) (hnd : xs.Nodup)
    (ha : a ∈ xs) : Chain (L.remove a) .head (xs.erase a) := by
  obtain ⟨ys, zs, rfl⟩ := List.append_of_mem ha
  have hya : a ∉ ys := fun hm => (List.disjoint_of_nodup_append hnd) hm List.mem_cons_self
  rw [List.erase_append_right _ hya, List.erase_cons_head]
  exact h.remove_append hnd (fun c _ he => by cases he)

end Klone.Queue
