import Klone.Session.MemStore

/-! # The oldest atom is evicted

Beside the store the addresses of its atoms are logged in the order in which they were
added, the latest first. The list of atoms grows at its head, so it is in that order
too, and the scan from the head, which takes the last of those with the least age, finds
the one that was added first.
-/
namespace Klone.Session
open Queue

inductive AtomCall where
  | add (granted : Bool) (a : Atom)
  | remove (p : ℕ)
  | evict

structure Logged where
  so : SessionOpt
  added : List ℕ

def Logged.start (maxCount memLimit : ℕ) : Logged := ⟨⟨maxCount, memLimit, atomsCreate⟩, []⟩

def Logged.step (b : Logged) : AtomCall → Logged
  | .add granted a =>
    match atomCreate b.so.atoms granted a with
    | none => b
    | some (as, p) => ⟨{ b.so with atoms := atomsAdd as p }, p :: b.added⟩
  | .remove p =>
    if p ∈ b.so.atoms.elems then ⟨{ b.so with
      atoms := atomFree (atomsRemove b.so.atoms p) p }, b.added⟩
    else b
  | .evict =>
    match soAtomDeleteOldest b.so with
    | none => b
    | some so => ⟨so, b.added⟩

def storeRun (maxCount memLimit : ℕ) (calls : List AtomCall) : Logged :=
  calls.foldl Logged.step (Logged.start maxCount memLimit)

structure Oldest (b : Logged) (v : ℕ) : Prop where
  mem : v ∈ b.so.atoms.elems
  least : ∀ p ∈ b.so.atoms.elems, argOf b.so.atoms v ≤ argOf b.so.atoms p
  first : ∀ p ∈ b.so.atoms.elems, p ≠ v → argOf b.so.atoms p = argOf b.so.atoms v →
    [p, v].Sublist b.added

structure Without (so so' : SessionOpt) (v : ℕ) : Prop where
  elems : so'.atoms.elems = so.atoms.elems.erase v
  count : so'.atoms.count + 1 = so.atoms.count
  cell : so'.atoms.cell = so.atoms.cell
  maxCount : so'.maxCount = so.maxCount
  memLimit : so'.memLimit = so.memLimit

/-! ## The order of addition -/

structure InOrder (b : Logged) (xs : List ℕ) : Prop where
  linked : Linked b.so.atoms xs
  sublist : xs.Sublist b.added
  nodup : b.added.Nodup
  below : ∀ p ∈ b.added, p < b.so.atoms.fresh

theorem inOrder_start (maxCount memLimit : ℕ) : InOrder (Logged.start maxCount memLimit) [] :=
  ⟨linked_create, List.Sublist.refl [], List.nodup_nil, fun _ h => absurd h List.not_mem_nil⟩

theorem atomCreate_fresh {as as' : Atoms} {granted : Bool} {a : Atom} {p : ℕ}
    (h : atomCreate as granted a = some (as', p)) :
    p = as.fresh ∧ (atomsAdd as' p).fresh = as.fresh + 1 := by
  unfold atomCreate at h
  split at h
  · obtain ⟨rfl, rfl⟩ := Prod.mk.inj (Option.some.inj h)
    exact ⟨rfl, rfl⟩
  · cases h

/-- The scan finds its victim in a list of any order. -/
theorem soAtomDeleteOldest_linked {so : SessionOpt} {xs : List ℕ} (h : Linked so.atoms xs) :
    (xs = [] → soAtomDeleteOldest so = none) ∧
      (xs ≠ [] → ∃ v, Evict.Splits (argOf so.atoms) v xs ∧
        soAtomDeleteOldest so = some { so with atoms := atomsRemove so.atoms v }) := by
  rw [soAtomDeleteOldest, oldestAtom_eq h]
  constructor
  · rintro rfl
    rfl
  · intro hne
    obtain ⟨v, hv⟩ := Evict.victim_isSome (argOf so.atoms) hne
    exact ⟨v, Evict.victim_splits _ hv, by rw [hv, Option.map_some]⟩

theorem InOrder.drop {b : Logged} {xs : List ℕ} (h : InOrder b xs) {p : ℕ} {as : Atoms}
    (hl : Linked as (xs.erase p)) (hf : as.fresh = b.so.atoms.fresh) :
    InOrder ⟨{ b.so with atoms := as }, b.added⟩ (xs.erase p) :=
  ⟨hl, List.erase_sublist.trans h.sublist, h.nodup, fun q hq => (h.below q hq).trans_eq hf.symm⟩

theorem InOrder.step {b : Logged} {xs : List ℕ} (h : InOrder b xs) (c : AtomCall) :
    ∃ ys, InOrder (b.step c) ys := by
  cases c with
  | add granted a =>
    rw [Logged.step]
    cases hc : atomCreate b.so.atoms granted a with
    | none => exact ⟨xs, h⟩
    | some r =>
      obtain ⟨as, p⟩ := r
      obtain ⟨-, -, -, -, hl⟩ := h.linked.create_add hc
      obtain ⟨rfl, hfresh⟩ := atomCreate_fresh hc
      refine ⟨b.so.atoms.fresh :: xs, hl, h.sublist.cons_cons _, ?_, ?_⟩
      · exact List.nodup_cons.mpr ⟨fun hm => Nat.lt_irrefl _ (h.below _ hm), h.nodup⟩
      · intro q hq
        change q < (atomsAdd as b.so.atoms.fresh).fresh
        rw [hfresh]
        rcases List.mem_cons.mp hq with rfl | hq
        · exact Nat.lt_succ_self _
        · exact Nat.lt_succ_of_lt (h.below q hq)
  | remove p =>
    rw [Logged.step]
    by_cases hp : p ∈ b.so.atoms.elems
    · rw [if_pos hp]
      rw [h.linked.elems_eq] at hp
      exact ⟨xs.erase p, h.drop (h.linked.remove_free hp) rfl⟩
    · rw [if_neg hp]
      exact ⟨xs, h⟩
  | evict =>
    obtain ⟨hnil, hcons⟩ := soAtomDeleteOldest_linked h.linked
    rw [Logged.step]
    by_cases hxs : xs = []
    · rw [hnil hxs]
      exact ⟨xs, h⟩
    · obtain ⟨v, hv, hsome⟩ := hcons hxs
      rw [hsome]
      exact ⟨xs.erase v, h.drop (h.linked.remove hv.mem) rfl⟩

theorem storeRun_inOrder (maxCount memLimit : ℕ) (calls : List AtomCall) :
    ∃ xs, InOrder (storeRun maxCount memLimit calls) xs := by
  induction calls using List.reverseRecOn with
  | nil => exact ⟨[], inOrder_start maxCount memLimit⟩
  | append_singleton calls c ih =>
    obtain ⟨xs, h⟩ := ih
    rw [storeRun, List.foldl_append]
    exact h.step c

/-- An atom of the same age as the victim stands before it in the list, so it was
added after it. -/
theorem InOrder.oldest {b : Logged} {xs : List ℕ} (h : InOrder b xs) {v : ℕ}
    (hv : Evict.Splits (argOf b.so.atoms) v xs) : Oldest b v := by
  have helems := h.linked.elems_eq
  have hmem := hv.mem
  obtain ⟨ys, zs, rfl, hys, hzs⟩ := hv
  refine ⟨helems ▸ hmem, ?_, ?_⟩
  · intro p hp
    rw [helems] at hp
    rcases List.mem_append.mp hp with hp | hp
    · exact hys p hp
    · rcases List.mem_cons.mp hp with rfl | hp
      · exact le_rfl
      · exact (hzs p hp).le
  · intro p hp hne harg
    rw [helems] at hp
    have hpy : p ∈ ys := by
      rcases List.mem_append.mp hp with hp | hp
      · exact hp
      · have hpz := (List.mem_cons.mp hp).resolve_left hne
        exact absurd harg (hzs p hpz).ne'
    have hsub : [p, v].Sublist (ys ++ v :: zs) :=
      (List.singleton_sublist.mpr hpy).append (List.singleton_sublist.mpr List.mem_cons_self)
    exact hsub.trans h.sublist

theorem InOrder.without {b : Logged} {xs : List ℕ} (h : InOrder b xs) {v : ℕ} (hv : v ∈ xs) :
    Without b.so { b.so with atoms := atomsRemove b.so.atoms v } v := by
  have hl := h.linked.remove hv
  have hpos := List.length_pos_of_mem hv
  refine ⟨?_, ?_, rfl, rfl, rfl⟩
  · rw [hl.elems_eq, h.linked.elems_eq]
  · rw [hl.count, h.linked.count, List.length_erase_of_mem hv]
    omega

/-- Whatever has been added, removed and evicted before, the next eviction takes the
oldest atom and nothing else, and fails without effect if there is none. -/
theorem soAtomDeleteOldest_oldest (maxCount memLimit : ℕ) (calls : List AtomCall) :
    (storeRun maxCount memLimit calls).added.Nodup ∧
      ((storeRun maxCount memLimit calls).so.atoms.elems = [] →
        ∀ delold, deleteOldestLocal (storeRun maxCount memLimit calls).so delold =
          ⟨false, (storeRun maxCount memLimit calls).so, delold⟩) ∧
      ((storeRun maxCount memLimit calls).so.atoms.elems ≠ [] →
        ∃ v so', soAtomDeleteOldest (storeRun maxCount memLimit calls).so = some so' ∧
          Oldest (storeRun maxCount memLimit calls) v ∧
          Without (storeRun maxCount memLimit calls).so so' v) := by
  obtain ⟨xs, h⟩ := storeRun_inOrder maxCount memLimit calls
  obtain ⟨hnil, hcons⟩ := soAtomDeleteOldest_linked h.linked
  refine ⟨h.nodup, ?_, ?_⟩
  · intro hempty delold
    rw [h.linked.elems_eq] at hempty
    rw [deleteOldestLocal, hnil hempty]
  · intro hne
    rw [h.linked.elems_eq] at hne
    obtain ⟨v, hv, hsome⟩ := hcons hne
    exact ⟨v, _, hsome, h.oldest hv, h.without hv.mem⟩

end Klone.Session
