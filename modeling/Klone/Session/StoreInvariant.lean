import Klone.Session.MemStore

/-! # The invariant of the parent's store

Saves, removals and evictions in the parent. A save that the memory limit makes
evict the very atom it replaces unlinks that atom a second time; in every run
without such a save the counters, the names and the limits stay right.
-/
namespace Klone.Session
open Queue

inductive Op where
  | save (a : Atom) (granted : Bool)
  | remove (id : Str)
  | deleteOldest

def step (so : SessionOpt) : Op → SessionOpt
  | .save a granted => (soAtomAdd .parent so a granted).so
  | .remove id => soAtomRemove so id
  | .deleteOldest => (soAtomDeleteOldest so).getD so

def emptyStore (maxCount memLimit : ℕ) : SessionOpt := ⟨maxCount, memLimit, atomsCreate⟩

def runOps (so : SessionOpt) (ops : List Op) : SessionOpt := ops.foldl step so

structure StoreOk (so : SessionOpt) : Prop where
  count : so.atoms.count = so.atoms.contents.length
  size : so.atoms.size = (so.atoms.contents.map Atom.size).sum
  ids : (so.atoms.contents.map Atom.id).Nodup
  unlinked : so.atoms.unlinked.Nodup
  maxCount : so.maxCount ≠ 0 → so.atoms.count ≤ so.maxCount
  memLimit : so.memLimit ≠ 0 → so.atoms.size ≤ so.memLimit

/-- The atom that a save replaces would survive the evictions for its sake: the
new data fits the memory limit together with all that is evicted after it. -/
def OldSurvives (so : SessionOpt) (a : Atom) : Prop :=
  ∀ o ∈ so.atoms.elems, (so.atoms.cell o).id = a.id →
    a.size + sumSize so.atoms (Evict.outlive (argOf so.atoms) o so.atoms.elems) ≤ so.memLimit

instance (so : SessionOpt) (a : Atom) : Decidable (OldSurvives so a) :=
  inferInstanceAs (Decidable (∀ o ∈ so.atoms.elems, _))

def SafeOp (so : SessionOpt) : Op → Prop
  | .save a _ => so.memLimit = 0 ∨ so.memLimit < a.size ∨ OldSurvives so a
  | .remove _ => True
  | .deleteOldest => True

instance (so : SessionOpt) (op : Op) : Decidable (SafeOp so op) := by
  cases op <;> unfold SafeOp <;> infer_instance

def SafeRun : SessionOpt → List Op → Prop
  | _, [] => True
  | so, op :: rest => SafeOp so op ∧ SafeRun (step so op) rest

structure Inv (so : SessionOpt) (xs : List ℕ) : Prop extends Keeps so xs where
  count_le : so.maxCount ≠ 0 → xs.length ≤ so.maxCount
  size_le : so.memLimit ≠ 0 → sumSize so.atoms xs ≤ so.memLimit

theorem inv_empty (maxCount memLimit : ℕ) : Inv (emptyStore maxCount memLimit) [] where
  linked := linked_create
  ids := List.nodup_nil
  count_le := fun _ => Nat.zero_le _
  size_le := fun _ => Nat.zero_le _

theorem Inv.storeOk {so : SessionOpt} {xs : List ℕ} (h : Inv so xs) : StoreOk so := by
  have he : so.atoms.contents = xs.map so.atoms.cell := by rw [Atoms.contents, h.linked.elems_eq]
  have hs : so.atoms.size = (so.atoms.contents.map Atom.size).sum := by
    rw [he, List.map_map]
    exact h.linked.size
  refine ⟨?_, hs, ?_, h.linked.gone_nodup, ?_, ?_⟩
  · rw [he, List.length_map]
    exact h.linked.count
  · rw [he, List.map_map]
    exact h.ids
  · intro hm
    rw [h.linked.count]
    exact h.count_le hm
  · intro hm
    rw [h.linked.size]
    exact h.size_le hm

theorem Inv.evict {so so' : SessionOpt} {xs : List ℕ} {v : ℕ} (h : Inv so xs)
    (he : Evicts so so' xs v) : Inv so' (xs.erase v) := by
  have hmem : v ∈ xs := (Evict.victim_splits _ he.victim).mem
  refine ⟨he.keeps, ?_, ?_⟩
  · intro hm
    rw [he.maxCount] at hm ⊢
    exact (List.length_erase_le).trans (h.count_le hm)
  · intro hm
    rw [he.memLimit] at hm ⊢
    have hs := sumSize_erase so.atoms hmem
    have hle := h.size_le hm
    rw [sumSize, he.cell]
    unfold sumSize at hs hle
    omega

theorem deleteOldest_parent {so : SessionOpt} {xs : List ℕ} (h : Keeps so xs) (hne : xs ≠ []) :
    ∃ v so', sessionDeleteOldest .parent so = ⟨true, so', 0⟩ ∧ Evicts so so' xs v := by
  obtain ⟨v, so', hd, he⟩ := h.deleteOldest hne
  exact ⟨v, so', by rw [sessionDeleteOldest, deleteOldestLocal, hd], he⟩

theorem count_sub_old {so : SessionOpt} {xs : List ℕ} {id : Str} {old : Option ℕ} (h : Keeps so xs)
    (ho : OldIs so.atoms xs id old) :
    (so.atoms.count + (sizeMod - if old.isSome then 1 else 0)) % sizeMod =
    (dropOld xs old).length := by
  have hl := ho.length_eq
  have hlt := h.linked.count_lt
  rw [h.linked.count, ← hl]
  have he : (dropOld xs old).length + (if old.isSome then 1 else 0) +
      (sizeMod - if old.isSome then 1 else 0) = (dropOld xs old).length + sizeMod := by
    have : (if old.isSome then 1 else 0) ≤ 1 := by split <;> omega
    unfold sizeMod
    omega
  rw [he, Nat.add_mod_right]
  exact Nat.mod_eq_of_lt (by omega)

/-- The count limit evicts only when the save adds a name to a full store. -/
theorem limitCount_cases {so : SessionOpt} {xs : List ℕ} {id : Str} {old : Option ℕ}
    (h : Keeps so xs) (hc : so.maxCount ≠ 0 → xs.length ≤ so.maxCount)
    (ho : OldIs so.atoms xs id old) :
    limitCount .parent so old = ⟨true, so, 0⟩ ∧
        (so.maxCount ≠ 0 → (dropOld xs old).length < so.maxCount) ∨
      ∃ v so', limitCount .parent so old = ⟨true, so', 0⟩ ∧ Evicts so so' xs v ∧ old = none ∧
        (xs.erase v).length < so.maxCount := by
  have hcount := count_sub_old h ho
  unfold limitCount
  dsimp only
  rw [hcount]
  by_cases hm : so.maxCount ≠ 0 ∧ so.maxCount ≤ (dropOld xs old).length
  · have hle := hc hm.1
    have hnone : old = none := by
      cases old with
      | none => rfl
      | some o =>
        have hl := ho.length_eq
        rw [Option.isSome_some, if_pos rfl] at hl
        omega
    subst hnone
    have hlen : so.maxCount ≤ xs.length := hm.2
    have hne : xs ≠ [] := by
      rintro rfl
      exact hm.1 (Nat.le_zero.mp hlen)
    obtain ⟨v, so', hd, he⟩ := deleteOldest_parent h hne
    refine Or.inr ⟨v, so', by rw [if_pos hm, hd], he, rfl, ?_⟩
    rw [List.length_erase_of_mem (Evict.victim_splits _ he.victim).mem]
    have hpos := List.length_pos_of_ne_nil hne
    omega
  · refine Or.inl ⟨if_neg hm, fun hne => ?_⟩
    exact Nat.lt_of_not_le (fun hle => hm ⟨hne, hle⟩)

/-- What the eviction stages of a save leave of a store: a part of it that still
has the atom to be replaced. -/
structure Trims (so : SessionOpt) (xs : List ℕ) (id : Str) (old : Option ℕ) (so' : SessionOpt)
    (ys : List ℕ) : Prop where
  inv : Inv so' ys
  maxCount : so'.maxCount = so.maxCount
  memLimit : so'.memLimit = so.memLimit
  cell : so'.atoms.cell = so.atoms.cell
  old : OldIs so'.atoms ys id old
  length_le : ys.length ≤ xs.length

theorem Trims.refl {so : SessionOpt} {xs : List ℕ} {id : Str} {old : Option ℕ} (h : Inv so xs)
    (ho : OldIs so.atoms xs id old) : Trims so xs id old so xs :=
  ⟨h, rfl, rfl, rfl, ho, le_rfl⟩

theorem newSize_eq {as : Atoms} {xs : List ℕ} {id : Str} {old : Option ℕ} (h : Linked as xs)
    (ho : OldIs as xs id old) (size : ℕ) :
    newSize as size old = (sumSize as (dropOld xs old) + size) % sizeMod := by
  have hs := ho.sumSize_eq
  have hlt := length_add_sumSize_le as xs
  have hh := h.heap
  have hsp := h.space
  have he : as.size + size + (sizeMod - oldSize as old) =
      sumSize as (dropOld xs old) + size + sizeMod := by
    rw [h.size]
    omega
  rw [newSize, he, Nat.add_mod_right]

theorem Trims.evict {so so' : SessionOpt} {xs ys : List ℕ} {id : Str} {old : Option ℕ} {v : ℕ}
    {so'' : SessionOpt} (ht : Trims so' (xs.erase v) id old so'' ys) (he : Evicts so so' xs v) :
    Trims so xs id old so'' ys where
  inv := ht.inv
  maxCount := ht.maxCount.trans he.maxCount
  memLimit := ht.memLimit.trans he.memLimit
  cell := ht.cell.trans he.cell
  old := ht.old
  length_le := ht.length_le.trans List.length_erase_le

theorem shrinkLoop_trims {so : SessionOpt} {xs : List ℕ} {id : Str} {old : Option ℕ}
    {size turns : ℕ} (h : Inv so xs) (ho : OldIs so.atoms xs id old) (hturns : xs.length ≤ turns)
    (hsafe : ∀ o, old = some o →
      size + sumSize so.atoms (Evict.outlive (argOf so.atoms) o xs) ≤ so.memLimit) :
    ∃ so' ys, shrinkLoop .parent size old turns so = ⟨true, so', 0⟩ ∧ Trims so xs id old so' ys ∧
      (ys = [] ∨ newSize so'.atoms size old ≤ so.memLimit) := by
  induction turns generalizing so xs with
  | zero => exact ⟨so, xs, rfl, Trims.refl h ho,
    Or.inl (List.length_eq_zero_iff.mp (Nat.le_zero.mp hturns))⟩
  | succ turns ih =>
    unfold shrinkLoop
    by_cases hc : so.atoms.count ≠ 0 ∧ so.memLimit < newSize so.atoms size old
    · have hne : xs ≠ [] := by
        rintro rfl
        exact hc.1 h.linked.count
      obtain ⟨v, so', hd, he⟩ := deleteOldest_parent h.toKeeps hne
      have hsplit := Evict.victim_splits _ he.victim
      have hov : ∀ o, old = some o → o ≠ v := by
        rintro o rfl rfl
        have hout := hsplit.outlive_self _ h.linked.nodup
        have hnew := newSize_eq h.linked ho size
        have hle := hsafe o rfl
        have hmod := Nat.mod_le (sumSize so.atoms (xs.erase o) + size) sizeMod
        rw [hout] at hle
        rw [dropOld] at hnew
        omega
      have harg : argOf so'.atoms = argOf so.atoms := by
        unfold argOf
        rw [he.cell]
      have hlen : (xs.erase v).length ≤ turns := by
        rw [List.length_erase_of_mem hsplit.mem]
        omega
      have ho' : OldIs so'.atoms (xs.erase v) id old := ho.erase he.cell (fun hv => hov v hv rfl)
      have hsafe' : ∀ o, old = some o →
          size + sumSize so'.atoms (Evict.outlive (argOf so'.atoms) o (xs.erase v)) ≤
            so'.memLimit := by
        intro o hoo
        rw [harg, hsplit.outlive_erase _ h.linked.nodup (ho.mem o hoo) (hov o hoo),
          he.memLimit, sumSize,
          he.cell]
        exact hsafe o hoo
      obtain ⟨so'', ys, hr, ht, hend⟩ := ih (h.evict he) ho' hlen hsafe'
      refine ⟨so'', ys, ?_, ht.evict he, he.memLimit ▸ hend⟩
      rw [if_pos hc]
      exact Outcome.andThen_ok hd hr
    · refine ⟨so, xs, if_neg hc, Trims.refl h ho, ?_⟩
      by_cases hz : so.atoms.count = 0
      · exact Or.inl (List.length_eq_zero_iff.mp (h.linked.count.symm.trans hz))
      · exact Or.inr (Nat.le_of_not_lt (fun hlt => hc ⟨hz, hlt⟩))

/-- The condition on a save, for the addresses in the list. -/
def SafeFor (so : SessionOpt) (xs : List ℕ) (size : ℕ) (old : Option ℕ) : Prop :=
  so.memLimit = 0 ∨ so.memLimit < size ∨ ∀ o, old = some o →
    size + sumSize so.atoms (Evict.outlive (argOf so.atoms) o xs) ≤ so.memLimit

theorem SafeOp.safeFor {so : SessionOpt} {xs : List ℕ} {a : Atom} {granted : Bool}
    (hs : SafeOp so (.save a granted)) (h : Linked so.atoms xs) :
    SafeFor so xs a.size (atomsGet so.atoms a.id) := by
  refine hs.imp_right (Or.imp_right (fun hsurv o ho => ?_))
  obtain ⟨hmem, hid⟩ := h.get_some ho
  have hle := hsurv o (h.elems_eq.symm ▸ hmem) hid
  rwa [h.elems_eq] at hle

theorem limitCount_trims {so : SessionOpt} {xs : List ℕ} {id : Str} {old : Option ℕ} {size : ℕ}
    (h : Inv so xs) (ho : OldIs so.atoms xs id old) (hs : SafeFor so xs size old) :
    ∃ so' ys, limitCount .parent so old = ⟨true, so', 0⟩ ∧ Trims so xs id old so' ys ∧
      (so.maxCount ≠ 0 → (dropOld ys old).length < so.maxCount) ∧ SafeFor so' ys size old := by
  rcases limitCount_cases h.toKeeps h.count_le ho with ⟨hr, hc⟩ | ⟨v, so', hr, he, rfl, hc⟩
  · exact ⟨so, xs, hr, Trims.refl h ho, hc, hs⟩
  · have ho' : OldIs so'.atoms (xs.erase v) id none := ho.erase he.cell (fun hv => by cases hv)
    exact ⟨so', xs.erase v, hr, (Trims.refl (h.evict he) ho').evict he, fun _ => hc,
      Or.inr (Or.inr (fun o hoo => by cases hoo))⟩

theorem limitSize_trims {so : SessionOpt} {xs : List ℕ} {id : Str} {old : Option ℕ} {size : ℕ}
    (h : Inv so xs) (ho : OldIs so.atoms xs id old) (hs : SafeFor so xs size old) :
    limitSize .parent size old so = ⟨false, so, 0⟩ ∨
      ∃ so' ys, limitSize .parent size old so = ⟨true, so', 0⟩ ∧ Trims so xs id old so' ys ∧
        (so.memLimit ≠ 0 → size ≤ so.memLimit ∧
          (ys = [] ∨ newSize so'.atoms size old ≤ so.memLimit)) := by
  unfold limitSize
  by_cases hz : so.memLimit = 0
  · exact Or.inr ⟨so, xs, if_pos hz, Trims.refl h ho, fun hne => absurd hz hne⟩
  rw [if_neg hz]
  by_cases hlt : so.memLimit < size
  · exact Or.inl (if_pos hlt)
  rw [if_neg hlt]
  have hsafe := (hs.resolve_left hz).resolve_left hlt
  obtain ⟨so', ys, hr, ht, hend⟩ := shrinkLoop_trims h ho h.linked.count.ge hsafe
  exact Or.inr ⟨so', ys, hr, ht, fun _ => ⟨Nat.le_of_not_lt hlt, hend⟩⟩

theorem replaceAtom_inv {so : SessionOpt} {xs : List ℕ} {a : Atom} {old : Option ℕ} (h : Inv so xs)
    (ho : OldIs so.atoms xs a.id old) (granted : Bool)
    (hcount : so.maxCount ≠ 0 → (dropOld xs old).length < so.maxCount)
    (hsize : so.memLimit ≠ 0 →
      a.size ≤ so.memLimit ∧ (xs = [] ∨ newSize so.atoms a.size old ≤ so.memLimit)) :
    ∃ ys, Inv (replaceAtom granted a old so).so ys := by
  rcases h.toKeeps.replaceAtom ho granted with ⟨hr, _⟩ | ⟨so', p, hr, hsaved⟩
  · exact ⟨xs, by rwa [hr]⟩
  refine ⟨p :: dropOld xs old, ?_⟩
  rw [hr]
  refine ⟨hsaved.keeps, ?_, ?_⟩
  · intro hm
    rw [hsaved.maxCount] at hm ⊢
    exact hcount hm
  · intro hm
    rw [hsaved.memLimit] at hm ⊢
    obtain ⟨hle, hend⟩ := hsize hm
    have hsub := dropOld_sublist xs old
    have hmap : (dropOld xs old).map (fun q => (so'.atoms.cell q).size) =
        (dropOld xs old).map fun q => (so.atoms.cell q).size :=
      List.map_congr_left (fun q hq => by rw [hsaved.cell_old q (hsub.subset hq)])
    have hsum : sumSize so'.atoms (p :: dropOld xs old) =
        a.size + sumSize so.atoms (dropOld xs old) := by
      rw [sumSize, List.map_cons, List.sum_cons, hmap, hsaved.cell_new]
      rfl
    have hold := ho.sumSize_eq
    have hspace := hsaved.space
    change sumSize so'.atoms (p :: dropOld xs old) ≤ so.memLimit
    rcases hend with rfl | hend
    · have hz : sumSize so.atoms [] = 0 := rfl
      omega
    · rw [newSize_eq h.linked ho, Nat.mod_eq_of_lt (by omega)] at hend
      omega

/-- A save that meets the condition keeps the store in order, whether it succeeds or not. -/
theorem soAtomAdd_inv {so : SessionOpt} {xs : List ℕ} (h : Inv so xs) {a : Atom} {granted : Bool}
    (hs : SafeOp so (.save a granted)) : ∃ ys, Inv (soAtomAdd .parent so a granted).so ys := by
  have ho := h.toKeeps.oldIs a.id
  have hsafe := hs.safeFor h.linked
  unfold soAtomAdd
  dsimp only
  generalize atomsGet so.atoms a.id = old at ho hsafe ⊢
  obtain ⟨so₁, xs₁, hr₁, ht₁, hcount, hsafe₁⟩ := limitCount_trims h ho hsafe
  rcases limitSize_trims ht₁.inv ht₁.old hsafe₁ with hr₂ | ⟨so₂, xs₂, hr₂, ht₂, hsize⟩
  · rw [Outcome.andThen_ok hr₁ hr₂, Outcome.andThen_fail rfl]
    exact ⟨xs₁, ht₁.inv⟩
  · rw [Outcome.andThen_ok (Outcome.andThen_ok hr₁ hr₂) rfl]
    refine replaceAtom_inv ht₂.inv ht₂.old granted ?_ ?_
    · intro hm
      rw [ht₂.maxCount, ht₁.maxCount] at hm ⊢
      have h₁ := ht₁.old.length_eq
      have h₂ := ht₂.old.length_eq
      have hle := ht₂.length_le
      have hlt := hcount hm
      omega
    · rw [ht₂.memLimit]
      exact hsize

theorem soAtomRemove_inv {so : SessionOpt} {xs : List ℕ} (h : Inv so xs) (id : Str) :
    ∃ ys, Inv (soAtomRemove so id) ys := by
  obtain ⟨hmax, hmem, hcell⟩ := soAtomRemove_fields so id
  refine ⟨_, h.toKeeps.remove id, ?_, ?_⟩
  · intro hm
    rw [hmax] at hm ⊢
    exact (dropOld_sublist xs _).length_le.trans (h.count_le hm)
  · intro hm
    rw [hmem] at hm ⊢
    have hs := (h.toKeeps.oldIs id).sumSize_eq
    have hle := h.size_le hm
    rw [sumSize, hcell]
    unfold sumSize at hs hle
    omega

theorem step_inv {so : SessionOpt} {xs : List ℕ} (h : Inv so xs) {op : Op} (hs : SafeOp so op) :
    ∃ ys, Inv (step so op) ys := by
  cases op with
  | save a granted => exact soAtomAdd_inv h hs
  | remove id => exact soAtomRemove_inv h id
  | deleteOldest =>
    by_cases hne : xs = []
    · subst hne
      rw [step, h.toKeeps.deleteOldest_nil]
      exact ⟨[], h⟩
    · obtain ⟨v, so', hd, he⟩ := h.toKeeps.deleteOldest hne
      rw [step, hd]
      exact ⟨_, h.evict he⟩

theorem runOps_inv {so : SessionOpt} {xs : List ℕ} (h : Inv so xs) {ops : List Op}
    (hs : SafeRun so ops) : ∃ ys, Inv (runOps so ops) ys := by
  induction ops generalizing so xs with
  | nil => exact ⟨xs, h⟩
  | cons op rest ih =>
    obtain ⟨ys, hy⟩ := step_inv h hs.1
    exact ih hy hs.2

theorem SafeRun.take {so : SessionOpt} {ops : List Op} (h : SafeRun so ops) (n : ℕ) :
    SafeRun so (ops.take n) := by
  induction ops generalizing so n with
  | nil => rwa [List.take_nil]
  | cons op rest ih =>
    cases n with
    | zero => trivial
    | succ n => exact ⟨h.1, ih h.2 n⟩

/-- In a run in which no save evicts the atom that it replaces, every state is in order. -/
theorem store_ok_of_safe_run (maxCount memLimit : ℕ) (ops : List Op)
    (hs : SafeRun (emptyStore maxCount memLimit) ops) (n : ℕ) :
    StoreOk (runOps (emptyStore maxCount memLimit) (ops.take n)) := by
  obtain ⟨ys, hy⟩ := runOps_inv (inv_empty maxCount memLimit) (hs.take n)
  exact hy.storeOk

def saveA (n arg : ℕ) : Op := .save ⟨bytes "A", List.replicate n 1, arg⟩ true

def saveB (n arg : ℕ) : Op := .save ⟨bytes "B", List.replicate n 2, arg⟩ true

def mixedRun : List Op :=
  [saveA 4 1, saveB 4 2, saveB 5 3, saveA 5 4, .deleteOldest, .remove (bytes "A")]

theorem store_ok_mixed_run : StoreOk (runOps (emptyStore 2 10) (mixedRun.take 6)) :=
  store_ok_of_safe_run 2 10 mixedRun
    ⟨by decide, by decide, by decide, by decide, by decide, by decide, trivial⟩ 6

/-- Two atoms of five bytes fill a limit of ten, then the first is saved again with
six bytes: it is evicted and unlinked once more when it is replaced. -/
theorem store_double_unlink :
    ¬ ∀ (maxCount memLimit : ℕ) (ops : List Op),
    StoreOk (runOps (emptyStore maxCount memLimit) ops) := by
  intro h
  have hu := (h 0 10 [saveA 5 1, saveB 5 2, saveA 6 3]).unlinked
  revert hu
  decide

end Klone.Session
