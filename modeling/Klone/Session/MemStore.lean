import Klone.Lib.Evict
import Klone.Session.Atom

/-! # The in-memory session store

The operations of the store as the server and its children run them. A child
tells the parent about each eviction before it does it on its own copy; the
number of these messages is part of the outcome.
-/
namespace Klone.Session
open Queue

structure SessionOpt where
  maxCount : ℕ
  memLimit : ℕ
  atoms : Atoms

inductive Ctx where
  | parent
  | child (writable : Bool)

structure Outcome where
  ok : Bool
  so : SessionOpt
  delold : ℕ

def Outcome.andThen (r : Outcome) (f : SessionOpt → Outcome) : Outcome :=
  if r.ok then { f r.so with delold := r.delold + (f r.so).delold } else r

theorem Outcome.andThen_ok {r s : Outcome} {so : SessionOpt} {f : SessionOpt → Outcome}
    (hr : r = ⟨true, so, 0⟩) (hf : f so = s) : r.andThen f = s := by
  subst hr hf
  simp only [Outcome.andThen, if_pos, Nat.zero_add]

theorem Outcome.andThen_fail {r : Outcome} (hr : r.ok = false) (f : SessionOpt → Outcome) :
    r.andThen f = r := by
  rw [Outcome.andThen, hr]
  exact if_neg Bool.false_ne_true

def argOf (as : Atoms) (p : ℕ) : ℕ := (as.cell p).arg

/-- The scan of `so_atom_delete_oldest`. -/
def oldestAtom (as : Atoms) : Option ℕ :=
  if as.count = 0 then none
  else (atomsGetn as 0).bind fun first =>
    (List.range' 1 (as.count - 1)).foldlM
      (fun oldest i => (atomsGetn as i).map (Evict.older (argOf as) oldest)) first

def soAtomDeleteOldest (so : SessionOpt) : Option SessionOpt :=
  (oldestAtom so.atoms).map fun p => { so with atoms := atomsRemove so.atoms p }

def deleteOldestLocal (so : SessionOpt) (delold : ℕ) : Outcome :=
  match soAtomDeleteOldest so with
  | none => ⟨false, so, delold⟩
  | some so' => ⟨true, so', delold⟩

def sessionDeleteOldest (ctx : Ctx) (so : SessionOpt) : Outcome :=
  match ctx with
  | .parent => deleteOldestLocal so 0
  | .child false => ⟨false, so, 0⟩
  | .child true => deleteOldestLocal so 1

def soAtomRemove (so : SessionOpt) (id : Str) : SessionOpt :=
  match atomsGet so.atoms id with
  | none => so
  | some p => { so with atoms := atomFree (atomsRemove so.atoms p) p }

def oldSize (as : Atoms) : Option ℕ → ℕ
  | none => 0
  | some p => (as.cell p).size

def newSize (as : Atoms) (size : ℕ) (old : Option ℕ) : ℕ :=
  (as.size + size + (sizeMod - oldSize as old)) % sizeMod

/-- The memory loop of `so_atom_add`. Every turn takes one from the count and
the loop ends when the count is zero, so the count bounds the turns. -/
def shrinkLoop (ctx : Ctx) (size : ℕ) (old : Option ℕ) : ℕ → SessionOpt → Outcome
  | 0, so => ⟨true, so, 0⟩
  | turns + 1, so =>
    if so.atoms.count ≠ 0 ∧ so.memLimit < newSize so.atoms size old then
      (sessionDeleteOldest ctx so).andThen (shrinkLoop ctx size old turns)
    else ⟨true, so, 0⟩

def limitCount (ctx : Ctx) (so : SessionOpt) (old : Option ℕ) : Outcome :=
  let oldFound := if old.isSome then 1 else 0
  if so.maxCount ≠ 0 ∧ so.maxCount ≤ (so.atoms.count + (sizeMod - oldFound)) % sizeMod then
    sessionDeleteOldest ctx so
  else ⟨true, so, 0⟩

def limitSize (ctx : Ctx) (size : ℕ) (old : Option ℕ) (so : SessionOpt) : Outcome :=
  if so.memLimit = 0 then ⟨true, so, 0⟩
  else if so.memLimit < size then ⟨false, so, 0⟩
  else shrinkLoop ctx size old so.atoms.count so

def replaceAtom (granted : Bool) (a : Atom) (old : Option ℕ) (so : SessionOpt) : Outcome :=
  match atomCreate so.atoms granted a with
  | none => ⟨false, so, 0⟩
  | some (as, p) =>
    match old with
    | none => ⟨true, { so with atoms := atomsAdd as p }, 0⟩
    | some o => ⟨true, { so with atoms := atomFree (atomsRemove (atomsAdd as p) o) o }, 0⟩

def soAtomAdd (ctx : Ctx) (so : SessionOpt) (a : Atom) (granted : Bool) : Outcome :=
  let old := atomsGet so.atoms a.id
  ((limitCount ctx so old).andThen (limitSize ctx a.size old)).andThen (replaceAtom granted a old)

/-! ## What the operations keep -/

structure Keeps (so : SessionOpt) (xs : List ℕ) : Prop where
  linked : Linked so.atoms xs
  ids : (xs.map fun p => (so.atoms.cell p).id).Nodup

structure Evicts (so so' : SessionOpt) (xs : List ℕ) (v : ℕ) : Prop where
  victim : Evict.victim (argOf so.atoms) xs = some v
  maxCount : so'.maxCount = so.maxCount
  memLimit : so'.memLimit = so.memLimit
  cell : so'.atoms.cell = so.atoms.cell
  heap : so'.atoms.heap = so.atoms.heap
  keeps : Keeps so' (xs.erase v)

theorem foldlM_getn {as : Atoms} (pre rest : List ℕ) (h : Linked as (pre ++ rest)) (o : ℕ) :
    (List.range' pre.length rest.length).foldlM
      (fun oldest i => (atomsGetn as i).map (Evict.older (argOf as) oldest)) o =
      some (rest.foldl (Evict.older (argOf as)) o) := by
  induction rest generalizing pre o with
  | nil => rfl
  | cons p rest ih =>
    have hp : atomsGetn as pre.length = some p := by
      rw [h.getn_eq, List.getElem?_append_right le_rfl, Nat.sub_self, List.getElem?_cons_zero]
    have hi := ih (pre ++ [p]) (by rwa [List.append_assoc, List.singleton_append])
      (Evict.older (argOf as) o p)
    rw [List.length_append, List.length_singleton] at hi
    rw [List.length_cons, List.range'_succ, List.foldlM_cons, hp, List.foldl_cons]
    exact hi

theorem oldestAtom_eq {as : Atoms} {xs : List ℕ} (h : Linked as xs) :
    oldestAtom as = Evict.victim (argOf as) xs := by
  unfold oldestAtom
  cases xs with
  | nil =>
    have hc : as.count = 0 := h.count
    rw [if_pos hc]
    rfl
  | cons p rest =>
    have hc : as.count = rest.length + 1 := h.count
    have hp : atomsGetn as 0 = some p := by rw [h.getn_eq, List.getElem?_cons_zero]
    rw [if_neg (by omega), hp, hc, Nat.add_sub_cancel]
    exact foldlM_getn [p] rest h p

theorem Keeps.deleteOldest {so : SessionOpt} {xs : List ℕ} (h : Keeps so xs) (hne : xs ≠ []) :
    ∃ v so', soAtomDeleteOldest so = some so' ∧ Evicts so so' xs v := by
  obtain ⟨v, hv⟩ := Evict.victim_isSome (argOf so.atoms) hne
  have hmem : v ∈ xs := (Evict.victim_splits _ hv).mem
  refine ⟨v, { so with atoms := atomsRemove so.atoms v }, ?_, hv, rfl, rfl, rfl, rfl,
    h.linked.remove hmem, ?_⟩
  · rw [soAtomDeleteOldest, oldestAtom_eq h.linked, hv]
    rfl
  · exact h.ids.sublist (List.Sublist.map _ List.erase_sublist)

theorem Keeps.deleteOldest_nil {so : SessionOpt} (h : Keeps so []) :
    soAtomDeleteOldest so = none := by
  rw [soAtomDeleteOldest, oldestAtom_eq h.linked]
  rfl

/-- The atom to be replaced by a save under `id`, if there is one in the list. -/
structure OldIs (as : Atoms) (xs : List ℕ) (id : Str) (old : Option ℕ) : Prop where
  mem : ∀ o, old = some o → o ∈ xs
  only : ∀ p ∈ xs, (as.cell p).id = id → old = some p

theorem Keeps.oldIs {so : SessionOpt} {xs : List ℕ} (h : Keeps so xs) (id : Str) :
    OldIs so.atoms xs id (atomsGet so.atoms id) := by
  constructor
  · intro o ho
    exact (h.linked.get_some ho).1
  · intro p hp hid
    cases hg : atomsGet so.atoms id with
    | none => exact absurd hid (h.linked.get_none hg p hp)
    | some q =>
      obtain ⟨hq, hqid⟩ := h.linked.get_some hg
      exact congrArg some (List.inj_on_of_nodup_map h.ids hq hp (hqid.trans hid.symm))

theorem OldIs.erase {as as' : Atoms} {xs : List ℕ} {id : Str} {old : Option ℕ} {v : ℕ}
    (h : OldIs as xs id old) (hc : as'.cell = as.cell) (hv : old ≠ some v) :
    OldIs as' (xs.erase v) id old := by
  constructor
  · intro o ho
    exact (List.mem_erase_of_ne (fun he : o = v => hv (he ▸ ho))).mpr (h.mem o ho)
  · intro p hp hid
    rw [hc] at hid
    exact h.only p (List.mem_of_mem_erase hp) hid

def dropOld (xs : List ℕ) : Option ℕ → List ℕ
  | none => xs
  | some o => xs.erase o

theorem OldIs.sumSize_eq {as : Atoms} {xs : List ℕ} {id : Str} {old : Option ℕ}
    (h : OldIs as xs id old) : oldSize as old + sumSize as (dropOld xs old) = sumSize as xs := by
  cases old with
  | none => exact Nat.zero_add _
  | some o => exact sumSize_erase as (h.mem o rfl)

theorem OldIs.length_eq {as : Atoms} {xs : List ℕ} {id : Str} {old : Option ℕ}
    (h : OldIs as xs id old) :
    (dropOld xs old).length + (if old.isSome then 1 else 0) = xs.length := by
  cases old with
  | none => rfl
  | some o =>
    have hmem := h.mem o rfl
    have hpos := List.length_pos_of_mem hmem
    rw [dropOld, List.length_erase_of_mem hmem, Option.isSome_some, if_pos rfl]
    omega

theorem OldIs.fresh_id {as : Atoms} {xs : List ℕ} {id : Str} {old : Option ℕ}
    (h : OldIs as xs id old) (hnd : xs.Nodup) : ∀ q ∈ dropOld xs old, (as.cell q).id ≠ id := by
  cases old with
  | none =>
    intro q hq hid
    cases h.only q hq hid
  | some o =>
    intro q hq hid
    have hqo : o = q := Option.some.inj (h.only q (List.mem_of_mem_erase hq) hid)
    exact hnd.not_mem_erase (hqo ▸ hq)

theorem dropOld_sublist (xs : List ℕ) (old : Option ℕ) : (dropOld xs old).Sublist xs := by
  cases old with
  | none => exact List.Sublist.refl xs
  | some o => exact List.erase_sublist

structure Saved (so so' : SessionOpt) (xs : List ℕ) (old : Option ℕ) (a : Atom) (p : ℕ) : Prop where
  maxCount : so'.maxCount = so.maxCount
  memLimit : so'.memLimit = so.memLimit
  cell_new : so'.atoms.cell p = a
  cell_old : ∀ q ∈ xs, so'.atoms.cell q = so.atoms.cell q
  notMem : p ∉ xs
  space : sumSize so.atoms xs + a.size < sizeMod
  keeps : Keeps so' (p :: dropOld xs old)

theorem Keeps.replaceAtom {so : SessionOpt} {xs : List ℕ} (h : Keeps so xs) {a : Atom}
    {old : Option ℕ} (ho : OldIs so.atoms xs a.id old) (granted : Bool) :
    replaceAtom granted a old so = ⟨false, so, 0⟩ ∧ atomCreate so.atoms granted a = none ∨
      ∃ so' p, replaceAtom granted a old so = ⟨true, so', 0⟩ ∧ Saved so so' xs old a p := by
  unfold Session.replaceAtom
  cases hc : atomCreate so.atoms granted a with
  | none => exact Or.inl ⟨rfl, rfl⟩
  | some r =>
    obtain ⟨as, p⟩ := r
    obtain ⟨hp, hself, hcell, -, hl⟩ := h.linked.create_add hc
    have hspace : sumSize so.atoms xs + a.size < sizeMod := by
      have hs := length_add_sumSize_le (atomsAdd as p) (p :: xs)
      have hh := hl.heap
      have hlt := hl.space
      have he : sumSize (atomsAdd as p) (p :: xs) = a.size + sumSize so.atoms xs := by
        have hm : xs.map (fun q => (as.cell q).size) = xs.map fun q => (so.atoms.cell q).size :=
          List.map_congr_left (fun q hq => by rw [hcell q hq])
        change (List.map (fun q => (as.cell q).size) (p :: xs)).sum = _
        rw [List.map_cons, List.sum_cons, hm, hself]
        rfl
      omega
    have hids : ((p :: dropOld xs old).map fun q => (as.cell q).id).Nodup := by
      have hsub := dropOld_sublist xs old
      have hm : (dropOld xs old).map (fun q => (as.cell q).id) =
          (dropOld xs old).map fun q => (so.atoms.cell q).id :=
        List.map_congr_left (fun q hq => by rw [hcell q (hsub.subset hq)])
      rw [List.map_cons, List.nodup_cons, hm, hself]
      refine ⟨fun hmem => ?_, h.ids.sublist (hsub.map _)⟩
      obtain ⟨q, hq, hqid⟩ := List.mem_map.mp hmem
      exact ho.fresh_id h.linked.nodup q hq hqid
    cases old with
    | none => exact Or.inr ⟨_, p, rfl, rfl, rfl, hself, hcell, hp, hspace, hl, hids⟩
    | some o =>
      have hmem : o ∈ xs := ho.mem o rfl
      have hpo : p ≠ o := fun he => hp (he ▸ hmem)
      have hrf := hl.remove_free (List.mem_cons_of_mem p hmem)
      rw [List.erase_cons_tail (by simpa using hpo)] at hrf
      exact Or.inr ⟨_, p, rfl, rfl, rfl, hself, hcell, hp, hspace, hrf, hids⟩

theorem soAtomRemove_fields (so : SessionOpt) (id : Str) :
    (soAtomRemove so id).maxCount = so.maxCount ∧ (soAtomRemove so id).memLimit = so.memLimit ∧
      (soAtomRemove so id).atoms.cell = so.atoms.cell := by
  unfold soAtomRemove
  cases atomsGet so.atoms id with
  | none => exact ⟨rfl, rfl, rfl⟩
  | some p => exact ⟨rfl, rfl, rfl⟩

theorem Keeps.remove {so : SessionOpt} {xs : List ℕ} (h : Keeps so xs) (id : Str) :
    Keeps (soAtomRemove so id) (dropOld xs (atomsGet so.atoms id)) := by
  unfold soAtomRemove
  cases hg : atomsGet so.atoms id with
  | none => exact h
  | some p =>
    have hp := (h.linked.get_some hg).1
    exact ⟨h.linked.remove_free hp, h.ids.sublist (List.Sublist.map _ List.erase_sublist)⟩

/-! ## Stores without limits -/

structure Unlimited (so : SessionOpt) (xs : List ℕ) : Prop extends Keeps so xs where
  maxCount : so.maxCount = 0
  memLimit : so.memLimit = 0

theorem soAtomAdd_unlimited {so : SessionOpt} (hc : so.maxCount = 0) (hm : so.memLimit = 0)
    (ctx : Ctx) (a : Atom) (granted : Bool) :
    soAtomAdd ctx so a granted = replaceAtom granted a (atomsGet so.atoms a.id) so := by
  have hcount : limitCount ctx so (atomsGet so.atoms a.id) = ⟨true, so, 0⟩ :=
    if_neg (fun h => h.1 hc)
  have hsize : limitSize ctx a.size (atomsGet so.atoms a.id) so = ⟨true, so, 0⟩ := if_pos hm
  rw [soAtomAdd]
  exact Outcome.andThen_ok (Outcome.andThen_ok hcount hsize) rfl

/-- A successful save without limits can be looked up by its name. -/
theorem Unlimited.add {so : SessionOpt} {xs : List ℕ} (h : Unlimited so xs) (ctx : Ctx) (a : Atom)
    (granted : Bool) :
    (soAtomAdd ctx so a granted).ok = false ∧ (soAtomAdd ctx so a granted).so = so ∧
        atomCreate so.atoms granted a = none ∨
      ∃ p, (soAtomAdd ctx so a granted).ok = true ∧
        Saved so (soAtomAdd ctx so a granted).so xs (atomsGet so.atoms a.id) a p := by
  rw [soAtomAdd_unlimited h.maxCount h.memLimit]
  rcases h.toKeeps.replaceAtom (h.toKeeps.oldIs a.id) granted with ⟨hr, hc⟩ | ⟨so', p, hr, hs⟩
  · exact Or.inl ⟨by rw [hr], by rw [hr], hc⟩
  · exact Or.inr ⟨p, by rw [hr], by rwa [hr]⟩

theorem Saved.get {so so' : SessionOpt} {xs : List ℕ} {old : Option ℕ} {a : Atom} {p : ℕ}
    (h : Saved so so' xs old a p) : atomsGet so'.atoms a.id = some p :=
  (h.keeps.oldIs a.id).only p List.mem_cons_self (by rw [h.cell_new])

end Klone.Session
