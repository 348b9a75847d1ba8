import Klone.Lib.CString
import Klone.Lib.Queue

/-! # The atom list

An atom is a block of bytes with a name. Atoms live at addresses that are never
given out twice, so an address stands for one allocation; the allocator has one
address space for everything that is alive. `unlinked` logs the addresses that
`atoms_remove` was applied to. `Linked` is what the list operations maintain
when they are used on elements of the list.
-/
namespace Klone.Session
open Queue

structure Atom where
  id : Str
  data : List Byte
  arg : ℕ

def Atom.size (a : Atom) : ℕ := a.data.length

/-- The allocated bytes: the record, the copy of the name, the copy of the data. -/
def Atom.footprint (a : Atom) : ℕ := 48 + (a.id.length + 1) + a.size

structure Atoms where
  links : Links ℕ
  count : ℕ
  size : ℕ
  cell : ℕ → Atom
  fresh : ℕ
  heap : ℕ
  unlinked : List ℕ

def atomsCreate : Atoms := ⟨Links.empty, 0, 0, fun _ => ⟨[], [], 0⟩, 0, 0, []⟩

def Atoms.elems (as : Atoms) : List ℕ := as.links.walk (as.fresh + 1) as.links.head

def Atoms.contents (as : Atoms) : List Atom := as.elems.map as.cell

def atomCreate (as : Atoms) (granted : Bool) (a : Atom) : Option (Atoms × ℕ) :=
  if granted ∧ as.heap + a.footprint < sizeMod then
    some ({ as with
      cell := Function.update as.cell as.fresh a
      fresh := as.fresh + 1
      heap := as.heap + a.footprint }, as.fresh)
  else none

def atomFree (as : Atoms) (p : ℕ) : Atoms := { as with heap := as.heap - (as.cell p).footprint }

def atomsGetn (as : Atoms) (n : ℕ) : Option ℕ := if as.count ≤ n then none else as.elems[n]?

def atomsGet (as : Atoms) (id : Str) : Option ℕ :=
  as.elems.find? (fun p => decide ((as.cell p).id = id))

def atomsAdd (as : Atoms) (p : ℕ) : Atoms :=
  { as with
    links := as.links.insertHead p
    count := (as.count + 1) % sizeMod
    size := (as.size + (as.cell p).size) % sizeMod }

def atomsRemove (as : Atoms) (p : ℕ) : Atoms :=
  { as with
    links := as.links.remove p
    count := (as.count + (sizeMod - 1)) % sizeMod
    size := (as.size + (sizeMod - (as.cell p).size)) % sizeMod
    unlinked := p :: as.unlinked }

def sumSize (as : Atoms) (xs : List ℕ) : ℕ := (xs.map (fun p => (as.cell p).size)).sum

def sumFootprint (as : Atoms) (xs : List ℕ) : ℕ := (xs.map (fun p => (as.cell p).footprint)).sum

theorem sumSize_erase (as : Atoms) {xs : List ℕ} {p : ℕ} (h : p ∈ xs) :
    (as.cell p).size + sumSize as (xs.erase p) = sumSize as xs :=
  (List.sum_map_erase (fun p => (as.cell p).size) h)

theorem sumFootprint_erase (as : Atoms) {xs : List ℕ} {p : ℕ} (h : p ∈ xs) :
    (as.cell p).footprint + sumFootprint as (xs.erase p) = sumFootprint as xs :=
  (List.sum_map_erase (fun p => (as.cell p).footprint) h)

theorem length_add_sumSize_le (as : Atoms) (xs : List ℕ) :
    xs.length + sumSize as xs ≤ sumFootprint as xs := by
  induction xs with
  | nil => exact le_rfl
  | cons p rest ih =>
    have hf : (as.cell p).footprint = 48 + ((as.cell p).id.length + 1) + (as.cell p).size := rfl
    simp only [sumSize, sumFootprint, List.map_cons, List.sum_cons, List.length_cons] at ih ⊢
    omega

/-- The store is a list of the distinct atoms at `xs`, with counters to match. -/
structure Linked (as : Atoms) (xs : List ℕ) : Prop where
  chain : Chain as.links .head xs
  nodup : xs.Nodup
  count : as.count = xs.length
  size : as.size = sumSize as xs
  fresh : ∀ p ∈ xs, p < as.fresh
  heap : sumFootprint as xs ≤ as.heap
  space : as.heap < sizeMod
  gone_nodup : as.unlinked.Nodup
  gone : ∀ p ∈ as.unlinked, p ∉ xs ∧ p < as.fresh

theorem linked_create : Linked atomsCreate [] where
  chain := rfl
  nodup := List.nodup_nil
  count := rfl
  size := rfl
  fresh := fun _ h => absurd h List.not_mem_nil
  heap := le_rfl
  space := by decide
  gone_nodup := List.nodup_nil
  gone := fun _ h => absurd h List.not_mem_nil

namespace Linked
variable {as : Atoms} {xs : List ℕ}

theorem count_lt (h : Linked as xs) : xs.length < sizeMod := by
  have := length_add_sumSize_le as xs
  have := h.heap
  have := h.space
  omega

theorem length_le (h : Linked as xs) : xs.length ≤ as.fresh := by
  have hsub : xs.toFinset ⊆ Finset.range as.fresh := by
    intro p hp
    exact Finset.mem_range.mpr (h.fresh p (List.mem_toFinset.mp hp))
  have hc := Finset.card_le_card hsub
  rwa [List.toFinset_card_of_nodup h.nodup, Finset.card_range] at hc

theorem elems_eq (h : Linked as xs) : as.elems = xs :=
  h.chain.walk (Nat.lt_succ_of_le h.length_le)

theorem getn_eq (h : Linked as xs) (n : ℕ) : atomsGetn as n = xs[n]? := by
  rw [atomsGetn, h.elems_eq, h.count]
  split
  · next hn => exact (List.getElem?_eq_none hn).symm
  · rfl

theorem get_some (h : Linked as xs) {id : Str} {p : ℕ} (hg : atomsGet as id = some p) :
    p ∈ xs ∧ (as.cell p).id = id := by
  rw [atomsGet, h.elems_eq] at hg
  have hid := List.find?_some hg
  exact ⟨List.mem_of_find?_eq_some hg, of_decide_eq_true hid⟩

theorem get_none (h : Linked as xs) {id : Str} (hg : atomsGet as id = none) :
    ∀ p ∈ xs, (as.cell p).id ≠ id := by
  rw [atomsGet, h.elems_eq, List.find?_eq_none] at hg
  exact fun p hp => of_decide_eq_false (Bool.eq_false_iff.mpr (hg p hp))

theorem remove (h : Linked as xs) {p : ℕ} (hp : p ∈ xs) :
    Linked (atomsRemove as p) (xs.erase p) where
  chain := h.chain.remove h.nodup hp
  nodup := h.nodup.erase p
  count := by
    have hlt := h.count_lt
    have hpos : 0 < xs.length := List.length_pos_of_mem hp
    change (as.count + (sizeMod - 1)) % sizeMod = (xs.erase p).length
    rw [h.count, List.length_erase_of_mem hp]
    exact sizeDec_pos hpos hlt
  size := by
    have hlt := length_add_sumSize_le as xs
    have hh := h.heap
    have hs := h.space
    have he := sumSize_erase as hp
    change (as.size + (sizeMod - (as.cell p).size)) % sizeMod = sumSize as (xs.erase p)
    have heq : as.size + (sizeMod - (as.cell p).size) = sumSize as (xs.erase p) + sizeMod := by
      rw [h.size]
      omega
    rw [heq, Nat.add_mod_right]
    exact Nat.mod_eq_of_lt (by omega)
  fresh := fun q hq => h.fresh q (List.mem_of_mem_erase hq)
  heap := by
    have he := sumFootprint_erase as hp
    have hh := h.heap
    change sumFootprint as (xs.erase p) ≤ as.heap
    omega
  space := h.space
  gone_nodup := List.nodup_cons.mpr ⟨fun hm => (h.gone p hm).1 hp, h.gone_nodup⟩
  gone := by
    intro q hq
    rcases List.mem_cons.mp hq with rfl | hq
    · exact ⟨h.nodup.not_mem_erase, h.fresh q hp⟩
    · exact ⟨fun hm => (h.gone q hq).1 (List.mem_of_mem_erase hm), (h.gone q hq).2⟩

theorem remove_free (h : Linked as xs) {p : ℕ} (hp : p ∈ xs) :
    Linked (atomFree (atomsRemove as p) p) (xs.erase p) := by
  have hr := h.remove hp
  refine ⟨hr.chain, hr.nodup, hr.count, hr.size, hr.fresh, ?_, ?_, hr.gone_nodup, hr.gone⟩
  · have he := sumFootprint_erase as hp
    have hh := h.heap
    change sumFootprint as (xs.erase p) ≤ as.heap - (as.cell p).footprint
    omega
  · have hs := h.space
    change as.heap - (as.cell p).footprint < sizeMod
    omega

theorem cell_create (h : Linked as xs) (a : Atom) :
    ∀ q ∈ xs, Function.update as.cell as.fresh a q = as.cell q := by
  intro q hq
  exact Function.update_of_ne (Nat.ne_of_lt (h.fresh q hq)) a as.cell

theorem create_add (h : Linked as xs) {granted : Bool} {a : Atom} {as' : Atoms} {p : ℕ}
    (hc : atomCreate as granted a = some (as', p)) :
    p ∉ xs ∧ as'.cell p = a ∧ (∀ q ∈ xs, as'.cell q = as.cell q) ∧ as'.unlinked = as.unlinked ∧
      Linked (atomsAdd as' p) (p :: xs) := by
  unfold atomCreate at hc
  split at hc
  case isFalse => cases hc
  case isTrue hg =>
    obtain ⟨rfl, rfl⟩ := Prod.mk.inj (Option.some.inj hc)
    have hcell := h.cell_create a
    have hself : Function.update as.cell as.fresh a as.fresh = a := Function.update_self _ _ _
    have hp : as.fresh ∉ xs := fun hm => Nat.lt_irrefl _ (h.fresh _ hm)
    have hsize : (xs.map fun q => (Function.update as.cell as.fresh a q).size) =
        xs.map fun q => (as.cell q).size :=
      List.map_congr_left (fun q hq => by rw [hcell q hq])
    have hfoot : (xs.map fun q => (Function.update as.cell as.fresh a q).footprint) =
        xs.map fun q => (as.cell q).footprint :=
      List.map_congr_left (fun q hq => by rw [hcell q hq])
    have hle := length_add_sumSize_le as xs
    have hheap := h.heap
    have hfa : a.footprint = 48 + (a.id.length + 1) + a.size := rfl
    refine ⟨hp, hself, hcell, rfl, ?_⟩
    refine ⟨h.chain.insertHead h.nodup hp, List.nodup_cons.mpr ⟨hp, h.nodup⟩, ?_, ?_, ?_, ?_, hg.2,
      h.gone_nodup, ?_⟩
    · change (as.count + 1) % sizeMod = xs.length + 1
      rw [h.count]
      exact Nat.mod_eq_of_lt (by omega)
    · change (as.size + (Function.update as.cell as.fresh a as.fresh).size) % sizeMod =
        (List.map (fun q => (Function.update as.cell as.fresh a q).size) (as.fresh :: xs)).sum
      rw [List.map_cons, List.sum_cons, hsize, hself, h.size, Nat.add_comm]
      exact Nat.mod_eq_of_lt (by unfold sumSize at *; omega)
    · intro q hq
      rcases List.mem_cons.mp hq with rfl | hq
      · exact Nat.lt_succ_self _
      · exact Nat.lt_succ_of_lt (h.fresh q hq)
    · change (List.map (fun q => (Function.update as.cell as.fresh a q).footprint)
        (as.fresh :: xs)).sum ≤ as.heap + a.footprint
      rw [List.map_cons, List.sum_cons, hfoot, hself, Nat.add_comm]
      exact Nat.add_le_add_right hheap _
    · intro q hq
      obtain ⟨hqx, hqf⟩ := h.gone q hq
      refine ⟨fun hm => ?_, Nat.lt_succ_of_lt hqf⟩
      rcases List.mem_cons.mp hm with rfl | hm
      · exact Nat.lt_irrefl _ hqf
      · exact hqx hm

end Linked
end Klone.Session
