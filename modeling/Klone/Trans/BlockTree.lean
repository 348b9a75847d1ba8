import Klone.Lib.Forest
import Klone.Trans.Preprocess

/-! # The blocks as a tree

The blocks of the heap that can be reached from `ppc->top` are a forest. The functions of
the preprocessor are described by what they do to it.
-/
namespace Klone.Trans

/-- Blocks by address; those without a name hold text. -/
abbrev Blocks := Forest ℕ Str Str

def foldCase (name : Str) : Str := name.map tolower

theorem strcasecmpEq_iff {s t : Str} :
    strcasecmpEq s t = true ↔ foldCase s = foldCase t := beq_iff_eq

def keys (F : Blocks) : List Str := F.names.map foldCase

def printed : Blocks → Str
  | .nil => []
  | .text _ s rest => s ++ printed rest
  | .block _ _ body rest => printed body ++ printed rest

/-- The heap holds this forest, whose roots are children of `p`. -/
def Rep (heap : ℕ → Kblock) : Blocks → ℕ → Prop
  | .nil, _ => True
  | .text a s rest, p =>
    heap a = { name := none, ubuf := s, parent := some p, ancestor := none, children := [] } ∧
    Rep heap rest p
  | .block a n body rest, p =>
    ((heap a).name = some n ∧ (heap a).parent = some p ∧ (heap a).children = body.roots) ∧
      Rep heap body a ∧ Rep heap rest p

section
variable {heap heap' : ℕ → Kblock} {F G H : Blocks} {p q a k i idx fuel : ℕ} {n name : Str}

@[simp] theorem keys_nil : keys .nil = [] := rfl
@[simp] theorem keys_text (a : ℕ) (s : Str) (F : Blocks) : keys (.text a s F) = keys F := rfl
@[simp] theorem keys_block (a : ℕ) (n : Str) (F G : Blocks) :
    keys (.block a n F G) = foldCase n :: (keys F ++ keys G) := by
  simp [keys]

@[simp] theorem keys_append (F G : Blocks) : keys (F.append G) = keys F ++ keys G := by simp [keys]

@[simp] theorem printed_append (F G : Blocks) : printed (F.append G) = printed F ++ printed G := by
  induction F with
  | nil => rfl
  | text a s rest ih => simp only [Forest.append, printed, ih, List.append_assoc]
  | block a n body rest _ ih => simp only [Forest.append, printed, ih, List.append_assoc]

theorem keys_perm {l : List (ℕ × Option Str)} (h : F.nodes.Perm l) :
    (keys F).Perm ((l.filterMap Prod.snd).map foldCase) := (h.filterMap _).map _

/-! ## Changes of the heap -/

theorem rep_congr (h : Rep heap F p) (hframe : ∀ b ∈ F.addrs, heap' b = heap b) :
    Rep heap' F p := by
  induction F generalizing p with
  | nil => trivial
  | text a s rest ih =>
    obtain ⟨ha, hrest⟩ := h
    exact ⟨(hframe a List.mem_cons_self).trans ha,
      ih hrest fun b hb => hframe b (List.mem_cons_of_mem a hb)⟩
  | block a n body rest ihb ihr =>
    simp only [Forest.addrs_block, List.forall_mem_cons, List.mem_append] at hframe
    obtain ⟨ha, hbody, hrest⟩ := h
    refine ⟨?_, ihb hbody fun b hb => hframe.2 b (Or.inl hb),
      ihr hrest fun b hb => hframe.2 b (Or.inr hb)⟩
    rw [hframe.1]
    exact ha

theorem rep_append : Rep heap (F.append G) p ↔ Rep heap F p ∧ Rep heap G p := by
  induction F with
  | nil => exact ⟨fun h => ⟨trivial, h⟩, fun h => h.2⟩
  | text a s rest ih => simp only [Forest.append, Rep, ih, and_assoc]
  | block a n body rest _ ih => simp only [Forest.append, Rep, ih, and_assoc]

theorem rep_roots (h : Rep heap F p) : ∀ b ∈ F.roots, (heap b).parent = some p := by
  induction F with
  | nil => simp [Forest.roots]
  | text a s rest ih =>
    obtain ⟨ha, hrest⟩ := h
    exact List.forall_mem_cons.mpr ⟨by rw [ha], ih hrest⟩
  | block a n body rest _ ih =>
    obtain ⟨ha, -, hrest⟩ := h
    exact List.forall_mem_cons.mpr ⟨ha.2.1, ih hrest⟩

/-- A block of the forest is the parent of its children. -/
theorem rep_children (h : Rep heap F p) :
    ∀ b ∈ F.addrs, ∀ c ∈ (heap b).children, (heap c).parent = some b := by
  induction F generalizing p with
  | nil => simp
  | text a s rest ih =>
    obtain ⟨ha, hrest⟩ := h
    intro b hb
    rcases List.mem_cons.mp hb with rfl | hb
    · rw [ha]
      simp
    · exact ih hrest b hb
  | block a n body rest ihb ihr =>
    obtain ⟨ha, hbody, hrest⟩ := h
    intro b hb
    rw [Forest.addrs_block, List.mem_cons, List.mem_append] at hb
    rcases hb with rfl | hb | hb
    · rw [ha.2.2]
      exact rep_roots hbody
    · exact ihb hbody b hb
    · exact ihr hrest b hb

theorem rep_has (h : Rep heap F p) (hhas : F.Has a n G) :
    (heap a).name = some n ∧ (heap a).children = G.roots ∧ Rep heap G a := by
  induction F generalizing p with
  | nil => exact hhas.elim
  | text b s rest ih => exact ih h.2 hhas
  | block b m body rest ihb ihr =>
    obtain ⟨hb, hbody, hrest⟩ := h
    rcases hhas with ⟨rfl, rfl, rfl⟩ | hhas | hhas
    · exact ⟨hb.1, hb.2.2, hbody⟩
    · exact ihb hbody hhas
    · exact ihr hrest hhas

/-- The roots get another parent. -/
theorem rep_reparent (h : Rep heap F p) (hF : F.addrs.Nodup)
    (hroots : ∀ b ∈ F.roots, heap' b = { heap b with parent := some q })
    (hrest : ∀ b ∈ F.addrs, b ∉ F.roots → heap' b = heap b) : Rep heap' F q := by
  induction F with
  | nil => trivial
  | text a s rest ih =>
    obtain ⟨ha, h⟩ := h
    simp only [Forest.addrs_text, List.nodup_cons] at hF
    simp only [Forest.roots, List.forall_mem_cons] at hroots
    refine ⟨?_, ih h hF.2 hroots.2 fun b hb hno => ?_⟩
    · rw [hroots.1, ha]
    · apply hrest b (List.mem_cons_of_mem a hb)
      simp only [Forest.roots, List.mem_cons, not_or]
      exact ⟨fun he => hF.1 (he ▸ hb), hno⟩
  | block a n body rest _ ih =>
    obtain ⟨ha, hbody, h⟩ := h
    rw [Forest.addrs_block, List.nodup_cons, List.nodup_append'] at hF
    obtain ⟨hno, -, hnodup, hdisj⟩ := hF
    simp only [List.mem_append, not_or] at hno
    simp only [Forest.roots, List.forall_mem_cons] at hroots
    have hother : ∀ b, b ∈ body.addrs ∨ b ∈ rest.addrs → b ∉ rest.roots → heap' b = heap b := by
      intro b hb hroot
      apply hrest b
      · rw [Forest.addrs_block]
        exact List.mem_cons_of_mem a (List.mem_append.mpr hb)
      · simp only [Forest.roots, List.mem_cons, not_or]
        refine ⟨?_, hroot⟩
        rintro rfl
        exact hb.elim hno.1 hno.2
    refine ⟨?_, rep_congr hbody fun b hb => ?_,
      ih h hnodup hroots.2 fun b hb => hother b (Or.inr hb)⟩
    · rw [hroots.1]
      exact ⟨ha.1, rfl, ha.2.2⟩
    · exact hother b (Or.inl hb) fun hroot => hdisj hb (rest.roots_sublist.subset hroot)

/-- Children are appended to a block. -/
theorem rep_fill (h : Rep heap F p) (hF : F.addrs.Nodup) (hk : (k, some n) ∈ F.nodes)
    (hframe : ∀ b ∈ F.addrs, b ≠ k → heap' b = heap b) (hname : (heap' k).name = (heap k).name)
    (hparent : (heap' k).parent = (heap k).parent)
    (hchildren : (heap' k).children = (heap k).children ++ G.roots) (hG : Rep heap' G k) :
    Rep heap' (F.fill k G) p := by
  induction F generalizing p with
  | nil => cases hk
  | text a s rest ih =>
    obtain ⟨ha, h⟩ := h
    rw [Forest.addrs_text, List.nodup_cons] at hF
    have hrest : (k, some n) ∈ rest.nodes :=
      (List.mem_cons.mp hk).resolve_left fun he => by cases he
    have hne : a ≠ k := fun he => hF.1 (he ▸ Forest.addr_of_node hrest)
    refine ⟨?_, ih h hF.2 hrest fun b hb => hframe b (List.mem_cons_of_mem a hb)⟩
    rw [hframe a List.mem_cons_self hne]
    exact ha
  | block a m body rest ihb ihr =>
    obtain ⟨ha, hbody, hrest⟩ := h
    rw [Forest.addrs_block, List.nodup_cons, List.nodup_append'] at hF
    obtain ⟨hno, hnb, hnr, hdisj⟩ := hF
    simp only [List.mem_append, not_or] at hno
    have hfb : ∀ b ∈ body.addrs, b ≠ k → heap' b = heap b := fun b hb => hframe b (by simp [hb])
    have hfr : ∀ b ∈ rest.addrs, b ≠ k → heap' b = heap b := fun b hb => hframe b (by simp [hb])
    simp only [Forest.nodes, List.mem_cons, List.mem_append] at hk
    rw [Forest.fill]
    rcases hk with hk | hk | hk
    · cases hk
      rw [if_pos rfl, Forest.fill_of_not_mem hno.2]
      refine ⟨⟨hname.trans ha.1, hparent.trans ha.2.1, ?_⟩, rep_append.mpr ⟨?_, hG⟩, ?_⟩
      · rw [hchildren, ha.2.2, Forest.roots_append]
      · exact rep_congr hbody fun b hb => hfb b hb fun he => hno.1 (he ▸ hb)
      · exact rep_congr hrest fun b hb => hfr b hb fun he => hno.2 (he ▸ hb)
    · have hmem := Forest.addr_of_node hk
      have hne : a ≠ k := fun he => hno.1 (he ▸ hmem)
      rw [if_neg hne, Forest.fill_of_not_mem fun hm => hdisj hmem hm]
      refine ⟨?_, ihb hbody hnb hk hfb, rep_congr hrest fun b hb => hfr b hb fun he =>
        hdisj hmem (he ▸ hb)⟩
      rw [hframe a (by simp) hne, Forest.roots_fill]
      exact ha
    · have hmem := Forest.addr_of_node hk
      have hne : a ≠ k := fun he => hno.2 (he ▸ hmem)
      rw [if_neg hne, Forest.fill_of_not_mem fun hm => hdisj hm hmem]
      refine ⟨?_, rep_congr hbody fun b hb => hfb b hb fun he => hdisj (he ▸ hb) hmem,
        ihr hrest hnr hk hfr⟩
      rw [hframe a (by simp) hne]
      exact ha

def Redirected (heap heap' : ℕ → Kblock) (a k b : ℕ) : Prop :=
  heap' b = { heap b with children := (heap b).children.map (Forest.redirect a k) }

theorem rep_redirect (h : Rep heap F p) (ha : a ∉ F.addrs)
    (hframe : ∀ b ∈ F.addrs, Redirected heap heap' a k b) :
    Rep heap' F p := by
  induction F generalizing p with
  | nil => trivial
  | text b s rest ih =>
    obtain ⟨hb, h⟩ := h
    simp only [Forest.addrs_text, List.forall_mem_cons] at hframe
    refine ⟨?_, ih h (List.not_mem_of_not_mem_cons ha) hframe.2⟩
    rw [hframe.1, hb]
    rfl
  | block b n body rest ihb ihr =>
    obtain ⟨hb, hbody, hrest⟩ := h
    simp only [Forest.addrs_block, List.forall_mem_cons, List.mem_append] at hframe
    simp only [Forest.addrs_block, List.mem_cons, List.mem_append, not_or] at ha
    refine ⟨?_, ihb hbody ha.2.1 fun c hc => hframe.2 c (Or.inl hc),
      ihr hrest ha.2.2 fun c hc => hframe.2 c (Or.inr hc)⟩
    have hroots : a ∉ body.roots := fun hm => ha.2.1 (body.roots_sublist.subset hm)
    rw [hframe.1, hb.2.2, Forest.map_redirect hroots]
    exact ⟨hb.1, hb.2.1, rfl⟩

/-- A block takes the place of another one. -/
theorem rep_override (h : Rep heap F p) (hF : F.addrs.Nodup) (hhas : F.Has a n H)
    (hframe : ∀ b ∈ F.addrs, b ≠ a → Redirected heap heap' a k b)
    (hname : (heap' k).name = some name) (hparent : (heap' k).parent = (heap a).parent)
    (hchildren : (heap' k).children = G.roots) (hG : Rep heap' G k) :
    Rep heap' (F.override a k name G) p := by
  induction F generalizing p with
  | nil => exact hhas.elim
  | text b s rest ih =>
    obtain ⟨hb, h⟩ := h
    have hrest : rest.Has a n H := hhas
    rw [Forest.addrs_text, List.nodup_cons] at hF
    have hne : b ≠ a := fun he => hF.1 (he ▸ hrest.addr)
    simp only [Forest.addrs_text, List.forall_mem_cons] at hframe
    refine ⟨?_, ih h hF.2 hrest hframe.2⟩
    rw [hframe.1 hne, hb]
    rfl
  | block b m body rest ihb ihr =>
    obtain ⟨hb, hbody, hrest⟩ := h
    rw [Forest.addrs_block, List.nodup_cons, List.nodup_append'] at hF
    obtain ⟨hno, hnb, hnr, hdisj⟩ := hF
    simp only [List.mem_append, not_or] at hno
    simp only [Forest.addrs_block, List.forall_mem_cons, List.mem_append] at hframe
    have hfb : ∀ c ∈ body.addrs, c ≠ a → Redirected heap heap' a k c :=
      fun c hc => hframe.2 c (Or.inl hc)
    have hfr : ∀ c ∈ rest.addrs, c ≠ a → Redirected heap heap' a k c :=
      fun c hc => hframe.2 c (Or.inr hc)
    rw [Forest.override]
    rcases hhas with ⟨rfl, -, -⟩ | hhas | hhas
    · rw [if_pos rfl, Forest.override_of_not_mem hno.2]
      refine ⟨⟨hname, hparent.trans hb.2.1, hchildren⟩, hG, ?_⟩
      exact rep_redirect hrest hno.2 fun c hc => hfr c hc fun he => hno.2 (he ▸ hc)
    · have hne : b ≠ a := fun he => hno.1 (he ▸ hhas.addr)
      have hnot : a ∉ rest.addrs := fun hm => hdisj hhas.addr hm
      rw [if_neg hne, Forest.override_of_not_mem hnot]
      refine ⟨?_, ihb hbody hnb hhas hfb, rep_redirect hrest hnot fun c hc => hfr c hc fun he =>
        hnot (he ▸ hc)⟩
      rw [hframe.1 hne, hb.2.2, Forest.roots_override hnb hhas]
      exact ⟨hb.1, hb.2.1, rfl⟩
    · have hne : b ≠ a := fun he => hno.2 (he ▸ hhas.addr)
      have hnot : a ∉ body.addrs := fun hm => hdisj hm hhas.addr
      have hroots : a ∉ body.roots := fun hm => hnot (body.roots_sublist.subset hm)
      rw [if_neg hne, Forest.override_of_not_mem hnot]
      refine ⟨?_, rep_redirect hbody hnot fun c hc => hfb c hc fun he => hnot (he ▸ hc),
        ihr hrest hnr hhas hfr⟩
      rw [hframe.1 hne, hb.2.2, Forest.map_redirect hroots]
      exact ⟨hb.1, hb.2.1, rfl⟩

/-! ## Searching -/

/-- The first block of this name, with its place among its siblings; `i` is that of the first root. -/
def findBlock (name : Str) : Blocks → ℕ → Option (ℕ × ℕ)
  | .nil, _ => none
  | .text _ _ rest, i => findBlock name rest (i + 1)
  | .block a n body rest, i =>
    if strcasecmpEq n name then some (a, i)
    else (findBlock name body 0).or (findBlock name rest (i + 1))

/-- `kblock_get_by_name` from the children of a block, of which `i` have been passed. -/
theorem findSome_eq (h : Rep heap F p) (hfuel : F.depth ≤ fuel) (i : ℕ) :
    ((F.roots.zipIdx i).findSome? fun c =>
      if (heap c.1).name.any (strcasecmpEq · name) then some c
      else kblockGetByName heap name fuel c.1) =
      findBlock name F i := by
  induction F generalizing p i fuel with
  | nil => rfl
  | text a s rest ih =>
    obtain ⟨ha, h⟩ := h
    have hleaf : kblockGetByName heap name fuel a = none := by
      cases fuel with
      | zero => rfl
      | succ fuel => simp [kblockGetByName, ha]
    rw [Forest.roots, List.zipIdx_cons, List.findSome?_cons, findBlock, ← ih h hfuel (i + 1)]
    simp [ha, hleaf]
  | block a n body rest ihb ihr =>
    obtain ⟨ha, hbody, h⟩ := h
    simp only [Forest.depth, Nat.max_le] at hfuel
    obtain ⟨fuel, rfl⟩ := Nat.exists_eq_succ_of_ne_zero
      (Nat.ne_of_gt (Nat.lt_of_lt_of_le (Nat.succ_pos _) hfuel.1))
    have hsub : kblockGetByName heap name (fuel + 1) a = findBlock name body 0 := by
      rw [kblockGetByName, ha.2.2]
      exact ihb hbody (Nat.le_of_succ_le_succ hfuel.1) 0
    rw [Forest.roots, List.zipIdx_cons, List.findSome?_cons, findBlock, ← ihr h hfuel.2 (i + 1)]
    simp only [ha.1, Option.any_some, hsub]
    by_cases hn : strcasecmpEq n name = true
    · simp only [if_pos hn]
    · simp only [if_neg hn]
      cases findBlock name body 0 <;> rfl

theorem kblockGetByName_eq (h : Rep heap F p) (hchildren : (heap q).children = F.roots)
    (hfuel : F.depth < fuel) :
    kblockGetByName heap name fuel q = findBlock name F 0 := by
  obtain ⟨fuel, rfl⟩ := Nat.exists_eq_succ_of_ne_zero
    (Nat.ne_of_gt (Nat.lt_of_le_of_lt (Nat.zero_le _) hfuel))
  rw [kblockGetByName, hchildren]
  exact findSome_eq h (Nat.le_of_lt_succ hfuel) 0

theorem findBlock_eq_none : findBlock name F i = none ↔ foldCase name ∉ keys F := by
  induction F generalizing i with
  | nil => simp [findBlock]
  | text a s rest ih => exact ih
  | block a n body rest ihb ihr =>
    rw [findBlock, keys_block]
    by_cases hn : strcasecmpEq n name = true
    · rw [if_pos hn]
      simp [strcasecmpEq_iff.mp hn]
    · have hne : foldCase name ≠ foldCase n := fun he => hn (strcasecmpEq_iff.mpr he.symm)
      rw [if_neg hn, Option.or_eq_none_iff, ihb, ihr]
      simp [hne]

/-- A block that is found is in its place among the children of its parent. -/
theorem findBlock_some (h : Rep heap F p) (hfound : findBlock name F i = some (a, idx)) :
    (∃ n H, F.Has a n H ∧ foldCase n = foldCase name) ∧
      ∃ q, (heap a).parent = some q ∧
        ((q = p ∧ ∃ j, idx = i + j ∧ F.roots[j]? = some a) ∨
          (q ∈ F.addrs ∧ (heap q).children[idx]? = some a)) := by
  induction F generalizing p i with
  | nil => cases hfound
  | text b s rest ih =>
    obtain ⟨⟨n, H, hhas⟩, q, hq, hplace⟩ := ih h.2 hfound
    refine ⟨⟨n, H, hhas⟩, q, hq, ?_⟩
    rcases hplace with ⟨rfl, j, rfl, hj⟩ | ⟨hmem, hidx⟩
    · exact Or.inl ⟨rfl, j + 1, Nat.add_right_comm i 1 j, hj⟩
    · exact Or.inr ⟨List.mem_cons_of_mem b hmem, hidx⟩
  | block b n body rest ihb ihr =>
    obtain ⟨hb, hbody, hrest⟩ := h
    rw [findBlock] at hfound
    rw [Forest.addrs_block]
    by_cases hn : strcasecmpEq n name = true
    · rw [if_pos hn, Option.some.injEq, Prod.mk.injEq] at hfound
      obtain ⟨rfl, rfl⟩ := hfound
      exact ⟨⟨n, body, Or.inl ⟨rfl, rfl, rfl⟩, strcasecmpEq_iff.mp hn⟩, p, hb.2.1,
        Or.inl ⟨rfl, 0, rfl, rfl⟩⟩
    · rw [if_neg hn, Option.or_eq_some_iff] at hfound
      rcases hfound with hfound | ⟨-, hfound⟩
      · obtain ⟨⟨m, H, hhas, hm⟩, q, hq, hplace⟩ := ihb hbody hfound
        refine ⟨⟨m, H, Or.inr (Or.inl hhas), hm⟩, q, hq, Or.inr ?_⟩
        rcases hplace with ⟨rfl, j, rfl, hj⟩ | ⟨hmem, hidx⟩
        · rw [Nat.zero_add, hb.2.2]
          exact ⟨List.mem_cons_self, hj⟩
        · exact ⟨List.mem_cons_of_mem b (List.mem_append_left _ hmem), hidx⟩
      · obtain ⟨⟨m, H, hhas, hm⟩, q, hq, hplace⟩ := ihr hrest hfound
        refine ⟨⟨m, H, Or.inr (Or.inr hhas), hm⟩, q, hq, ?_⟩
        rcases hplace with ⟨rfl, j, rfl, hj⟩ | ⟨hmem, hidx⟩
        · exact Or.inl ⟨rfl, j + 1, Nat.add_right_comm i 1 j, hj⟩
        · exact Or.inr ⟨List.mem_cons_of_mem b (List.mem_append_right _ hmem), hidx⟩

/-! ## Printing -/

theorem print_eq (h : Rep heap F p) (hfuel : F.depth < fuel) :
    (F.roots.mapM (ppctxPrintKblock heap fuel)).map List.flatten = some (printed F) := by
  induction F generalizing p fuel with
  | nil => rfl
  | text a s rest ih =>
    obtain ⟨ha, h⟩ := h
    obtain ⟨pieces, hp, hflat⟩ := Option.map_eq_some_iff.mp (ih h hfuel)
    obtain ⟨fuel, rfl⟩ := Nat.exists_eq_succ_of_ne_zero
      (Nat.ne_of_gt (Nat.lt_of_le_of_lt (Nat.zero_le _) hfuel))
    have hleaf : ppctxPrintKblock heap (fuel + 1) a = some s := by
      rw [ppctxPrintKblock, ha]
    simp [Forest.roots, List.mapM_cons, hleaf, hp, printed, hflat]
  | block a n body rest ihb ihr =>
    obtain ⟨ha, hbody, h⟩ := h
    simp only [Forest.depth, Nat.max_lt] at hfuel
    obtain ⟨fuel, rfl⟩ := Nat.exists_eq_succ_of_ne_zero
      (Nat.ne_of_gt (Nat.lt_of_le_of_lt (Nat.zero_le _) hfuel.1))
    obtain ⟨pieces, hp, hflat⟩ := Option.map_eq_some_iff.mp (ihr h hfuel.2)
    have hblock : ppctxPrintKblock heap (fuel + 1) a = some (printed body) := by
      rw [ppctxPrintKblock, ha.1, ha.2.2]
      exact ihb hbody (Nat.lt_of_succ_lt_succ hfuel.1)
    simp [Forest.roots, List.mapM_cons, hblock, hp, printed, hflat]

end

/-! ## The tree that is printed -/

/-- The heap holds this forest under `ppc->top`, and the names in it are different. -/
structure Live (heap : ℕ → Kblock) (next : ℕ) (F : Blocks) : Prop where
  rep : Rep heap F topBlock
  children : (heap topBlock).children = F.roots
  addrs : F.addrs.Nodup
  lower : ∀ a ∈ F.addrs, 2 ≤ a
  upper : ∀ a ∈ F.addrs, a < next
  keys : (keys F).Nodup

section
variable {heap heap' : ℕ → Kblock} {F G H : Blocks} {p q a k i idx next next' : ℕ} {n name : Str}

/-- A forest whose addresses are in a range is not deep. -/
theorem depth_lt_of_range (hF : F.addrs.Nodup) (hrange : ∀ a ∈ F.addrs, 2 ≤ a ∧ a < next)
    (hnext : 2 ≤ next) :
    F.depth + 1 < next := by
  have hsub : F.addrs.toFinset ⊆ Finset.Ico 2 next := by
    intro a ha
    rw [List.mem_toFinset] at ha
    exact Finset.mem_Ico.mpr (hrange a ha)
  have hcard := Finset.card_le_card hsub
  rw [List.toFinset_card_of_nodup hF, Nat.card_Ico] at hcard
  have hdepth := F.depth_le
  omega

theorem Live.depth_lt (h : Live heap next F) (hnext : 2 ≤ next) : F.depth + 1 < next :=
  depth_lt_of_range h.addrs (fun a ha => ⟨h.lower a ha, h.upper a ha⟩) hnext

theorem Live.next_not_mem (h : Live heap next F) :
    next ∉ F.addrs := fun hm => Nat.lt_irrefl next (h.upper next hm)

theorem top_lt (hnext : 2 ≤ next) : topBlock < next := Nat.lt_of_lt_of_le (by decide) hnext

theorem dead_lt (hnext : 2 ≤ next) : deadBlock < next := Nat.lt_of_lt_of_le (by decide) hnext

theorem Live.find_eq (h : Live heap next F) (hnext : 2 ≤ next) (name : Str) :
    kblockGetByName heap name next topBlock = findBlock name F 0 :=
  kblockGetByName_eq h.rep h.children ((Nat.lt_succ_self _).trans (h.depth_lt hnext))

theorem Live.find_none (h : Live heap next F) (hnext : 2 ≤ next) :
    kblockGetByName heap name next topBlock = none ↔ foldCase name ∉ Trans.keys F := by
  rw [h.find_eq hnext, findBlock_eq_none]

theorem Live.print_eq (h : Live heap next F) (hnext : 2 ≤ next) :
    ((heap topBlock).children.mapM (ppctxPrintKblock heap next)).map List.flatten =
    some (printed F) := by
  rw [h.children]
  exact Trans.print_eq h.rep ((Nat.lt_succ_self _).trans (h.depth_lt hnext))

end
end Klone.Trans
