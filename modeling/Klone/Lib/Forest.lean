import Mathlib

/-! # Forests with addresses

A sequence of trees whose inner nodes have names and whose leaves have texts. Every node
has an address. A node is filled with more children, or replaced by another one, at its
address; with distinct addresses this changes one place.
-/
namespace Klone

/-- The first tree of a forest is a leaf or an inner node; `rest` are the trees behind it. -/
inductive Forest (ι ν τ : Type*)
  | nil
  | text (a : ι) (s : τ) (rest : Forest ι ν τ)
  | block (a : ι) (name : ν) (body rest : Forest ι ν τ)
  deriving DecidableEq, Repr

namespace Forest
variable {ι ν τ : Type*}

def append : Forest ι ν τ → Forest ι ν τ → Forest ι ν τ
  | nil, G => G
  | text a s rest, G => text a s (rest.append G)
  | block a n body rest, G => block a n body (rest.append G)

def roots : Forest ι ν τ → List ι
  | nil => []
  | text a _ rest => a :: rest.roots
  | block a _ _ rest => a :: rest.roots

def nodes : Forest ι ν τ → List (ι × Option ν)
  | nil => []
  | text a _ rest => (a, none) :: rest.nodes
  | block a n body rest => (a, some n) :: (body.nodes ++ rest.nodes)

def addrs (F : Forest ι ν τ) : List ι := F.nodes.map Prod.fst

def names (F : Forest ι ν τ) : List ν := F.nodes.filterMap Prod.snd

def depth : Forest ι ν τ → ℕ
  | nil => 0
  | text _ _ rest => rest.depth
  | block _ _ body rest => max (body.depth + 1) rest.depth

/-- The forest has an inner node with this address, name and body. -/
def Has : Forest ι ν τ → ι → ν → Forest ι ν τ → Prop
  | nil, _, _, _ => False
  | text _ _ rest, a, n, G => rest.Has a n G
  | block b m body rest, a, n, G => (b = a ∧ m = n ∧ body = G) ∨ body.Has a n G ∨ rest.Has a n G

section
variable [DecidableEq ι]

/-- Children are added at the end of the node with the address `k`. -/
def fill : Forest ι ν τ → ι → Forest ι ν τ → Forest ι ν τ
  | nil, _, _ => nil
  | text a s rest, k, G => text a s (rest.fill k G)
  | block a n body rest, k, G =>
    block a n (if a = k then body.append G else body.fill k G) (rest.fill k G)

def override : Forest ι ν τ → ι → ι → ν → Forest ι ν τ → Forest ι ν τ
  | nil, _, _, _, _ => nil
  | text b s rest, a, k, name, G => text b s (rest.override a k name G)
  | block b n body rest, a, k, name, G =>
    if b = a then block k name G (rest.override a k name G)
    else block b n (body.override a k name G) (rest.override a k name G)

def without : Forest ι ν τ → ι → Forest ι ν τ
  | nil, _ => nil
  | text b s rest, a => text b s (rest.without a)
  | block b n body rest, a =>
    if b = a then rest.without a else block b n (body.without a) (rest.without a)

end

/-! ## Nodes, addresses and names -/

variable {F G H : Forest ι ν τ} {a b k : ι} {n m name : ν}

@[simp] theorem addrs_nil : (nil : Forest ι ν τ).addrs = [] := rfl
@[simp] theorem addrs_text (a : ι) (s : τ) (F : Forest ι ν τ) :
    (text a s F).addrs = a :: F.addrs := rfl
@[simp] theorem addrs_block (a : ι) (n : ν) (F G : Forest ι ν τ) :
    (block a n F G).addrs = a :: (F.addrs ++ G.addrs) := by
  simp [addrs, nodes]

@[simp] theorem names_nil : (nil : Forest ι ν τ).names = [] := rfl
@[simp] theorem names_text (a : ι) (s : τ) (F : Forest ι ν τ) : (text a s F).names = F.names := rfl
@[simp] theorem names_block (a : ι) (n : ν) (F G : Forest ι ν τ) :
    (block a n F G).names = n :: (F.names ++ G.names) := by
  simp [names, nodes]

@[simp] theorem append_nil (F : Forest ι ν τ) : F.append nil = F := by
  induction F with
  | nil => rfl
  | text a s rest ih => rw [append, ih]
  | block a n body rest _ ih => rw [append, ih]

theorem append_assoc (F G H : Forest ι ν τ) : (F.append G).append H = F.append (G.append H) := by
  induction F with
  | nil => rfl
  | text a s rest ih => simp only [append, ih]
  | block a n body rest _ ih => simp only [append, ih]

@[simp] theorem nodes_append (F G : Forest ι ν τ) : (F.append G).nodes = F.nodes ++ G.nodes := by
  induction F with
  | nil => rfl
  | text a s rest ih => simp only [append, nodes, ih, List.cons_append]
  | block a n body rest _ ih => simp only [append, nodes, ih, List.cons_append, List.append_assoc]

@[simp] theorem addrs_append (F G : Forest ι ν τ) : (F.append G).addrs = F.addrs ++ G.addrs := by
  simp [addrs]

@[simp] theorem names_append (F G : Forest ι ν τ) : (F.append G).names = F.names ++ G.names := by
  simp [names]

@[simp] theorem roots_append (F G : Forest ι ν τ) : (F.append G).roots = F.roots ++ G.roots := by
  induction F with
  | nil => rfl
  | text a s rest ih => simp only [append, roots, ih, List.cons_append]
  | block a n body rest _ ih => simp only [append, roots, ih, List.cons_append]

theorem roots_sublist (F : Forest ι ν τ) : F.roots.Sublist F.addrs := by
  induction F with
  | nil => exact List.Sublist.refl _
  | text a s rest ih => exact ih.cons_cons a
  | block a n body rest _ ih =>
    rw [addrs_block]
    exact (ih.trans (List.sublist_append_right _ _)).cons_cons a

theorem depth_le (F : Forest ι ν τ) : F.depth ≤ F.addrs.length := by
  induction F with
  | nil => exact Nat.le_refl _
  | text a s rest ih => exact ih.trans (Nat.le_succ _)
  | block a n body rest ihb ihr =>
    simp only [depth, addrs_block, List.length_cons, List.length_append]
    omega

theorem Has.addr (h : F.Has a n G) : a ∈ F.addrs := by
  induction F with
  | nil => exact h.elim
  | text b s rest ih => exact List.mem_cons_of_mem b (ih h)
  | block b m body rest ihb ihr =>
    rw [addrs_block]
    rcases h with ⟨rfl, -, -⟩ | h | h
    · exact List.mem_cons_self
    · exact List.mem_cons_of_mem b (List.mem_append_left _ (ihb h))
    · exact List.mem_cons_of_mem b (List.mem_append_right _ (ihr h))

theorem Has.subset (h : F.Has a n G) : G.addrs ⊆ F.addrs := by
  induction F with
  | nil => exact h.elim
  | text b s rest ih => exact List.subset_cons_of_subset b (ih h)
  | block b m body rest ihb ihr =>
    rw [addrs_block]
    apply List.subset_cons_of_subset
    rcases h with ⟨-, -, rfl⟩ | h | h
    · exact List.subset_append_left _ _
    · exact List.subset_append_of_subset_left _ (ihb h)
    · exact List.subset_append_of_subset_right _ (ihr h)

theorem addr_of_node (h : (a, some n) ∈ F.nodes) : a ∈ F.addrs := List.mem_map_of_mem h

variable [DecidableEq ι]

/-! ## Filling -/

theorem fill_of_not_mem (h : k ∉ F.addrs) : F.fill k G = F := by
  induction F with
  | nil => rfl
  | text a s rest ih =>
    rw [fill, ih (List.not_mem_of_not_mem_cons h)]
  | block a n body rest ihb ihr =>
    simp only [addrs_block, List.mem_cons, List.mem_append, not_or] at h
    rw [fill, if_neg (Ne.symm h.1), ihb h.2.1, ihr h.2.2]

@[simp] theorem roots_fill (k : ι) (G F : Forest ι ν τ) : (F.fill k G).roots = F.roots := by
  induction F with
  | nil => rfl
  | text a s rest ih => simp only [fill, roots, ih]
  | block a n body rest _ ih => simp only [fill, roots, ih]

theorem append_fill (k : ι) (G F H : Forest ι ν τ) :
    (F.append H).fill k G = (F.fill k G).append (H.fill k G) := by
  induction F with
  | nil => rfl
  | text a s rest ih => simp only [append, fill, ih]
  | block a n body rest _ ih => simp only [append, fill, ih]

/-- A forest that is filled has the nodes that it had and the new ones. -/
theorem nodes_fill (hF : F.addrs.Nodup) (h : (k, some n) ∈ F.nodes) :
    (F.fill k G).nodes.Perm (F.nodes ++ G.nodes) := by
  induction F with
  | nil => cases h
  | text a s rest ih =>
    rw [addrs_text, List.nodup_cons] at hF
    have hrest : (k, some n) ∈ rest.nodes := (List.mem_cons.mp h).resolve_left fun he => by cases he
    exact (ih hF.2 hrest).cons _
  | block a m body rest ihb ihr =>
    rw [addrs_block, List.nodup_cons, List.nodup_append'] at hF
    obtain ⟨hk, hb, hr, hdisj⟩ := hF
    simp only [List.mem_append, not_or] at hk
    simp only [nodes, List.mem_cons, List.mem_append] at h
    simp only [fill, nodes, List.cons_append]
    apply List.Perm.cons
    rcases h with h | h | h
    · cases h
      rw [if_pos rfl, fill_of_not_mem hk.2, nodes_append, List.append_assoc, List.append_assoc]
      exact List.perm_append_comm.append_left _
    · have hne : a ≠ k := fun he => hk.1 (he ▸ addr_of_node h)
      have hrest : k ∉ rest.addrs := fun hm => hdisj (addr_of_node h) hm
      rw [if_neg hne, fill_of_not_mem hrest]
      refine ((ihb hb h).append_right _).trans ?_
      rw [List.append_assoc, List.append_assoc]
      exact List.perm_append_comm.append_left _
    · have hne : a ≠ k := fun he => hk.2 (he ▸ addr_of_node h)
      have hbody : k ∉ body.addrs := fun hm => hdisj hm (addr_of_node h)
      rw [if_neg hne, fill_of_not_mem hbody, List.append_assoc]
      exact (ihr hr h).append_left _

theorem fill_fill (F G H : Forest ι ν τ) (k : ι) :
    (F.fill k G).fill k H = F.fill k (G.append H) := by
  induction F with
  | nil => rfl
  | text a s rest ih => simp only [fill, ih]
  | block a m body rest ihb ihr =>
    simp only [fill, ihr]
    by_cases hk : a = k
    · simp only [if_pos hk, append_assoc]
    · simp only [if_neg hk, ihb]

/-- Filling a node that has just been added. -/
theorem fill_added {c : ι} (hF : c ∉ F.addrs) :
    (F.fill k (block c n G nil)).fill c H = F.fill k (block c n (G.append H) nil) := by
  induction F with
  | nil => rfl
  | text a s rest ih => simp only [fill, ih (List.not_mem_of_not_mem_cons hF)]
  | block a m body rest ihb ihr =>
    simp only [addrs_block, List.mem_cons, List.mem_append, not_or] at hF
    simp only [fill, ihr hF.2.2, if_neg (Ne.symm hF.1)]
    by_cases ha : a = k
    · simp only [if_pos ha, append_fill, fill_of_not_mem hF.2.1, fill, if_true]
    · simp only [if_neg ha, ihb hF.2.1]

/-! ## Replacing a node -/

theorem override_of_not_mem (h : a ∉ F.addrs) : F.override a k name G = F := by
  induction F with
  | nil => rfl
  | text b s rest ih => rw [override, ih (List.not_mem_of_not_mem_cons h)]
  | block b n body rest ihb ihr =>
    simp only [addrs_block, List.mem_cons, List.mem_append, not_or] at h
    rw [override, if_neg (Ne.symm h.1), ihb h.2.1, ihr h.2.2]

theorem without_of_not_mem (h : a ∉ F.addrs) : F.without a = F := by
  induction F with
  | nil => rfl
  | text b s rest ih => rw [without, ih (List.not_mem_of_not_mem_cons h)]
  | block b n body rest ihb ihr =>
    simp only [addrs_block, List.mem_cons, List.mem_append, not_or] at h
    rw [without, if_neg (Ne.symm h.1), ihb h.2.1, ihr h.2.2]

def redirect (a k b : ι) : ι := if b = a then k else b

theorem redirect_of_ne (h : b ≠ a) (k : ι) : redirect a k b = b := if_neg h

theorem map_redirect {l : List ι} (h : a ∉ l) (k : ι) : l.map (redirect a k) = l := by
  have heach : ∀ b ∈ l, redirect a k b = id b := by
    intro b hb
    apply redirect_of_ne
    rintro rfl
    exact h hb
  rw [List.map_congr_left heach, List.map_id]

theorem roots_override (hF : F.addrs.Nodup) (h : F.Has a n H) :
    (F.override a k name G).roots = F.roots.map (redirect a k) := by
  induction F with
  | nil => rfl
  | text b s rest ih =>
    have hrest : rest.Has a n H := h
    rw [addrs_text, List.nodup_cons] at hF
    have hne : b ≠ a := fun he => hF.1 (he ▸ hrest.addr)
    simp only [override, roots, List.map_cons, redirect_of_ne hne, ih hF.2 hrest]
  | block b m body rest ihb ihr =>
    rw [addrs_block, List.nodup_cons, List.nodup_append'] at hF
    obtain ⟨hb, -, hrest, hdisj⟩ := hF
    simp only [List.mem_append, not_or] at hb
    rcases h with ⟨rfl, -, -⟩ | h | h
    · have hroots : b ∉ rest.roots := fun hm => hb.2 (rest.roots_sublist.subset hm)
      rw [override, if_pos rfl, roots, roots, List.map_cons, map_redirect hroots,
        override_of_not_mem hb.2, redirect, if_pos rfl]
    · have hne : b ≠ a := fun he => hb.1 (he ▸ h.addr)
      have hno : a ∉ rest.addrs := fun hm => hdisj h.addr hm
      have hroots : a ∉ rest.roots := fun hm => hno (rest.roots_sublist.subset hm)
      rw [override, if_neg hne, roots, roots, List.map_cons, map_redirect hroots,
        override_of_not_mem hno, redirect_of_ne hne]
    · have hne : b ≠ a := fun he => hb.2 (he ▸ h.addr)
      rw [override, if_neg hne, roots, roots, List.map_cons, ihr hrest h, redirect_of_ne hne]

/-- The nodes before and after a replacement. -/
theorem nodes_override (hF : F.addrs.Nodup) (h : F.Has a n H) :
    F.nodes.Perm ((a, some n) :: H.nodes ++ (F.without a).nodes) ∧
      (F.override a k name G).nodes.Perm ((k, some name) :: G.nodes ++ (F.without a).nodes) := by
  induction F with
  | nil => exact h.elim
  | text b s rest ih =>
    rw [addrs_text, List.nodup_cons] at hF
    obtain ⟨h₁, h₂⟩ := ih hF.2 h
    exact ⟨(h₁.cons _).trans List.perm_middle.symm, (h₂.cons _).trans List.perm_middle.symm⟩
  | block b m body rest ihb ihr =>
    rw [addrs_block, List.nodup_cons, List.nodup_append'] at hF
    obtain ⟨hb, hbody, hrest, hdisj⟩ := hF
    simp only [List.mem_append, not_or] at hb
    rcases h with ⟨rfl, rfl, rfl⟩ | h | h
    · rw [override, without, if_pos rfl, if_pos rfl, override_of_not_mem hb.2,
        without_of_not_mem hb.2]
      exact ⟨List.Perm.refl _, List.Perm.refl _⟩
    · have hne : b ≠ a := fun he => hb.1 (he ▸ h.addr)
      have hno : a ∉ rest.addrs := fun hm => hdisj h.addr hm
      obtain ⟨h₁, h₂⟩ := ihb hbody h
      rw [override, without, if_neg hne, if_neg hne, override_of_not_mem hno,
        without_of_not_mem hno]
      simp only [nodes]
      constructor
      · refine ((h₁.append_right _).cons _).trans ?_
        rw [List.append_assoc]
        exact List.perm_middle.symm
      · refine ((h₂.append_right _).cons _).trans ?_
        rw [List.append_assoc]
        exact List.perm_middle.symm
    · have hne : b ≠ a := fun he => hb.2 (he ▸ h.addr)
      have hno : a ∉ body.addrs := fun hm => hdisj hm h.addr
      obtain ⟨h₁, h₂⟩ := ihr hrest h
      rw [override, without, if_neg hne, if_neg hne, override_of_not_mem hno,
        without_of_not_mem hno]
      simp only [nodes]
      constructor
      · refine ((h₁.append_left _).cons _).trans ?_
        exact ((List.perm_append_comm_assoc _ _ _).cons _).trans List.perm_middle.symm
      · refine ((h₂.append_left _).cons _).trans ?_
        exact ((List.perm_append_comm_assoc _ _ _).cons _).trans List.perm_middle.symm

/-- Filling the node that has taken the place of another one. -/
theorem override_fill (hk : k ∉ F.addrs) :
    (F.override a k name H).fill k G = F.override a k name (H.append G) := by
  induction F with
  | nil => rfl
  | text b s rest ih => simp only [override, fill, ih (List.not_mem_of_not_mem_cons hk)]
  | block b m body rest ihb ihr =>
    simp only [addrs_block, List.mem_cons, List.mem_append, not_or] at hk
    rw [override, override]
    by_cases hb : b = a
    · rw [if_pos hb, if_pos hb, fill, if_pos rfl, ihr hk.2.2]
    · rw [if_neg hb, if_neg hb, fill, if_neg (Ne.symm hk.1), ihb hk.2.1, ihr hk.2.2]

end Forest
end Klone
