import Klone.Trans.Extends

/-! # Template inheritance

The preprocessor reads the templates of a chain one after the other, the first one first.
What it does is a run over blocks and texts, in which `ppc->cur` has to be the block that
the template is in.
-/
namespace Klone.Trans

/-- What the preprocessor does, one thing at a time. -/
inductive Event
  | text (s : Str)
  | block (name : Str)
  | endblock (name : Option Str)
  | inherit
  | depend (fullpath : Str)
  | mark (s : Str)
  | extended
  deriving DecidableEq, Repr

def Event.run (ppc : Ppctx) : Event → Option Ppctx
  | .text s => cbPreHtmlBlock ppc s
  | .block name => processDirectiveBlock ppc name
  | .endblock name => processDirectiveEndblock ppc name
  | .inherit => processDirectiveInherit ppc
  | .depend fullpath => some { ppc with depend := ppc.depend ++ [fullpath] }
  | .mark s => some (ppc.print s)
  | .extended => if ppc.lev ≠ 0 then none else some { ppc with extending := ppc.extending + 1 }

def namesBelow (heap : ℕ → Kblock) : ℕ → ℕ → List Str
  | 0, _ => []
  | fuel + 1, block =>
    (heap block).children.flatMap fun c => (heap c).name.toList ++ namesBelow heap fuel c

/-- The pointers are where the template has them. Outside every block of a template that
extends another one the current block is the top block or the dead one, unless a block
follows whose name is in the tree. Elsewhere the name of a new block is not in the tree.
`inherit` follows in a block that extends another one, whose content is still there and
has no names that are in the tree. -/
def Event.InPlace (ppc : Ppctx) : Event → Prop
  | .text _ => ppc.lev = 0 → ppc.extending ≠ 0 → ppc.cur = some topBlock ∨ ppc.cur = some deadBlock
  | .block name =>
    if ppc.lev = 0 ∧ ppc.extending ≠ 0 then
      (ppc.find name).isSome ∨ ppc.cur = some topBlock ∨ ppc.cur = some deadBlock
    else ppc.find name = none
  | .inherit => ppc.lev ≠ 0 ∧ ∃ cur anc, ppc.cur = some cur ∧ (ppc.heap cur).ancestor = some anc ∧
      (∀ c ∈ (ppc.heap cur).children, cur < c) ∧ ∀ name ∈ namesBelow ppc.heap ppc.next anc,
        ppc.find name = none
  | _ => True

def RunInPlace : Ppctx → List Event → Prop
  | _, [] => True
  | ppc, e :: es => e.InPlace ppc ∧ ∀ ppc', e.run ppc = some ppc' → RunInPlace ppc' es

instance (ppc : Ppctx) : (e : Event) → Decidable (e.InPlace ppc)
  | .text _ =>
    inferInstanceAs (Decidable (ppc.lev = 0 → ppc.extending ≠ 0 → ppc.cur = some topBlock ∨
      ppc.cur = some deadBlock))
  | .block name =>
    inferInstanceAs (Decidable (if ppc.lev = 0 ∧ ppc.extending ≠ 0 then
      (ppc.find name).isSome ∨ ppc.cur = some topBlock ∨ ppc.cur = some deadBlock
        else ppc.find name = none))
  | .inherit =>
    decidable_of_iff (ppc.lev ≠ 0 ∧ (ppc.cur.any fun cur => (ppc.heap cur).ancestor.any fun anc =>
      decide ((∀ c ∈ (ppc.heap cur).children, cur < c) ∧ ∀ name ∈ namesBelow ppc.heap ppc.next anc,
        ppc.find name = none)) = true)
      (by simp [Event.InPlace, Option.any_eq_true])
  | .endblock _ => isTrue trivial
  | .depend _ => isTrue trivial
  | .mark _ => isTrue trivial
  | .extended => isTrue trivial

def runsInPlace : Ppctx → List Event → Bool
  | _, [] => true
  | ppc, e :: es => decide (e.InPlace ppc) && (e.run ppc).all fun ppc' => runsInPlace ppc' es

theorem runInPlace_iff {ppc : Ppctx} {es : List Event} :
    runsInPlace ppc es = true ↔ RunInPlace ppc es := by
  induction es generalizing ppc with
  | nil => exact iff_of_true rfl trivial
  | cons e es ih => simp [runsInPlace, RunInPlace, Option.all_eq_true, ih]

inductive Spells : Template → List Event → Prop
  | nil : Spells .nil []
  | text {s : Str} {t : Template} {es : List Event} (h : Spells t es) :
    Spells (.text s t) (.text s :: es)
  | block {name : Str} {body t : Template} {ds es : List Event} {close : Option Str}
      (hclose : ∀ c ∈ close, strcasecmpEq c name = true) (hbody : Spells body ds)
        (h : Spells t es) :
      Spells (.block name body t) (.block name :: (ds ++ .endblock close :: es))
  | inherit {t : Template} {es : List Event} (h : Spells t es) :
    Spells (.inherit t) (.inherit :: es)

section
variable {ppc ppc' ppc'' : Ppctx} {heap heap' heap'' : ℕ → Kblock} {next next' next'' : ℕ}
    {L F G B O : Blocks}
  {k a : ℕ} {name : Str} {ds es : List Event} {t : Template}

theorem runInPlace_append (h : RunInPlace ppc (ds ++ es)) :
    RunInPlace ppc ds ∧ ∀ ppc', ds.foldlM Event.run ppc = some ppc' → RunInPlace ppc' es := by
  induction ds generalizing ppc with
  | nil =>
    refine ⟨trivial, fun ppc' h' => ?_⟩
    obtain rfl := Option.some.inj h'
    exact h
  | cons d ds ih =>
    obtain ⟨hd, h⟩ := h
    refine ⟨⟨hd, fun ppc₁ h₁ => (ih (h ppc₁ h₁)).1⟩, fun ppc' h' => ?_⟩
    rw [List.foldlM_cons] at h'
    obtain ⟨ppc₁, h₁, h'⟩ := Option.bind_eq_some_iff.mp h'
    exact (ih (h ppc₁ h₁)).2 ppc' h'

/-- A block with its body, as one step. -/
theorem run_enclosed {ppc₁ ppc₂ ppc₃ : Ppctx} {close : Option Str}
    (hopen : Event.run ppc (.block name) = some ppc₁) (hbody : ds.foldlM Event.run ppc₁ = some ppc₂)
    (hend : Event.run ppc₂ (.endblock close) = some ppc₃) :
    (Event.block name :: (ds ++ .endblock close :: es)).foldlM Event.run ppc =
    es.foldlM Event.run ppc₃ := by
  simp only [List.foldlM_cons, List.foldlM_append, hopen, hbody, hend, Option.bind_eq_bind,
    Option.bind_some]

/-! ## Blocks that are added -/

/-- Children are added at the end of a block, or of the top block. -/
def put (L : Blocks) (k : ℕ) (G : Blocks) : Blocks :=
  if k = topBlock then L.append G else L.fill k G

def Place (L : Blocks) (k : ℕ) : Prop :=
  k = topBlock ∨ (∃ n, (k, some n) ∈ L.nodes) ∨ (k ≠ topBlock ∧ k ∉ L.addrs)

structure Added (heap : ℕ → Kblock) (next : ℕ) (heap' : ℕ → Kblock) (next' k : ℕ) (L F : Blocks) :
    Prop where
  next_le : next ≤ next'
  frame : ∀ b < next, b ≠ k → heap' b = heap b
  block : heap' k = { heap k with children := (heap k).children ++ F.roots }
  rep : Rep heap' F k
  fresh : ∀ b ∈ F.addrs, next ≤ b
  upper : ∀ b ∈ F.addrs, b < next'
  keys : ∀ m ∈ keys F, m ∉ Trans.keys L
  live : Live heap' next' (put L k F)

theorem nodes_put (hL : L.addrs.Nodup) (hk : k = topBlock ∨ ∃ n, (k, some n) ∈ L.nodes)
    (G : Blocks) :
    (put L k G).nodes.Perm (L.nodes ++ G.nodes) := by
  unfold put
  by_cases htop : k = topBlock
  · rw [if_pos htop, Forest.nodes_append]
  · obtain ⟨n, hn⟩ := hk.resolve_left htop
    rw [if_neg htop]
    exact Forest.nodes_fill hL hn

theorem put_outside (hk : k ≠ topBlock) (hmem : k ∉ L.addrs) (G : Blocks) : put L k G = L := by
  rw [put, if_neg hk, Forest.fill_of_not_mem hmem]

theorem put_put (L F G : Blocks) (k : ℕ) : put (put L k F) k G = put L k (F.append G) := by
  unfold put
  by_cases htop : k = topBlock
  · simp only [if_pos htop, Forest.append_assoc]
  · simp only [if_neg htop, Forest.fill_fill]

/-- Children of a block that has just been added. -/
theorem put_added {c : ℕ} (hc : c ∉ L.addrs) (htop : c ≠ topBlock) :
    put (put L k (.block c name .nil .nil)) c B = put L k (.block c name B .nil) := by
  unfold put
  rw [if_neg htop]
  by_cases hk : k = topBlock
  · simp only [if_pos hk, Forest.append_fill, Forest.fill_of_not_mem hc, Forest.fill, if_true,
      Forest.append]
  · simp only [if_neg hk, Forest.fill_added hc, Forest.append]

theorem keys_put (hL : L.addrs.Nodup) (hk : Place L k) (F : Blocks) :
    keys L ⊆ keys (put L k F) := by
  by_cases hin : k = topBlock ∨ ∃ n, (k, some n) ∈ L.nodes
  · have hperm := keys_perm (nodes_put hL hin F)
    apply List.Subset.trans ?_ hperm.symm.subset
    rw [List.filterMap_append, List.map_append]
    exact List.subset_append_left _ _
  · have hout := (or_assoc.mpr hk).resolve_left hin
    rw [put_outside hout.1 hout.2]
    exact List.Subset.refl _

theorem place_put (hL : L.addrs.Nodup) (hk : Place L k) (F : Blocks) : Place (put L k F) k := by
  rcases hk with htop | ⟨n, hn⟩ | hout
  · exact Or.inl htop
  · exact Or.inr (Or.inl ⟨n,
      (nodes_put hL (Or.inr ⟨n, hn⟩) F).symm.subset (List.mem_append_left _ hn)⟩)
  · rw [put_outside hout.1 hout.2]
    exact Or.inr (Or.inr hout)

end
end Klone.Trans
