import Klone.Lib.Keyed
import Klone.Trans.BlockTree

/-! # Templates that extend one another

A template is text with named blocks. What a chain of templates stands for is said here
without the preprocessor: the text of the first one, with the body of each block taken
from the last template that defines it.
-/
namespace Klone.Trans
open Keyed

/-- Text and code, blocks, and `inherit`, each followed by the rest of the template. -/
inductive Template
  | nil
  | text (s : Str) (rest : Template)
  | block (name : Str) (body rest : Template)
  | inherit (rest : Template)
  deriving DecidableEq, Repr

namespace Template

def append : Template → Template → Template
  | nil, u => u
  | text s rest, u => text s (rest.append u)
  | block name body rest, u => block name body (rest.append u)
  | inherit rest, u => inherit (rest.append u)

def blocks : Template → List (Str × Template)
  | nil => []
  | text _ rest => rest.blocks
  | block name body rest => (name, body) :: (body.blocks ++ rest.blocks)
  | inherit rest => rest.blocks

def subst : Template → Template → Template
  | nil, _ => nil
  | text s rest, old => text s (rest.subst old)
  | block name body rest, old => block name body (rest.subst old)
  | inherit rest, old => old.append (rest.subst old)

def Inherits : Template → Prop
  | nil => False
  | text _ rest => rest.Inherits
  | block _ _ rest => rest.Inherits
  | inherit _ => True

def inBlocks : Template → Template
  | nil => nil
  | text _ rest => rest.inBlocks
  | block name body rest => block name body rest.inBlocks
  | inherit rest => rest.inBlocks

end Template

def blockKey (b : Str × Template) : Str := foldCase b.1

def Template.Distinct (t : Template) : Prop := Unique blockKey t.blocks

def Template.defines (t : Template) (name : Str) : Option Template :=
  (lookup blockKey (foldCase name) t.blocks).map Prod.snd

/-- The body of a block in a chain of templates, the last one first. -/
def merged : List Template → Str → Option Template
  | [], _ => none
  | t :: older, name => match t.defines name with
    | none => merged older name
    | some body => some (body.subst ((merged older name).getD .nil))

/-- The output for a template whose blocks have these bodies. -/
inductive Expands (R : Str → Option Template) : Template → Str → Prop
  | nil : Expands R .nil []
  | text {s out : Str} {t : Template} (h : Expands R t out) : Expands R (.text s t) (s ++ out)
  | block {name inner out : Str} {b body t : Template} (hbody : R name = some body)
    (hinner : Expands R body inner)
      (h : Expands R t out) : Expands R (.block name b t) (inner ++ out)

inductive Unfolds (R : Str → Option Template) : Template → Blocks → Prop
  | nil : Unfolds R .nil .nil
  | text {a : ℕ} {s : Str} {t : Template} {F : Blocks} (h : Unfolds R t F) :
    Unfolds R (.text s t) (.text a s F)
  | block {a : ℕ} {n name : Str} {b body t : Template} {B F : Blocks}
    (hname : foldCase n = foldCase name)
      (hbody : R name = some body) (hinner : Unfolds R body B) (h : Unfolds R t F) :
      Unfolds R (.block name b t) (.block a n B F)

section
variable {R R' : Str → Option Template} {t u old body new : Template} {F G L O : Blocks} {a k : ℕ}
    {n name : Str}
  {older : List Template}

theorem expands_unique {out out' : Str} (h : Expands R t out) (h' : Expands R t out') :
    out = out' := by
  induction h generalizing out' with
  | nil =>
    cases h'
    rfl
  | text h ih =>
    cases h' with
    | text h' => rw [ih h']
  | block hbody hinner h ihb ih =>
    cases h' with
    | block hbody' hinner' h' =>
      obtain rfl := Option.some.inj (hbody.symm.trans hbody')
      rw [ihb hinner', ih h']

theorem expands_of_unfolds (h : Unfolds R t F) : Expands R t (printed F) := by
  induction h with
  | nil => exact .nil
  | text h ih => exact .text ih
  | block hname hbody hinner h ihb ih => exact .block hbody ihb ih

/-! ## Trees of templates -/

theorem unfolds_append (h : Unfolds R t F) (h' : Unfolds R u G) :
    Unfolds R (t.append u) (F.append G) := by
  induction h with
  | nil => exact h'
  | text h ih => exact .text ih
  | block hname hbody hinner h _ ih => exact .block hname hbody hinner ih

/-- Only the bodies of the blocks in the tree matter. -/
theorem unfolds_congr (h : Unfolds R t F)
    (heq : ∀ name, foldCase name ∈ keys F → R' name = R name) : Unfolds R' t F := by
  induction h with
  | nil => exact .nil
  | text h ih => exact .text (ih heq)
  | block hname hbody hinner h ihb ih =>
    rw [keys_block] at heq
    refine .block hname ((heq _ ?_).trans hbody) (ihb fun m hm => heq m ?_)
      (ih fun m hm => heq m ?_)
    · simp [hname]
    · simp [hm]
    · simp [hm]

theorem unfolds_has (hR : ∀ m m', foldCase m = foldCase m' → R m = R m') (h : Unfolds R t L)
    (hhas : L.Has a n O) :
    ∃ body, R n = some body ∧ Unfolds R body O := by
  induction h with
  | nil => exact hhas.elim
  | text h ih => exact ih hhas
  | block hname hbody hinner h ihb ih =>
    rcases hhas with ⟨-, rfl, rfl⟩ | hhas | hhas
    · exact ⟨_, (hR _ _ hname).trans hbody, hinner⟩
    · exact ihb hhas
    · exact ih hhas

/-- A block of the tree gets another body. -/
theorem unfolds_override (h : Unfolds R t L) (hL : L.addrs.Nodup) (hhas : L.Has a n O)
    (heq : ∀ m, foldCase m ∈ keys (L.without a) → R' m = R m)
    (hnew : ∀ m, foldCase m = foldCase n → R' m = some new) (hname : foldCase name = foldCase n)
    (hG : Unfolds R' new G) : Unfolds R' t (L.override a k name G) := by
  induction h with
  | nil => exact hhas.elim
  | @text b s t F h ih =>
    rw [Forest.addrs_text, List.nodup_cons] at hL
    exact .text (ih hL.2 hhas heq)
  | @block b m name' b' body t B F hm hbody hinner h ihb ih =>
    rw [Forest.addrs_block, List.nodup_cons, List.nodup_append'] at hL
    obtain ⟨hno, hnb, hnr, hdisj⟩ := hL
    simp only [List.mem_append, not_or] at hno
    rw [Forest.override]
    rw [Forest.without] at heq
    rcases hhas with ⟨rfl, rfl, -⟩ | hhas | hhas
    · rw [if_pos rfl, Forest.without_of_not_mem hno.2] at heq
      rw [if_pos rfl, Forest.override_of_not_mem hno.2]
      exact .block (hname.trans hm) (hnew name' hm.symm) hG (unfolds_congr h heq)
    · have hne : b ≠ a := fun he => hno.1 (he ▸ hhas.addr)
      have hnot : a ∉ F.addrs := fun hmem => hdisj hhas.addr hmem
      rw [if_neg hne, Forest.without_of_not_mem hnot, keys_block] at heq
      rw [if_neg hne, Forest.override_of_not_mem hnot]
      refine .block hm ((heq name' ?_).trans hbody) (ihb hnb hhas fun l hl => heq l ?_)
        (unfolds_congr h fun l hl => heq l ?_)
      · simp [hm]
      · simp [hl]
      · simp [hl]
    · have hne : b ≠ a := fun he => hno.2 (he ▸ hhas.addr)
      have hnot : a ∉ B.addrs := fun hmem => hdisj hmem hhas.addr
      rw [if_neg hne, Forest.without_of_not_mem hnot, keys_block] at heq
      rw [if_neg hne, Forest.override_of_not_mem hnot]
      refine .block hm ((heq name' ?_).trans hbody) (unfolds_congr hinner fun l hl => heq l ?_)
        (ih hnr hhas fun l hl => heq l ?_)
      · simp [hm]
      · simp [hl]
      · simp [hl]

end
end Klone.Trans
