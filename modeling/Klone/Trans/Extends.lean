import Klone.Trans.Template

/-! # What a template does to the tree

A template that extends others changes the tree block by block. The tree stays the one
that the chain of the templates stands for.
-/
namespace Klone.Trans
open Keyed

inductive Copied : Template → Blocks → Prop
  | nil : Copied .nil .nil
  | text {a : ℕ} {s : Str} {t : Template} {F : Blocks} (h : Copied t F) :
    Copied (.text s t) (.text a s F)
  | block {a : ℕ} {n : Str} {body t : Template} {B F : Blocks} (hbody : Copied body B)
    (h : Copied t F) :
      Copied (.block n body t) (.block a n B F)

inductive Remade (O : Blocks) : Template → Blocks → Prop
  | nil : Remade O .nil .nil
  | text {a : ℕ} {s : Str} {t : Template} {F : Blocks} (h : Remade O t F) :
    Remade O (.text s t) (.text a s F)
  | block {a : ℕ} {n : Str} {body t : Template} {B F : Blocks} (hbody : Copied body B)
    (h : Remade O t F) :
      Remade O (.block n body t) (.block a n B F)
  | inherit {t : Template} {F : Blocks} (h : Remade O t F) : Remade O (.inherit t) (O.append F)

inductive Applied : Template → Blocks → Blocks → Prop
  | nil {L : Blocks} : Applied .nil L L
  | text {s : Str} {t : Template} {L L' : Blocks} (h : Applied t L L') : Applied (.text s t) L L'
  | known {a k : ℕ} {n name : Str} {body t : Template} {L L' O F : Blocks} (hL : L.addrs.Nodup)
      (hkeys : (keys L).Nodup) (hhas : L.Has a n O) (hname : foldCase name = foldCase n)
        (hbody : Remade O body F)
      (hnew : (keys (L.override a k name F)).Nodup) (h : Applied t (L.override a k name F) L') :
      Applied (.block name body t) L L'
  | unknown {name : Str} {body t : Template} {L L' F : Blocks} (hname : foldCase name ∉ keys L)
      (hbody : Copied body F) (hkeys : ∀ m ∈ keys F, m ∉ keys L) (h : Applied t L L') :
      Applied (.block name body t) L L'

section
variable {t u old body : Template} {F G L L' O : Blocks} {a k : ℕ} {n name : Str}
    {older : List Template}

theorem Copied.keys (h : Copied t F) : keys F = t.blocks.map blockKey := by
  induction h with
  | nil => rfl
  | text h ih => exact ih
  | block hbody h ihb ih => simp [Template.blocks, ihb, ih, blockKey]

theorem Copied.plain (h : Copied t F) : ¬ t.Inherits := by
  induction h with
  | nil => exact id
  | text h ih => exact ih
  | block hbody h _ ih => exact ih

theorem Copied.inner (h : Copied t F) : ∀ b ∈ t.blocks, ¬ b.2.Inherits := by
  induction h with
  | nil => simp [Template.blocks]
  | text h ih => exact ih
  | block hbody h ihb ih =>
    refine List.forall_mem_cons.mpr ⟨hbody.plain, fun b hb => ?_⟩
    exact (List.mem_append.mp hb).elim (ihb b) (ih b)

theorem Remade.inner (h : Remade O t F) : ∀ b ∈ t.blocks, ¬ b.2.Inherits := by
  induction h with
  | nil => simp [Template.blocks]
  | text h ih => exact ih
  | block hbody h ih =>
    refine List.forall_mem_cons.mpr ⟨hbody.plain, fun b hb => ?_⟩
    exact (List.mem_append.mp hb).elim (hbody.inner b) (ih b)
  | inherit h ih => exact ih

theorem Remade.blockKeys (h : Remade O t F) : t.blocks.map blockKey ⊆ keys F := by
  induction h with
  | nil => exact List.nil_subset _
  | text h ih => exact ih
  | block hbody h ih =>
    rw [keys_block, hbody.keys, Template.blocks, List.map_cons, List.map_append]
    exact List.cons_subset_cons _ (List.append_subset.mpr
      ⟨List.subset_append_left _ _, List.subset_append_of_subset_right _ ih⟩)
  | inherit h ih =>
    rw [keys_append]
    exact List.subset_append_of_subset_right _ ih

theorem Remade.oldKeys (h : Remade O t F) (hin : t.Inherits) : keys O ⊆ keys F := by
  induction h with
  | nil => exact hin.elim
  | text h ih => exact ih hin
  | block hbody h ih =>
    rw [keys_block]
    exact List.subset_cons_of_subset _ (List.subset_append_of_subset_right _ (ih hin))
  | inherit h ih =>
    rw [keys_append]
    exact List.subset_append_left _ _

/-- The inner blocks of a body that inherits are not those of the replaced body. -/
theorem Remade.disjoint (h : Remade O t F) (hkeys : (keys F).Nodup) (hin : t.Inherits) :
    ∀ m ∈ keys O, m ∉ t.blocks.map blockKey := by
  induction h with
  | nil => exact hin.elim
  | text h ih => exact ih hkeys hin
  | block hbody h ih =>
    rw [keys_block, List.nodup_cons, List.nodup_append'] at hkeys
    obtain ⟨hno, -, hrest, hdisj⟩ := hkeys
    simp only [List.mem_append, not_or] at hno
    intro m hm
    have hmem := h.oldKeys hin hm
    rw [Template.blocks, List.map_cons, List.map_append, List.mem_cons, List.mem_append,
      ← hbody.keys]
    rintro (rfl | hb | hb)
    · exact hno.2 hmem
    · exact hdisj hb hmem
    · exact ih hrest hin m hm hb
  | inherit h ih =>
    rw [keys_append, List.nodup_append'] at hkeys
    exact fun m hm hb => hkeys.2.2 hm (h.blockKeys hb)

theorem subst_of_not_inherits (h : ¬ t.Inherits) (old : Template) : t.subst old = t := by
  induction t with
  | nil => rfl
  | text s rest ih => rw [Template.subst, ih h]
  | block name body rest _ ih => rw [Template.subst, ih h]
  | inherit rest _ => exact absurd trivial h

variable {R R' : Str → Option Template}

theorem unfolds_copied (h : Copied t F) (hR : ∀ b ∈ t.blocks, R b.1 = some b.2) :
    Unfolds R t F := by
  induction h with
  | nil => exact .nil
  | text h ih => exact .text (ih hR)
  | block hbody h ihb ih =>
    rw [Template.blocks, List.forall_mem_cons] at hR
    refine .block rfl hR.1 (ihb fun b hb => hR.2 b ?_) (ih fun b hb => hR.2 b ?_)
    · exact List.mem_append_left _ hb
    · exact List.mem_append_right _ hb

theorem unfolds_remade (h : Remade O t F) (hO : t.Inherits → Unfolds R old O)
    (hR : ∀ b ∈ t.blocks, R b.1 = some b.2) :
    Unfolds R (t.subst old) F := by
  induction h with
  | nil => exact .nil
  | text h ih => exact .text (ih hO hR)
  | block hbody h ih =>
    rw [Template.blocks, List.forall_mem_cons] at hR
    refine .block rfl hR.1 (unfolds_copied hbody fun b hb => hR.2 b ?_)
      (ih hO fun b hb => hR.2 b ?_)
    · exact List.mem_append_left _ hb
    · exact List.mem_append_right _ hb
  | @inherit t F h ih => exact unfolds_append (hO trivial) (ih (fun _ => hO trivial) hR)

/-! ## The bodies of a chain -/

@[simp] theorem append_nil (t : Template) : t.append .nil = t := by
  induction t with
  | nil => rfl
  | text s rest ih => rw [Template.append, ih]
  | block name body rest _ ih => rw [Template.append, ih]
  | inherit rest ih => rw [Template.append, ih]

theorem append_assoc (t u v : Template) : (t.append u).append v = t.append (u.append v) := by
  induction t with
  | nil => rfl
  | text s rest ih => simp only [Template.append, ih]
  | block name body rest _ ih => simp only [Template.append, ih]
  | inherit rest ih => simp only [Template.append, ih]

@[simp] theorem blocks_append (t u : Template) : (t.append u).blocks = t.blocks ++ u.blocks := by
  induction t with
  | nil => rfl
  | text s rest ih => exact ih
  | block name body rest _ ih =>
    simp only [Template.append, Template.blocks, ih, List.cons_append, List.append_assoc]
  | inherit rest ih => exact ih

theorem merged_fold (ts : List Template) {m m' : Str} (h : foldCase m = foldCase m') :
    merged ts m = merged ts m' := by
  induction ts with
  | nil => rfl
  | cons t older ih => simp only [merged, Template.defines, h, ih]

theorem merged_blocks {t u : Template} (h : t.blocks = u.blocks) (older : List Template) :
    merged (t :: older) = merged (u :: older) := by
  funext name
  simp only [merged, Template.defines, h]

theorem merged_defined (h : t.defines name = some body) :
    merged (t :: older) name = some (body.subst ((merged older name).getD .nil)) := by
  simp only [merged, h]

theorem merged_undefined (h : t.defines name = none) :
    merged (t :: older) name = merged older name := by
  simp only [merged, h]

theorem defines_eq_none : t.defines name = none ↔ foldCase name ∉ t.blocks.map blockKey := by
  rw [Template.defines, Option.map_eq_none_iff, Keyed.lookup_eq_none]
  simp

/-- With different names every block is the one that its name finds. -/
theorem defines_of_mem (h : t.Distinct) {b : Str × Template} (hb : b ∈ t.blocks) :
    t.defines b.1 = some b.2 := by
  have hfind : Keyed.lookup blockKey (foldCase b.1) t.blocks = some b := Unique.lookup_of_mem h hb
  rw [Template.defines, hfind]
  rfl

/-- Blocks behind others decide only their own names. -/
theorem merged_append (pre t : Template) (older : List Template)
    (h : foldCase name ∉ t.blocks.map blockKey) :
    merged (pre.append t :: older) name = merged (pre :: older) name := by
  have hsame : (pre.append t).defines name = pre.defines name := by
    have hnone : Keyed.lookup blockKey (foldCase name) t.blocks = none := by
      rw [Keyed.lookup_eq_none]
      intro b hb he
      exact h (he ▸ List.mem_map_of_mem hb)
    rw [Template.defines, Template.defines, blocks_append, Keyed.lookup_append, hnone,
      Option.or_none]
  simp only [merged, hsame]

theorem unfolds_base (h : Copied t F) (hdistinct : t.Distinct) : Unfolds (merged [t]) t F := by
  apply unfolds_copied h
  intro b hb
  rw [merged_defined (defines_of_mem hdistinct hb), subst_of_not_inherits (h.inner b hb)]

/-- What is outside the blocks of the templates does not matter for the bodies. -/
theorem merged_inBlocks (ts : List Template) : merged (ts.map Template.inBlocks) = merged ts := by
  have hblocks : ∀ t : Template, t.inBlocks.blocks = t.blocks := by
    intro t
    induction t with
    | nil => rfl
    | text s rest ih => exact ih
    | block name body rest _ ih => simp only [Template.inBlocks, Template.blocks, ih]
    | inherit rest ih => exact ih
  induction ts with
  | nil => rfl
  | cons t older ih =>
    rw [List.map_cons, merged_blocks (hblocks t)]
    funext name
    simp only [merged, ih]

/-! ## A whole template -/

/-- The names in a tree before and after a block takes the place of another one. -/
theorem keys_override (hL : L.addrs.Nodup) (hhas : L.Has a n O) :
    (keys L).Perm (foldCase n :: (keys O ++ keys (L.without a))) ∧
      (keys (L.override a k name F)).Perm (foldCase name :: (keys F ++ keys (L.without a))) := by
  obtain ⟨h₁, h₂⟩ : L.nodes.Perm ((a, some n) :: O.nodes ++ (L.without a).nodes) ∧
      (L.override a k name F).nodes.Perm ((k, some name) :: F.nodes ++ (L.without a).nodes) :=
    Forest.nodes_override hL hhas
  constructor
  · simpa [keys, Forest.names] using keys_perm h₁
  · simpa [keys, Forest.names] using keys_perm h₂

/-- An overriding block keeps the tree that of the chain. -/
theorem unfolds_known {base pre : Template}
    (hdistinct : (pre.append (.block name body .nil)).Distinct) (hL : L.addrs.Nodup)
    (hkeys : (keys L).Nodup) (hhas : L.Has a n O) (hname : foldCase name = foldCase n)
    (hbody : Remade O body F) (hnew : (keys (L.override a k name F)).Nodup)
    (h : Unfolds (merged (pre :: older)) base L) :
    Unfolds (merged (pre.append (.block name body .nil) :: older)) base
    (L.override a k name F) := by
  have hblocks : (pre.append (.block name body .nil)).blocks =
      pre.blocks ++ (name, body) :: body.blocks := by
    simp [Template.blocks]
  obtain ⟨hbefore, hafter⟩ : (keys L).Perm (foldCase n :: (keys O ++ keys (L.without a))) ∧
      (keys (L.override a k name F)).Perm (foldCase name :: (keys F ++ keys (L.without a))) :=
        keys_override hL hhas
  have hkeysL := hbefore.nodup_iff.mp hkeys
  have hkeysF := hafter.nodup_iff.mp hnew
  rw [List.nodup_cons, List.nodup_append'] at hkeysL hkeysF
  simp only [List.mem_append, not_or] at hkeysL hkeysF
  -- names that the block does not define have the bodies that they had
  have hother : ∀ m, foldCase m ≠ foldCase name → foldCase m ∉ body.blocks.map blockKey →
      merged (pre.append (.block name body .nil) :: older) m = merged (pre :: older) m := by
    intro m hm hno
    apply merged_append
    rw [Template.blocks, Template.blocks, List.append_nil, List.map_cons, List.mem_cons, not_or]
    exact ⟨hm, hno⟩
  -- the replaced body
  obtain ⟨oldBody, hold, hO⟩ := unfolds_has (fun m m' => merged_fold _) h hhas
  have hfresh : pre.defines name = none := by
    rw [defines_eq_none]
    have hkeyed := hdistinct
    rw [Template.Distinct, Keyed.Unique, hblocks, List.map_append, List.map_cons,
      List.nodup_append'] at hkeyed
    exact fun hm => hkeyed.2.2 hm List.mem_cons_self
  have holder : merged older name = some oldBody := by
    rw [← merged_undefined hfresh, merged_fold _ hname]
    exact hold
  have hsubst : merged (pre.append (.block name body .nil) :: older) name =
      some (body.subst oldBody) := by
    have hdef := defines_of_mem hdistinct (b := (name, body)) (by simp [hblocks])
    rw [merged_defined hdef, holder]
    rfl
  apply unfolds_override h hL hhas ?_ ?_ hname ?_
  · exact body.subst oldBody
  · intro m hm
    apply hother m
    · exact fun he => hkeysF.1.2 (he ▸ hm)
    · exact fun hmem => hkeysF.2.2.2 (hbody.blockKeys hmem) hm
  · intro m hm
    rw [merged_fold _ (hm.trans hname.symm), hsubst]
  · apply unfolds_remade hbody
    · intro hin
      apply unfolds_congr hO
      intro m hm
      apply hother m
      · exact fun he => hkeysL.1.1 (hname ▸ he ▸ hm)
      · exact hbody.disjoint hkeysF.2.1 hin _ hm
    · intro b hb
      have hdef := defines_of_mem hdistinct (b := b) (by simp [hblocks, hb])
      rw [merged_defined hdef, subst_of_not_inherits (hbody.inner b hb)]

/-- The tree goes on being that of the chain when a template is applied to it. -/
theorem unfolds_applied {base pre : Template} (h : Applied t L L')
    (hdistinct : (pre.append t).Distinct) (hL : Unfolds (merged (pre :: older)) base L) :
    Unfolds (merged (pre.append t :: older)) base L' := by
  induction h generalizing pre with
  | nil => rwa [append_nil]
  | @text s t L L' h ih =>
    have hstep : pre.append (.text s t) = (pre.append (.text s .nil)).append t :=
      (append_assoc pre (.text s .nil) t).symm
    have hsame : merged (pre.append (.text s .nil) :: older) = merged (pre :: older) :=
      merged_blocks (by simp [Template.blocks]) older
    rw [hstep] at hdistinct ⊢
    exact ih hdistinct (hsame ▸ hL)
  | @known a k n name body t L L' O F hnodup hkeys hhas hname hbody hnew h ih =>
    have hstep : pre.append (.block name body t) = (pre.append (.block name body .nil)).append t :=
      (append_assoc pre (.block name body .nil) t).symm
    rw [hstep] at hdistinct ⊢
    apply ih hdistinct
    apply unfolds_known ?_ hnodup hkeys hhas hname hbody hnew hL
    rw [Template.Distinct, blocks_append] at hdistinct
    exact hdistinct.sublist (List.sublist_append_left _ _)
  | @unknown name body t L L' F hname hbody hkeys h ih =>
    have hstep : pre.append (.block name body t) = (pre.append (.block name body .nil)).append t :=
      (append_assoc pre (.block name body .nil) t).symm
    rw [hstep] at hdistinct ⊢
    apply ih hdistinct
    apply unfolds_congr hL
    intro m hm
    apply merged_append
    rw [Template.blocks, List.map_cons, Template.blocks, List.append_nil, ← hbody.keys,
      List.mem_cons, not_or]
    refine ⟨fun he => hname ?_, fun hmem => hkeys _ hmem hm⟩
    rw [show foldCase name = foldCase m from he.symm]
    exact hm

end
end Klone.Trans
