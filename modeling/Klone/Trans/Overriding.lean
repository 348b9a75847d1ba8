import Klone.Trans.Copying

/-! # Blocks that take the place of others

The body of a block that extends another one is read into the tree in the place of the
other one. `inherit` moves the content of the other one there, which can be done once.
-/
namespace Klone.Trans

section
variable {ppc ppc' ppc'' ppc₁ ppc₂ : Ppctx} {heap heap' heap'' : ℕ → Kblock} {next next' : ℕ}
    {L M F F₀ G B O : Blocks}
  {k a c p q old fuel : ℕ} {n name : Str} {ds es : List Event} {t : Template}

/-! ## Names below a block -/

theorem names_below (h : Rep heap F p) (hfuel : F.depth ≤ fuel) :
    F.names ⊆ F.roots.flatMap fun c => (heap c).name.toList ++ namesBelow heap fuel c := by
  induction F generalizing p fuel with
  | nil => exact List.nil_subset _
  | text a s rest ih =>
    rw [Forest.roots, List.flatMap_cons]
    exact List.subset_append_of_subset_right _ (ih h.2 hfuel)
  | block a n body rest ihb ihr =>
    obtain ⟨ha, hbody, hrest⟩ := h
    simp only [Forest.depth, Nat.max_le] at hfuel
    rw [Forest.roots, List.flatMap_cons, Forest.names_block]
    apply List.cons_subset.mpr
    constructor
    · apply List.mem_append_left
      simp [ha.1]
    · apply List.append_subset.mpr
      constructor
      · apply List.subset_append_of_subset_left
        apply List.subset_append_of_subset_right
        obtain ⟨fuel, rfl⟩ := Nat.exists_eq_succ_of_ne_zero
          (Nat.ne_of_gt (Nat.lt_of_lt_of_le (Nat.succ_pos _) hfuel.1))
        rw [namesBelow, ha.2.2]
        exact ihb hbody (Nat.le_of_succ_le_succ hfuel.1)
      · exact List.subset_append_of_subset_right _ (ihr hrest hfuel.2)

/-! ## Moving the content of a block -/

/-- Blocks that are pushed one after the other. -/
theorem pushAll_heap {l : List ℕ} (hl : l.Nodup) (hk : k ∉ l) (ppc : Ppctx) :
    let ppc' := l.foldl (fun ppc b => kblockPushChild ppc k b) ppc
    (∀ b, b ≠ k → b ∉ l → ppc'.heap b = ppc.heap b) ∧
      ppc'.heap k = { ppc.heap k with children := (ppc.heap k).children ++ l } ∧
        (∀ b ∈ l, ppc'.heap b = { ppc.heap b with parent := some k }) ∧ ppc'.next = ppc.next ∧
        SameButHeap ppc ppc' := by
  induction l generalizing ppc with
  | nil => simp [SameButHeap.refl]
  | cons c l ih =>
    rw [List.nodup_cons] at hl
    simp only [List.mem_cons, not_or] at hk
    obtain ⟨hframe, hblock, hroots, hnext, hsame⟩ := ih hl.2 hk.2 (kblockPushChild ppc k c)
    have hkc : k ≠ c := hk.1
    have hpush : ∀ b, b ≠ k → b ≠ c → (kblockPushChild ppc k c).heap b = ppc.heap b := by
      intro b hbk hbc
      simp [kblockPushChild, Ppctx.modify, hbk, hbc]
    have hpushed : (kblockPushChild ppc k c).heap c = { ppc.heap c with parent := some k } := by
      simp [kblockPushChild, Ppctx.modify, hkc.symm]
    have hgot : (kblockPushChild ppc k c).heap k = { ppc.heap k with
        children := (ppc.heap k).children ++ [c] } := by
      simp [kblockPushChild, Ppctx.modify, hkc]
    rw [List.foldl_cons]
    refine ⟨?_, ?_, ?_, hnext, ?_⟩
    · intro b hbk hb
      simp only [List.mem_cons, not_or] at hb
      rw [hframe b hbk hb.2, hpush b hbk hb.1]
    · rw [hblock, hgot, List.append_assoc]
      rfl
    · intro b hb
      rcases List.mem_cons.mp hb with rfl | hb
      · rw [hframe b hkc.symm hl.1, hpushed]
      · have hbk : b ≠ k := fun he => hk.2 (he ▸ hb)
        have hbc : b ≠ c := fun he => hl.1 (he ▸ hb)
        rw [hroots b hb, hpush b hbk hbc]
    · have hone : SameButHeap ppc (kblockPushChild ppc k c) := ⟨rfl, rfl, rfl, rfl, rfl⟩
      exact hone.trans hsame

/-! ## The body of an overriding block -/

structure Intact (heap : ℕ → Kblock) (k old : ℕ) (M O : Blocks) : Prop where
  rep : Rep heap O old
  children : (heap old).children = O.roots
  nodup : O.addrs.Nodup
  keys : (keys O).Nodup
  outside : ∀ b ∈ O.addrs, 2 ≤ b ∧ b < k ∧ b ∉ M.addrs
  oldRange : 2 ≤ old ∧ old < k
  oldOutside : old ∉ M.addrs ∧ old ∉ O.addrs

/-- The body of the block `k` in the place of `old` is read, and has become `F`. The content
of `old` has been moved when there is something from before in it. -/
structure Overriding (ppc : Ppctx) (L : Blocks) (k old : ℕ) (O F : Blocks) : Prop where
  reading : Reading ppc (put L k F) k
  children : (ppc.heap k).children = F.roots
  ancestor : (ppc.heap k).ancestor = some old
  content : Intact ppc.heap k old (put L k F) O ∨ ∃ b ∈ (ppc.heap k).children, b < k

theorem mem_addrs_put (hL : L.addrs.Nodup) (hk : Place L k) {b : ℕ} (hb : b ∈ (put L k G).addrs) :
    b ∈ L.addrs ∨ b ∈ G.addrs := by
  by_cases hin : k = topBlock ∨ ∃ n, (k, some n) ∈ L.nodes
  · have hmap := (nodes_put hL hin G).map Prod.fst
    rw [List.map_append] at hmap
    exact List.mem_append.mp (hmap.subset hb)
  · have hout := (or_assoc.mpr hk).resolve_left hin
    rw [put_outside hout.1 hout.2] at hb
    exact Or.inl hb

theorem Overriding.added (h : Overriding ppc L k old O F) (hs : SameButHeap ppc ppc')
    (ha : Added ppc.heap ppc.next ppc'.heap ppc'.next k (put L k F) G) :
    Overriding ppc' L k old O (F.append G) := by
  have hfold := put_put L F G k
  have hchildren : (ppc'.heap k).children = (ppc.heap k).children ++ G.roots := by rw [ha.block]
  refine ⟨?_, ?_, ?_, ?_⟩
  · rw [← hfold]
    exact h.reading.added ha hs
  · rw [hchildren, h.children, Forest.roots_append]
  · rw [ha.block]
    exact h.ancestor
  · rcases h.content with hi | ⟨b, hb, hlt⟩
    · left
      have hframe : ∀ b < k, ppc'.heap b = ppc.heap b :=
        fun b hb => ha.frame b (hb.trans h.reading.lt) (Nat.ne_of_lt hb)
      have hout : ∀ b < k, b ∉ (put L k F).addrs → b ∉ (put L k (F.append G)).addrs := by
        intro b hb hno hm
        rw [← hfold] at hm
        rcases mem_addrs_put h.reading.live.addrs h.reading.place hm with hm | hm
        · exact hno hm
        · have hfresh := ha.fresh b hm
          have hlt := h.reading.lt
          omega
      refine ⟨rep_congr hi.rep fun b hb => hframe b (hi.outside b hb).2.1, ?_, hi.nodup, hi.keys,
        ?_, hi.oldRange, ?_⟩
      · rw [hframe old hi.oldRange.2, hi.children]
      · intro b hb
        obtain ⟨hlow, hlt, hno⟩ := hi.outside b hb
        exact ⟨hlow, hlt, hout b hlt hno⟩
      · exact ⟨hout old hi.oldRange.2 hi.oldOutside.1, hi.oldOutside.2⟩
    · right
      refine ⟨b, ?_, hlt⟩
      rw [hchildren]
      exact List.mem_append_left _ hb

structure Moved (heap heap' : ℕ → Kblock) (k old : ℕ) (O : Blocks) : Prop where
  block : heap' k = { heap k with children := (heap k).children ++ O.roots }
  emptied : (heap' old).children = []
  roots : ∀ b ∈ O.roots, heap' b = { heap b with parent := some k }
  frame : ∀ b, b ≠ k → b ≠ old → b ∉ O.roots → heap' b = heap b

theorem inherit_moves (hcur : ppc.cur = some k) (hanc : (ppc.heap k).ancestor = some old)
    (hi : Intact ppc.heap k old M O) :
    ∃ ppc', Event.run ppc .inherit = some ppc' ∧ SameButHeap ppc ppc' ∧ ppc'.next = ppc.next ∧
      Moved ppc.heap ppc'.heap k old O := by
  have hk : k ∉ O.roots := fun hm => Nat.lt_irrefl k (hi.outside k (O.roots_sublist.subset hm)).2.1
  have hold : old ∉ O.roots := fun hm => hi.oldOutside.2 (O.roots_sublist.subset hm)
  have hkold : k ≠ old := Nat.ne_of_gt hi.oldRange.2
  obtain ⟨hframe, hblock, hroots, hnext, hsame⟩ :=
    pushAll_heap (hi.nodup.sublist O.roots_sublist) hk ppc
  generalize hmoved : O.roots.foldl (fun ppc b => kblockPushChild ppc k b) ppc =
    moved at hframe hblock hroots hnext hsame
  let ppc' := moved.modify old fun b => { b with children := [] }
  have hheap : ∀ b, b ≠ old → ppc'.heap b = moved.heap b := fun b hb => Function.update_of_ne hb _ _
  refine ⟨ppc', ?_, hsame.trans ⟨rfl, rfl, rfl, rfl, rfl⟩, hnext,
    ⟨(hheap k hkold).trans hblock, ?_, ?_, ?_⟩⟩
  · change processDirectiveInherit ppc = _
    unfold processDirectiveInherit
    rw [hcur, Option.bind_some, hanc, Option.map_some, hi.children, hmoved]
  · simp [ppc', Ppctx.modify]
  · exact fun b hb => (hheap b fun he => hold (he ▸ hb)).trans (hroots b hb)
  · exact fun b hbk hbo hb => (hheap b hbo).trans (hframe b hbk hb)

theorem Moved.live (h : Moved heap heap' k old O) (hi : Intact heap k old M O)
    (hM : Live heap next M) (hk : Place M k) (hlt : k < next) (hkeys : ∀ m ∈ keys O, m ∉ keys M) :
    Live heap' next (put M k O) := by
  have hrep : Rep heap' O k := by
    apply rep_reparent hi.rep hi.nodup h.roots
    intro b hb hno
    exact h.frame b (Nat.ne_of_lt (hi.outside b hb).2.1) (fun he => hi.oldOutside.2 (he ▸ hb)) hno
  apply live_put hM hk (Nat.le_refl next) ?_ ?_ h.block hrep hi.nodup ?_ hi.keys hkeys
  · intro b hb hbk
    refine h.frame b hbk ?_ ?_
    · rintro rfl
      exact hi.oldOutside.1 hb
    · exact fun hm => (hi.outside b (O.roots_sublist.subset hm)).2.2 hb
  · intro htop
    refine h.frame topBlock (Ne.symm htop) (Nat.ne_of_lt (top_lt hi.oldRange.1)) fun hm => ?_
    exact absurd (hi.outside topBlock (O.roots_sublist.subset hm)).1 (by decide)
  · intro b hb
    obtain ⟨hlow, hltb, hno⟩ := hi.outside b hb
    exact ⟨hno, hlow, hltb.trans hlt⟩

/-- The names of the content are not in the tree when `find` finds none of them. -/
theorem Intact.keys_fresh (hi : Intact ppc.heap k old M O) (h : Reading ppc M k)
    (hnames : ∀ name ∈ namesBelow ppc.heap ppc.next old, ppc.find name = none) :
    ∀ m ∈ Trans.keys O, m ∉ Trans.keys M := by
  intro m hm
  obtain ⟨n, hn, rfl⟩ := List.mem_map.mp hm
  have hrange : ∀ b ∈ O.addrs, 2 ≤ b ∧ b < ppc.next :=
    fun b hb => ⟨(hi.outside b hb).1, (hi.outside b hb).2.1.trans h.lt⟩
  have hdepth := depth_lt_of_range hi.nodup hrange h.lower
  have hbelow : n ∈ namesBelow ppc.heap ppc.next old := by
    obtain ⟨fuel, hfuel⟩ := Nat.exists_eq_succ_of_ne_zero
      (Nat.ne_of_gt (Nat.zero_lt_of_lt (top_lt h.lower)))
    rw [hfuel, namesBelow, hi.children]
    exact names_below hi.rep (by omega) hn
  exact (h.live.find_none h.lower).mp (hnames n hbelow)

/-- `inherit` adds the content of the replaced block. -/
theorem inherit_step (h : Overriding ppc L k old O F) (hin : Event.InPlace ppc .inherit) :
    ∃ ppc', Event.run ppc .inherit = some ppc' ∧ SameButHeap ppc ppc' ∧
    Overriding ppc' L k old O (F.append O) ∧
      (ppc'.heap k).name = (ppc.heap k).name ∧ (ppc'.heap k).parent = (ppc.heap k).parent := by
  obtain ⟨-, cur, anc, hcur, hanc, hfirst, hnames⟩ := hin
  rw [h.reading.cur, Option.some.injEq] at hcur
  subst hcur
  rw [h.ancestor, Option.some.injEq] at hanc
  subst hanc
  -- nothing has been moved before
  have hi : Intact ppc.heap k old (put L k F) O := by
    apply h.content.resolve_right
    rintro ⟨b, hb, hlt⟩
    exact absurd (hfirst b hb) (Nat.lt_asymm hlt)
  obtain ⟨ppc', hrun, hsame, hnext, hmoved⟩ := inherit_moves h.reading.cur h.ancestor hi
  have hlive := hmoved.live hi h.reading.live h.reading.place h.reading.lt
    (hi.keys_fresh h.reading hnames)
  have hplace := place_put h.reading.live.addrs h.reading.place O
  rw [put_put] at hlive hplace
  have hreading : Reading ppc' (put L k (F.append O)) k := by
    refine ⟨hsame.cur.trans h.reading.cur, ?_, hplace, ?_, ?_, ?_⟩
    · rw [hnext]
      exact hlive
    · rw [hnext]
      exact h.reading.lower
    · rw [hnext]
      exact h.reading.lt
    · rw [hsame.extending, hsame.lev]
      exact h.reading.inside
  have hchildren : (ppc'.heap k).children = (ppc.heap k).children ++ O.roots := by rw [hmoved.block]
  refine ⟨ppc', hrun, hsame, ⟨hreading, ?_, ?_, ?_⟩, ?_, ?_⟩
  · rw [hchildren, h.children, Forest.roots_append]
  · rw [hmoved.block]
    exact h.ancestor
  · rw [hchildren]
    cases hO : O.roots with
    | nil =>
      left
      obtain rfl : O = .nil := by
        cases O with
        | nil => rfl
        | text a s rest => cases hO
        | block a n body rest => cases hO
      rw [Forest.append_nil]
      exact ⟨trivial, hmoved.emptied, hi.nodup, hi.keys, hi.outside, hi.oldRange, hi.oldOutside⟩
    | cons b rest =>
      right
      have hb : b ∈ O.roots := by simp [hO]
      exact ⟨b, List.mem_append_right _ List.mem_cons_self,
        (hi.outside b (O.roots_sublist.subset hb)).2.1⟩
  · rw [hmoved.block]
  · rw [hmoved.block]

/-- The body of a block that takes the place of another one. -/
theorem run_remade (hs : Spells t es) (h : Overriding ppc L k old O F₀) (hrun : RunInPlace ppc es) :
    ∃ ppc' F, es.foldlM Event.run ppc = some ppc' ∧ Remade O t F ∧ SameButHeap ppc ppc' ∧
      Overriding ppc' L k old O (F₀.append F) ∧ (ppc'.heap k).name = (ppc.heap k).name ∧
        (ppc'.heap k).parent = (ppc.heap k).parent := by
  induction hs generalizing ppc F₀ with
  | nil =>
    refine ⟨ppc, .nil, rfl, .nil, SameButHeap.refl ppc, ?_, rfl, rfl⟩
    rw [Forest.append_nil]
    exact h
  | @text s t es hs ih =>
    obtain ⟨ppc₁, hstep, hsame, hadded⟩ := text_step h.reading s
    obtain ⟨ppc', F, hfold, hremade, hsame', h', hname, hparent⟩ :=
      ih (h.added hsame hadded) (hrun.2 ppc₁ hstep)
    refine ⟨ppc', .text ppc.next s F, ?_, .text hremade, hsame.trans hsame', ?_, ?_, ?_⟩
    · rw [List.foldlM_cons, hstep]
      exact hfold
    · rw [Forest.append_assoc] at h'
      exact h'
    · rw [hname, hadded.block]
    · rw [hparent, hadded.block]
  | @block name body t ds es close hclose hbody hs _ ih =>
    obtain ⟨ppc₁, B, hfold₁, hrun₁, hcopied, hsame, hadded⟩ :=
      block_whole h.reading hclose (run_copied hbody) hrun
    obtain ⟨ppc', F, hfold, hremade, hsame', h', hname, hparent⟩ := ih (h.added hsame hadded) hrun₁
    refine ⟨ppc', .block ppc.next name B F, hfold₁.trans hfold, .block hcopied hremade,
      hsame.trans hsame', ?_, ?_, ?_⟩
    · rw [Forest.append_assoc] at h'
      exact h'
    · rw [hname, hadded.block]
    · rw [hparent, hadded.block]
  | @inherit t es hs ih =>
    obtain ⟨ppc₁, hstep, hsame, h₁, hname₁, hparent₁⟩ := inherit_step h hrun.1
    obtain ⟨ppc', F, hfold, hremade, hsame', h', hname, hparent⟩ := ih h₁ (hrun.2 ppc₁ hstep)
    refine ⟨ppc', O.append F, ?_, .inherit hremade, hsame.trans hsame', ?_, hname.trans hname₁,
      hparent.trans hparent₁⟩
    · rw [List.foldlM_cons, hstep]
      exact hfold
    · rw [Forest.append_assoc] at h'
      exact h'

/-! ## Taking the place of a block -/

theorem insertIdx_erase {l : List ℕ} {idx : ℕ} (hl : l.Nodup) (ha : l[idx]? = some a) (hk : k ∉ l) :
    (l.insertIdx idx k).erase a = l.map (Forest.redirect a k) := by
  induction l generalizing idx with
  | nil => cases ha
  | cons b l ih =>
    rw [List.nodup_cons] at hl
    simp only [List.mem_cons, not_or] at hk
    cases idx with
    | zero =>
      obtain rfl : b = a := Option.some.inj ha
      rw [List.insertIdx_zero, List.erase_cons_tail (by simpa using hk.1), List.erase_cons_head,
        List.map_cons,
        Forest.map_redirect hl.1, Forest.redirect, if_pos rfl]
    | succ idx =>
      have ha' : l[idx]? = some a := ha
      have hba : b ≠ a := fun he => hl.1 (he ▸ List.mem_of_getElem? ha')
      rw [List.insertIdx_succ_cons, List.erase_cons_tail (by simpa using hba), ih hl.2 ha' hk.2,
        List.map_cons,
        Forest.redirect_of_ne hba]

/-- The children of a block of the forest are in the forest, each once. -/
theorem rep_children_mem (h : Rep heap F p) (hF : F.addrs.Nodup) :
    ∀ b ∈ F.addrs, (heap b).children.Nodup ∧ ∀ c ∈ (heap b).children, c ∈ F.addrs := by
  induction F generalizing p with
  | nil => simp
  | text a s rest ih =>
    obtain ⟨ha, h⟩ := h
    rw [Forest.addrs_text, List.nodup_cons] at hF
    intro b hb
    rcases List.mem_cons.mp hb with rfl | hb
    · simp [ha]
    · exact ⟨(ih h hF.2 b hb).1, fun c hc => List.mem_cons_of_mem a ((ih h hF.2 b hb).2 c hc)⟩
  | block a n body rest ihb ihr =>
    obtain ⟨ha, hbody, hrest⟩ := h
    rw [Forest.addrs_block, List.nodup_cons, List.nodup_append'] at hF
    obtain ⟨-, hnb, hnr, -⟩ := hF
    intro b hb
    rw [Forest.addrs_block, List.mem_cons, List.mem_append] at hb
    simp only [Forest.addrs_block, List.mem_cons, List.mem_append]
    rcases hb with rfl | hb | hb
    · rw [ha.2.2]
      exact ⟨hnb.sublist body.roots_sublist,
        fun c hc => Or.inr (Or.inl (body.roots_sublist.subset hc))⟩
    · exact ⟨(ihb hbody hnb b hb).1, fun c hc => Or.inr (Or.inl ((ihb hbody hnb b hb).2 c hc))⟩
    · exact ⟨(ihr hrest hnr b hb).1, fun c hc => Or.inr (Or.inr ((ihr hrest hnr b hb).2 c hc))⟩

structure Outside (ppc : Ppctx) (L : Blocks) : Prop where
  live : Live ppc.heap ppc.next L
  lower : 2 ≤ ppc.next
  lev : ppc.lev = 0
  extending : ppc.extending ≠ 0

/-- The heap after the block `k` has taken the place of `a` among the children of `q`. -/
structure Replaced (heap : ℕ → Kblock) (next : ℕ) (heap' : ℕ → Kblock) (a q : ℕ) (name : Str) :
    Prop where
  new : heap' next = ⟨some name, [], some q, some a, []⟩
  block : heap' q = { heap q with children := (heap q).children.map (Forest.redirect a next) }
  frame : ∀ b < next, b ≠ q → heap' b = heap b

/-- Every pointer to the replaced block in the tree is one to the new block. -/
theorem Replaced.redirected (h : Replaced heap next heap' a q name) (hL : Live heap next L)
    (hparent : (heap a).parent = some q) (htop : topBlock < next) :
    ∀ b, b = topBlock ∨ b ∈ L.addrs → Redirected heap heap' a next b := by
  intro b hb
  have hlt : b < next := by
    rcases hb with rfl | hb
    · exact htop
    · exact hL.upper b hb
  by_cases hbq : b = q
  · rw [hbq]
    exact h.block
  · have hchildren : ∀ c ∈ (heap b).children, (heap c).parent = some b := by
      rcases hb with rfl | hb
      · rw [hL.children]
        exact rep_roots hL.rep
      · exact rep_children hL.rep b hb
    have hno : a ∉ (heap b).children := by
      intro hm
      have hpar := hchildren a hm
      rw [hparent, Option.some.injEq] at hpar
      exact hbq hpar.symm
    rw [Redirected, Forest.map_redirect hno]
    exact h.frame b hlt hbq

/-- The nodes of a tree and of the one where `next` is in the place of `a`. -/
theorem override_nodes (hL : L.addrs.Nodup) (hhas : L.Has a n O) (next : ℕ) (name : Str) :
    L.nodes.Perm ((a, some n) :: (O.nodes ++ (L.without a).nodes)) ∧
      (L.override a next name .nil).nodes.Perm ((next, some name) :: (L.without a).nodes) :=
  Forest.nodes_override hL hhas

theorem override_addrs (hL : L.addrs.Nodup) (hhas : L.Has a n O) (next : ℕ) (name : Str) :
    L.addrs.Perm (a :: (O.addrs ++ (L.without a).addrs)) ∧
      (L.override a next name .nil).addrs.Perm (next :: (L.without a).addrs) := by
  obtain ⟨hbefore, hafter⟩ := override_nodes hL hhas next name
  have hmap := hbefore.map Prod.fst
  rw [List.map_cons, List.map_append] at hmap
  exact ⟨hmap, hafter.map Prod.fst⟩

theorem Replaced.live (h : Replaced heap next heap' a q name) (hL : Live heap next L)
    (hlow : 2 ≤ next) (hparent : (heap a).parent = some q) (hhas : L.Has a n O)
    (hname : foldCase name = foldCase n) :
    Live heap' (next + 1) (L.override a next name .nil) := by
  obtain ⟨haddrs, haddrs'⟩ := override_addrs hL.addrs hhas next name
  obtain ⟨hkeys, hkeys'⟩ : (keys L).Perm (foldCase n :: (keys O ++ keys (L.without a))) ∧
      (keys (L.override a next name .nil)).Perm
        (foldCase name :: (keys .nil ++ keys (L.without a))) :=
    keys_override hL.addrs hhas
  have hred := h.redirected hL hparent (top_lt hlow)
  have hsub : ∀ b ∈ (L.without a).addrs, b ∈ L.addrs :=
    fun b hb => haddrs.symm.subset (by simp [hb])
  have hnodup : (L.without a).addrs.Nodup :=
    (List.nodup_append'.mp (List.nodup_cons.mp (haddrs.nodup_iff.mp hL.addrs)).2).2.1
  have hkeysL := hkeys.nodup_iff.mp hL.keys
  rw [List.nodup_cons, List.nodup_append', List.mem_append, not_or] at hkeysL
  refine ⟨?_, ?_, ?_, ?_, ?_, ?_⟩
  · apply rep_override hL.rep hL.addrs hhas (fun b hb _ => hred b (Or.inr hb))
    · rw [h.new]
    · rw [h.new, hparent]
    · rw [h.new]
      rfl
    · trivial
  · rw [hred topBlock (Or.inl rfl), Forest.roots_override hL.addrs hhas, ← hL.children]
  · rw [haddrs'.nodup_iff, List.nodup_cons]
    exact ⟨fun hm => hL.next_not_mem (hsub next hm), hnodup⟩
  · intro b hb
    rcases List.mem_cons.mp (haddrs'.subset hb) with rfl | hb
    · exact hlow
    · exact hL.lower b (hsub b hb)
  · intro b hb
    rcases List.mem_cons.mp (haddrs'.subset hb) with rfl | hb
    · exact Nat.lt_succ_self _
    · exact Nat.lt_succ_of_lt (hL.upper b (hsub b hb))
  · rw [hkeys'.nodup_iff, hname]
    exact List.nodup_cons.mpr ⟨hkeysL.1.2, hkeysL.2.2.1⟩

/-- The replaced block keeps its content. -/
theorem Replaced.intact (h : Replaced heap next heap' a q name) (hL : Live heap next L)
    (hchild : a ∈ (heap q).children) (hhas : L.Has a n O) :
    Intact heap' next a (L.override a next name .nil) O := by
  obtain ⟨haddrs, haddrs'⟩ := override_addrs hL.addrs hhas next name
  have hdistinct := haddrs.nodup_iff.mp hL.addrs
  rw [List.nodup_cons, List.nodup_append', List.mem_append, not_or] at hdistinct
  obtain ⟨⟨haO, haW⟩, hnodup, -, hdisj⟩ := hdistinct
  obtain ⟨hkeys, -⟩ : (keys L).Perm (foldCase n :: (keys O ++ keys (L.without a))) ∧
      (keys (L.override a next name .nil)).Perm
        (foldCase name :: (keys .nil ++ keys (L.without a))) :=
    keys_override hL.addrs hhas
  have hkeysL := hkeys.nodup_iff.mp hL.keys
  rw [List.nodup_cons, List.nodup_append'] at hkeysL
  have hsub : ∀ b ∈ O.addrs, b ∈ L.addrs := fun b hb => haddrs.symm.subset (by simp [hb])
  obtain ⟨-, hchildren, hrep⟩ := rep_has hL.rep hhas
  -- the parent of the replaced block is not in its content
  have hqO : q ∉ O.addrs := fun hm => haO ((rep_children_mem hrep hnodup q hm).2 a hchild)
  have hqa : q ≠ a := by
    rintro rfl
    rw [hchildren] at hchild
    exact haO (O.roots_sublist.subset hchild)
  have houtside : ∀ b ∈ L.addrs, b ∉ (L.without a).addrs →
      b ∉ (L.override a next name .nil).addrs := by
    intro b hb hbW hm
    rcases List.mem_cons.mp (haddrs'.subset hm) with rfl | hm
    · exact hL.next_not_mem hb
    · exact hbW hm
  refine ⟨?_, ?_, hnodup, hkeysL.2.1, ?_, ⟨hL.lower a hhas.addr, hL.upper a hhas.addr⟩,
    houtside a hhas.addr haW, haO⟩
  · apply rep_congr hrep
    intro b hb
    exact h.frame b (hL.upper b (hsub b hb)) fun he => hqO (he ▸ hb)
  · rw [h.frame a (hL.upper a hhas.addr) (Ne.symm hqa), hchildren]
  · intro b hb
    exact ⟨hL.lower b (hsub b hb), hL.upper b (hsub b hb),
      houtside b (hsub b hb) fun hm => hdisj hb hm⟩

/-- What `find` has found, and where it is. -/
theorem find_place (h : Outside ppc L) {idx : ℕ} (hfind : ppc.find name = some (old, idx)) :
    ∃ n O q, L.Has old n O ∧ foldCase name = foldCase n ∧ (ppc.heap old).parent = some q ∧
    q < ppc.next ∧
      (ppc.heap q).children[idx]? = some old ∧ (ppc.heap q).children.Nodup ∧
      ppc.next ∉ (ppc.heap q).children := by
  rw [Ppctx.find, h.live.find_eq h.lower] at hfind
  obtain ⟨⟨n, O, hhas, hname⟩, q, hparent, hplace⟩ := findBlock_some h.live.rep hfind
  have hq : q = topBlock ∨ q ∈ L.addrs := hplace.imp And.left And.left
  have hqlt : q < ppc.next := by
    rcases hq with rfl | hq
    · exact top_lt h.lower
    · exact h.live.upper q hq
  have hidx : (ppc.heap q).children[idx]? = some old := by
    rcases hplace with ⟨rfl, j, rfl, hj⟩ | ⟨-, hidx⟩
    · rw [h.live.children, Nat.zero_add]
      exact hj
    · exact hidx
  have hchildren : (ppc.heap q).children.Nodup ∧ ∀ c ∈ (ppc.heap q).children, c ∈ L.addrs := by
    rcases hq with rfl | hq
    · rw [h.live.children]
      exact ⟨h.live.addrs.sublist L.roots_sublist, fun c hc => L.roots_sublist.subset hc⟩
    · exact rep_children_mem h.live.rep h.live.addrs q hq
  exact ⟨n, O, q, hhas, hname.symm, hparent, hqlt, hidx, hchildren.1,
    fun hm => h.live.next_not_mem (hchildren.2 _ hm)⟩

/-- The heap after a block whose name is found. -/
theorem override_replaces (h : Outside ppc L) (hfound : (ppc.find name).isSome) :
    ∃ ppc' old n O q, Event.run ppc (.block name) = some ppc' ∧ L.Has old n O ∧
    foldCase name = foldCase n ∧
      (ppc.heap old).parent = some q ∧ old ∈ (ppc.heap q).children ∧ ppc'.next = ppc.next + 1 ∧
      Opened ppc ppc' ppc.next ∧
        Replaced ppc.heap ppc.next ppc'.heap old q name := by
  obtain ⟨⟨old, idx⟩, hfind⟩ := Option.isSome_iff_exists.mp hfound
  obtain ⟨n, O, q, hhas, hname, hparent, hqlt, hidx, hnodup, hnew⟩ := find_place h hfind
  let heap₁ := Function.update ppc.heap ppc.next (⟨some name, [], none, none, []⟩ : Kblock)
  have hfind₁ : kblockGetByName heap₁ name (ppc.next + 1) topBlock = some (old, idx) := by
    rw [Ppctx.find, h.live.find_eq h.lower] at hfind
    exact ((h.live.create h.lower _).find_eq (h.lower.trans (Nat.le_succ _)) name).trans hfind
  have hparent₁ : (heap₁ old).parent = some q := by
    rw [← hparent]
    exact congrArg Kblock.parent
      (Function.update_of_ne (Nat.ne_of_lt (h.live.upper old hhas.addr)) _ _)
  let ppc₁ : Ppctx := { ppc with
    heap := heap₁, next := ppc.next + 1, lev := ppc.lev + 1, extending := ppc.extending + 1 }
  let ppc₂ := ppc₁.modify ppc.next fun b => { b with ancestor := some old, parent := some q }
  let ppc₃ := ppc₂.modify q fun b => { b with
    children := (b.children.insertIdx idx ppc.next).erase old }
  have hne : ppc.next ≠ q := Nat.ne_of_gt hqlt
  refine ⟨{ ppc₃ with cur := some ppc.next }, old, n, O, q, ?_, hhas, hname, hparent,
    List.mem_of_getElem? hidx, rfl,
    ⟨rfl, rfl, (if_neg h.extending).symm, rfl, rfl⟩, ⟨?_, ?_, ?_⟩⟩
  · change processDirectiveBlock ppc name = _
    unfold processDirectiveBlock
    simp only [kblockCreate, Ppctx.find, h.extending, if_false, heap₁, hfind₁]
    change Option.map _ (heap₁ old).parent = _
    rw [hparent₁]
    rfl
  · simp [ppc₃, ppc₂, ppc₁, heap₁, Ppctx.modify, hne]
  · rw [← insertIdx_erase hnodup hidx hnew]
    simp [ppc₃, ppc₂, ppc₁, heap₁, Ppctx.modify, hne.symm]
  · intro b hb hbq
    simp [ppc₃, ppc₂, ppc₁, heap₁, Ppctx.modify, hbq, Nat.ne_of_lt hb]

theorem override_step (h : Outside ppc L) (hfound : (ppc.find name).isSome) :
    ∃ ppc' old n O q, Event.run ppc (.block name) = some ppc' ∧ L.Has old n O ∧
    foldCase name = foldCase n ∧
      Opened ppc ppc' ppc.next ∧
      Overriding ppc' (L.override old ppc.next name .nil) ppc.next old O .nil ∧
        (ppc'.heap ppc.next).name = some name ∧ (ppc'.heap ppc.next).parent = some q := by
  obtain ⟨ppc', old, n, O, q, hrun, hhas, hname, hparent, hchild, hnext, hopened, hreplaced⟩ :=
    override_replaces h hfound
  have hnode : (ppc.next, some name) ∈ (L.override old ppc.next name .nil).nodes :=
    (override_nodes h.live.addrs hhas ppc.next name).2.symm.subset List.mem_cons_self
  have hreading : Reading ppc' (L.override old ppc.next name .nil) ppc.next := by
    refine ⟨hopened.cur, ?_, Or.inr (Or.inl ⟨name, hnode⟩), ?_, ?_,
      Or.inr ⟨Nat.ne_of_gt (top_lt h.lower), ?_, ?_⟩⟩
    · rw [hnext]
      exact hreplaced.live h.live h.lower hparent hhas hname
    · rw [hnext]
      exact h.lower.trans (Nat.le_succ _)
    · rw [hnext]
      exact Nat.lt_succ_self _
    · rw [hopened.lev]
      exact Nat.succ_ne_zero _
    · rw [hopened.extending, if_neg h.extending]
      have hext := h.extending
      omega
  refine ⟨ppc', old, n, O, q, hrun, hhas, hname, hopened, ⟨?_, ?_, ?_, Or.inl ?_⟩, ?_, ?_⟩
  · rw [put_nil]
    exact hreading
  · rw [hreplaced.new]
    rfl
  · rw [hreplaced.new]
  · rw [put_nil]
    exact hreplaced.intact h.live hchild hhas
  · rw [hreplaced.new]
  · rw [hreplaced.new]

/-- A block that takes the place of another one, with its body. -/
theorem override_whole {body : Template} {close : Option Str} (h : Outside ppc L)
    (hclose : ∀ n ∈ close, strcasecmpEq n name = true) (hbody : Spells body ds)
    (hfound : (ppc.find name).isSome)
    (hrun : RunInPlace ppc (.block name :: (ds ++ .endblock close :: es))) :
    ∃ ppc' old n O F, (Event.block name :: (ds ++ .endblock close :: es)).foldlM Event.run ppc =
    es.foldlM Event.run ppc' ∧
      RunInPlace ppc' es ∧ L.Has old n O ∧ foldCase name = foldCase n ∧ Remade O body F ∧
        Outside ppc' (L.override old ppc.next name F) ∧ ppc'.extending = ppc.extending ∧
        ppc'.depend = ppc.depend ∧
          ppc'.out = ppc.out := by
  obtain ⟨ppc₁, old, n, O, q, hopen, hhas, hname, ho, hover, hnamed, hparent⟩ :=
    override_step h hfound
  obtain ⟨hds, hrest⟩ := runInPlace_append (hrun.2 ppc₁ hopen)
  obtain ⟨ppc₂, F, hfold, hremade, hsame, hover', hname', hparent'⟩ := run_remade hbody hover hds
  have hlev : ppc₂.lev = ppc.lev + 1 := hsame.lev.trans ho.lev
  have hext : ppc₂.extending = ppc.extending + 1 :=
    (hsame.extending.trans ho.extending).trans (if_neg h.extending)
  have hend := endblock_step (hsame.cur.trans ho.cur) (hname'.trans hnamed) (hparent'.trans hparent)
    (by omega) hclose
  have hnew : ppc.next ∉ L.addrs := h.live.next_not_mem
  have htop : ppc.next ≠ topBlock := Nat.ne_of_gt (top_lt h.lower)
  have htree : put (L.override old ppc.next name .nil) ppc.next (Forest.nil.append F) =
      L.override old ppc.next name F := by
    rw [put, if_neg htop, Forest.override_fill hnew]
    rfl
  have hreading := hover'.reading
  rw [htree] at hreading
  refine ⟨_, old, n, O, F, run_enclosed hopen hfold hend, (hrest ppc₂ hfold).2 _ hend, hhas, hname,
    hremade, ⟨?_, ?_, ?_, ?_⟩, ?_, ?_, ?_⟩
  · exact hreading.live
  · exact hreading.lower
  · change ppc₂.lev - 1 = 0
    have hzero := h.lev
    omega
  · change ppc₂.extending - 1 ≠ 0
    have hne := h.extending
    omega
  · change ppc₂.extending - 1 = ppc.extending
    omega
  · exact hsame.depend.trans ho.depend
  · exact hsame.out.trans ho.out

/-! ## What is not printed -/

theorem place_dead (h : Live heap next L) : Place L deadBlock := by
  right
  right
  refine ⟨by decide, fun hm => ?_⟩
  exact absurd (h.lower deadBlock hm) (by decide)

theorem put_dead (h : Live heap next L) (F : Blocks) : put L deadBlock F = L :=
  put_outside (by decide) (fun hm => absurd (h.lower deadBlock hm) (by decide)) F

/-- Text outside all blocks goes to the dead block. -/
theorem outside_text (h : Outside ppc L) {s : Str} (hin : (Event.text s).InPlace ppc) :
    ∃ ppc', Event.run ppc (.text s) = some ppc' ∧ SameButHeap ppc ppc' ∧ Outside ppc' L := by
  have hlt : deadBlock < ppc.next := dead_lt h.lower
  have hnone : ∀ n ∈ (none : Option Str), foldCase n ∉ keys L := by simp
  have hadded := added_leaf (kblockCreate ppc none s) h.live
    (place_dead h.live) h.lower hlt hnone rfl
  have hlive := hadded.live
  rw [put_dead h.live] at hlive
  refine ⟨kblockPushChild (kblockCreate ppc none s) deadBlock ppc.next, ?_,
    ⟨rfl, rfl, rfl, rfl, rfl⟩,
    ⟨hlive, h.lower.trans (Nat.le_succ _), h.lev, h.extending⟩⟩
  change cbPreHtmlBlock ppc s = _
  unfold cbPreHtmlBlock
  rcases hin h.lev h.extending with hcur | hcur
  · simp [kblockCreate, hcur, h.extending]
  · have hdead : ¬ some deadBlock = some topBlock := by decide
    simp only [kblockCreate, hcur, hdead, false_and, if_false, Option.map_some]

theorem unknown_step (h : Outside ppc L) (hin : (Event.block name).InPlace ppc)
    (hfound : ppc.find name = none) :
    ∃ ppc', Event.run ppc (.block name) = some ppc' ∧ Opened ppc ppc' ppc.next ∧
    Reading ppc' L ppc.next ∧
      ppc'.heap ppc.next = ⟨some name, [], some deadBlock, none, []⟩ := by
  have hnew : foldCase name ∉ keys L := (h.live.find_none h.lower).mp hfound
  have hlt : deadBlock < ppc.next := dead_lt h.lower
  have hcur : ppc.cur = some topBlock ∨ ppc.cur = some deadBlock := by
    simp only [Event.InPlace, h.lev, ne_eq, h.extending, not_false_eq_true, and_self, if_true,
      hfound] at hin
    exact hin.resolve_left (by simp)
  let heap₁ := Function.update ppc.heap ppc.next (⟨some name, [], none, none, []⟩ : Kblock)
  have hfind₁ : kblockGetByName heap₁ name (ppc.next + 1) topBlock = none :=
    ((h.live.create h.lower _).find_none (h.lower.trans (Nat.le_succ _))).mpr hnew
  let ppc₁ : Ppctx := { ppc with
    heap := heap₁, next := ppc.next + 1, lev := ppc.lev + 1, extending := ppc.extending + 1 }
  have hnames : ∀ n ∈ some name, foldCase n ∉ keys L := by
    rintro _ ⟨⟩
    exact hnew
  have hadded := added_leaf ppc₁ h.live (place_dead h.live) h.lower hlt hnames rfl
  have hlive := hadded.live
  rw [put_dead h.live] at hlive
  have htop : ppc.next ≠ topBlock := Nat.ne_of_gt (top_lt h.lower)
  have hout : ppc.next ∉ L.addrs := h.live.next_not_mem
  refine ⟨{ kblockPushChild ppc₁ deadBlock ppc.next with
    cur := some ppc.next }, ?_, ⟨rfl, rfl, ?_, rfl, rfl⟩,
    ⟨rfl, hlive, Or.inr (Or.inr ⟨htop, hout⟩), h.lower.trans (Nat.le_succ _),
      Nat.lt_succ_self _, ?_⟩, ?_⟩
  · change processDirectiveBlock ppc name = _
    unfold processDirectiveBlock
    rcases hcur with hcur | hcur
    · simp only [kblockCreate, Ppctx.find, h.extending, if_false, heap₁, hfind₁, hcur,
        if_true, ppc₁]
    · have hdead : ¬ some deadBlock = some topBlock := by decide
      simp only [kblockCreate, Ppctx.find, h.extending, if_false, heap₁, hfind₁, hcur, hdead,
        Option.map_some, ppc₁,
        ne_eq, Nat.add_eq_zero_iff, one_ne_zero, and_false, not_false_eq_true, if_true]
  · exact (if_neg h.extending).symm
  · right
    refine ⟨htop, Nat.succ_ne_zero _, ?_⟩
    change 2 ≤ ppc.extending + 1
    have hext := h.extending
    omega
  · have hne : ppc.next ≠ deadBlock := Nat.ne_of_gt hlt
    simp [kblockPushChild, Ppctx.modify, ppc₁, heap₁, hne]

/-- A block of an unknown name goes there too, with its body. -/
theorem unknown_whole {body : Template} {close : Option Str} (h : Outside ppc L)
    (hclose : ∀ n ∈ close, strcasecmpEq n name = true) (hbody : Spells body ds)
    (hfound : ppc.find name = none)
    (hrun : RunInPlace ppc (.block name :: (ds ++ .endblock close :: es))) :
    ∃ ppc' F, (Event.block name :: (ds ++ .endblock close :: es)).foldlM Event.run ppc =
    es.foldlM Event.run ppc' ∧
      RunInPlace ppc' es ∧ foldCase name ∉ keys L ∧ Copied body F ∧ (∀ m ∈ keys F, m ∉ keys L) ∧
      Outside ppc' L ∧
        ppc'.extending = ppc.extending ∧ ppc'.depend = ppc.depend ∧ ppc'.out = ppc.out := by
  obtain ⟨ppc₁, hopen, ho, hreading, hnode⟩ := unknown_step h hrun.1 hfound
  obtain ⟨hds, hrest⟩ := runInPlace_append (hrun.2 ppc₁ hopen)
  have hanc : (ppc₁.heap ppc.next).ancestor = none := by rw [hnode]
  obtain ⟨ppc₂, F, hfold, hcopied, hsame, hadded⟩ := run_copied hbody hreading hanc hds
  have hname : (ppc₂.heap ppc.next).name = some name := by rw [hadded.block, hnode]
  have hparent : (ppc₂.heap ppc.next).parent = some deadBlock := by rw [hadded.block, hnode]
  have hlev : ppc₂.lev = ppc.lev + 1 := hsame.lev.trans ho.lev
  have hext : ppc₂.extending = ppc.extending + 1 :=
    (hsame.extending.trans ho.extending).trans (if_neg h.extending)
  have hend := endblock_step (hsame.cur.trans ho.cur) hname hparent (by omega) hclose
  have htop : ppc.next ≠ topBlock := Nat.ne_of_gt (top_lt h.lower)
  have hout : ppc.next ∉ L.addrs := h.live.next_not_mem
  have hlive := hadded.live
  rw [put_outside htop hout] at hlive
  refine ⟨_, F, run_enclosed hopen hfold hend, (hrest ppc₂ hfold).2 _ hend,
    (h.live.find_none h.lower).mp hfound, hcopied, hadded.keys,
    ⟨hlive, ?_, ?_, ?_⟩, ?_, ?_, ?_⟩
  · exact hreading.lower.trans hadded.next_le
  · change ppc₂.lev - 1 = 0
    have hzero := h.lev
    omega
  · change ppc₂.extending - 1 ≠ 0
    have hne := h.extending
    omega
  · change ppc₂.extending - 1 = ppc.extending
    omega
  · exact hsame.depend.trans ho.depend
  · exact hsame.out.trans ho.out

/-- A template that extends another one is applied to the tree. -/
theorem run_applied (hs : Spells t es) (h : Outside ppc L) (hrun : RunInPlace ppc es) :
    ∃ ppc' L', es.foldlM Event.run ppc = some ppc' ∧ Applied t L L' ∧ Outside ppc' L' ∧
      ppc'.extending = ppc.extending ∧ ppc'.depend = ppc.depend ∧ ppc'.out = ppc.out := by
  induction hs generalizing ppc L with
  | nil => exact ⟨ppc, L, rfl, .nil, h, rfl, rfl, rfl⟩
  | @text s t es hs ih =>
    obtain ⟨ppc₁, hstep, hsame, h₁⟩ := outside_text h hrun.1
    obtain ⟨ppc', L', hfold, happlied, h', hext, hdepend, hout⟩ := ih h₁ (hrun.2 ppc₁ hstep)
    refine ⟨ppc', L', ?_, .text happlied, h', hext.trans hsame.extending,
      hdepend.trans hsame.depend, hout.trans hsame.out⟩
    rw [List.foldlM_cons, hstep]
    exact hfold
  | @block name body t ds es close hclose hbody hs _ ih =>
    cases hfound : ppc.find name with
    | none =>
      obtain ⟨ppc₁, F, hfold₁, hrun₁, hname, hcopied, hkeys, h₁, hext₁, hdepend₁, hout₁⟩ :=
        unknown_whole h hclose hbody hfound hrun
      obtain ⟨ppc', L', hfold, happlied, h', hext, hdepend, hout⟩ := ih h₁ hrun₁
      exact ⟨ppc', L', hfold₁.trans hfold, .unknown hname hcopied hkeys happlied, h',
        hext.trans hext₁,
        hdepend.trans hdepend₁, hout.trans hout₁⟩
    | some found =>
      obtain ⟨ppc₁, old, n, O, F, hfold₁, hrun₁, hhas, hname, hremade, h₁, hext₁,
          hdepend₁, hout₁⟩ :=
        override_whole h hclose hbody (by rw [hfound]; rfl) hrun
      obtain ⟨ppc', L', hfold, happlied, h', hext, hdepend, hout⟩ := ih h₁ hrun₁
      exact ⟨ppc', L', hfold₁.trans hfold,
        .known h.live.addrs h.live.keys hhas hname hremade h₁.live.keys happlied, h',
          hext.trans hext₁,
        hdepend.trans hdepend₁, hout.trans hout₁⟩
  | inherit hs ih => exact absurd h.lev hrun.1.1

end
end Klone.Trans
