import Klone.Trans.Inheritance

/-! # Blocks that are read

A template without `inherit` that is read into a block adds its own blocks to it, and
leaves the preprocessor in the block in which it found it.
-/
namespace Klone.Trans

section
variable {ppc ppc' ppc'' ppc₁ ppc₂ : Ppctx} {heap heap' heap'' : ℕ → Kblock} {next next' next'' : ℕ}
    {L F G B O : Blocks}
  {k a c : ℕ} {name : Str} {ds es : List Event} {t : Template}

/-! ## Adding blocks -/

/-- A tree whose block `k` gets more children is still in place. -/
theorem live_put (hL : Live heap next L) (hk : Place L k) (hnext : next ≤ next')
    (hframe : ∀ b ∈ L.addrs, b ≠ k → heap' b = heap b)
    (htop : k ≠ topBlock → heap' topBlock = heap topBlock)
    (hblock : heap' k = { heap k with children := (heap k).children ++ F.roots })
    (hF : Rep heap' F k) (hnodup : F.addrs.Nodup)
    (hfresh : ∀ b ∈ F.addrs, b ∉ L.addrs ∧ 2 ≤ b ∧ b < next') (hkeysF : (keys F).Nodup)
    (hkeys : ∀ m ∈ keys F, m ∉ keys L) : Live heap' next' (put L k F) := by
  by_cases hin : k = topBlock ∨ ∃ n, (k, some n) ∈ L.nodes
  · -- the nodes are those of the tree and the new ones
    have hperm := nodes_put hL.addrs hin F
    have haddrs : (put L k F).addrs.Perm (L.addrs ++ F.addrs) := by
      have hmap := hperm.map Prod.fst
      rwa [List.map_append] at hmap
    have hnames : (keys (put L k F)).Perm (keys L ++ keys F) := by
      have hmap := keys_perm hperm
      rwa [List.filterMap_append, List.map_append] at hmap
    have hrange : ∀ b ∈ (put L k F).addrs, 2 ≤ b ∧ b < next' := by
      intro b hb
      rcases List.mem_append.mp (haddrs.subset hb) with hb | hb
      · exact ⟨hL.lower b hb, Nat.lt_of_lt_of_le (hL.upper b hb) hnext⟩
      · exact (hfresh b hb).2
    have hrep : Rep heap' (put L k F) topBlock ∧ (heap' topBlock).children = (put L k F).roots := by
      unfold put
      by_cases hkt : k = topBlock
      · subst hkt
        rw [if_pos rfl, Forest.roots_append]
        refine ⟨rep_append.mpr ⟨rep_congr hL.rep fun b hb => hframe b hb ?_, hF⟩, ?_⟩
        · have hlow := hL.lower b hb
          unfold topBlock
          omega
        · rw [hblock, hL.children]
      · obtain ⟨n, hn⟩ := hin.resolve_left hkt
        rw [if_neg hkt, Forest.roots_fill]
        refine ⟨rep_fill hL.rep hL.addrs hn hframe ?_ ?_ ?_ hF, ?_⟩
        · rw [hblock]
        · rw [hblock]
        · rw [hblock]
        · rw [htop hkt, hL.children]
    refine ⟨hrep.1, hrep.2, ?_, fun b hb => (hrange b hb).1, fun b hb => (hrange b hb).2, ?_⟩
    · rw [haddrs.nodup_iff, List.nodup_append']
      exact ⟨hL.addrs, hnodup, fun b hb hbF => (hfresh b hbF).1 hb⟩
    · rw [hnames.nodup_iff, List.nodup_append']
      exact ⟨hL.keys, hkeysF, fun m hm hmF => hkeys m hmF hm⟩
  · -- the block is not in the tree
    have hout := (or_assoc.mpr hk).resolve_left hin
    rw [put_outside hout.1 hout.2]
    refine ⟨rep_congr hL.rep fun b hb => hframe b hb ?_, ?_, hL.addrs, hL.lower, ?_, hL.keys⟩
    · rintro rfl
      exact hout.2 hb
    · rw [htop hout.1]
      exact hL.children
    · exact fun b hb => Nat.lt_of_lt_of_le (hL.upper b hb) hnext

theorem Added.trans (h : Added heap next heap' next' k L F)
    (h' : Added heap' next' heap'' next'' k (put L k F) G) (hL : L.addrs.Nodup) (hk : Place L k)
    (hlt : k < next) : Added heap next heap'' next'' k L (F.append G) where
  next_le := h.next_le.trans h'.next_le
  frame b hb hne := (h'.frame b (Nat.lt_of_lt_of_le hb h.next_le) hne).trans (h.frame b hb hne)
  block := by
    rw [h'.block, h.block, Forest.roots_append, List.append_assoc]
  rep := by
    refine rep_append.mpr ⟨rep_congr h.rep fun b hb => h'.frame b (h.upper b hb) ?_, h'.rep⟩
    exact Nat.ne_of_gt (Nat.lt_of_lt_of_le hlt (h.fresh b hb))
  fresh := by
    intro b hb
    rw [Forest.addrs_append, List.mem_append] at hb
    exact hb.elim (h.fresh b) fun hb => h.next_le.trans (h'.fresh b hb)
  upper := by
    intro b hb
    rw [Forest.addrs_append, List.mem_append] at hb
    exact hb.elim (fun hb => Nat.lt_of_lt_of_le (h.upper b hb) h'.next_le) (h'.upper b)
  keys := by
    intro m hm
    rw [keys_append, List.mem_append] at hm
    exact hm.elim (h.keys m) fun hm hmL => h'.keys m hm (keys_put hL hk F hmL)
  live := by
    rw [← put_put]
    exact h'.live

/-- The children of a block that has just been added. -/
theorem Added.inner (h : Added heap next heap' next' k L (.block c name .nil .nil))
    (h' : Added heap' next' heap'' next'' c (put L k (.block c name .nil .nil)) B)
    (hL : L.addrs.Nodup) (hk : Place L k) (hlt : k < next) (hc : c ∉ L.addrs)
    (htop : c ≠ topBlock) :
    Added heap next heap'' next'' k L (.block c name B .nil) := by
  have hfresh : next ≤ c := h.fresh c (by simp)
  have hupper : c < next' := h.upper c (by simp)
  have hkc : k ≠ c := by omega
  obtain ⟨⟨hname, hparent, hchildren⟩, -, -⟩ := h.rep
  refine ⟨h.next_le.trans h'.next_le, ?_, ?_, ⟨⟨?_, ?_, ?_⟩, h'.rep, trivial⟩, ?_, ?_, ?_, ?_⟩
  · intro b hb hne
    exact (h'.frame b (Nat.lt_of_lt_of_le hb h.next_le) (by omega)).trans (h.frame b hb hne)
  · rw [h'.frame k (Nat.lt_of_lt_of_le hlt h.next_le) hkc, h.block]
    rfl
  · rw [h'.block, hname]
  · rw [h'.block, hparent]
  · rw [h'.block, hchildren]
    rfl
  · intro b hb
    simp only [Forest.addrs_block, Forest.addrs_nil, List.append_nil, List.mem_cons] at hb
    rcases hb with rfl | hb
    · exact hfresh
    · exact h.next_le.trans (h'.fresh b hb)
  · intro b hb
    simp only [Forest.addrs_block, Forest.addrs_nil, List.append_nil, List.mem_cons] at hb
    rcases hb with rfl | hb
    · exact Nat.lt_of_lt_of_le hupper h'.next_le
    · exact h'.upper b hb
  · intro m hm
    simp only [keys_block, keys_nil, List.append_nil, List.mem_cons] at hm
    rcases hm with rfl | hm
    · exact h.keys _ (by simp)
    · exact fun hmL => h'.keys m hm (keys_put hL hk _ hmL)
  · rw [← put_added hc htop]
    exact h'.live

theorem put_nil (L : Blocks) (k : ℕ) : put L k .nil = L := by
  have hfill : ∀ F : Blocks, F.fill k .nil = F := by
    intro F
    induction F with
    | nil => rfl
    | text a s rest ih => rw [Forest.fill, ih]
    | block a n body rest ihb ihr => rw [Forest.fill, Forest.append_nil, ihb, ihr, ite_self]
  unfold put
  rw [Forest.append_nil, hfill, ite_self]

theorem Added.refl (hL : Live heap next L) (k : ℕ) : Added heap next heap next k L .nil where
  next_le := Nat.le_refl next
  frame _ _ _ := rfl
  block := by simp [Forest.roots]
  rep := trivial
  fresh := by simp
  upper := by simp
  keys := by simp
  live := by rwa [put_nil]

def leaf (a : ℕ) (name : Option Str) (s : Str) : Blocks :=
  match name with
  | none => .text a s .nil
  | some n => .block a n .nil .nil

/-- The new block becomes the last child of `k`. -/
theorem added_leaf (ppc : Ppctx) (hL : Live heap next L) (hk : Place L k) (hlow : 2 ≤ next)
    (hlt : k < next) {name : Option Str} {s : Str} (hname : ∀ n ∈ name, foldCase n ∉ keys L)
    (hheap : ppc.heap = Function.update heap next ⟨name, s, none, none, []⟩) :
    Added heap next (kblockPushChild ppc k next).heap (next + 1) k L (leaf next name s) := by
  have hne : next ≠ k := Nat.ne_of_gt hlt
  have hnew : (kblockPushChild ppc k next).heap next = ⟨name, s, some k, none, []⟩ := by
    simp [kblockPushChild, Ppctx.modify, hheap, hne]
  have hblock : (kblockPushChild ppc k next).heap k = { heap k with
      children := (heap k).children ++ [next] } := by
    simp [kblockPushChild, Ppctx.modify, hheap, hne.symm]
  have hframe : ∀ b < next, b ≠ k → (kblockPushChild ppc k next).heap b = heap b := by
    intro b hb hbk
    simp [kblockPushChild, Ppctx.modify, hheap, Nat.ne_of_lt hb, hbk]
  have hroots : (leaf next name s).roots = [next] := by cases name <;> rfl
  have haddrs : (leaf next name s).addrs = [next] := by cases name <;> rfl
  have hkeys : keys (leaf next name s) = name.toList.map foldCase := by cases name <;> rfl
  have hrep : Rep (kblockPushChild ppc k next).heap (leaf next name s) k := by
    cases name with
    | none => exact ⟨hnew, trivial⟩
    | some n => exact ⟨⟨by rw [hnew], by rw [hnew], by rw [hnew]; rfl⟩, trivial, trivial⟩
  have hfresh : ∀ m ∈ keys (leaf next name s), m ∉ keys L := by
    intro m hm
    rw [hkeys] at hm
    obtain ⟨n, hn, rfl⟩ := List.mem_map.mp hm
    exact hname n (Option.mem_toList.mp hn)
  refine ⟨Nat.le_succ next, hframe, ?_, hrep, ?_, ?_, hfresh, ?_⟩
  · rw [hblock, hroots]
  · simp [haddrs]
  · simp [haddrs]
  · apply live_put hL hk (Nat.le_succ next)
      (fun b hb => hframe b (hL.upper b hb)) ?_ ?_ hrep ?_ ?_ ?_ hfresh
    · intro htop
      exact hframe topBlock (top_lt hlow) (Ne.symm htop)
    · rw [hblock, hroots]
    · rw [haddrs]
      exact List.nodup_singleton next
    · intro b hb
      rw [haddrs, List.mem_singleton] at hb
      subst hb
      exact ⟨hL.next_not_mem, hlow, Nat.lt_succ_self _⟩
    · rw [hkeys]
      cases name with
      | none => exact List.nodup_nil
      | some n => exact List.nodup_singleton _

/-! ## One step -/

structure Reading (ppc : Ppctx) (L : Blocks) (k : ℕ) : Prop where
  cur : ppc.cur = some k
  live : Live ppc.heap ppc.next L
  place : Place L k
  lower : 2 ≤ ppc.next
  lt : k < ppc.next
  inside : ppc.extending = 0 ∨ k ≠ topBlock ∧ ppc.lev ≠ 0 ∧ 2 ≤ ppc.extending

structure SameButHeap (ppc ppc' : Ppctx) : Prop where
  cur : ppc'.cur = ppc.cur
  lev : ppc'.lev = ppc.lev
  extending : ppc'.extending = ppc.extending
  depend : ppc'.depend = ppc.depend
  out : ppc'.out = ppc.out

theorem SameButHeap.refl (ppc : Ppctx) : SameButHeap ppc ppc := ⟨rfl, rfl, rfl, rfl, rfl⟩

theorem SameButHeap.trans (h : SameButHeap ppc ppc') (h' : SameButHeap ppc' ppc'') :
    SameButHeap ppc ppc'' :=
  ⟨h'.cur.trans h.cur, h'.lev.trans h.lev, h'.extending.trans h.extending, h'.depend.trans h.depend,
    h'.out.trans h.out⟩

theorem Reading.added (h : Reading ppc L k) (ha : Added ppc.heap ppc.next ppc'.heap ppc'.next k L F)
    (hs : SameButHeap ppc ppc') : Reading ppc' (put L k F) k where
  cur := hs.cur.trans h.cur
  live := ha.live
  place := place_put h.live.addrs h.place F
  lower := h.lower.trans ha.next_le
  lt := Nat.lt_of_lt_of_le h.lt ha.next_le
  inside := by
    rw [hs.extending, hs.lev]
    exact h.inside

theorem text_step (h : Reading ppc L k) (s : Str) :
    ∃ ppc', Event.run ppc (.text s) = some ppc' ∧ SameButHeap ppc ppc' ∧
      Added ppc.heap ppc.next ppc'.heap ppc'.next k L (.text ppc.next s .nil) := by
  have hgo : ¬ (some k = some topBlock ∧ ppc.extending ≠ 0) := by
    rintro ⟨hcur, hext⟩
    exact (h.inside.resolve_left hext).1 (Option.some.inj hcur)
  refine ⟨kblockPushChild (kblockCreate ppc none s) k ppc.next, ?_, ⟨rfl, rfl, rfl, rfl, rfl⟩, ?_⟩
  · change cbPreHtmlBlock ppc s = _
    unfold cbPreHtmlBlock
    simp only [kblockCreate, h.cur, if_neg hgo, Option.map_some]
  · have hnone : ∀ n ∈ (none : Option Str), foldCase n ∉ keys L := by simp
    exact added_leaf (kblockCreate ppc none s) h.live h.place h.lower h.lt hnone rfl

structure Opened (ppc ppc' : Ppctx) (c : ℕ) : Prop where
  cur : ppc'.cur = some c
  lev : ppc'.lev = ppc.lev + 1
  extending : ppc'.extending = if ppc.extending = 0 then 0 else ppc.extending + 1
  depend : ppc'.depend = ppc.depend
  out : ppc'.out = ppc.out

/-- A block that has just been created is not in the tree. -/
theorem Live.create (h : Live heap next L) (hnext : 2 ≤ next) (b : Kblock) :
    Live (Function.update heap next b) (next + 1) L := by
  have hframe : ∀ c < next, Function.update heap next b c = heap c :=
    fun c hc => Function.update_of_ne (Nat.ne_of_lt hc) _ _
  refine ⟨rep_congr h.rep fun c hc => hframe c (h.upper c hc), ?_, h.addrs, h.lower, ?_, h.keys⟩
  · rw [hframe topBlock (top_lt hnext)]
    exact h.children
  · exact fun c hc => Nat.lt_succ_of_lt (h.upper c hc)

theorem block_step (h : Reading ppc L k) (hin : (Event.block name).InPlace ppc) :
    ∃ ppc', Event.run ppc (.block name) = some ppc' ∧ Opened ppc ppc' ppc.next ∧
      (ppc'.heap ppc.next).ancestor = none ∧
        Added ppc.heap ppc.next ppc'.heap ppc'.next k L (.block ppc.next name .nil .nil) := by
  have hinside : ¬ (ppc.lev = 0 ∧ ppc.extending ≠ 0) := by
    rintro ⟨hlev, hext⟩
    exact (h.inside.resolve_left hext).2.1 hlev
  have hnew : foldCase name ∉ keys L := by
    simp only [Event.InPlace, if_neg hinside] at hin
    exact (h.live.find_none h.lower).mp hin
  let heap₁ := Function.update ppc.heap ppc.next (⟨some name, [], none, none, []⟩ : Kblock)
  have hfind : kblockGetByName heap₁ name (ppc.next + 1) topBlock = none :=
    ((h.live.create h.lower _).find_none (h.lower.trans (Nat.le_succ _))).mpr hnew
  let ppc₁ : Ppctx := { ppc with
    heap := heap₁
    next := ppc.next + 1
    lev := ppc.lev + 1
    extending := if ppc.extending = 0 then 0 else ppc.extending + 1 }
  have hnames : ∀ n ∈ some name, foldCase n ∉ keys L := by
    rintro _ ⟨⟩
    exact hnew
  refine ⟨{ kblockPushChild ppc₁ k ppc.next with
    cur := some ppc.next }, ?_, ⟨rfl, rfl, rfl, rfl, rfl⟩, ?_, ?_⟩
  · change processDirectiveBlock ppc name = _
    unfold processDirectiveBlock
    by_cases hext : ppc.extending = 0
    · simp only [kblockCreate, Ppctx.find, hext, if_pos, heap₁, hfind, h.cur, Option.map_some, ppc₁]
    · have hk : ¬ some k = some topBlock :=
        fun he => (h.inside.resolve_left hext).1 (Option.some.inj he)
      simp only [kblockCreate, Ppctx.find, hext, if_false, heap₁, hfind, h.cur, hk,
        Option.map_some, ppc₁,
        ne_eq, Nat.add_eq_zero_iff, one_ne_zero, and_false, not_false_eq_true, if_true]
  · have hne : ppc.next ≠ k := Nat.ne_of_gt h.lt
    simp [kblockPushChild, Ppctx.modify, ppc₁, heap₁, hne]
  · exact added_leaf ppc₁ h.live h.place h.lower h.lt hnames rfl

/-- The current block is closed; in a template that extends just one, outside of all
blocks, the top block is the current one again. -/
theorem endblock_step {close : Option Str} {p : ℕ} (hcur : ppc.cur = some c)
    (hname : (ppc.heap c).name = some name) (hparent : (ppc.heap c).parent = some p)
    (hlev : ppc.lev ≠ 0) (hclose : ∀ n ∈ close, strcasecmpEq n name = true) :
    Event.run ppc (.endblock close) = some { ppc with
      lev := ppc.lev - 1
      extending := ppc.extending - 1
      cur := if ppc.extending = 2 then some topBlock else some p } := by
  have hmatch : (close.any fun n => !(ppc.heap c).name.any (strcasecmpEq n)) = false := by
    cases close with
    | none => rfl
    | some n => simp [hname, hclose n rfl]
  change processDirectiveEndblock ppc (close : Option Str) = _
  unfold processDirectiveEndblock
  simp only [hcur, Option.bind_some, if_neg hlev, hmatch, Bool.false_eq_true, if_false, hparent]
  by_cases hext : ppc.extending = 0
  · simp [hext]
  · by_cases htwo : ppc.extending = 2
    · simp [htwo]
    · have hone : ¬ ppc.extending - 1 = 1 := by omega
      simp [hext, htwo, hone]

/-! ## A block and its body -/

def Copies (body : Template) (ds : List Event) : Prop :=
  ∀ {ppc : Ppctx} {L : Blocks} {k : ℕ}, Reading ppc L k → (ppc.heap k).ancestor = none →
    RunInPlace ppc ds →
    ∃ ppc' F, ds.foldlM Event.run ppc = some ppc' ∧ Copied body F ∧ SameButHeap ppc ppc' ∧
      Added ppc.heap ppc.next ppc'.heap ppc'.next k L F

theorem place_added (hL : L.addrs.Nodup) (hk : Place L k) (hc : c ∉ L.addrs) (htop : c ≠ topBlock) :
    Place (put L k (.block c name .nil .nil)) c := by
  by_cases hin : k = topBlock ∨ ∃ n, (k, some n) ∈ L.nodes
  · right
    left
    refine ⟨name, (nodes_put hL hin _).symm.subset (List.mem_append_right _ ?_)⟩
    simp [Forest.nodes]
  · have hout := (or_assoc.mpr hk).resolve_left hin
    rw [put_outside hout.1 hout.2]
    exact Or.inr (Or.inr ⟨htop, hc⟩)

/-- A block with its body is added to the block `k`. -/
theorem block_whole {body : Template} {close : Option Str} (h : Reading ppc L k)
    (hclose : ∀ n ∈ close, strcasecmpEq n name = true) (hbody : Copies body ds)
    (hrun : RunInPlace ppc (.block name :: (ds ++ .endblock close :: es))) :
    ∃ ppc' B, (Event.block name :: (ds ++ .endblock close :: es)).foldlM Event.run ppc =
    es.foldlM Event.run ppc' ∧
      RunInPlace ppc' es ∧ Copied body B ∧ SameButHeap ppc ppc' ∧
        Added ppc.heap ppc.next ppc'.heap ppc'.next k L (.block ppc.next name B .nil) := by
  obtain ⟨hin, hrun⟩ := hrun
  obtain ⟨ppc₁, hopen, ho, hanc, hleaf⟩ := block_step h hin
  have hc : ppc.next ∉ L.addrs := h.live.next_not_mem
  have htop : ppc.next ≠ topBlock := Nat.ne_of_gt (top_lt h.lower)
  have hlt : ppc.next < ppc₁.next := hleaf.upper _ (by simp)
  have hreading : Reading ppc₁ (put L k (.block ppc.next name .nil .nil)) ppc.next := by
    refine ⟨ho.cur, hleaf.live, place_added h.live.addrs h.place hc htop,
      h.lower.trans hleaf.next_le, hlt, ?_⟩
    rw [ho.extending, ho.lev]
    rcases h.inside with hext | ⟨-, -, hext⟩
    · left
      rw [hext, if_pos rfl]
    · right
      rw [if_neg (by omega)]
      exact ⟨htop, Nat.succ_ne_zero _, by omega⟩
  obtain ⟨hds, hrest⟩ := runInPlace_append (hrun ppc₁ hopen)
  obtain ⟨ppc₂, B, hfold, hcopied, hsame, hadded⟩ := hbody hreading hanc hds
  have hwhole := hleaf.inner hadded h.live.addrs h.place h.lt hc htop
  obtain ⟨⟨hname, hparent, -⟩, -, -⟩ := hwhole.rep
  have hlev : ppc₂.lev = ppc.lev + 1 := hsame.lev.trans ho.lev
  have hext₂ : ppc₂.extending = if ppc.extending = 0 then 0 else ppc.extending + 1 :=
    hsame.extending.trans ho.extending
  have hend := endblock_step (hsame.cur.trans ho.cur) hname hparent (by omega) hclose
  have hinside : ppc₂.extending ≠ 2 := by
    rw [hext₂]
    split
    · decide
    · have hctx := h.inside
      omega
  refine ⟨_, B, run_enclosed hopen hfold hend, (hrest ppc₂ hfold).2 _ hend, hcopied,
    ⟨?_, ?_, ?_, ?_, ?_⟩, hwhole⟩
  · rw [if_neg hinside]
    exact h.cur.symm
  · change ppc₂.lev - 1 = ppc.lev
    omega
  · change ppc₂.extending - 1 = ppc.extending
    rw [hext₂]
    split
    · omega
    · omega
  · exact hsame.depend.trans ho.depend
  · exact hsame.out.trans ho.out

/-- A template that is read into a block that extends no other one. -/
theorem run_copied (hs : Spells t es) : Copies t es := by
  induction hs with
  | nil =>
    intro ppc L k h _ _
    exact ⟨ppc, .nil, rfl, .nil, SameButHeap.refl ppc, Added.refl h.live k⟩
  | @text s t es hs ih =>
    intro ppc L k h hanc hrun
    obtain ⟨ppc₁, hstep, hsame, hadded⟩ := text_step h s
    have hanc₁ : (ppc₁.heap k).ancestor = none := by
      rw [hadded.block]
      exact hanc
    obtain ⟨ppc', F, hfold, hcopied, hsame', hadded'⟩ :=
      ih (h.added hadded hsame) hanc₁ (hrun.2 ppc₁ hstep)
    refine ⟨ppc', .text ppc.next s F, ?_, .text hcopied, hsame.trans hsame',
      hadded.trans hadded' h.live.addrs h.place h.lt⟩
    rw [List.foldlM_cons, hstep]
    exact hfold
  | @block name body t ds es close hclose hbody hs ihb ih =>
    intro ppc L k h hanc hrun
    obtain ⟨ppc₁, B, hfold₁, hrun₁, hcopiedB, hsame, hadded⟩ := block_whole h hclose ihb hrun
    have hanc₁ : (ppc₁.heap k).ancestor = none := by
      rw [hadded.block]
      exact hanc
    obtain ⟨ppc', F, hfold, hcopied, hsame', hadded'⟩ := ih (h.added hadded hsame) hanc₁ hrun₁
    exact ⟨ppc', .block ppc.next name B F, hfold₁.trans hfold, .block hcopiedB hcopied,
      hsame.trans hsame',
      hadded.trans hadded' h.live.addrs h.place h.lt⟩
  | inherit hs ih =>
    intro ppc L k h hanc hrun
    obtain ⟨⟨-, cur, anc, hcur, hsome, -⟩, -⟩ := hrun
    rw [h.cur, Option.some.injEq] at hcur
    subst hcur
    rw [hanc] at hsome
    cases hsome

end
end Klone.Trans
