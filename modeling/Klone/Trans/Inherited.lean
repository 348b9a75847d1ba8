import Klone.Lib.Loop
import Klone.Trans.Overriding

/-! # Chains of templates

The file of a template that extends another one has a directive with the name of that
one's file, which is read at that place. A chain of templates is read as one run.
-/
namespace Klone.Trans
open Loop

def directiveEvent (line : Str) : Option Event :=
  (strtokR isblank (cstr line)).bind fun tok =>
    let arg := (strtokR (fun c => isblank c || c == 34) tok.2).map Prod.fst
    if strcasecmpEq tok.1 (bytes "include") then none
    else if strcasecmpEq tok.1 (bytes "extends") then none
    else if strcasecmpEq tok.1 (bytes "block") then arg.map .block
    else if strcasecmpEq tok.1 (bytes "endblock") then some (.endblock arg)
    else if strcasecmpEq tok.1 (bytes "inherit") then some .inherit
    else none

def callEvents (file : Str) (c : ℕ × Call) : Option (List Event) :=
  match c.2 with
  | .html buf => some [.text buf]
  | .code cmd buf =>
    if cmd = 64 then (getLines buf.length ⟨buf, false, 0⟩).mapM directiveEvent
    else some [.text (codeText file c.1 cmd buf)]

def fileEvents (file : Str) (calls : List (ℕ × Call)) : Option (List Event) :=
  (calls.mapM (callEvents file)).map List.flatten

def extendsArg (line : Str) : Option Str :=
  (strtokR isblank (cstr line)).bind fun tok =>
    if strcasecmpEq tok.1 (bytes "extends") then
      (strtokR (fun c => isblank c || c == 34) tok.2).map Prod.fst else none

/-- The file has a chain of templates, the last one first, which makes the preprocessor do
`es`. What is in front of a directive that extends a template is in `lead`. -/
inductive Chain (env : Env) : Str → List Template → List Event → List Event → Prop
  | base {file : Str} {calls : List (ℕ × Call)} {t : Template} {es : List Event}
    (hfile : env.files file = some calls)
      (hes : fileEvents file calls = some es) (ht : Spells t es) : Chain env file [t] es []
  | child {file buf line name fullpath : Str} {codeLine : ℕ} {before after : List (ℕ × Call)}
    {front more : List Str}
      {t : Template} {older : List Template} {es lead ps fs ms rs : List Event}
      (hfile : env.files file = some (before ++ (codeLine, .code 64 buf) :: after))
      (hlines : getLines buf.length ⟨buf, false, 0⟩ = front ++ line :: more)
        (hname : extendsArg line = some name)
      (hcodeLine : codeLine ≤ 1) (hpath : includeFileFullPath env file name = some fullpath)
      (hbefore : fileEvents file before = some ps) (hfront : front.mapM directiveEvent = some fs)
      (hmore : more.mapM directiveEvent = some ms) (hafter : fileEvents file after = some rs)
      (ht : Spells t (ps ++ fs ++ (ms ++ rs))) (hbase : Chain env fullpath older es lead) :
      Chain env file (t :: older)
        (ps ++ fs ++ .depend fullpath :: .mark (lineMark 1 fullpath) ::
          (es ++ .mark (lineMark codeLine file) :: .extended :: (ms ++ rs))) (lead ++ (ps ++ fs))

section
variable {env : Env} {inc : Str → Ppctx → Option Ppctx} {file line : Str} {codeLine : ℕ}
    {c : ℕ × Call} {e : Event}
  {es ds lead : List Event} {ppc ppc' : Ppctx} {t : Template} {ts : List Template}

/-! ## Files as events -/

theorem processDirective_event (h : directiveEvent line = some e) (ppc : Ppctx) :
    processDirective env inc file codeLine ppc line = e.run ppc := by
  unfold directiveEvent at h
  unfold processDirective
  obtain ⟨tok, htok, h⟩ := Option.bind_eq_some_iff.mp h
  rw [htok, Option.bind_some]
  dsimp only at h ⊢
  split at h
  · cases h
  next hinclude =>
  rw [if_neg hinclude]
  split at h
  · cases h
  next hextends =>
  rw [if_neg hextends]
  split at h
  next hblock =>
    obtain ⟨name, hname, rfl⟩ := Option.map_eq_some_iff.mp h
    rw [if_pos hblock, hname]
    rfl
  next hblock =>
  rw [if_neg hblock]
  split at h
  next hend =>
    obtain rfl := Option.some.inj h
    rw [if_pos hend]
    rfl
  next hend =>
  rw [if_neg hend]
  split at h
  next hinherit =>
    obtain rfl := Option.some.inj h
    rw [if_pos hinherit]
    rfl
  · cases h

/-- Steps that do what their images do. -/
theorem foldlM_mapM {σ α β : Type*} {step : σ → α → Option σ} {run : σ → β → Option σ}
    {image : α → Option β} {bs : List β} (l : List α)
    (hstep : ∀ x ∈ l, ∀ b, image x = some b → ∀ s, step s x = run s b) (h : l.mapM image = some bs)
    (s : σ) :
    l.foldlM step s = bs.foldlM run s := by
  induction l generalizing bs s with
  | nil =>
    obtain rfl := Option.some.inj h
    rfl
  | cons x l ih =>
    rw [List.mapM_cons] at h
    obtain ⟨b, hb, h⟩ := Option.bind_eq_some_iff.mp h
    obtain ⟨bs', hbs, h⟩ := Option.bind_eq_some_iff.mp h
    obtain rfl := Option.some.inj h
    rw [List.foldlM_cons, List.foldlM_cons, hstep x List.mem_cons_self b hb]
    apply congrArg
    funext s₁
    exact ih (fun y hy => hstep y (List.mem_cons_of_mem x hy)) hbs s₁

/-- The same for steps of which each has a list of images. -/
theorem foldlM_groups {σ α β : Type*} {step : σ → α → Option σ} {run : σ → β → Option σ}
    {image : α → Option (List β)} {groups : List (List β)} (l : List α)
    (hstep : ∀ x ∈ l, ∀ bs, image x = some bs → ∀ s, step s x = bs.foldlM run s)
    (h : l.mapM image = some groups) (s : σ) : l.foldlM step s = groups.flatten.foldlM run s := by
  rw [foldlM_mapM l hstep h s]
  clear h
  induction groups generalizing s with
  | nil => rfl
  | cons bs groups ih =>
    rw [List.foldlM_cons, List.flatten_cons, List.foldlM_append]
    apply congrArg
    funext s₁
    exact ih s₁

theorem run_single (ppc : Ppctx) (e : Event) : [e].foldlM Event.run ppc = e.run ppc := by
  rw [List.foldlM_cons]
  cases e.run ppc <;> rfl

theorem callback_events (h : callEvents file c = some es) (ppc : Ppctx) :
    callback env inc file ppc c = es.foldlM Event.run ppc := by
  obtain ⟨codeLine, call⟩ := c
  cases call with
  | html buf =>
    obtain rfl := Option.some.inj h
    exact (run_single ppc (.text buf)).symm
  | code cmd buf =>
    unfold callEvents at h
    dsimp only at h
    change cbPreCodeBlock env inc file codeLine ppc cmd buf = _
    unfold cbPreCodeBlock
    by_cases hcmd : cmd = 64
    · rw [if_pos hcmd] at h ⊢
      exact foldlM_mapM _ (fun line _ e he => processDirective_event he) h ppc
    · rw [if_neg hcmd] at h ⊢
      obtain rfl := Option.some.inj h
      exact (run_single ppc (.text _)).symm

theorem fileEvents_run {calls : List (ℕ × Call)} (h : fileEvents file calls = some es)
    (ppc : Ppctx) :
    calls.foldlM (callback env inc file) ppc = es.foldlM Event.run ppc := by
  unfold fileEvents at h
  obtain ⟨groups, hgroups, rfl⟩ := Option.map_eq_some_iff.mp h
  exact foldlM_groups calls (fun c _ es hes => callback_events hes) hgroups ppc

/-! ## The nesting level -/

theorem pushAll_lev (l : List ℕ) (k : ℕ) (ppc : Ppctx) :
    (l.foldl (fun ppc b => kblockPushChild ppc k b) ppc).lev = ppc.lev := by
  induction l generalizing ppc with
  | nil => rfl
  | cons b l ih => rw [List.foldl_cons, ih]; rfl

theorem text_lev {s : Str} (h : Event.run ppc (.text s) = some ppc') : ppc'.lev = ppc.lev := by
  change cbPreHtmlBlock ppc s = some ppc' at h
  unfold cbPreHtmlBlock at h
  dsimp only at h
  split at h
  · obtain rfl := Option.some.inj h
    rfl
  · obtain ⟨k, -, rfl⟩ := Option.map_eq_some_iff.mp h
    rfl

theorem block_lev {name : Str} (h : Event.run ppc (.block name) = some ppc') :
    ppc'.lev = ppc.lev + 1 := by
  change processDirectiveBlock ppc name = some ppc' at h
  unfold processDirectiveBlock at h
  dsimp only at h
  split at h
  · split at h
    · cases h
    · obtain ⟨k, -, rfl⟩ := Option.map_eq_some_iff.mp h
      rfl
  · split at h
    · split at h
      · obtain rfl := Option.some.inj h
        rfl
      · split at h
        · obtain ⟨k, -, rfl⟩ := Option.map_eq_some_iff.mp h
          rfl
        · obtain rfl := Option.some.inj h
          rfl
    · obtain ⟨q, -, rfl⟩ := Option.map_eq_some_iff.mp h
      rfl

theorem endblock_lev {close : Option Str} (h : Event.run ppc (.endblock close) = some ppc') :
    ppc'.lev = ppc.lev - 1 := by
  change processDirectiveEndblock ppc close = some ppc' at h
  unfold processDirectiveEndblock at h
  obtain ⟨cur, -, h⟩ := Option.bind_eq_some_iff.mp h
  dsimp only at h
  split at h
  · cases h
  · split at h
    · cases h
    · split at h
      · obtain rfl := Option.some.inj h
        rfl
      · obtain rfl := Option.some.inj h
        split
        · rfl
        · rfl

theorem inherit_lev (h : Event.run ppc .inherit = some ppc') : ppc'.lev = ppc.lev := by
  change processDirectiveInherit ppc = some ppc' at h
  unfold processDirectiveInherit at h
  obtain ⟨cur, -, h⟩ := Option.bind_eq_some_iff.mp h
  obtain ⟨anc, -, rfl⟩ := Option.map_eq_some_iff.mp h
  exact pushAll_lev _ _ _

/-- A template closes all the blocks that it opens. -/
theorem spells_lev (hs : Spells t es) (h : es.foldlM Event.run ppc = some ppc') :
    ppc'.lev = ppc.lev := by
  induction hs generalizing ppc ppc' with
  | nil =>
    obtain rfl := Option.some.inj h
    rfl
  | text hs ih =>
    obtain ⟨ppc₁, h₁, h⟩ := Option.bind_eq_some_iff.mp (List.foldlM_cons.symm.trans h)
    exact (ih h).trans (text_lev h₁)
  | block hclose hbody hs ihb ih =>
    obtain ⟨ppc₁, h₁, h⟩ := Option.bind_eq_some_iff.mp (List.foldlM_cons.symm.trans h)
    rw [List.foldlM_append] at h
    obtain ⟨ppc₂, h₂, h⟩ := Option.bind_eq_some_iff.mp h
    obtain ⟨ppc₃, h₃, h⟩ := Option.bind_eq_some_iff.mp (List.foldlM_cons.symm.trans h)
    rw [ih h, endblock_lev h₃, ihb h₂, block_lev h₁, Nat.add_sub_cancel]
  | inherit hs ih =>
    obtain ⟨ppc₁, h₁, h⟩ := Option.bind_eq_some_iff.mp (List.foldlM_cons.symm.trans h)
    exact (ih h).trans (inherit_lev h₁)

/-! ## A chain as a run -/

theorem processDirective_extends {name fullpath : Str} (h : extendsArg line = some name)
    (hcodeLine : codeLine ≤ 1) (hpath : includeFileFullPath env file name = some fullpath)
    (hfile : (env.files fullpath).isNone = false) (ppc : Ppctx) :
    processDirective env inc file codeLine ppc line =
      (inc fullpath (({ ppc with
        depend := ppc.depend ++ [fullpath] } : Ppctx).print (lineMark 1 fullpath))).bind fun ppc =>
        Event.extended.run (ppc.print (lineMark codeLine file)) := by
  unfold extendsArg at h
  obtain ⟨tok, htok, h⟩ := Option.bind_eq_some_iff.mp h
  split at h
  next hextends =>
    have hinclude : ¬ strcasecmpEq tok.1 (bytes "include") = true := by
      intro hinc
      rw [strcasecmpEq_iff] at hextends hinc
      rw [hextends] at hinc
      exact absurd hinc (by decide)
    unfold processDirective
    rw [htok, Option.bind_some]
    dsimp only
    rw [if_neg hinclude, if_pos hextends, h, Option.bind_some, if_neg (Nat.not_lt.mpr hcodeLine),
      hpath, Option.bind_some,
      processDirectiveInclude, hpath, Option.bind_some, if_neg (by rw [hfile]; decide),
        Option.bind_map]
    rfl
  · cases h

theorem Chain.file_isSome (h : Chain env file ts es lead) : (env.files file).isNone = false := by
  cases h with
  | base hfile => rw [hfile]; rfl
  | child hfile => rw [hfile]; rfl

/-- A file whose first directive is the one that extends the other template. -/
theorem Chain.first (line name : Str) (calls : List (ℕ × Call)) {fullpath : Str} {rs : List Event}
    (hfile : env.files file = some ((1, .code 64 line) :: calls))
    (hlines : getLines line.length ⟨line, false, 0⟩ = [line]) (hname : extendsArg line = some name)
    (hpath : includeFileFullPath env file name = some fullpath)
    (hcalls : fileEvents file calls = some rs) (ht : Spells t rs)
    (hbase : Chain env fullpath ts es []) :
    Chain env file (t :: ts)
      (.depend fullpath :: .mark (lineMark 1 fullpath) ::
        (es ++ .mark (lineMark 1 file) :: .extended :: rs)) [] :=
  @Chain.child env file line line name fullpath 1 [] calls [] [] t ts es [] [] []
    [] rs hfile hlines hname (le_refl 1) hpath
    rfl rfl rfl hcalls ht hbase

/-- The preprocessor does what the chain says. -/
theorem chain_ends (h : Chain env file ts es []) (hlev : ppc.lev = 0)
    (hrun : es.foldlM Event.run ppc = some ppc') :
    ppc'.lev = 0 ∧ Ends (fun n => preprocess env n file ppc) ppc' := by
  generalize hlead : ([] : List Event) = lead at h
  induction h generalizing ppc ppc' with
  | @base file calls t es hfile hes ht =>
    have hlev' : ppc'.lev = 0 := (spells_lev ht hrun).trans hlev
    refine ⟨hlev', 1, fun n hn => ?_⟩
    obtain ⟨k, rfl⟩ : ∃ k, n = k + 1 := ⟨n - 1, by omega⟩
    simp only [preprocess, hfile, Option.bind_some, fileEvents_run hes, hrun, hlev', ne_eq,
      not_true_eq_false, if_false]
  | @child file buf line name fullpath codeLine before after front more t older es lead ps fs ms rs
    hfile hlines hname
      hcodeLine hpath hbefore hfront hmore hafter ht hbase ih =>
    obtain ⟨rfl, hnil⟩ := List.append_eq_nil_iff.mp hlead.symm
    obtain ⟨rfl, rfl⟩ := List.append_eq_nil_iff.mp hnil
    simp only [List.nil_append] at ht hrun
    -- the base file, then the rest of this one
    obtain ⟨ppc₁, h₁, hrun⟩ := Option.bind_eq_some_iff.mp (List.foldlM_cons.symm.trans hrun)
    obtain rfl := Option.some.inj h₁
    obtain ⟨ppc₂, h₂, hrun⟩ := Option.bind_eq_some_iff.mp (List.foldlM_cons.symm.trans hrun)
    obtain rfl := Option.some.inj h₂
    rw [List.foldlM_append] at hrun
    obtain ⟨ppc₃, h₃, hrun⟩ := Option.bind_eq_some_iff.mp hrun
    obtain ⟨ppc₄, h₄, hrun⟩ := Option.bind_eq_some_iff.mp (List.foldlM_cons.symm.trans hrun)
    obtain rfl := Option.some.inj h₄
    obtain ⟨ppc₅, h₅, hrun⟩ := Option.bind_eq_some_iff.mp (List.foldlM_cons.symm.trans hrun)
    obtain ⟨hlev₃, N, hN⟩ := ih (by exact hlev) h₃ rfl
    have hlev₅ : ppc₅.lev = 0 := by
      change (if ppc₃.lev ≠ 0 then none else some _) = some ppc₅ at h₅
      rw [if_neg (not_not_intro hlev₃)] at h₅
      obtain rfl := Option.some.inj h₅
      exact hlev₃
    have hlev' : ppc'.lev = 0 := (spells_lev ht hrun).trans hlev₅
    refine ⟨hlev', N + 1, fun n hn => ?_⟩
    obtain ⟨k, rfl⟩ : ∃ k, n = k + 1 := ⟨n - 1, by omega⟩
    rw [List.foldlM_append] at hrun
    obtain ⟨ppc₆, h₆, hrun⟩ := Option.bind_eq_some_iff.mp hrun
    have hread := hN k (by omega)
    dsimp only at hread
    have hdir : callback env (preprocess env k) file ppc (codeLine, .code 64 buf) = some ppc₆ := by
      change parseDirective env (preprocess env k) file codeLine ppc buf = _
      rw [parseDirective, hlines, List.foldlM_append,
        foldlM_mapM front (fun line _ e he => processDirective_event he) hfront, List.foldlM_nil]
      simp only [Option.pure_def, Option.bind_eq_bind, Option.bind_some]
      rw [List.foldlM_cons, processDirective_extends hname hcodeLine hpath hbase.file_isSome, hread]
      simp only [Option.bind_eq_bind, Option.bind_some, h₅]
      rw [foldlM_mapM more (fun line _ e he => processDirective_event he) hmore, h₆]
    simp only [preprocess, hfile, Option.bind_some]
    rw [List.foldlM_append, fileEvents_run hbefore, List.foldlM_nil]
    simp only [Option.pure_def, Option.bind_eq_bind, Option.bind_some, List.foldlM_cons, hdir]
    rw [fileEvents_run hafter, hrun, Option.bind_some, if_neg (not_not_intro hlev')]

/-- The `#line` code that is written around the files that are extended. -/
def marks (es : List Event) : Str :=
  es.flatMap fun
    | .mark s => s
    | _ => []

theorem spells_marks (hs : Spells t es) : marks es = [] := by
  unfold marks
  induction hs with
  | nil => rfl
  | text hs ih => exact ih
  | block hclose hbody hs ihb ih => simp [ihb, ih]
  | inherit hs ih => exact ih

structure Start (ppc : Ppctx) : Prop where
  heap : ppc.heap = ppctxCreate.heap
  next : ppc.next = 2
  cur : ppc.cur = some topBlock
  lev : ppc.lev = 0
  extending : ppc.extending = 0

theorem base_unfolds (ht : Spells t es) (hdistinct : t.Distinct) (hstart : Start ppc)
    (hrun : RunInPlace ppc es) :
    ∃ ppc' F, es.foldlM Event.run ppc = some ppc' ∧ Unfolds (merged [t]) t F ∧
    Live ppc'.heap ppc'.next F ∧ 2 ≤ ppc'.next ∧
      ppc'.lev = 0 ∧ ppc'.extending = 0 ∧ ppc'.out = ppc.out := by
  have hlive : Live ppc.heap ppc.next .nil := by
    rw [hstart.heap]
    exact ⟨trivial, rfl, List.nodup_nil, by simp, by simp, List.nodup_nil⟩
  have hreading : Reading ppc .nil topBlock := by
    refine ⟨hstart.cur, hlive, Or.inl rfl, ?_, ?_, Or.inl hstart.extending⟩
    · rw [hstart.next]
    · rw [hstart.next]
      decide
  have hanc : (ppc.heap topBlock).ancestor = none := by
    rw [hstart.heap]
    rfl
  obtain ⟨ppc', F, hfold, hcopied, hsame, hadded⟩ := run_copied ht hreading hanc hrun
  exact ⟨ppc', F, hfold, unfolds_base hcopied hdistinct, hadded.live,
    hreading.lower.trans hadded.next_le,
    hsame.lev.trans hstart.lev, hsame.extending.trans hstart.extending, hsame.out⟩

/-- The steps of a file that extends another one are those of that one and then its own. -/
theorem child_run {fullpath : Str} {ppc₁ : Ppctx} {rs : List Event}
    (hes : es.foldlM Event.run (({ ppc with
      depend := ppc.depend ++ [fullpath] } : Ppctx).print (lineMark 1 fullpath)) = some ppc₁)
    (hlev : ppc₁.lev = 0) (codeLine : ℕ) (file : Str) :
    (Event.depend fullpath :: .mark (lineMark 1 fullpath) ::
        (es ++ .mark (lineMark codeLine file) :: .extended :: rs)).foldlM Event.run ppc =
      rs.foldlM Event.run { ppc₁.print (lineMark codeLine file) with
        extending := ppc₁.extending + 1 } := by
  have hextended : Event.extended.run (ppc₁.print (lineMark codeLine file)) =
      some { ppc₁.print (lineMark codeLine file) with extending := ppc₁.extending + 1 } :=
        if_neg (not_not_intro hlev)
  rw [List.foldlM_cons]
  change (List.foldlM Event.run _ (_ :: _)) = _
  rw [List.foldlM_cons]
  change (List.foldlM Event.run _ (es ++ _)) = _
  rw [List.foldlM_append, hes]
  change (List.foldlM Event.run _ (_ :: _)) = _
  rw [List.foldlM_cons]
  change (List.foldlM Event.run (ppc₁.print (lineMark codeLine file)) (_ :: _)) = _
  rw [List.foldlM_cons, hextended]
  rfl

/-- The tree is that of the chain. -/
theorem chain_unfolds (h : Chain env file ts es []) (hdistinct : ∀ t ∈ ts, t.Distinct)
    (hstart : Start ppc) (hrun : RunInPlace ppc es) :
    ∃ ppc' base L, es.foldlM Event.run ppc = some ppc' ∧ ts.getLast? = some base ∧
    Unfolds (merged ts) base L ∧
      Live ppc'.heap ppc'.next L ∧ 2 ≤ ppc'.next ∧ ppc'.lev = 0 ∧ ppc'.extending + 1 = ts.length ∧
        ppc'.out = ppc.out ++ marks es := by
  generalize hlead : ([] : List Event) = lead at h
  induction h generalizing ppc with
  | @base file calls t es hfile hes ht =>
    obtain ⟨ppc', F, hfold, hF, hlive, hnext, hlev, hext, hout⟩ :=
      base_unfolds ht (hdistinct t List.mem_cons_self) hstart hrun
    refine ⟨ppc', t, F, hfold, rfl, hF, hlive, hnext, hlev, ?_, ?_⟩
    · rw [hext]
      rfl
    · rw [hout, spells_marks ht, List.append_nil]
  | @child file buf line name fullpath codeLine before after front more t older es lead ps fs ms rs
    hfile hlines hname
      hcodeLine hpath hbefore hfront hmore hafter ht hbase ih =>
    obtain ⟨rfl, hnil⟩ := List.append_eq_nil_iff.mp hlead.symm
    obtain ⟨rfl, rfl⟩ := List.append_eq_nil_iff.mp hnil
    simp only [List.nil_append] at ht hrun ⊢
    obtain ⟨ht₀, hdistinct⟩ := List.forall_mem_cons.mp hdistinct
    obtain ⟨-, hrun⟩ := hrun
    obtain ⟨-, hrun⟩ := hrun _ rfl
    obtain ⟨hes, hrun⟩ := runInPlace_append (hrun _ rfl)
    obtain ⟨ppc₁, base, L, h₁, hlast, hL, hlive, hnext, hlev, hext, hout⟩ :=
      ih hdistinct (by exact ⟨hstart.heap, hstart.next, hstart.cur, hstart.lev, hstart.extending⟩)
        hes rfl
    obtain ⟨-, hrun⟩ := hrun ppc₁ h₁
    let ppc₂ : Ppctx := { ppc₁.print (lineMark codeLine file) with extending := ppc₁.extending + 1 }
    have houtside : Outside ppc₂ L := ⟨hlive, hnext, hlev, Nat.succ_ne_zero _⟩
    have hown : RunInPlace ppc₂ (ms ++ rs) := (hrun _ rfl).2 ppc₂ (if_neg (not_not_intro hlev))
    obtain ⟨ppc', L', hfold, happlied, h', hext', -, hout'⟩ := run_applied ht houtside hown
    -- the tree of the other template is that of a chain whose last template defines nothing
    have hnone : merged (.nil :: older) = merged older := funext fun name => merged_undefined rfl
    have hL' : Unfolds (merged (t :: older)) base L' := by
      rw [← hnone] at hL
      have hnew : Unfolds (merged (Template.nil.append t :: older)) base L' :=
        unfolds_applied happlied (by exact ht₀) hL
      exact hnew
    refine ⟨ppc', base, L', (child_run h₁ hlev codeLine file).trans hfold, ?_, hL', h'.live,
      h'.lower, h'.lev, ?_, ?_⟩
    · rw [List.getLast?_cons, hlast]
      rfl
    · rw [hext', List.length_cons, ← hext]
    · rw [hout']
      change ppc₁.out ++ lineMark codeLine file = _
      rw [hout]
      have hmarks : marks (ms ++ rs) = [] := spells_marks ht
      unfold marks at hmarks ⊢
      simp only [Ppctx.print, List.flatMap_cons, List.flatMap_append, hmarks, List.nil_append,
        List.append_nil,
        List.append_assoc]

theorem chain_output {out : Str} (h : Chain env file ts es [])
    (hrun : ((es.foldlM Event.run ppctxCreate).bind fun ppc =>
      (ppctxPrint ppc).map (ppc.out ++ ·)) = some out) :
    Ends (fun n => preprocessed env n file) out := by
  obtain ⟨ppc', hfold, hout⟩ := Option.bind_eq_some_iff.mp hrun
  obtain ⟨-, hends⟩ := chain_ends h rfl hfold
  unfold preprocessed
  refine hends.bind ?_
  simp only [hout]
  exact Ends.const out

/-- A chain of templates comes out as its first one, with the body of each block taken from
the last template that defines it, when every template that extends another one starts with
that directive and every step finds the pointers in place. What is outside the blocks of
the other templates does not matter then. -/
theorem template_inheritance (h : Chain env file ts es []) (hdistinct : ∀ t ∈ ts, t.Distinct)
    (hrun : RunInPlace ppctxCreate es) :
    ∃ base out, ts.getLast? = some base ∧
    Ends (fun n => preprocessed env n file) (marks es ++ out) ∧
      Expands (merged ts) base out ∧
        ∀ us, us.map Template.inBlocks = ts.map Template.inBlocks →
        Expands (merged us) base out := by
  obtain ⟨ppc', base, L, hfold, hlast, hL, hlive, hnext, -, -, hout⟩ :=
    chain_unfolds h hdistinct ⟨rfl, rfl, rfl, rfl, rfl⟩ hrun
  have hexpands := expands_of_unfolds hL
  refine ⟨base, printed L, hlast, ?_, hexpands, ?_⟩
  · apply chain_output h
    have hprint : ppctxPrint ppc' = some (printed L) := hlive.print_eq hnext
    have hmarks : ppc'.out = marks es := hout
    rw [hfold, Option.bind_some, hprint, hmarks, Option.map_some]
  · intro us hus
    rw [← merged_inBlocks us, hus, merged_inBlocks ts]
    exact hexpands

end

def filesOf (l : List (Str × List (ℕ × Call))) : Env :=
  ⟨fun name => (l.find? (·.1 = name)).map Prod.snd, 1024⟩

/-- `<%@ extends "0" %>A<%@ block "a" %>y<%@ inherit %><%@ endblock %>` after
`B<%@ block "a" %>x<%@ endblock %>`. -/
theorem template_inheritance_inherit :
    ∃ env ts es, Chain env (bytes "t/1") ts es [] ∧
      Ends (fun n => preprocessed env n (bytes "t/1")) (marks es ++ bytes "Byx") := by
  let zero : List (ℕ × Call) :=
    [(1, .html (bytes "B")), (1, .code 64 (bytes " block \"a\" ")), (1, .html (bytes "x")),
    (1, .code 64 (bytes " endblock "))]
  let one : List (ℕ × Call) :=
    [(1, .html (bytes "A")), (1, .code 64 (bytes " block \"a\" ")), (1, .html (bytes "y")),
    (1, .code 64 (bytes " inherit ")), (1, .code 64 (bytes " endblock "))]
  let env := filesOf [(bytes "t/0", zero),
    (bytes "t/1", (1, .code 64 (bytes " extends \"0\" ")) :: one)]
  let base : Template := .text (bytes "B") (.block (bytes "a") (.text (bytes "x") .nil) .nil)
  let new : Template := .text (bytes "A")
    (.block (bytes "a") (.text (bytes "y") (.inherit .nil)) .nil)
  let es₀ : List Event := [.text (bytes "B"), .block (bytes "a"), .text (bytes "x"), .endblock none]
  let es₁ : List Event := [.text (bytes "A"), .block (bytes "a"), .text (bytes "y"), .inherit,
    .endblock none]
  have h₀ : fileEvents (bytes "t/0") zero = some es₀ := by decide +kernel
  have h₁ : fileEvents (bytes "t/1") one = some es₁ := by decide +kernel
  have hbase : Spells base es₀ := .text (.block (by simp) (.text .nil) .nil)
  have hnew : Spells new es₁ := .text (.block (by simp) (.text (.inherit .nil)) .nil)
  have hzero : Chain env (bytes "t/0") [base] es₀ [] := .base (by decide +kernel) h₀ hbase
  have hone : Chain env (bytes "t/1") [new, base] _ [] :=
    .first (bytes " extends \"0\" ") (bytes "0") one (by decide +kernel) (by decide +kernel)
      (by decide +kernel)
      (by decide +kernel) h₁ hnew hzero
  have hdistinct : ∀ t ∈ [new, base], t.Distinct := by
    unfold Template.Distinct Keyed.Unique
    decide +kernel
  obtain ⟨base', out, hlast, hends, hexpands, -⟩ :=
    template_inheritance hone hdistinct (runInPlace_iff.mp (by decide +kernel))
  obtain rfl := Option.some.inj hlast
  have hbody : Expands (merged [new, base]) (.text (bytes "y") (.text (bytes "x") .nil))
    (bytes "yx") := .text (.text .nil)
  have hout : Expands (merged [new, base]) base (bytes "Byx") := .text (.block rfl hbody .nil)
  rw [expands_unique hexpands hout] at hends
  exact ⟨env, [new, base], _, hone, hends⟩

/-- With a third template, text that is outside every block comes out: the block `b` that it
gives a body is in another block, and the current block stays there. -/
theorem template_inheritance_fails :
    ∃ env file ts es, Chain env file ts es [] ∧ (∀ t ∈ ts, t.Distinct) ∧
      ¬ ∃ base out, ts.getLast? = some base ∧
      Ends (fun n => preprocessed env n file) (marks es ++ out) ∧
        Expands (merged ts) base out := by
  let zero : List (ℕ × Call) :=
    [(1, .code 64 (bytes " block \"a\" ")), (1, .code 64 (bytes " block \"b\" ")),
    (1, .html (bytes "x")), (1, .code 64 (bytes " endblock ")), (1, .code 64 (bytes " endblock "))]
  let two : List (ℕ × Call) := [(1, .code 64 (bytes " block \"b\" ")), (1, .html (bytes "y")),
    (1, .code 64 (bytes " endblock ")), (1, .html (bytes "outside"))]
  let env := filesOf [(bytes "t/0", zero), (bytes "t/1", [(1, .code 64 (bytes " extends \"0\" "))]),
    (bytes "t/2", (1, .code 64 (bytes " extends \"1\" ")) :: two)]
  let base : Template := .block (bytes "a") (.block (bytes "b") (.text (bytes "x") .nil) .nil) .nil
  let new : Template := .block (bytes "b") (.text (bytes "y") .nil) (.text (bytes "outside") .nil)
  let es₀ : List Event := [.block (bytes "a"), .block (bytes "b"), .text (bytes "x"),
    .endblock none, .endblock none]
  let es₂ : List Event := [.block (bytes "b"), .text (bytes "y"), .endblock none,
    .text (bytes "outside")]
  have h₀ : fileEvents (bytes "t/0") zero = some es₀ := by decide +kernel
  have h₂ : fileEvents (bytes "t/2") two = some es₂ := by decide +kernel
  have hbase : Spells base es₀ := .block (by simp) (.block (by simp) (.text .nil) .nil) .nil
  have hnew : Spells new es₂ := .block (by simp) (.text .nil) (.text .nil)
  have hzero : Chain env (bytes "t/0") [base] es₀ [] := .base (by decide +kernel) h₀ hbase
  have hone : Chain env (bytes "t/1") [.nil, base] _ [] :=
    .first (bytes " extends \"0\" ") (bytes "0") [] (by decide +kernel) (by decide +kernel)
      (by decide +kernel)
      (by decide +kernel) rfl .nil hzero
  have htwo : Chain env (bytes "t/2") [new, .nil, base] _ [] :=
    .first (bytes " extends \"1\" ") (bytes "1") two (by decide +kernel) (by decide +kernel)
      (by decide +kernel)
      (by decide +kernel) h₂ hnew hone
  refine ⟨env, bytes "t/2", _, _, htwo, ?_, ?_⟩
  · unfold Template.Distinct Keyed.Unique
    decide +kernel
  rintro ⟨base', out, hlast, hends, hexpands⟩
  obtain rfl := Option.some.inj hlast
  have hinner : Expands (merged [new, .nil, base]) (.text (bytes "y") .nil) (bytes "y") :=
    .text .nil
  have hout : Expands (merged [new, .nil, base]) base (bytes "y") :=
    .block rfl (.block rfl hinner .nil) .nil
  obtain rfl := expands_unique hexpands hout
  have hreal : Ends (fun n => preprocessed env n (bytes "t/2"))
    (lineMark 1 (bytes "t/1") ++ lineMark 1 (bytes "t/0") ++
      lineMark 1 (bytes "t/1") ++ lineMark 1 (bytes "t/2") ++ bytes "youtside") :=
    chain_output htwo (by decide +kernel)
  exact absurd (hends.unique hreal) (by decide +kernel)

end Klone.Trans
