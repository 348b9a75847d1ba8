import Klone.Trans.Inherited

/-! # Includes in place

A document is a file with the files that it includes in their places. Every file is read
with the blocks of the files around it still open, and when it ends no block may be open
at all.
-/
namespace Klone.Trans
open Loop

inductive Doc where
  | nil
  | html (s : Str) (rest : Doc)
  | code (cmd : Byte) (buf : Str) (rest : Doc)
  | block (name : Str) (body rest : Doc)
  | included (fullpath : Str) (content rest : Doc)

/-- What a file makes the preprocessor do, one thing at a time. -/
inductive Step where
  | html (s : Str)
  | code (codeLine : ℕ) (cmd : Byte) (buf : Str)
  | block (name : Str)
  | endblock (name : Option Str)
  | included (codeLine : ℕ) (fullpath : Str)

variable (env : Env)

def directiveStep (file : Str) (codeLine : ℕ) (line : Str) : Option Step :=
  (strtokR isblank (cstr line)).bind fun tok =>
    let arg := (strtokR (fun c => isblank c || c == 34) tok.2).map Prod.fst
    if strcasecmpEq tok.1 (bytes "include") then
      arg.bind fun name => (includeFileFullPath env file name).map fun fullpath =>
        .included codeLine fullpath
    else if strcasecmpEq tok.1 (bytes "extends") then none
    else if strcasecmpEq tok.1 (bytes "block") then arg.map .block
    else if strcasecmpEq tok.1 (bytes "endblock") then some (.endblock arg)
    else none

def callSteps (file : Str) (c : ℕ × Call) : Option (List Step) :=
  match c.2 with
  | .html buf => some [.html buf]
  | .code cmd buf =>
    if cmd = 64 then (getLines buf.length ⟨buf, false, 0⟩).mapM (directiveStep env file c.1)
    else some [.code c.1 cmd buf]

def fileSteps (file : Str) (calls : List (ℕ × Call)) : Option (List Step) :=
  (calls.mapM (callSteps env file)).map List.flatten

/-- The steps spell a document: what it has between the beginning and the end of a block
or of a file is balanced, and so is every file that it includes. -/
inductive Spelt : Str → Doc → List Step → Prop
  | nil {file : Str} : Spelt file .nil []
  | html {file s : Str} {d : Doc} {steps : List Step} (h : Spelt file d steps) :
    Spelt file (.html s d) (.html s :: steps)
  | code {file buf : Str} {codeLine : ℕ} {cmd : Byte} {d : Doc} {steps : List Step}
    (h : Spelt file d steps) :
      Spelt file (.code cmd buf d) (.code codeLine cmd buf :: steps)
  | block {file name : Str} {close : Option Str} {body d : Doc} {inner steps : List Step}
      (hclose : ∀ c ∈ close, strcasecmpEq c name = true) (hbody : Spelt file body inner)
        (h : Spelt file d steps) :
      Spelt file (.block name body d) (.block name :: (inner ++ .endblock close :: steps))
  | included {file fullpath : Str} {codeLine : ℕ} {calls : List (ℕ × Call)} {content d : Doc}
    {own steps : List Step}
      (hfile : env.files fullpath = some calls) (hown : fileSteps env fullpath calls = some own)
      (hcontent : Spelt fullpath content own) (h : Spelt file d steps) :
      Spelt file (.included fullpath content d) (.included codeLine fullpath :: steps)

def Holds (file : Str) (d : Doc) : Prop :=
  ∃ calls steps, env.files file = some calls ∧ fileSteps env file calls = some steps ∧
    Spelt env file d steps

/-! ## Documents as text -/

/-- What the text of a document consists of, with the included files in place. -/
inductive Token where
  | byte (c : Byte)
  | code (cmd : Byte) (buf : Str)
  | block (name : Str)
  | endblock
  deriving DecidableEq

def Doc.tokens : Doc → List Token
  | .nil => []
  | .html s rest => s.map Token.byte ++ rest.tokens
  | .code cmd buf rest => .code cmd buf :: rest.tokens
  | .block name body rest => .block name :: (body.tokens ++ .endblock :: rest.tokens)
  | .included _ content rest => content.tokens ++ rest.tokens

def Doc.keys : Doc → List Str
  | .nil => []
  | .html _ rest => rest.keys
  | .code _ _ rest => rest.keys
  | .block name body rest => foldCase name :: (body.keys ++ rest.keys)
  | .included _ content rest => content.keys ++ rest.keys

/-- Nothing is included where `lev` blocks are open around the document, or inside it
where more are. -/
def Doc.Outside : ℕ → Doc → Prop
  | _, .nil => True
  | lev, .html _ rest => rest.Outside lev
  | lev, .code _ _ rest => rest.Outside lev
  | lev, .block _ body rest => body.Outside (lev + 1) ∧ rest.Outside lev
  | lev, .included _ content rest => lev = 0 ∧ content.Outside lev ∧ rest.Outside lev

def Doc.Single : Doc → Prop
  | .nil => True
  | .html _ rest => rest.Single
  | .code _ _ rest => rest.Single
  | .block _ body rest => body.Single ∧ rest.Single
  | .included _ _ _ => False

/-- A text is what these tokens come out as, whatever files and lines the `#line` code in it
names. -/
inductive Renders : List Token → Str → Prop
  | nil : Renders [] []
  | byte {c : Byte} {ts : List Token} {s : Str} (h : Renders ts s) :
    Renders (.byte c :: ts) (c :: s)
  | code {file buf : Str} {codeLine : ℕ} {cmd : Byte} {ts : List Token} {s : Str}
    (h : Renders ts s) :
      Renders (.code cmd buf :: ts) (codeText file codeLine cmd buf ++ s)
  | block {name : Str} {ts : List Token} {s : Str} (h : Renders ts s) :
    Renders (.block name :: ts) s
  | endblock {ts : List Token} {s : Str} (h : Renders ts s) : Renders (.endblock :: ts) s

def UpToLines (a b : Str) : Prop := ∃ ts, Renders ts a ∧ Renders ts b

/-- The `#line` code that is added around included files. -/
def marksText (m : List (ℕ × Str)) : Str := m.flatMap fun x => lineMark x.1 x.2

/-- The file and the single one are both read, and come out as the same text. -/
def Composes (top : Str) (env₁ : Env) (single : Str) : Prop :=
  ∃ m a b, Ends (fun n => preprocessed env n top) (marksText m ++ a) ∧
    Ends (fun n => preprocessed env₁ n single) b ∧ UpToLines a b

section
variable {a b : Str} {ts us : List Token} {d d' : Doc} {lev : ℕ}

theorem Renders.append (h : Renders ts a) (h' : Renders us b) : Renders (ts ++ us) (a ++ b) := by
  induction h with
  | nil => exact h'
  | byte h ih => exact .byte ih
  | code h ih =>
    rw [List.append_assoc]
    exact .code ih
  | block h ih => exact .block ih
  | endblock h ih => exact .endblock ih

theorem renders_bytes (s : Str) : Renders (s.map Token.byte) s := by
  induction s with
  | nil => exact .nil
  | cons c s ih => exact .byte ih

theorem Doc.Single.outside (h : d.Single) (lev : ℕ) : d.Outside lev := by
  induction d generalizing lev with
  | nil => trivial
  | html s rest ih => exact ih h lev
  | code cmd buf rest ih => exact ih h lev
  | block name body rest ihb ih => exact ⟨ihb h.1 (lev + 1), ih h.2 lev⟩
  | included fullpath content rest ihc ih => exact h.elim

def Token.key : Token → Option Str
  | .block name => some (foldCase name)
  | _ => none

theorem keys_eq (d : Doc) : d.keys = d.tokens.filterMap Token.key := by
  induction d with
  | nil => rfl
  | html s rest ih =>
    have hbytes : (s.map Token.byte).filterMap Token.key = [] := by
      rw [List.filterMap_map]
      exact List.filterMap_eq_nil_iff.mpr fun c _ => rfl
    rw [Doc.keys, Doc.tokens, List.filterMap_append, hbytes, ih, List.nil_append]
  | code cmd buf rest ih => exact ih
  | block name body rest ihb ih =>
    simp only [Doc.keys, Doc.tokens, List.filterMap_cons, Token.key, List.filterMap_append, ihb, ih]
  | included fullpath content rest ihc ih =>
    rw [Doc.keys, Doc.tokens, List.filterMap_append, ihc, ih]

/-! ## Files as steps -/

def Ppctx.entered (ppc : Ppctx) (fullpath : Str) : Ppctx :=
  ({ ppc with depend := ppc.depend ++ [fullpath] } : Ppctx).print (lineMark 1 fullpath)

/-- What a step does; `inc` is the preprocessor for the files that are included. -/
def Step.run (inc : Str → Ppctx → Option Ppctx) (file : Str) (ppc : Ppctx) : Step → Option Ppctx
  | .html s => Event.run ppc (.text s)
  | .code codeLine cmd buf => Event.run ppc (.text (codeText file codeLine cmd buf))
  | .block name => Event.run ppc (.block name)
  | .endblock name => Event.run ppc (.endblock name)
  | .included codeLine fullpath =>
    if (env.files fullpath).isNone then none
    else (inc fullpath (ppc.entered fullpath)).map fun ppc => ppc.print (lineMark codeLine file)

def readSteps (file : Str) (steps : List Step) (ppc : Ppctx) (fuel : ℕ) : Option Ppctx :=
  steps.foldlM (Step.run env (preprocess env fuel) file) ppc

end

section
variable {env : Env} {inc : Str → Ppctx → Option Ppctx} {file line : Str} {codeLine : ℕ}
    {step : Step} {steps : List Step}

theorem processDirective_step (h : directiveStep env file codeLine line = some step) (ppc : Ppctx) :
    processDirective env inc file codeLine ppc line = step.run env inc file ppc := by
  unfold directiveStep at h
  unfold processDirective
  obtain ⟨tok, htok, h⟩ := Option.bind_eq_some_iff.mp h
  rw [htok, Option.bind_some]
  dsimp only at h ⊢
  split at h
  next hinclude =>
    obtain ⟨name, hname, h⟩ := Option.bind_eq_some_iff.mp h
    obtain ⟨fullpath, hpath, rfl⟩ := Option.map_eq_some_iff.mp h
    rw [if_pos hinclude, hname, Option.bind_some, hpath, Option.bind_some, processDirectiveInclude,
      hpath, Option.bind_some]
    rfl
  next hinclude =>
  rw [if_neg hinclude]
  split at h
  · cases h
  next hextends =>
  rw [if_neg hextends]
  split at h
  next hblock =>
    obtain ⟨name, hname, rfl⟩ := Option.map_eq_some_iff.mp h
    rw [if_pos hblock, hname]
    rfl
  next hblock =>
  rw [if_neg hblock]
  split at h
  next hend =>
    obtain rfl := Option.some.inj h
    rw [if_pos hend]
    rfl
  · cases h

theorem step_single (ppc : Ppctx) (step : Step) :
    [step].foldlM (Step.run env inc file) ppc = step.run env inc file ppc := by
  rw [List.foldlM_cons]
  cases step.run env inc file ppc <;> rfl

theorem callback_steps {c : ℕ × Call} (h : callSteps env file c = some steps) (ppc : Ppctx) :
    callback env inc file ppc c = steps.foldlM (Step.run env inc file) ppc := by
  obtain ⟨codeLine, call⟩ := c
  cases call with
  | html buf =>
    obtain rfl := Option.some.inj h
    exact (step_single ppc (.html buf)).symm
  | code cmd buf =>
    unfold callSteps at h
    dsimp only at h
    change cbPreCodeBlock env inc file codeLine ppc cmd buf = _
    unfold cbPreCodeBlock
    by_cases hcmd : cmd = 64
    · rw [if_pos hcmd] at h ⊢
      exact foldlM_mapM _ (fun line _ step hstep => processDirective_step hstep) h ppc
    · rw [if_neg hcmd] at h ⊢
      obtain rfl := Option.some.inj h
      exact (step_single ppc (.code codeLine cmd buf)).symm

/-- A file is read to its end, where no block may be open. -/
theorem file_run {calls : List (ℕ × Call)} (hfile : env.files file = some calls)
    (hsteps : fileSteps env file calls = some steps) (n : ℕ) (ppc : Ppctx) :
    preprocess env (n + 1) file ppc =
      (readSteps env file steps ppc n).bind fun ppc => if ppc.lev ≠ 0 then none else some ppc := by
  unfold fileSteps at hsteps
  obtain ⟨groups, hgroups, rfl⟩ := Option.map_eq_some_iff.mp hsteps
  rw [preprocess, hfile, Option.bind_some,
    foldlM_groups calls (fun c _ steps hs => callback_steps hs) hgroups ppc]
  rfl

end

/-! ## Reading a document -/

/-- What is read goes into the block `k` of the tree, in a file that extends no other one. -/
structure Base (ppc : Ppctx) (L : Blocks) (k : ℕ) : Prop where
  reading : Reading ppc L k
  extending : ppc.extending = 0
  inTree : k = topBlock ∨ ∃ n, (k, some n) ∈ L.nodes

structure Grown (ppc ppc' : Ppctx) (k : ℕ) (L F : Blocks) (m : List (ℕ × Str)) : Prop where
  added : Added ppc.heap ppc.next ppc'.heap ppc'.next k L F
  cur : ppc'.cur = ppc.cur
  lev : ppc'.lev = ppc.lev
  extending : ppc'.extending = ppc.extending
  out : ppc'.out = ppc.out ++ marksText m

/-- The document may stand where `lev` blocks are open and the tree is `L`. -/
def Stands (lev : ℕ) (L : Blocks) (d : Doc) : Prop := d.Outside lev ∧ (keys L ++ d.keys).Nodup

structure Inlined (d : Doc) (F : Blocks) : Prop where
  keys : keys F = d.keys
  renders : Renders d.tokens (printed F)

section
variable {env : Env} {inc : Str → Ppctx → Option Ppctx} {file name : Str} {ppc ppc' ppc'' : Ppctx}
    {L F G B : Blocks}
  {m m' : List (ℕ × Str)} {k lev : ℕ} {d body rest : Doc} {steps inner : List Step}

theorem marksText_append (m m' : List (ℕ × Str)) :
    marksText (m ++ m') = marksText m ++ marksText m' := List.flatMap_append

theorem Grown.refl (h : Base ppc L k) : Grown ppc ppc k L .nil [] :=
  ⟨Added.refl h.reading.live k, rfl, rfl, rfl, (List.append_nil _).symm⟩

theorem Grown.trans (h : Grown ppc ppc' k L F m) (h' : Grown ppc' ppc'' k (put L k F) G m')
    (hb : Base ppc L k) :
    Grown ppc ppc'' k L (F.append G) (m ++ m') where
  added := h.added.trans h'.added hb.reading.live.addrs hb.reading.place hb.reading.lt
  cur := h'.cur.trans h.cur
  lev := h'.lev.trans h.lev
  extending := h'.extending.trans h.extending
  out := by rw [h'.out, h.out, marksText_append, List.append_assoc]

theorem Base.grown (h : Base ppc L k) (hg : Grown ppc ppc' k L F m) : Base ppc' (put L k F) k where
  reading :=
    { cur := hg.cur.trans h.reading.cur
      live := hg.added.live
      place := place_put h.reading.live.addrs h.reading.place F
      lower := h.reading.lower.trans hg.added.next_le
      lt := Nat.lt_of_lt_of_le h.reading.lt hg.added.next_le
      inside := Or.inl (hg.extending.trans h.extending) }
  extending := hg.extending.trans h.extending
  inTree := by
    rcases h.inTree with htop | ⟨n, hn⟩
    · exact Or.inl htop
    · have hperm := nodes_put h.reading.live.addrs h.inTree F
      exact Or.inr ⟨n, hperm.symm.subset (List.mem_append_left _ hn)⟩

/-- The names in the tree. -/
theorem Base.keys_put (h : Base ppc L k) (F : Blocks) :
    (keys (put L k F)).Perm (keys L ++ keys F) := by
  have hperm := keys_perm (nodes_put h.reading.live.addrs h.inTree F)
  rw [List.filterMap_append, List.map_append] at hperm
  exact hperm

/-- What is left of a document, once the blocks `F` in front of it have been added. -/
theorem Base.stands_rest (h : Base ppc L k) (F : Blocks) (d : Doc) (lev : ℕ) :
    Stands lev (put L k F) d ↔ d.Outside lev ∧ (keys L ++ (keys F ++ d.keys)).Nodup := by
  unfold Stands
  rw [((h.keys_put F).append_right d.keys).nodup_iff, List.append_assoc]

theorem Base.text (h : Base ppc L k) (s : Str) :
    ∃ ppc', Event.run ppc (.text s) = some ppc' ∧ Grown ppc ppc' k L (.text ppc.next s .nil) [] ∧
      ∀ d, Stands ppc'.lev (put L k (.text ppc.next s .nil)) d ↔ Stands ppc.lev L d := by
  obtain ⟨ppc', hrun, hsame, hadded⟩ := text_step h.reading s
  refine ⟨ppc', hrun, ⟨hadded, hsame.cur, hsame.lev, hsame.extending,
    hsame.out.trans (List.append_nil _).symm⟩, fun d => ?_⟩
  rw [h.stands_rest, hsame.lev]
  rfl

theorem Base.entered (h : Base ppc L k) (fullpath : Str) : Base (ppc.entered fullpath) L k :=
  ⟨⟨h.reading.cur, h.reading.live, h.reading.place, h.reading.lower, h.reading.lt,
    h.reading.inside⟩, h.extending, h.inTree⟩

/-- An included file has been read. -/
theorem Grown.included {fullpath : Str} (h : Grown (ppc.entered fullpath) ppc' k L F m)
    (codeLine : ℕ) (file : Str) :
    Grown ppc (ppc'.print (lineMark codeLine file)) k L F
    ((1, fullpath) :: (m ++ [(codeLine, file)])) where
  added := h.added
  cur := h.cur
  lev := h.lev
  extending := h.extending
  out := by
    change ppc'.out ++ lineMark codeLine file = _
    rw [h.out]
    simp only [Ppctx.entered, Ppctx.print, marksText, List.flatMap_cons, List.flatMap_append,
      List.flatMap_nil,
      List.append_nil, List.append_assoc]

/-- A name that is in the tree is an error. -/
theorem Base.block_none (h : Base ppc L k) (hname : foldCase name ∈ keys L) :
    Event.run ppc (.block name) = none := by
  have hnext : 2 ≤ ppc.next + 1 := h.reading.lower.trans (Nat.le_succ _)
  have hlive := h.reading.live.create h.reading.lower ⟨some name, [], none, none, []⟩
  have hfind := (hlive.find_none hnext).not.mpr (not_not_intro hname)
  change processDirectiveBlock ppc name = none
  unfold processDirectiveBlock
  simp only [kblockCreate, Ppctx.find, h.extending, if_pos]
  split
  · rfl
  next hnone => exact absurd hnone hfind

/-- A new block becomes the current one. -/
theorem Base.block (h : Base ppc L k) (hname : foldCase name ∉ keys L) :
    ∃ ppc₁, Event.run ppc (.block name) = some ppc₁ ∧ Opened ppc ppc₁ ppc.next ∧
      Added ppc.heap ppc.next ppc₁.heap ppc₁.next k L (.block ppc.next name .nil .nil) ∧
        Base ppc₁ (put L k (.block ppc.next name .nil .nil)) ppc.next := by
  have hin : (Event.block name).InPlace ppc := by
    have hout : ¬ (ppc.lev = 0 ∧ ppc.extending ≠ 0) := fun he => he.2 h.extending
    simp only [Event.InPlace, if_neg hout]
    exact (h.reading.live.find_none h.reading.lower).mpr hname
  obtain ⟨ppc₁, hopen, ho, -, hleaf⟩ := block_step h.reading hin
  have hext : ppc₁.extending = 0 := by rw [ho.extending, if_pos h.extending]
  have hnodes := nodes_put h.reading.live.addrs h.inTree (.block ppc.next name .nil .nil)
  have hmem : (ppc.next, some name) ∈ (put L k (.block ppc.next name .nil .nil)).nodes :=
    hnodes.symm.subset (List.mem_append_right _ (by simp [Forest.nodes]))
  refine ⟨ppc₁, hopen, ho, hleaf,
    ⟨ho.cur, hleaf.live, Or.inr (Or.inl ⟨name, hmem⟩), ?_, ?_, Or.inl hext⟩, hext,
    Or.inr ⟨name, hmem⟩⟩
  · exact h.reading.lower.trans hleaf.next_le
  · exact hleaf.upper _ (by simp)

/-- A block with the content that it has got is closed. -/
theorem Base.endblock {ppc₁ ppc₂ : Ppctx} {close : Option Str} (h : Base ppc L k)
    (ho : Opened ppc ppc₁ ppc.next)
    (hleaf : Added ppc.heap ppc.next ppc₁.heap ppc₁.next k L (.block ppc.next name .nil .nil))
    (hg : Grown ppc₁ ppc₂ ppc.next (put L k (.block ppc.next name .nil .nil)) B m)
    (hclose : ∀ n ∈ close, strcasecmpEq n name = true) :
    ∃ ppc₃, Event.run ppc₂ (.endblock close) = some ppc₃ ∧
    Grown ppc ppc₃ k L (.block ppc.next name B .nil) m := by
  have hc : ppc.next ∉ L.addrs := h.reading.live.next_not_mem
  have htop : ppc.next ≠ topBlock := Nat.ne_of_gt (top_lt h.reading.lower)
  have hwhole := hleaf.inner hg.added h.reading.live.addrs h.reading.place h.reading.lt hc htop
  obtain ⟨⟨hname, hparent, -⟩, -, -⟩ := hwhole.rep
  have hlev : ppc₂.lev = ppc.lev + 1 := hg.lev.trans ho.lev
  have hext : ppc₂.extending = 0 := by rw [hg.extending, ho.extending, if_pos h.extending]
  refine ⟨_, endblock_step (hg.cur.trans ho.cur) hname hparent (by omega) hclose, hwhole,
    ?_, ?_, ?_, ?_⟩
  · rw [hext]
    exact h.reading.cur.symm
  · change ppc₂.lev - 1 = ppc.lev
    omega
  · change ppc₂.extending - 1 = ppc.extending
    rw [hext, h.extending]
  · change ppc₂.out = _
    rw [hg.out, ho.out]

theorem Stands.fresh (h : Stands lev L (.block name body rest)) : foldCase name ∉ keys L :=
  fun hmem => (List.nodup_append'.mp h.2).2.2 hmem List.mem_cons_self

/-- The content of a block, when that has been opened. -/
theorem Base.stands_body {ppc₁ : Ppctx} (h : Base ppc L k) (hlev : ppc₁.lev = ppc.lev + 1)
    (hstands : Stands ppc.lev L (.block name body rest)) :
    Stands ppc₁.lev (put L k (.block ppc.next name .nil .nil)) body := by
  rw [h.stands_rest, hlev]
  refine ⟨hstands.1.1, hstands.2.sublist (List.Sublist.append_left ?_ _)⟩
  exact (List.sublist_append_left body.keys rest.keys).cons_cons _

/-- What follows a block. -/
theorem Base.stands_after (h : Base ppc L k) (hB : keys B = body.keys) :
    Stands lev (put L k (.block ppc.next name B .nil)) rest ↔
      rest.Outside lev ∧ (keys L ++ (Doc.block name body rest).keys).Nodup := by
  rw [h.stands_rest, keys_block, keys_nil, List.append_nil, hB]
  rfl

/-! ### Runs -/

theorem read_cons {step : Step} {ppc₁ : Ppctx} (h : ∀ inc, step.run env inc file ppc = some ppc₁)
    (steps : List Step) :
    readSteps env file (step :: steps) ppc = readSteps env file steps ppc₁ := by
  funext n
  rw [readSteps, List.foldlM_cons, h]
  rfl

theorem read_block {ppc₁ : Ppctx} {close : Option Str} (h : Event.run ppc (.block name) = some ppc₁)
    (inner steps : List Step) :
    readSteps env file (.block name :: (inner ++ .endblock close :: steps)) ppc = fun n =>
      (readSteps env file inner ppc₁ n).bind fun ppc₂ =>
        (Event.run ppc₂ (.endblock close)).bind fun ppc₃ => readSteps env file steps ppc₃ n := by
  rw [read_cons fun _ => by exact h]
  funext n
  rw [readSteps, List.foldlM_append]
  rfl

theorem read_included {fullpath : Str} {calls : List (ℕ × Call)}
    (h : env.files fullpath = some calls) (codeLine : ℕ) (steps : List Step) :
    readSteps env file (.included codeLine fullpath :: steps) ppc = fun n =>
      (preprocess env n fullpath (ppc.entered fullpath)).bind fun ppc₁ =>
        readSteps env file steps (ppc₁.print (lineMark codeLine file)) n := by
  have hsome : ¬ (env.files fullpath).isNone = true := by
    rw [h]
    exact Bool.false_ne_true
  funext n
  rw [readSteps, List.foldlM_cons, Step.run, if_neg hsome, Option.bind_eq_bind, Option.bind_map]
  rfl

/-- A file is read to its end outside every block. -/
theorem file_ends {calls : List (ℕ × Call)} (hfile : env.files file = some calls)
    (hsteps : fileSteps env file calls = some steps) (h : Ends (readSteps env file steps ppc) ppc')
    (hlev : ppc'.lev = 0) : Ends (fun n => preprocess env n file ppc) ppc' := by
  have hcheck : Ends (fun _ => if ppc'.lev ≠ 0 then none else some ppc') ppc' := by
    rw [if_neg (not_not_intro hlev)]
    exact Ends.const ppc'
  exact (h.bind hcheck).succ fun n => file_run hfile hsteps n ppc

/-- A file that ends in a block is an error, also when that is a block of another file. -/
theorem file_unclosed {calls : List (ℕ × Call)} (hfile : env.files file = some calls)
    (hsteps : fileSteps env file calls = some steps) (h : Ends (readSteps env file steps ppc) ppc')
    (hlev : ppc'.lev ≠ 0) :
    Fails (fun n => preprocess env n file ppc) := by
  have hcheck : Fails (fun _ => if ppc'.lev ≠ 0 then none else some ppc') := by
    rw [if_pos hlev]
    exact Fails.const
  exact (h.bind_fails hcheck).succ fun n => file_run hfile hsteps n ppc

theorem file_fails {calls : List (ℕ × Call)} (hfile : env.files file = some calls)
    (hsteps : fileSteps env file calls = some steps) (h : Fails (readSteps env file steps ppc)) :
    Fails (fun n => preprocess env n file ppc) :=
  (h.bind _).succ fun n => file_run hfile hsteps n ppc

end

section
variable {env : Env} {file : Str} {ppc : Ppctx} {L : Blocks} {k : ℕ} {d : Doc} {steps : List Step}

/-- A document that may stand here is added to the current block. -/
theorem doc_ends (hs : Spelt env file d steps) (h : Base ppc L k) (hstands : Stands ppc.lev L d) :
    ∃ ppc' F m, Ends (readSteps env file steps ppc) ppc' ∧ Grown ppc ppc' k L F m ∧ Inlined d F ∧
    (d.Single → m = []) := by
  induction hs generalizing ppc L k with
  | nil => exact ⟨ppc, .nil, [], Ends.const ppc, Grown.refl h, ⟨rfl, .nil⟩, fun _ => rfl⟩
  | @html file s d steps hs ih =>
    obtain ⟨ppc₁, hrun, hg, hrest⟩ := h.text s
    obtain ⟨ppc', F, m, hends, hg', hF, hsingle⟩ := ih (h.grown hg) ((hrest d).mpr hstands)
    rw [read_cons fun _ => by exact hrun]
    exact ⟨ppc', .text ppc.next s F, m, hends, hg.trans hg' h,
      ⟨hF.keys, (renders_bytes s).append hF.renders⟩, hsingle⟩
  | @code file buf codeLine cmd d steps hs ih =>
    obtain ⟨ppc₁, hrun, hg, hrest⟩ := h.text (codeText file codeLine cmd buf)
    obtain ⟨ppc', F, m, hends, hg', hF, hsingle⟩ := ih (h.grown hg) ((hrest d).mpr hstands)
    rw [read_cons fun _ => by exact hrun]
    exact ⟨ppc', .text ppc.next _ F, m, hends, hg.trans hg' h, ⟨hF.keys, .code hF.renders⟩, hsingle⟩
  | @block file name close body d inner steps hclose hbody hs ihb ih =>
    obtain ⟨ppc₁, hopen, ho, hleaf, hb₁⟩ := h.block hstands.fresh
    obtain ⟨ppc₂, B, m, hends₂, hg₂, hB, hsingleB⟩ := ihb hb₁ (h.stands_body ho.lev hstands)
    obtain ⟨ppc₃, hend, hg₃⟩ := h.endblock ho hleaf hg₂ hclose
    have hafter : Stands ppc₃.lev (put L k (.block ppc.next name B .nil)) d := by
      rw [hg₃.lev]
      exact (h.stands_after hB.keys).mpr ⟨hstands.1.2, hstands.2⟩
    obtain ⟨ppc', F, m', hends, hg', hF, hsingle⟩ := ih (h.grown hg₃) hafter
    rw [read_block hopen]
    refine ⟨ppc', .block ppc.next name B F, m ++ m', hends₂.bind ?_, hg₃.trans hg' h,
      ⟨?_, .block ?_⟩, fun hd => ?_⟩
    · rw [hend]
      exact hends
    · rw [keys_block, hB.keys, hF.keys]
      rfl
    · exact hB.renders.append (.endblock hF.renders)
    · rw [hsingleB hd.1, hsingle hd.2]
      rfl
  | @included file fullpath codeLine calls content d own steps hfile hown hcontent hs ihc ih =>
    obtain ⟨⟨hlev, houtc, hout⟩, hnodup⟩ := hstands
    have hstandsc : Stands (ppc.entered fullpath).lev L content :=
      ⟨houtc, hnodup.sublist (List.Sublist.append_left (List.sublist_append_left _ _) _)⟩
    obtain ⟨ppc₁, B, m, hends₁, hg₁, hB, -⟩ := ihc (h.entered fullpath) hstandsc
    have hread := file_ends hfile hown hends₁ (hg₁.lev.trans hlev)
    have hg₂ := hg₁.included codeLine file
    have hafter : Stands (ppc₁.print (lineMark codeLine file)).lev (put L k B) d := by
      rw [h.stands_rest, hg₂.lev, hB.keys]
      exact ⟨hout, hnodup⟩
    obtain ⟨ppc', F, m', hends, hg', hF, -⟩ := ih (h.grown hg₂) hafter
    rw [read_included hfile]
    refine ⟨ppc', B.append F, _, hread.bind hends, hg₂.trans hg' h, ⟨?_, ?_⟩, fun hd => hd.elim⟩
    · rw [keys_append, hB.keys, hF.keys]
      rfl
    · rw [printed_append]
      exact hB.renders.append hF.renders

/-- A document that may not stand here is an error. -/
theorem doc_fails (hs : Spelt env file d steps) (h : Base ppc L k) (hno : ¬ Stands ppc.lev L d) :
    Fails (readSteps env file steps ppc) := by
  induction hs generalizing ppc L k with
  | nil =>
    refine absurd ⟨trivial, ?_⟩ hno
    rw [Doc.keys, List.append_nil]
    exact h.reading.live.keys
  | @html file s d steps hs ih =>
    obtain ⟨ppc₁, hrun, hg, hrest⟩ := h.text s
    rw [read_cons fun _ => by exact hrun]
    exact ih (h.grown hg) ((hrest d).not.mpr hno)
  | @code file buf codeLine cmd d steps hs ih =>
    obtain ⟨ppc₁, hrun, hg, hrest⟩ := h.text (codeText file codeLine cmd buf)
    rw [read_cons fun _ => by exact hrun]
    exact ih (h.grown hg) ((hrest d).not.mpr hno)
  | @block file name close body d inner steps hclose hbody hs ihb ih =>
    by_cases hname : foldCase name ∈ keys L
    · refine ⟨0, fun n _ => ?_⟩
      rw [readSteps, List.foldlM_cons, Step.run, h.block_none hname]
      rfl
    obtain ⟨ppc₁, hopen, ho, hleaf, hb₁⟩ := h.block hname
    rw [read_block hopen]
    by_cases hstands : Stands ppc₁.lev (put L k (.block ppc.next name .nil .nil)) body
    · -- the block is closed, and what follows is the error
      obtain ⟨ppc₂, B, m, hends₂, hg₂, hB, -⟩ := doc_ends hbody hb₁ hstands
      obtain ⟨ppc₃, hend, hg₃⟩ := h.endblock ho hleaf hg₂ hclose
      refine hends₂.bind_fails ?_
      rw [hend]
      refine ih (h.grown hg₃) fun hafter => hno ?_
      rw [hg₃.lev, h.stands_after hB.keys] at hafter
      exact ⟨⟨ho.lev ▸ hstands.1, hafter.1⟩, hafter.2⟩
    · exact (ihb hb₁ hstands).bind _
  | @included file fullpath codeLine calls content d own steps hfile hown hcontent hs ihc ih =>
    rw [read_included hfile]
    have henter := h.entered fullpath
    by_cases hstands : Stands (ppc.entered fullpath).lev L content
    · obtain ⟨ppc₁, B, m, hends₁, hg₁, hB, -⟩ := doc_ends hcontent henter hstands
      by_cases hlev : ppc.lev = 0
      · have hg₂ := hg₁.included codeLine file
        refine (file_ends hfile hown hends₁ (hg₁.lev.trans hlev)).bind_fails
          (ih (h.grown hg₂) fun hafter => hno ?_)
        rw [h.stands_rest, hg₂.lev, hB.keys] at hafter
        exact ⟨⟨hlev, hstands.1, hafter.1⟩, hafter.2⟩
      · -- the block around the directive is still open at the end of the file
        have hopen : ppc₁.lev ≠ 0 := by
          rw [hg₁.lev]
          exact hlev
        exact (file_unclosed hfile hown hends₁ hopen).bind _
    · exact (file_fails hfile hown (ihc henter hstands)).bind _

/-! ## Composition -/

theorem start_base : Base ppctxCreate .nil topBlock where
  reading :=
    { cur := rfl
      live := ⟨trivial, rfl, List.nodup_nil, by simp, by simp, List.nodup_nil⟩
      place := Or.inl rfl
      lower := le_refl 2
      lt := by decide
      inside := Or.inl rfl }
  extending := rfl
  inTree := Or.inl rfl

theorem doc_output (h : Holds env file d) (hout : d.Outside 0) (hnodup : d.keys.Nodup) :
    ∃ m F, Ends (fun n => preprocessed env n file) (marksText m ++ printed F) ∧ Inlined d F ∧
    (d.Single → m = []) := by
  obtain ⟨calls, steps, hfile, hsteps, hs⟩ := h
  obtain ⟨ppc, F, m, hends, hg, hF, hsingle⟩ := doc_ends hs start_base ⟨hout, hnodup⟩
  have hread := file_ends hfile hsteps hends hg.lev
  have hput : put .nil topBlock F = F := rfl
  have hlive : Live ppc.heap ppc.next F := hput ▸ hg.added.live
  have hprint : ppctxPrint ppc = some (printed F) := hlive.print_eq hg.added.next_le
  have hwritten : ppc.out = marksText m := hg.out
  refine ⟨m, F, hread.bind ?_, hF, hsingle⟩
  rw [hprint, hwritten]
  exact Ends.const _

theorem doc_error (h : Holds env file d) (hno : ¬ (d.Outside 0 ∧ d.keys.Nodup)) :
    Fails (fun n => preprocessed env n file) := by
  obtain ⟨calls, steps, hfile, hsteps, hs⟩ := h
  exact (file_fails hfile hsteps (doc_fails hs start_base hno)).bind _

/-- A file comes out as the single one with the included files in their places exactly when
every file is included outside of all blocks and no name is used for two blocks. The nesting
level at the end of an included file counts the blocks around the directive as well. -/
theorem includes_compose_iff {env₁ : Env} {single : Str} {d₁ : Doc} (h : Holds env file d)
    (h₁ : Holds env₁ single d₁) (hsingle : d₁.Single) (htokens : d₁.tokens = d.tokens) :
    Composes env file env₁ single ↔ d.Outside 0 ∧ d.keys.Nodup := by
  constructor
  · rintro ⟨m, a, b, hends, -, -⟩
    by_contra hno
    exact hends.not_fails (doc_error h hno)
  · rintro ⟨hout, hnodup⟩
    have hnodup₁ : d₁.keys.Nodup := by rwa [keys_eq, htokens, ← keys_eq]
    obtain ⟨m, F, hends, hF, -⟩ := doc_output h hout hnodup
    obtain ⟨m₁, F₁, hends₁, hF₁, hm₁⟩ := doc_output h₁ (hsingle.outside 0) hnodup₁
    rw [hm₁ hsingle] at hends₁
    exact ⟨m, printed F, printed F₁, hends, hends₁, d.tokens, hF.renders, htokens ▸ hF₁.renders⟩

end

/-- A file that is included inside a block, one that is included in front of it, and both
files with the included one in its place. -/
def pageFiles : Env := filesOf [
  (bytes "t/part", [(1, .html (bytes "x"))]),
  (bytes "t/inside", [(1, .code 64 (bytes " block \"a\" ")),
    (1, .code 64 (bytes " include \"part\" ")),
    (1, .code 64 (bytes " endblock "))]),
  (bytes "t/front", [(1, .code 64 (bytes " include \"part\" ")),
    (1, .code 64 (bytes " block \"a\" ")),
    (1, .code 64 (bytes " endblock "))]),
  (bytes "t/inside1", [(1, .code 64 (bytes " block \"a\" ")), (1, .html (bytes "x")),
    (1, .code 64 (bytes " endblock "))]),
  (bytes "t/front1", [(1, .html (bytes "x")), (1, .code 64 (bytes " block \"a\" ")),
    (1, .code 64 (bytes " endblock "))])]

def partDoc : Doc := .html (bytes "x") .nil

def insideDoc : Doc := .block (bytes "a") (.included (bytes "t/part") partDoc .nil) .nil

def frontDoc : Doc := .included (bytes "t/part") partDoc (.block (bytes "a") .nil .nil)

theorem part_file : pageFiles.files (bytes "t/part") = some [(1, .html (bytes "x"))] := rfl

theorem inside_holds : Holds pageFiles (bytes "t/inside") insideDoc :=
  ⟨_, [.block (bytes "a"), .included 1 (bytes "t/part"), .endblock none], rfl, rfl,
    .block (by simp) (.included part_file rfl (.html .nil) .nil) .nil⟩

theorem front_holds : Holds pageFiles (bytes "t/front") frontDoc :=
  ⟨_, [.included 1 (bytes "t/part"), .block (bytes "a"), .endblock none], rfl, rfl,
    .included part_file rfl (.html .nil) (.block (by simp) .nil .nil)⟩

theorem inside1_holds : Holds pageFiles (bytes "t/inside1") (.block (bytes "a") partDoc .nil) :=
  ⟨_, [.block (bytes "a"), .html (bytes "x"), .endblock none], rfl, rfl,
    .block (by simp) (.html .nil) .nil⟩

theorem front1_holds :
    Holds pageFiles (bytes "t/front1") (.html (bytes "x") (.block (bytes "a") .nil .nil)) :=
  ⟨_, [.html (bytes "x"), .block (bytes "a"), .endblock none], rfl, rfl,
    .html (.block (by simp) .nil .nil)⟩

theorem includes_compose_front :
    Composes pageFiles (bytes "t/front") pageFiles (bytes "t/front1") :=
  (includes_compose_iff front_holds front1_holds ⟨trivial, trivial⟩ rfl).mpr
    ⟨⟨rfl, trivial, trivial, trivial⟩, List.nodup_singleton _⟩

/-- `<%@ block "a" %><%@ include "part" %><%@ endblock %>` is an error. -/
theorem include_inside_block :
    Holds pageFiles (bytes "t/inside") insideDoc ∧
    Holds pageFiles (bytes "t/inside1") (.block (bytes "a") partDoc .nil) ∧
      insideDoc.tokens = (Doc.block (bytes "a") partDoc .nil).tokens ∧ insideDoc.keys.Nodup ∧
        Fails (fun n => preprocessed pageFiles n (bytes "t/inside")) ∧
          ¬ Composes pageFiles (bytes "t/inside") pageFiles (bytes "t/inside1") := by
  have hno : ¬ (insideDoc.Outside 0 ∧ insideDoc.keys.Nodup) :=
    fun h => absurd h.1.1.1 (Nat.succ_ne_zero 0)
  have hfails := doc_error inside_holds hno
  refine ⟨inside_holds, inside1_holds, rfl, List.nodup_singleton _, hfails, ?_⟩
  rintro ⟨m, a, b, hends, -, -⟩
  exact hends.not_fails hfails

section
variable {env : Env} {file : Str}

/-! ## Sets of files -/

inductive Balanced : List Step → Prop
  | nil : Balanced []
  | html {s : Str} {steps : List Step} (h : Balanced steps) : Balanced (.html s :: steps)
  | code {codeLine : ℕ} {cmd : Byte} {buf : Str} {steps : List Step} (h : Balanced steps) :
      Balanced (.code codeLine cmd buf :: steps)
  | block {name : Str} {close : Option Str} {inner steps : List Step}
    (hclose : ∀ c ∈ close, strcasecmpEq c name = true)
      (hbody : Balanced inner) (h : Balanced steps) :
        Balanced (.block name :: (inner ++ .endblock close :: steps))
  | included {codeLine : ℕ} {fullpath : Str} {steps : List Step} (h : Balanced steps) :
      Balanced (.included codeLine fullpath :: steps)

def Includes (env : Env) (file fullpath : Str) : Prop :=
  ∃ calls steps codeLine, env.files file = some calls ∧ fileSteps env file calls = some steps ∧
    Step.included codeLine fullpath ∈ steps

theorem spelt_of_balanced {steps : List Step} (hb : Balanced steps)
    (hincluded : ∀ codeLine fullpath, Step.included codeLine fullpath ∈ steps → ∃ d,
      Holds env fullpath d) :
    ∃ d, Spelt env file d steps := by
  induction hb with
  | nil => exact ⟨.nil, .nil⟩
  | html h ih =>
    obtain ⟨d, hd⟩ := ih fun l fullpath hm => hincluded l fullpath (List.mem_cons_of_mem _ hm)
    exact ⟨_, .html hd⟩
  | code h ih =>
    obtain ⟨d, hd⟩ := ih fun l fullpath hm => hincluded l fullpath (List.mem_cons_of_mem _ hm)
    exact ⟨_, .code hd⟩
  | block hclose hbody h ihb ih =>
    obtain ⟨body, hbody⟩ := ihb fun l fullpath hm => hincluded l fullpath (by simp [hm])
    obtain ⟨d, hd⟩ := ih fun l fullpath hm => hincluded l fullpath (by simp [hm])
    exact ⟨_, .block hclose hbody hd⟩
  | included h ih =>
    obtain ⟨d, hd⟩ := ih fun l fullpath hm => hincluded l fullpath (List.mem_cons_of_mem _ hm)
    obtain ⟨content, calls, own, hfile, hown, hcontent⟩ := hincluded _ _ List.mem_cons_self
    exact ⟨_, .included hfile hown hcontent hd⟩

/-- Every file of a finite set without cycles holds a document. -/
theorem holds_of_acyclic (S : Finset Str)
    (hS : ∀ file ∈ S, ∃ calls steps, env.files file = some calls ∧
      fileSteps env file calls = some steps ∧ Balanced steps ∧ ∀ codeLine fullpath,
        Step.included codeLine fullpath ∈ steps → fullpath ∈ S)
    (hacyclic : ∀ file ∈ S, ¬ Relation.TransGen (Includes env) file file) :
    ∀ file ∈ S, ∃ d, Holds env file d := by
  let below : S → S → Prop := fun a b => Relation.TransGen (Includes env) b a
  have htrans : IsTrans S below := ⟨fun a b c hab hbc => Relation.TransGen.trans hbc hab⟩
  have hirrefl : Std.Irrefl below := ⟨fun a ha => hacyclic a a.2 ha⟩
  have hwf : WellFounded below := Finite.wellFounded_of_trans_of_irrefl below
  intro file hfile
  suffices hall : ∀ a : S, ∃ d, Holds env a d from hall ⟨file, hfile⟩
  intro a
  induction a using hwf.induction with
  | _ a ih =>
    obtain ⟨calls, steps, hcalls, hsteps, hb, hclosed⟩ := hS a a.2
    obtain ⟨d, hd⟩ := spelt_of_balanced hb fun codeLine fullpath hm =>
      ih ⟨fullpath, hclosed codeLine fullpath hm⟩
        (.single ⟨calls, steps, codeLine, hcalls, hsteps, hm⟩)
    exact ⟨d, calls, steps, hcalls, hsteps, hd⟩

end

end Klone.Trans
