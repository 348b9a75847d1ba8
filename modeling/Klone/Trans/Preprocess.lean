import Klone.Io.Source
import Klone.Response.Header
import Klone.Trans.Parser

/-! # The preprocessor of pages

A page is read into a tree of blocks that is printed when the page has been read. A
template that extends another one changes the tree that the other one has left. Blocks
are addresses in a heap, because the functions keep pointers to them.
-/
namespace Klone.Trans
open Klone.Page (decimal)

structure Kblock where
  name : Option Str
  ubuf : Str
  parent : Option ℕ
  ancestor : Option ℕ
  children : List ℕ
  deriving DecidableEq, Repr

/-- `ppctx_t`, with the heap of the blocks and what has been written to `p->out`. -/
structure Ppctx where
  heap : ℕ → Kblock
  next : ℕ
  cur : Option ℕ
  lev : ℕ
  extending : ℕ
  depend : List Str
  out : Str

/-- `ppc->top`, the first block that `ppctx_create` creates. -/
def topBlock : ℕ := 0

def deadBlock : ℕ := 1

def Ppctx.modify (ppc : Ppctx) (block : ℕ) (f : Kblock → Kblock) : Ppctx :=
  { ppc with heap := Function.update ppc.heap block (f (ppc.heap block)) }

def kblockCreate (ppc : Ppctx) (name : Option Str) (buf : Str) : Ppctx :=
  { ppc with
    heap := Function.update ppc.heap ppc.next
      { name := name, ubuf := buf, parent := none, ancestor := none, children := [] }
    next := ppc.next + 1 }

def kblockPushChild (ppc : Ppctx) (parent child : ℕ) : Ppctx :=
  (ppc.modify parent fun b => { b with children := b.children ++ [child] }).modify child fun b =>
    { b with parent := some parent }

def ppctxCreate : Ppctx :=
  let block : Kblock := { name := none, ubuf := [], parent := none, ancestor := none, children := [] }
  { heap := Function.update (fun _ => block) deadBlock { block with parent := some topBlock }
    next := 2, cur := some topBlock, lev := 0, extending := 0, depend := [], out := [] }

/-- The block and its place among the children of its parent. The tree is less deep than
there are blocks, and `fuel` is their number. -/
def kblockGetByName (heap : ℕ → Kblock) (name : Str) : ℕ → ℕ → Option (ℕ × ℕ)
  | 0, _ => none
  | fuel + 1, parent => (heap parent).children.zipIdx.findSome? fun c =>
      if (heap c.1).name.any (strcasecmpEq · name) then some c
      else kblockGetByName heap name fuel c.1

/-- The block of this name in the tree that is printed. -/
def Ppctx.find (ppc : Ppctx) (name : Str) : Option (ℕ × ℕ) :=
  kblockGetByName ppc.heap name ppc.next topBlock

def ppctxPrintKblock (heap : ℕ → Kblock) : ℕ → ℕ → Option Str
  | 0, _ => none
  | fuel + 1, block => match (heap block).name with
    | none => some (heap block).ubuf
    | some _ => ((heap block).children.mapM (ppctxPrintKblock heap fuel)).map List.flatten

def ppctxPrint (ppc : Ppctx) : Option Str :=
  ((ppc.heap topBlock).children.mapM (ppctxPrintKblock ppc.heap ppc.next)).map List.flatten

/-! ## Directives -/

def processDirectiveBlock (ppc : Ppctx) (name : Str) : Option Ppctx :=
  let block := ppc.next
  let ppc : Ppctx := { kblockCreate ppc (some name) [] with lev := ppc.lev + 1 }
  if ppc.extending = 0 then
    match ppc.find name with
    | some _ => none
    | none => ppc.cur.map fun cur => { kblockPushChild ppc cur block with cur := some block }
  else
    let ppc : Ppctx := { ppc with extending := ppc.extending + 1 }
    match ppc.find name with
    | none =>
      if ppc.cur = some topBlock then some { kblockPushChild ppc deadBlock block with
        cur := some block }
      else if ppc.lev ≠ 0 then ppc.cur.map fun cur => { kblockPushChild ppc cur block with
        cur := some block }
      else some { ppc with cur := some block }
    | some (old, idx) =>
      (ppc.heap old).parent.map fun parent =>
        let ppc := ppc.modify block fun b => { b with ancestor := some old, parent := some parent }
        let ppc := ppc.modify parent fun b => { b with
          children := (b.children.insertIdx idx block).erase old }
        { ppc with cur := some block }

def processDirectiveEndblock (ppc : Ppctx) (name : Option Str) : Option Ppctx :=
  ppc.cur.bind fun cur =>
    if ppc.lev = 0 then none
    else if name.any (fun name => !(ppc.heap cur).name.any (strcasecmpEq name)) then none
    else
      let ppc : Ppctx := { ppc with lev := ppc.lev - 1, cur := (ppc.heap cur).parent }
      if ppc.extending = 0 then some ppc
      else
        let ppc : Ppctx := { ppc with extending := ppc.extending - 1 }
        some (if ppc.extending = 1 then { ppc with cur := some topBlock } else ppc)

def processDirectiveInherit (ppc : Ppctx) : Option Ppctx :=
  ppc.cur.bind fun cur => (ppc.heap cur).ancestor.map fun anc =>
    ((ppc.heap anc).children.foldl (fun ppc b => kblockPushChild ppc cur b) ppc).modify anc fun b =>
      { b with children := [] }

/-- What the preprocessor finds: the calls of the parser for a file, with the line of each,
and the size of the buffers for file names. -/
structure Env where
  files : Str → Option (List (ℕ × Call))
  filenameMax : ℕ

variable (env : Env)

def includeFileFullPath (file incFile : Str) : Option Str :=
  let dir := (file.reverse.dropWhile (· ≠ 47)).reverse
  if dir = [] then none
  else if env.filenameMax ≤ (dir ++ incFile).length then none
  else some (dir ++ incFile)

/-- The `#line` code around an included file. -/
def lineMark (line : ℕ) (file : Str) : Str :=
  bytes "<% #line " ++ decimal line ++ bytes " \"" ++ file ++ bytes "\" \n %>"

def Ppctx.print (ppc : Ppctx) (s : Str) : Ppctx := { ppc with out := ppc.out ++ s }

/-- `inc` is the preprocessor for the file that is included. -/
def processDirectiveInclude (inc : Str → Ppctx → Option Ppctx) (file : Str) (codeLine : ℕ)
    (ppc : Ppctx) (incFile : Str) : Option Ppctx :=
  (includeFileFullPath env file incFile).bind fun fullpath =>
    if (env.files fullpath).isNone then none
    else (inc fullpath (ppc.print (lineMark 1 fullpath))).map fun ppc =>
      ppc.print (lineMark codeLine file)

/-- One call of `strtok_r`: the token, and what is left. -/
def strtokR (delim : Byte → Bool) (s : Str) : Option (Str × Str) :=
  let s := s.dropWhile delim
  if s = [] then none else some (s.takeWhile (!delim ·), (s.dropWhile (!delim ·)).tail)

def processDirective (inc : Str → Ppctx → Option Ppctx) (file : Str) (codeLine : ℕ) (ppc : Ppctx)
    (buf : Str) :
    Option Ppctx :=
  (strtokR isblank (cstr buf)).bind fun tok =>
    let arg := (strtokR (fun c => isblank c || c == 34) tok.2).map Prod.fst
    if strcasecmpEq tok.1 (bytes "include") then
      arg.bind fun name => (includeFileFullPath env file name).bind fun fullpath =>
        processDirectiveInclude env inc file codeLine { ppc with
          depend := ppc.depend ++ [fullpath] } name
    else if strcasecmpEq tok.1 (bytes "extends") then
      arg.bind fun name =>
        if 1 < codeLine then none
        else (includeFileFullPath env file name).bind fun fullpath =>
          (processDirectiveInclude env inc file codeLine { ppc with
            depend := ppc.depend ++ [fullpath] } name).bind
            fun ppc => if ppc.lev ≠ 0 then none
              else some { ppc with extending := ppc.extending + 1 }
    else if strcasecmpEq tok.1 (bytes "block") then arg.bind fun name =>
      processDirectiveBlock ppc name
    else if strcasecmpEq tok.1 (bytes "endblock") then processDirectiveEndblock ppc arg
    else if strcasecmpEq tok.1 (bytes "inherit") then processDirectiveInherit ppc
    else none

def LINE_BUFSZ : ℕ := 1024

/-- What repeated calls of `io_gets` read; a line has at least one byte. -/
def getLines : ℕ → Source → List Str
  | 0, _ => []
  | fuel + 1, io =>
    let r := ioGets io LINE_BUFSZ
    if r.rc.any (0 < ·) then r.data :: getLines fuel r.src else []

def parseDirective (inc : Str → Ppctx → Option Ppctx) (file : Str) (codeLine : ℕ) (ppc : Ppctx)
    (buf : Str) :
    Option Ppctx :=
  (getLines buf.length ⟨buf, false, 0⟩).foldlM (processDirective env inc file codeLine) ppc

/-! ## Callbacks of the parser -/

def cbPreHtmlBlock (ppc : Ppctx) (buf : Str) : Option Ppctx :=
  let block := ppc.next
  let ppc := kblockCreate ppc none buf
  if ppc.cur = some topBlock ∧ ppc.extending ≠ 0 then some (kblockPushChild ppc deadBlock block)
  else ppc.cur.map fun cur => kblockPushChild ppc cur block

def codeText (file : Str) (codeLine : ℕ) (cmd : Byte) (buf : Str) : Str :=
  (if cmd = 0 ∨ cmd = 61 then
    bytes "<% #line " ++ decimal codeLine ++ bytes " \"" ++ file ++ bytes "\" \n%><%" ++
      (if cmd = 61 then [61] else [])
  else
    bytes "<%" ++ [cmd] ++ bytes " #line " ++ decimal codeLine ++ bytes " \"" ++ file ++
      bytes "\" \n%><%" ++ [cmd]) ++
  cstr buf ++ bytes "%>" ++ bytes "<%" ++ [if cmd = 33 then cmd else 32] ++
    bytes " #line 0 __PG_FILE_C__ \n%>"

def cbPreCodeBlock (inc : Str → Ppctx → Option Ppctx) (file : Str) (codeLine : ℕ) (ppc : Ppctx)
    (cmd : Byte) (buf : Str) : Option Ppctx :=
  if cmd = 64 then parseDirective env inc file codeLine ppc buf
  else cbPreHtmlBlock ppc (codeText file codeLine cmd buf)

def callback (inc : Str → Ppctx → Option Ppctx) (file : Str) (ppc : Ppctx) (c : ℕ × Call) :
    Option Ppctx :=
  match c.2 with
  | .html buf => cbPreHtmlBlock ppc buf
  | .code cmd buf => cbPreCodeBlock env inc file c.1 ppc cmd buf

/-- `fuel` bounds how deep files include one another. -/
def preprocess : ℕ → Str → Ppctx → Option Ppctx
  | 0, _, _ => none
  | fuel + 1, file, ppc => (env.files file).bind fun calls =>
      (calls.foldlM (callback env (preprocess fuel) file) ppc).bind fun ppc => if ppc.lev ≠ 0 then
        none else some ppc

/-- The preprocessed file: what has been written while reading, and the tree. -/
def preprocessed (fuel : ℕ) (file : Str) : Option Str :=
  (preprocess env fuel file ppctxCreate).bind fun ppc => (ppctxPrint ppc).map (ppc.out ++ ·)

end Klone.Trans
