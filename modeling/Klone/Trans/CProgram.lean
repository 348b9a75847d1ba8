import Klone.Emb.EndToEnd
import Klone.Trans.Page
import Klone.Trans.ScriptToC
import Klone.Utils.Hexncpy

/-! # The C program of a page

What the translator writes is the text of a program: arrays and declarations at file scope,
and statements in the body of a function. The arrays have names of their own, and a C
compiler that reads the text of one finds the bytes of its content.
-/
namespace Klone.Trans
open Loop Http Klone.Page Klone.Chain

inductive Decl where
  | array (name content : Str)
  | user (text : Str)
  deriving DecidableEq

/-- A statement; what `print` prints is the value of an expression. -/
inductive Stmt where
  | write (name : Str)
  | unzip (name : Str)
  | print (expr : Str)
  | code (text : Str)
  deriving DecidableEq

structure CProgram where
  decls : List Decl
  body : List Stmt

def Decl.text : Decl → Str
  | .array name content => arrayText name content
  | .user text => text ++ bytes "\n"

def Stmt.blocks : Stmt → List Str
  | .write name => [writeCode false name]
  | .unzip name => [writeCode true name]
  | .print expr => [bytes "io_printf(out, \"%s\",", expr, bytes ");\n"]
  | .code text => [text]

def CProgram.text (hdr : Str) (ti : ScriptInfo) (u : CProgram) : Str :=
  printHeader hdr ti ++ u.decls.flatMap Decl.text ++ printCodeBlocks ti
    (u.body.flatMap Stmt.blocks) ++
    printDynamicPageBlock ti ++ printRegisterBlock ti.uri

def Decl.arrayOf (name : Str) : Decl → Option Str
  | .array name' content => if name' = name then some content else none
  | .user _ => none

def CProgram.array (u : CProgram) (name : Str) : Option Str := u.decls.findSome? (Decl.arrayOf name)

/-! ## The program of some calls -/

def contentOf (deflated : Str → Str) (comp : Bool) (buf : Str) : Str :=
  if comp then deflated buf else buf

/-- The commands that have a meaning. -/
def Call.Known : Call → Prop
  | .html _ => True
  | .code cmd _ => cmd = 0 ∨ cmd = 33 ∨ cmd = 61

instance : DecidablePred Call.Known := fun c => by
  cases c <;> unfold Call.Known <;> infer_instance

def Call.isHtml : Call → Bool
  | .html _ => true
  | .code _ _ => false

/-- Every command is known, and the names of the arrays, from number `k` on, fit. -/
def Translatable (comp : Bool) (k : ℕ) (calls : List Call) : Prop :=
  (∀ c ∈ calls, c.Known) ∧ ∀ j < calls.countP Call.isHtml, (varName comp (k + j)).length < VARNSZ

def Call.decls (content : Str → Str) (comp : Bool) (k : ℕ) : Call → List Decl
  | .html buf => [.array (varName comp k) (content buf)]
  | .code cmd buf => if cmd = 33 then [.user buf] else []

def Call.stmts (comp : Bool) (k : ℕ) : Call → List Stmt
  | .html _ => [if comp then .unzip (varName comp k) else .write (varName comp k)]
  | .code cmd buf => if cmd = 0 then [.code buf] else if cmd = 61 then [.print buf] else []

def Call.step (k : ℕ) (c : Call) : ℕ := if c.isHtml then k + 1 else k

def declsFrom (content : Str → Str) (comp : Bool) : ℕ → List Call → List Decl
  | _, [] => []
  | k, c :: calls => c.decls content comp k ++ declsFrom content comp (c.step k) calls

def stmtsFrom (comp : Bool) : ℕ → List Call → List Stmt
  | _, [] => []
  | k, c :: calls => c.stmts comp k ++ stmtsFrom comp (c.step k) calls

def programOf (content : Str → Str) (comp : Bool) (calls : List Call) : CProgram :=
  ⟨declsFrom content comp 0 calls, stmtsFrom comp 0 calls⟩

instance (comp : Bool) (k : ℕ) (calls : List Call) : Decidable (Translatable comp k calls) :=
  inferInstanceAs (Decidable (_ ∧ _))

theorem translatable_cons (comp : Bool) (k : ℕ) (c : Call) (calls : List Call) :
    Translatable comp k (c :: calls) ↔
    (c.Known ∧ (c.isHtml = true → (varName comp k).length < VARNSZ)) ∧
    Translatable comp (c.step k) calls := by
  unfold Translatable Call.step
  rw [List.forall_mem_cons, List.countP_cons]
  by_cases hc : c.isHtml = true
  · simp only [hc, if_true, forall_const]
    constructor
    · rintro ⟨⟨hknown, hall⟩, hname⟩
      refine ⟨⟨hknown, hname 0 (Nat.succ_pos _)⟩, hall, fun j hj => ?_⟩
      rw [Nat.add_assoc, Nat.add_comm 1 j]
      exact hname (j + 1) (Nat.succ_lt_succ hj)
    · rintro ⟨⟨hknown, hname⟩, hall, hrest⟩
      refine ⟨⟨hknown, hall⟩, fun j hj => ?_⟩
      cases j with
      | zero => exact hname
      | succ j =>
        rw [Nat.add_comm j 1, ← Nat.add_assoc]
        exact hrest j (Nat.lt_of_succ_lt_succ hj)
  · simp only [hc, Bool.false_eq_true, if_false, false_imp_iff, and_true, Nat.add_zero]
    exact and_assoc

/-! ## The translator -/

section
variable {deflate : Zlib} {deflated : Str → Str} (ti : ScriptInfo)

/-- The array has the block, compressed if it is asked for. -/
theorem printVarDefinition_ends (hz : ∀ x, deflate.Computes true x (deflated x)) (comp : Bool)
    (varname buf : Str) :
    Ends (fun n => printVarDefinition deflate n comp varname buf)
    (some (arrayText varname (contentOf deflated comp buf))) := by
  unfold printVarDefinition
  cases comp with
  | false =>
    obtain ⟨io', hends⟩ := Emb.opaque_input ioMem_delivers
      (ioCreate_input (d := ioMem) Mem.ahead ⟨buf, 0, start_fits buf⟩)
    exact hends.map_eq rfl
  | true =>
    have hf : Feeding ⟨False, True, False⟩ [codecCreate (codecGzipCreate deflate .compress)]
      (Mem.ahead ⟨buf, 0, start_fits buf⟩)
        [deflated buf] [] [] :=
      .last ⟨codecGzip_computes (hz buf), fun _ => codecGzip_quiet (hz buf),
        False.elim⟩ Codec.Open.init
    obtain ⟨io', hends⟩ := Emb.opaque_reading (q := ⟨False, True, False⟩) trivial ioMem_delivers
      (setChain_reading (d := ioMem) Mem.ahead hf) (fun he => absurd rfl he)
    exact hends.map_eq rfl

theorem writeCode_fits (comp : Bool) {name : Str} (h : name.length < VARNSZ) :
    (writeCode comp name).length < CODESZ := by
  unfold VARNSZ at h
  unfold CODESZ
  cases comp <;> simp [writeCode, bytes] <;> omega

def added (deflated : Str → Str) (ti : ScriptInfo) (ctx : LangCCtx) (c : Call) : LangCCtx where
  codeBlocks := ctx.codeBlocks ++ (c.stmts ti.comp ctx.htmlBlockCnt).flatMap Stmt.blocks
  htmlBlockCnt := c.step ctx.htmlBlockCnt
  out := ctx.out ++ (c.decls (contentOf deflated ti.comp) ti.comp ctx.htmlBlockCnt).flatMap
    Decl.text

/-- The step: a call of the parser. -/
theorem scriptCallback_ends (hz : ∀ x, deflate.Computes true x (deflated x)) (ctx : LangCCtx)
    (c : Call) :
    Ends (fun n => scriptCallback deflate n ti ctx c)
      (if c.Known ∧ (c.isHtml = true → (varName ti.comp ctx.htmlBlockCnt).length < VARNSZ) then
        some (added deflated ti ctx c)
        else none) := by
  cases c with
  | html buf =>
    have hknown : (Call.html buf).Known := trivial
    have hhtml : (Call.html buf).isHtml = true := rfl
    simp only [hknown, hhtml, forall_const, true_and]
    unfold scriptCallback cbHtmlBlock uSnprintf
    by_cases hname : (varName ti.comp ctx.htmlBlockCnt).length < VARNSZ
    · simp only [if_pos hname]
      refine (printVarDefinition_ends hz ti.comp _ buf).map_eq ?_
      rw [Option.bind_some, if_pos (writeCode_fits ti.comp hname), Option.map_some]
      cases hcomp : ti.comp <;>
        simp [added, pushCodeBlock, LangCCtx.print, Call.stmts, Call.decls, Call.step, Call.isHtml,
        Decl.text, Stmt.blocks, hcomp]
    · simp only [if_neg hname]
      exact Ends.const _
  | code cmd buf =>
    have hhtml : (Call.code cmd buf).isHtml = false := rfl
    simp only [hhtml, Bool.false_eq_true, false_imp_iff, and_true]
    unfold scriptCallback
    have hcode : cbCodeBlock cmd buf ctx = if (Call.code cmd buf).Known then
      some (added deflated ti ctx (.code cmd buf))
        else none := by
      unfold cbCodeBlock Call.Known
      by_cases h0 : cmd = 0
      · simp [h0, added, processCode, pushCodeBlock, Call.stmts, Call.decls, Call.step, Call.isHtml,
          Stmt.blocks]
      by_cases h33 : cmd = 33
      · simp [h33, added, processDeclaration, LangCCtx.print, Call.stmts, Call.decls, Call.step,
          Call.isHtml, Decl.text]
      by_cases h61 : cmd = 61
      · simp [h61, added, processExpression, pushCodeBlock, Call.stmts, Call.decls, Call.step,
          Call.isHtml, Stmt.blocks]
      · simp [h0, h33, h61]
    simp only [hcode]
    exact Ends.const _

/-- The run: the calls of the parser. -/
theorem scriptCallbacks_ends (hz : ∀ x, deflate.Computes true x (deflated x)) (calls : List Call)
    (ctx : LangCCtx) :
    Ends (fun n => scriptCallbacks deflate n ti calls ctx)
      (if Translatable ti.comp ctx.htmlBlockCnt calls then
        some (calls.foldl (added deflated ti) ctx) else none) := by
  induction calls generalizing ctx with
  | nil =>
    have hnil : Translatable ti.comp ctx.htmlBlockCnt [] :=
      ⟨fun _ h => absurd h List.not_mem_nil, fun _ h => absurd h (Nat.not_lt_zero _)⟩
    rw [if_pos hnil]
    exact Ends.const _
  | cons c calls ih =>
    have hstep := scriptCallback_ends ti hz ctx c
    have hiff := translatable_cons ti.comp ctx.htmlBlockCnt c calls
    by_cases hc : c.Known ∧ (c.isHtml = true → (varName ti.comp ctx.htmlBlockCnt).length < VARNSZ)
    · rw [if_pos hc] at hstep
      have hrest := ih (added deflated ti ctx c)
      have hsame : Translatable ti.comp ctx.htmlBlockCnt (c :: calls) ↔
          Translatable ti.comp (added deflated ti ctx c).htmlBlockCnt calls :=
            hiff.trans (and_iff_right hc)
      simp only [hsame]
      exact hstep.bind hrest
    · rw [if_neg hc] at hstep
      rw [if_neg fun h => hc (hiff.mp h).1]
      exact hstep.bind (Ends.const _)

theorem foldl_added (deflated : Str → Str) (ti : ScriptInfo) (calls : List Call) (ctx : LangCCtx) :
    (calls.foldl (added deflated ti) ctx).out =
        ctx.out ++ (declsFrom (contentOf deflated ti.comp) ti.comp ctx.htmlBlockCnt calls).flatMap
          Decl.text ∧
      (calls.foldl (added deflated ti) ctx).codeBlocks =
        ctx.codeBlocks ++ (stmtsFrom ti.comp ctx.htmlBlockCnt calls).flatMap Stmt.blocks := by
  induction calls generalizing ctx with
  | nil => simp [declsFrom, stmtsFrom]
  | cons c calls ih =>
    obtain ⟨hout, hblocks⟩ := ih (added deflated ti ctx c)
    rw [List.foldl_cons, hout, hblocks]
    simp [added, declsFrom, stmtsFrom]

end

/-! ## Reading the program back -/

inductive Item where
  | html (stored : Str)
  | print (expr : Str)
  | code (text : Str)
  deriving DecidableEq

def Stmt.resolve (u : CProgram) : Stmt → Option Item
  | .write name => (u.array name).map Item.html
  | .unzip name => (u.array name).map Item.html
  | .print expr => some (.print expr)
  | .code text => some (.code text)

def CProgram.items (u : CProgram) : Option (List Item) := u.body.mapM (Stmt.resolve u)

def Call.item (content : Str → Str) : Call → List Item
  | .html buf => [.html (content buf)]
  | .code cmd buf => if cmd = 0 then [.code buf] else if cmd = 61 then [.print buf] else []

def Decl.name? : Decl → Option Str
  | .array name _ => some name
  | .user _ => none

def CProgram.arrayNames (u : CProgram) : List Str := u.decls.filterMap Decl.name?

def hexConstant : Str → Option Byte
  | [48, 120, a, b] => if isxdigit a ∧ isxdigit b then some (uHex2ch a * 16 + uHex2ch b) else none
  | _ => none

def isSeparator (c : Byte) : Bool := c == 44 || isspace c

/-- The values of an initialiser: constants with commas and white space between them. -/
def initialiser (text : Str) : Option Str := (strtok isSeparator text).mapM hexConstant

section
variable {content : Str → Str} {comp : Bool}

theorem varName_inj {i j : ℕ} (h : varName comp i = varName comp j) : i = j :=
  decimal_inj (List.append_cancel_left h)

def htmlBufs (calls : List Call) : List Str := calls.filterMap fun
  | .html buf => some buf
  | .code _ _ => none

/-- The array with a number is that of the block with this number. -/
theorem findSome_declsFrom (content : Str → Str) (comp : Bool) (k j : ℕ) (calls : List Call) :
    (declsFrom content comp k calls).findSome? (Decl.arrayOf (varName comp j)) =
      if k ≤ j then ((htmlBufs calls)[j - k]?).map content else none := by
  induction calls generalizing k with
  | nil => simp [declsFrom, htmlBufs]
  | cons c calls ih =>
    rw [declsFrom, List.findSome?_append, ih]
    cases c with
    | html buf =>
      have hstep : Call.step k (.html buf) = k + 1 := rfl
      have hbufs : htmlBufs (.html buf :: calls) = buf :: htmlBufs calls := rfl
      rw [hstep, hbufs]
      by_cases hkj : k = j
      · subst hkj
        simp [Call.decls, Decl.arrayOf]
      · have hne : ¬ varName comp k = varName comp j := fun he => hkj (varName_inj he)
        by_cases hle : k ≤ j
        · have hsub : j - k = j - (k + 1) + 1 := by omega
          rw [if_pos (by omega), if_pos hle, hsub, List.getElem?_cons_succ]
          simp [Call.decls, Decl.arrayOf, hne]
        · rw [if_neg (by omega), if_neg hle]
          simp [Call.decls, Decl.arrayOf, hne]
    | code cmd buf =>
      have hstep : Call.step k (.code cmd buf) = k := rfl
      have hbufs : htmlBufs (.code cmd buf :: calls) = htmlBufs calls := rfl
      have hnone : (Call.decls content comp k (.code cmd buf)).findSome?
          (Decl.arrayOf (varName comp j)) = none := by
        by_cases h33 : cmd = 33
        · simp [Call.decls, h33, Decl.arrayOf]
        · simp [Call.decls, h33]
      rw [hstep, hbufs, hnone, Option.none_or]

theorem resolve_stmtsFrom {u : CProgram} (k : ℕ) (calls : List Call)
    (h : ∀ i buf, (htmlBufs calls)[i]? = some buf →
      u.array (varName comp (k + i)) = some (content buf)) :
    (stmtsFrom comp k calls).mapM (Stmt.resolve u) = some (calls.flatMap (Call.item content)) := by
  induction calls generalizing k with
  | nil => rfl
  | cons c calls ih =>
    cases c with
    | html buf =>
      have hbufs : htmlBufs (.html buf :: calls) = buf :: htmlBufs calls := rfl
      have hfirst : u.array (varName comp k) = some (content buf) := h 0 buf rfl
      have hrest := ih (k + 1) fun i buf' hbuf' => by
        have hi := h (i + 1) buf' (by rw [hbufs, List.getElem?_cons_succ, hbuf'])
        rwa [Nat.add_comm i 1, ← Nat.add_assoc] at hi
      have hresolve : Stmt.resolve u
        (if comp then .unzip (varName comp k) else .write (varName comp k)) =
          some (.html (content buf)) := by
        split <;> simp [Stmt.resolve, hfirst]
      have hstmts : stmtsFrom comp k (.html buf :: calls) =
          (if comp then .unzip (varName comp k) else .write (varName comp k)) :: stmtsFrom comp
            (k + 1) calls := rfl
      rw [hstmts, List.mapM_cons, hresolve, hrest]
      rfl
    | code cmd buf =>
      have hrest := ih k h
      have hstmts : stmtsFrom comp k (.code cmd buf :: calls) =
          Call.stmts comp k (.code cmd buf) ++ stmtsFrom comp k calls := rfl
      have hown : (Call.stmts comp k (.code cmd buf)).mapM (Stmt.resolve u) =
          some (Call.item content (.code cmd buf)) := by
        unfold Call.stmts Call.item
        by_cases h0 : cmd = 0
        · simp [h0, Stmt.resolve]
        by_cases h61 : cmd = 61
        · simp [h61, Stmt.resolve]
        · simp [h0, h61]
      rw [hstmts, List.mapM_append, hown, hrest]
      rfl

theorem arrayNames_programOf (calls : List Call) :
    (programOf content comp calls).arrayNames =
    (List.range (calls.countP Call.isHtml)).map (varName comp) := by
  have hfrom : ∀ k, (declsFrom content comp k calls).filterMap Decl.name? =
      (List.range' k (calls.countP Call.isHtml)).map (varName comp) := by
    induction calls with
    | nil =>
      intro k
      rfl
    | cons c calls ih =>
      intro k
      rw [declsFrom, List.filterMap_append, ih, List.countP_cons]
      cases c with
      | html buf =>
        have hhtml : (Call.html buf).isHtml = true := rfl
        rw [hhtml, if_pos rfl, List.range'_succ]
        rfl
      | code cmd buf =>
        have hhtml : (Call.code cmd buf).isHtml = false := rfl
        have hnone : (Call.decls content comp k (.code cmd buf)).filterMap Decl.name? = [] := by
          by_cases h33 : cmd = 33
          · simp [Call.decls, h33, Decl.name?]
          · simp [Call.decls, h33]
        rw [hhtml, hnone, if_neg Bool.false_ne_true]
        rfl
  rw [List.range_eq_range']
  exact hfrom 0

/-- The array for a block of text. -/
theorem array_programOf {calls : List Call} {i : ℕ} {buf : Str}
    (h : (htmlBufs calls)[i]? = some buf) :
    (programOf content comp calls).array (varName comp (0 + i)) = some (content buf) := by
  have hfind := findSome_declsFrom content comp 0 i calls
  rw [if_pos (Nat.zero_le i), Nat.sub_zero, h] at hfind
  rw [Nat.zero_add]
  exact hfind

/-- Every statement that writes an array finds that of its own block. -/
theorem items_programOf (calls : List Call) :
    (programOf content comp calls).items = some (calls.flatMap (Call.item content)) :=
  resolve_stmtsFrom 0 calls fun _ _ h => array_programOf h

theorem upperHex_back (n : Byte) (h : n < 16) :
    isxdigit (upperHex n) = true ∧ uHex2ch (upperHex n) = n ∧ isSeparator (upperHex n) = false := by
  have hall : ∀ i : Fin 16, isxdigit (upperHex (UInt8.ofNat i)) = true ∧
      uHex2ch (upperHex (UInt8.ofNat i)) = UInt8.ofNat i ∧
      isSeparator (upperHex (UInt8.ofNat i)) = false := by decide
  have hn := hall ⟨n.toNat, UInt8.lt_iff_toNat_lt.mp h⟩
  rwa [UInt8.ofNat_toNat] at hn

theorem digits_bound (c : Byte) : c / 16 < 16 ∧ c % 16 < 16 ∧ c / 16 * 16 + c % 16 = c := by
  have hc := c.toNat_lt
  refine ⟨?_, ?_, ?_⟩
  · rw [UInt8.lt_iff_toNat_lt, UInt8.toNat_div]
    change c.toNat / 16 < 16
    omega
  · rw [UInt8.lt_iff_toNat_lt, UInt8.toNat_mod]
    exact Nat.mod_lt _ (by decide)
  · apply UInt8.toNat_inj.mp
    rw [UInt8.toNat_add, UInt8.toNat_mul, UInt8.toNat_div, UInt8.toNat_mod]
    change (c.toNat / 16 * 16 % 256 + c.toNat % 16) % 256 = c.toNat
    omega

theorem hexConstant_digits (c : Byte) :
    hexConstant (bytes "0x" ++ [upperHex (c / 16), upperHex (c % 16)]) = some c := by
  obtain ⟨hhigh, hlow, hsum⟩ := digits_bound c
  obtain ⟨hxa, hba, -⟩ := upperHex_back _ hhigh
  obtain ⟨hxb, hbb, -⟩ := upperHex_back _ hlow
  have hconst : hexConstant (bytes "0x" ++ [upperHex (c / 16), upperHex (c % 16)]) =
      if isxdigit (upperHex (c / 16)) ∧ isxdigit (upperHex (c % 16)) then
        some (uHex2ch (upperHex (c / 16)) * 16 + uHex2ch (upperHex (c % 16))) else none := rfl
  rw [hconst, if_pos ⟨hxa, hxb⟩, hba, hbb, hsum]

/-- A byte is printed as one constant. -/
theorem strtok_printByte (i : ℕ) (c : Byte) (s : Str) : strtok isSeparator (printByte i c ++ s) =
    (bytes "0x" ++ [upperHex (c / 16), upperHex (c % 16)]) :: strtok isSeparator s := by
  obtain ⟨hhigh, hlow, -⟩ := digits_bound c
  have htoken : ∀ b ∈ bytes "0x" ++ [upperHex (c / 16), upperHex (c % 16)],
      isSeparator b = false := by
    intro b hb
    have hplain : ∀ b ∈ bytes "0x", isSeparator b = false := by simp [bytes, isSeparator, isspace]
    rcases List.mem_append.mp hb with hb | hb
    · exact hplain b hb
    · rcases List.mem_pair.mp hb with rfl | rfl
      · exact (upperHex_back _ hhigh).2.2
      · exact (upperHex_back _ hlow).2.2
  have htail : ∀ b ∈ (32 : Byte) :: (if i % 12 = 0 then bytes "\n" else []),
      isSeparator b = true := by
    by_cases h : i % 12 = 0
    · simp [h, bytes, isSeparator, isspace]
    · simp [h, isSeparator, isspace]
  have hsplit : printByte i c ++ s = (bytes "0x" ++ [upperHex (c / 16), upperHex (c % 16)]) ++
      44 :: ((32 :: if i % 12 = 0 then bytes "\n" else []) ++ s) := by
    simp [printByte, bytes]
  rw [hsplit, strtok_append (List.append_ne_nil_of_left_ne_nil (by decide) _) htoken (by decide),
    strtok_delims htail]

/-- The initialiser of an array is read as its content. -/
theorem initialiser_printBytes (i : ℕ) (content : Str) :
    initialiser (printBytes i content) = some content := by
  induction content generalizing i with
  | nil => rfl
  | cons c cs ih =>
    have hrest := ih (i + 1)
    unfold initialiser at hrest ⊢
    rw [printBytes, strtok_printByte, List.mapM_cons, hexConstant_digits, hrest]
    rfl

end

/-! ## The file of a page -/

def Decl.user? : Decl → Option Str
  | .array _ _ => none
  | .user text => some text

def Call.declared : Call → Option Str
  | .html _ => none
  | .code cmd buf => if cmd = 33 then some buf else none

/-- What is found in the text of a program: its arrays have names of their own and are read as
their content, and with them in place its statements are these items. -/
structure CProgram.Reads (u : CProgram) (items : List Item) (declared : List Str) : Prop where
  names : u.arrayNames.Nodup
  arrays : ∀ name content, Decl.array name content ∈ u.decls → ∃ init,
    Decl.text (.array name content) = bytes "static const char " ++ name ++ bytes "[] = \x7b\n" ++
      init ++ bytes "\x7d;\n" ∧
      initialiser init = some content
  items : u.items = some items
  declared : u.decls.filterMap Decl.user? = declared

theorem declared_programOf (content : Str → Str) (comp : Bool) (calls : List Call) :
    (programOf content comp calls).decls.filterMap Decl.user? = calls.filterMap Call.declared := by
  have hfrom : ∀ k, (declsFrom content comp k calls).filterMap Decl.user? =
      calls.filterMap Call.declared := by
    induction calls with
    | nil =>
      intro k
      rfl
    | cons c calls ih =>
      intro k
      have hown : (c.decls content comp k).filterMap Decl.user? = [c].filterMap Call.declared := by
        cases c with
        | html buf => rfl
        | code cmd buf =>
          by_cases h33 : cmd = 33
          · simp [Call.decls, h33, Decl.user?, Call.declared]
          · simp [Call.decls, h33, Call.declared]
      rw [declsFrom, List.filterMap_append, ih, hown, ← List.filterMap_append,
        List.singleton_append]
  exact hfrom 0

theorem programOf_reads (content : Str → Str) (comp : Bool) (calls : List Call) :
    (programOf content comp calls).Reads (calls.flatMap (Call.item content))
    (calls.filterMap Call.declared) where
  names := by
    rw [arrayNames_programOf]
    exact List.nodup_range.map fun i j h => varName_inj h
  arrays := fun name content _ => ⟨printBytes 1 content, rfl, initialiser_printBytes 1 content⟩
  items := items_programOf calls
  declared := declared_programOf content comp calls

/-- The parser comes to an end. -/
theorem parserRun_ends (text : Str) : ∃ calls, Ends (fun n => parserRun text n) calls := by
  obtain ⟨r, hends, -⟩ := parser_total (p := parserReset text) (Or.inl rfl)
  exact ⟨r.calls, hends.map_eq rfl⟩

/-- Once the parser is done, the file is that of the program of its calls. -/
theorem translate_of_calls {deflate : Zlib} {deflated : Str → Str}
    (hz : ∀ x, deflate.Computes true x (deflated x)) (hdr : Str) (ti : ScriptInfo) {text : Str}
    {calls : List Call} (hparse : Ends (fun n => parserRun text n) calls) :
    Ends (fun n => translateScriptToC hdr deflate n ti text) (if Translatable ti.comp 0 calls then
      some ((programOf (contentOf deflated ti.comp) ti.comp calls).text hdr ti) else none) := by
  have hcalls := scriptCallbacks_ends ti hz calls ⟨[], 0, printHeader hdr ti⟩
  obtain ⟨hout, hblocks⟩ := foldl_added deflated ti calls ⟨[], 0, printHeader hdr ti⟩
  refine hparse.bind (hcalls.map_eq ?_)
  by_cases h : Translatable ti.comp 0 calls
  · rw [if_pos h, if_pos h, Option.map_some, hout, hblocks]
    rfl
  · rw [if_neg h, if_neg h]
    rfl

/-- Every text comes out as the C file of a program that reads as the text of the page in
arrays of bytes and its code, each in its place, unless a section has a command that has no
meaning or the name of an array does not fit its buffer. -/
theorem translateScriptToC_program {deflate : Zlib} {deflated : Str → Str}
    (hz : ∀ x, deflate.Computes true x (deflated x)) (hdr : Str) (ti : ScriptInfo) (text : Str) :
    ∃ (calls : List Call) (u : CProgram), Ends (fun n => parserRun text n) calls ∧
      u.Reads (calls.flatMap (Call.item (contentOf deflated ti.comp)))
        (calls.filterMap Call.declared) ∧
      Ends (fun n => translateScriptToC hdr deflate n ti text)
        (if Translatable ti.comp 0 calls then some (u.text hdr ti) else none) := by
  obtain ⟨calls, hparse⟩ := parserRun_ends text
  exact ⟨calls, _, hparse, programOf_reads _ _ calls, translate_of_calls hz hdr ti hparse⟩

/-- A compressed page with text on both sides of an expression. -/
theorem translateScriptToC_program_sample : ∃ (calls : List Call) (u : CProgram),
    Ends (fun n => parserRun (bytes "aaaaaaaaaa<%=x%>aaaaaaaaaa") n) calls ∧
      u.Reads (calls.flatMap (Call.item (contentOf Emb.sampleDeflated true)))
        (calls.filterMap Call.declared) ∧
      Ends (fun n => translateScriptToC [] (Emb.collecting Emb.sampleDeflated) n
        ⟨bytes "/p.kl1", true⟩
          (bytes "aaaaaaaaaa<%=x%>aaaaaaaaaa"))
        (if Translatable true 0 calls then some (u.text [] ⟨bytes "/p.kl1", true⟩) else none) :=
  translateScriptToC_program (Emb.collecting_computes Emb.sampleDeflated true) []
    ⟨bytes "/p.kl1", true⟩
    (bytes "aaaaaaaaaa<%=x%>aaaaaaaaaa")

end Klone.Trans
