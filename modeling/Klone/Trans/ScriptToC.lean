import Klone.Emb.Translate
import Klone.Io.Pipe
import Klone.Response.Fields
import Klone.Trans.Parser
import Klone.Utils.Md5

/-! # From a page to C

The text of a page goes to arrays of bytes, which are defined as the parser comes to them,
and its code to a list that is printed behind them as the body of a function. The output
stream takes all that is printed to it; the comment at the head of the file is `hdr`.
-/
namespace Klone.Trans
open Loop Klone.Page Klone.Chain

def URI_BUFSZ : ℕ := 1024
def VARNSZ : ℕ := 32
def CODESZ : ℕ := 128

structure ScriptInfo where
  uri : Str
  comp : Bool

/-- `lang_c_ctx_t`, with what has been written to `p->out`. Of a block of code only the text
is ever read. -/
structure LangCCtx where
  codeBlocks : List Str
  htmlBlockCnt : ℕ
  out : Str

def LangCCtx.print (ctx : LangCCtx) (s : Str) : LangCCtx := { ctx with out := ctx.out ++ s }

def pushCodeBlock (ctx : LangCCtx) (buf : Str) : LangCCtx :=
  { ctx with codeBlocks := ctx.codeBlocks ++ [buf] }

def uSnprintf (size : ℕ) (s : Str) : Option Str := if s.length < size then some s else none

def scriptName (uri : Str) : Str := (uri.reverse.takeWhile (· ≠ 47)).reverse

def dfun (uri : Str) : Str :=
  (strlcpy (bytes "page_" ++ scriptName uri) URI_BUFSZ).2.map fun c => if isalnum c then c else 95

def printHeader (hdr : Str) (ti : ScriptInfo) : Str :=
  hdr ++ bytes "#include <klone/emb.h>\n" ++ bytes "#include <klone/dypage.h>\n" ++
    (bytes "static const char *SCRIPT_NAME = \"" ++ scriptName ti.uri ++ bytes "\";\n") ++
    (bytes "static int " ++ dfun ti.uri ++ bytes " (void) \x7b " ++
      bytes "static volatile int dummy; return dummy; \x7d\n") ++
    (bytes "static request_t *request = NULL;\n" ++ bytes "static response_t *response = NULL;\n" ++
      bytes "static session_t *session = NULL;\n" ++ bytes "static io_t *in = NULL;\n" ++
        bytes "static io_t *out = NULL;\n")

/-- A digit of `%02X`. -/
def upperHex (n : Byte) : Byte := if n < 10 then n + 48 else n - 10 + 65

/-- `"0x%02X, "` for the byte with this number, with a line end after every twelfth. -/
def printByte (i : ℕ) (c : Byte) : Str :=
  bytes "0x" ++ [upperHex (c / 16), upperHex (c % 16)] ++ bytes ", " ++ if i % 12 = 0 then
    bytes "\n" else []

def printBytes : ℕ → Str → Str
  | _, [] => []
  | i, c :: cs => printByte i c ++ printBytes (i + 1) cs

def arrayText (varname content : Str) : Str :=
  bytes "static const char " ++ varname ++ bytes "[] = \x7b\n" ++ printBytes 1 content ++
    bytes "\x7d;\n"

/-- The bytes of the block are read through a codec if they are to be compressed. -/
def printVarDefinition (deflate : Zlib) (n : ℕ) (comp : Bool) (varname buf : Str) :
    Option (Option Str) :=
  let ios := memStream buf
  let ios := if comp then Emb.ioCodecAddTail ios (codecGzipCreate deflate .compress) else ios
  (run (Emb.opaqueBody n) n (ios, [])).map fun r => r.2.map (arrayText varname)

def processDeclaration (ctx : LangCCtx) (buf : Str) : LangCCtx := (ctx.print buf).print (bytes "\n")

def processExpression (ctx : LangCCtx) (buf : Str) : LangCCtx :=
  pushCodeBlock (pushCodeBlock (pushCodeBlock ctx (bytes "io_printf(out, \"%s\",")) buf)
    (bytes ");\n")

def processCode (ctx : LangCCtx) (buf : Str) : LangCCtx := pushCodeBlock ctx buf

def varName (comp : Bool) (cnt : ℕ) : Str :=
  (if comp then bytes "klone_html_zblock_" else bytes "klone_html_") ++ decimal cnt

def writeCode (comp : Bool) (varname : Str) : Str :=
  if comp then bytes "\ndbg_if(u_io_unzip_copy(out, " ++ varname ++ bytes ",    sizeof(" ++
    varname ++ bytes ")));\n"
  else bytes "\ndbg_if(io_write(out, " ++ varname ++ bytes ",    sizeof(" ++ varname ++
    bytes ")) < 0);\n"

/-- `none` inside for an error. -/
def cbHtmlBlock (deflate : Zlib) (n : ℕ) (ti : ScriptInfo) (buf : Str) (ctx : LangCCtx) :
    Option (Option LangCCtx) :=
  match uSnprintf VARNSZ (varName ti.comp ctx.htmlBlockCnt) with
  | none => some none
  | some varname => (printVarDefinition deflate n ti.comp varname buf).map fun defined =>
      defined.bind fun text => (uSnprintf CODESZ (writeCode ti.comp varname)).map fun code =>
        { pushCodeBlock (ctx.print text) code with htmlBlockCnt := ctx.htmlBlockCnt + 1 }

def cbCodeBlock (cmd : Byte) (buf : Str) (ctx : LangCCtx) : Option LangCCtx :=
  if cmd = 0 then some (processCode ctx buf)
  else if cmd = 64 then none
  else if cmd = 33 then some (processDeclaration ctx buf)
  else if cmd = 61 then some (processExpression ctx buf)
  else none

def scriptCallback (deflate : Zlib) (n : ℕ) (ti : ScriptInfo) (ctx : LangCCtx) :
    Call → Option (Option LangCCtx)
  | .html buf => cbHtmlBlock deflate n ti buf ctx
  | .code cmd buf => some (cbCodeBlock cmd buf ctx)

/-- The calls of a run of the parser, which ends with the first that reports an error. -/
def scriptCallbacks (deflate : Zlib) (n : ℕ) (ti : ScriptInfo) :
    List Call → LangCCtx → Option (Option LangCCtx)
  | [], ctx => some (some ctx)
  | c :: calls, ctx => (scriptCallback deflate n ti ctx c).bind fun
      | none => some none
      | some ctx => scriptCallbacks deflate n ti calls ctx

def printCodeBlocks (ti : ScriptInfo) (codeBlocks : List Str) : Str :=
  (bytes "\n\n" ++
      bytes "static void exec_page(dypage_args_t *_dyp_args)                    \n" ++
      bytes "\x7b                                                                  \n" ++
      bytes "   request = _dyp_args->rq;                                        \n" ++
      bytes "   response = _dyp_args->rs;                                       \n" ++
      bytes "   session = _dyp_args->ss;                                        \n" ++
      bytes "   in = request_io(request);                                       \n" ++
      bytes "   out = response_io(response);                                    \n" ++
      bytes "   u_unused_args(SCRIPT_NAME, request, response, session, in, out);\n" ++
      bytes "   " ++ dfun ti.uri ++ bytes " () ; \n ") ++
    codeBlocks.flatMap (fun buf => bytes "\n" ++ buf) ++
    (bytes "goto klone_script_exit;\n" ++
      bytes "klone_script_exit:     \n" ++
      bytes "   return;             \n" ++
      bytes "\x7d                      \n")

def printDynamicPageBlock (ti : ScriptInfo) : Str :=
  bytes "static embpage_t e;                \n" ++
    bytes "static void res_ctor(void)         \n" ++
    bytes "\x7b                                  \n" ++
    bytes "   e.res.type = ET_PAGE;           \n" ++
    (bytes "   e.res.filename = \"" ++ ti.uri ++ bytes "\";        \n") ++
    bytes "   e.fun = exec_page;              \n" ++
    bytes "\x7d                                  \n"

def printRegisterBlock (uri : Str) : Str :=
  let md5 := Md5.uMd5 uri
  bytes "#ifdef __cplusplus                 \n" ++
    bytes "extern \"C\" \x7b                     \n" ++
    bytes "#endif                             \n" ++
    (bytes "void module_init_" ++ md5 ++ bytes "(void);         \n") ++
    (bytes "void module_init_" ++ md5 ++ bytes "(void)          \n") ++
    bytes "\x7b                                  \n" ++
    bytes "    res_ctor();                    \n" ++
    bytes "    emb_register((embres_t*)&e);   \n" ++
    bytes "\x7d                                  \n" ++
    (bytes "void module_term_" ++ md5 ++ bytes "(void);         \n") ++
    (bytes "void module_term_" ++ md5 ++ bytes "(void)          \n") ++
    bytes "\x7b                                  \n" ++
    bytes "    emb_unregister((embres_t*)&e); \n" ++
    bytes "\x7d                                  \n" ++
    bytes "#ifdef __cplusplus                 \n" ++
    bytes "\x7d                                  \n" ++
    bytes "#endif                             \n"

/-- The C file for the text of a page; `none` inside for an error. -/
def translateScriptToC (hdr : Str) (deflate : Zlib) (n : ℕ) (ti : ScriptInfo) (text : Str) :
    Option (Option Str) :=
  (parserRun text n).bind fun calls =>
    (scriptCallbacks deflate n ti calls ⟨[], 0, printHeader hdr ti⟩).map fun r =>
      r.map fun ctx => ctx.out ++ printCodeBlocks ti ctx.codeBlocks ++ printDynamicPageBlock ti ++
        printRegisterBlock ti.uri

end Klone.Trans
