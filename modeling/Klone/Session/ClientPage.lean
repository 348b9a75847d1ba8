import Klone.Http.Dypage
import Klone.Session.ClientSizes
import Klone.Session.Persistence

/-! # Pages with sessions kept by the client

A page is run with the response filter on the stream to the client. Its session is saved
when it is freed, after the page and before the stream is closed: the cookies are added
to the header of the response, which has been printed by then when the page does not fit
in the buffer of the filter.
-/
namespace Klone.Session
open Chain Loop Page Emb

/-- `session_opt_t` of a server whose sessions are kept by the client; `encode` is what the
codecs for compression and encryption make of a text under an initialisation vector. -/
structure ClientOpt where
  name : Str
  mac : Mac
  key : KeyCipher
  encode : List Byte → Str → List Byte
  nameFits : name.length < 128
  nameLine : (10 : Byte) ∉ name

/-- What is drawn for a request: an id in case it is needed, an initialisation vector, and
the time at which the session is saved. -/
structure Drawn where
  newId : Str
  newIdGood : sessionIsGoodId newId = true
  iv : List Byte
  ivLength : iv.length = CIPHER_IV_LEN
  now : Int32

structure ClientSes where
  id : Str
  vars : List Var
  removed : Bool

inductive PageCall where
  | session (op : PageOp)
  | write (buf : Str)
  | flush

def varsSet (vars : List Var) (name value : Str) : List Var :=
  if name = [] then vars
  else match varsGet vars name with
    | none => vars ++ [varCreate name value]
    | some _ => varsSetValue name value vars

def varsStep (vars : List Var) : PageOp → List Var
  | .set name value => varsSet vars name value
  | .del name => varsDel vars name
  | .clean => []

theorem pageStep_vars {d : Driver} (ss : Ses d) (op : PageOp) :
    (pageStep ss op).vars = varsStep ss.vars op := by
  cases op with
  | set name value =>
    simp only [pageStep, sessionSet, varsStep, varsSet]
    split
    · rfl
    · split <;> simp_all
  | del name => rfl
  | clean => rfl

def pageVars (vars : List Var) : List PageCall → List Var
  | [] => vars
  | .session op :: calls => pageVars (varsStep vars op) calls
  | _ :: calls => pageVars vars calls

def writeCalls : List PageCall → List WriteOp
  | [] => []
  | .session _ :: calls => writeCalls calls
  | .write buf :: calls => .write buf :: writeCalls calls
  | .flush :: calls => .flush :: writeCalls calls

section Serve
variable (date : ℤ → Option Str) (o : ClientOpt) (t : Drawn)

def addFields (header : Header) (sets : List CookieSet) : Header :=
  header ++ sets.filterMap (·.field)

def sessionGenId (header : Header) : Option Header :=
  let sets := setCookies date [.plain o.name none, .plain o.name (some t.newId)]
  if sets.all (·.field.isSome) then some (addFields header sets) else none

def sessionClientRemove (header : Header) : Header :=
  let header := addFields header (setCookies date [.plain o.name none])
  addFields header (setCookies date [.plain KL1_CLISES_DATA none, .plain KL1_CLISES_MTIME none,
    .plain KL1_CLISES_HMAC none, .plain KL1_CLISES_IV none])

/-- What `session_prv_save_to_buf` comes to: the block takes what the estimate has room for. -/
def sealedBuf (vars : List Var) : List Byte :=
  (o.encode t.iv (sessionText (some o.key) vars)).take (sessionMaxsize (some o.key) vars)

def clientId (id : Str) : Str := if id = [] then t.newId else id

def clientSessionSave (ss : ClientSes) (header : Header) : Header :=
  if ss.vars = [] then if ss.id = [] then header else sessionClientRemove date o header
  else match if ss.id = [] then sessionGenId date o t header else some header with
    | none => header
    | some header =>
      addFields header (sessionClientSave date o.mac t.iv (sealedBuf o t ss.vars) (clientId t ss.id)
        t.now).cookies

def clientSessionFree (ss : ClientSes) (header : Header) : Header :=
  if ss.removed then header else clientSessionSave date o t ss header

def pageResponse (rs : Response) : Response :=
  responseDisableCaching (responseSetContentType rs (bytes "text/html"))

def pageFilter (rs : Response) (id : Str) : Codec :=
  responseFilterCreate (sessionGenId date o t) (pageResponse rs) (decide (id = []))

/-- The session when it is freed; the filter has given it an id, or has not. -/
def sessionAfter (ss : ClientSes) (calls : List PageCall) (rf : Filter) : ClientSes :=
  { ss with vars := pageVars ss.vars calls, id := if rf.needsId then ss.id else clientId t ss.id }

/-- The response is shared by the filter and the session. -/
def freedFilter (ss : ClientSes) (calls : List PageCall) (rf : Filter) : Filter :=
  withHeader rf (clientSessionFree date o t (sessionAfter t ss calls rf) rf.rs.header)

/-- `dypage_serve` after the session has been created, and the end of the connection: the
calls of the page, a byte if there was none, `session_free`, and the stream is freed. -/
def DypageServes {d : Device} (rs : Response) (ss : ClientSes) (calls : List PageCall)
    (io io' : Io d) : Prop :=
  ∃ io₁ io₂ : Io d, ∃ rf₁ rf₂ : Filter,
    Ends (fun n => writeOps n (writeCalls calls ++ [.flush])
      (io.setChain [codecCreate (pageFilter date o t rs ss.id)]))
      (io₁, true) ∧
    io₁.Through (pageFilter date o t rs ss.id) rf₁ ∧ Ends (fun n => writeDummy n rf₁ io₁) io₂ ∧
    io₂.Through (pageFilter date o t rs ss.id) rf₂ ∧
    Ends (fun n => ioFree n (io₂.setChain
      [codecCreate ((pageFilter date o t rs ss.id).from (freedFilter date o t ss calls rf₂))])) io'

end Serve

def pageBytes (calls : List PageCall) : Str :=
  if written (writeCalls calls) = [] then bytes "\n" else written (writeCalls calls)

/-! ## The run of a page -/

section Run
variable {date : ℤ → Option Str} {o : ClientOpt} {t : Drawn}

def idFields (o : ClientOpt) (t : Drawn) : Header :=
  [⟨bytes "Set-Cookie", o.name ++ bytes "=; expires=Wed, 01-Jan-1990 10:10:10 GMT"⟩,
    ⟨bytes "Set-Cookie", o.name ++ 61 :: uUrlncpyEncode t.newId⟩]

/-- An id can always be given. -/
theorem sessionGenId_eq (header : Header) :
    sessionGenId date o t header = some (header ++ idFields o t) := by
  have hfits := o.nameFits
  have hid : responseSetCookie date (.plain o.name (some t.newId)) =
      cookieField (o.name ++ 61 :: uUrlncpyEncode t.newId) :=
    responseSetCookie_plain date (by unfold COOKIE_BUFSZ; omega) (goodId_ne_nil t.newIdGood)
  have hold : responseSetCookie date (.plain o.name none) =
      cookieField (o.name ++ bytes "=; expires=Wed, 01-Jan-1990 10:10:10 GMT") := by
    have hlen : (bytes "=; expires=Wed, 01-Jan-1990 10:10:10 GMT").length ≤ 64 := by decide
    have hprint : printfBehind [] (o.name ++ bytes "=; expires=Wed, 01-Jan-1990 10:10:10 GMT") =
        some (o.name ++ bytes "=; expires=Wed, 01-Jan-1990 10:10:10 GMT") := by
      rw [printfBehind_nil, if_pos]
      rw [List.length_append, COOKIE_BUFSZ]
      omega
    simp only [responseSetCookie, Cookie.plain, hprint]
  simp [sessionGenId, setCookies, hid, hold, cookieField, addFields, idFields]

end Run

section Sends
variable (date : ℤ → Option Str) (o : ClientOpt) (t : Drawn)

/-- The response whose header is sent: of a page that does not fit in the buffer, as it was
when the buffer was full. -/
def finalResponse (rs : Response) (ss : ClientSes) (calls : List PageCall) : Response :=
  let rs := pageResponse rs
  if rs.method ≠ .head ∧ RFBUFSZ ≤ (pageBytes calls).length then
    { rs with header := if ss.id = [] then rs.header ++ idFields o t else rs.header }
  else { rs with
      header := clientSessionFree date o t { ss with vars := pageVars ss.vars calls } rs.header }

variable {d : Device} {received : d.State → Str}

/-- The header and the body of a page are sent. -/
theorem dypage_sends (hd : Accepts d received) (rs : Response) (ss : ClientSes)
    (calls : List PageCall) {io : Io d} (hio : Unwritten io) :
    ∃ io', DypageServes date o t rs ss calls io io' ∧ received io'.dev =
      received io.dev ++ ((finalResponse date o t rs ss calls).printed ++
        rs.body (pageBytes calls)) := by
  have hid : decide (ss.id = []) = true →
      (sessionGenId date o t (pageResponse rs).header).isSome = true := by
    intro _
    rw [sessionGenId_eq]
    rfl
  obtain ⟨io₁, rf₁, hends, hp₁⟩ := (Putting.start hio).ops hd hid (writeCalls calls ++ [.flush])
  have hwritten : written (writeCalls calls ++ [.flush]) = written (writeCalls calls) := by
    induction writeCalls calls with
    | nil => rfl
    | cons op ops ih => rw [List.cons_append, written_cons, ih, ← written_cons]
  rw [List.nil_append, hwritten] at hp₁
  obtain ⟨io₂, rf₂, hdummy, hwbuf, hp₂⟩ := hp₁.dummy hd hid
  obtain ⟨io', hfree, hrec⟩ :=
    hp₂.freed hd hid hwbuf (clientSessionFree date o t (sessionAfter t ss calls rf₂) rf₂.rs.header)
  have hfinal : freedResponse (sessionGenId date o t) (pageResponse rs) (decide (ss.id = []))
    (pageBytes calls)
      (clientSessionFree date o t (sessionAfter t ss calls rf₂) rf₂.rs.header) =
        finalResponse date o t rs ss calls := by
    unfold freedResponse finalResponse
    dsimp only
    split
    next hfull =>
      -- the header has been sent, with the cookies of a new id
      unfold sentResponse
      by_cases hnew : ss.id = []
      · simp [hfull.1, hfull.2, hnew, sessionGenId_eq]
      · simp [hnew]
    next hshort =>
      -- the header has the cookies of the session
      obtain ⟨hresponse, hneeds⟩ := hp₂.short hid hshort
      have hafter : sessionAfter t ss calls rf₂ = { ss with vars := pageVars ss.vars calls } := by
        unfold sessionAfter clientId
        rw [hneeds]
        by_cases hnew : ss.id = []
        · simp [hnew]
        · simp [hnew]
      rw [hafter, hresponse]
  refine ⟨io', ⟨io₁, io₂, rf₁, rf₂, hends, hp₁.through, hdummy, hp₂.through, hfree⟩, ?_⟩
  rw [hrec, ← hfinal]
  rfl

/-- There is only one run. -/
theorem DypageServes.unique {rs : Response} {ss : ClientSes} {calls : List PageCall}
    {io io' io'' : Io d} (h : DypageServes date o t rs ss calls io io')
    (h' : DypageServes date o t rs ss calls io io'') : io' = io'' := by
  obtain ⟨io₁, io₂, rf₁, rf₂, hends, hrf₁, hdummy, hrf₂, hfree⟩ := h
  obtain ⟨jo₁, jo₂, sf₁, sf₂, hends', hsf₁, hdummy', hsf₂, hfree'⟩ := h'
  obtain rfl : io₁ = jo₁ := congrArg Prod.fst (hends.unique hends')
  obtain rfl : rf₁ = sf₁ := hrf₁.unique hsf₁
  obtain rfl : io₂ = jo₂ := hdummy.unique hdummy'
  obtain rfl : rf₂ = sf₂ := hrf₂.unique hsf₂
  exact hfree.unique hfree'

end Sends

/-! ## What a client finds in the header -/

def headerLines (bs : Str) : List Str := (bs.splitOn 10).takeWhile (· ≠ [13])

def HasCookie (bs cookie : Str) : Prop := bytes "Set-Cookie: " ++ cookie ++ [13] ∈ headerLines bs

theorem headerLines_lines {ls : List Str} (h : ∀ l ∈ ls, (10 : Byte) ∉ l ∧ l ≠ []) (body : Str) :
    headerLines ((ls.map (· ++ bytes "\r\n")).flatten ++ bytes "\r\n" ++ body) =
    ls.map (· ++ [13]) := by
  have hcr : (10 : Byte) ∉ ([13] : Str) := by decide
  induction ls with
  | nil =>
    have hsplit : bytes "\r\n" ++ body = [13] ++ 10 :: body := rfl
    rw [List.map_nil, List.flatten_nil, List.nil_append, headerLines, hsplit,
      List.splitOn_append_cons_self,
      List.splitOn_eq_singleton hcr]
    simp
  | cons l ls ih =>
    obtain ⟨hl, hne⟩ := h l List.mem_cons_self
    have ih := ih fun m hm => h m (List.mem_cons_of_mem _ hm)
    have hline : (10 : Byte) ∉ l ++ [13] := by simp [hl]
    have hsplit : ((l :: ls).map (· ++ bytes "\r\n")).flatten ++ bytes "\r\n" ++ body =
        (l ++ [13]) ++ 10 :: ((ls.map (· ++ bytes "\r\n")).flatten ++ bytes "\r\n" ++ body) := by
      simp [bytes]
    rw [headerLines] at ih
    rw [headerLines, hsplit, List.splitOn_append_cons_self, List.splitOn_eq_singleton hline,
      List.singleton_append,
      List.takeWhile_cons_of_pos (by simp [hne]), ih, List.map_cons]

def statusLine (rs : Response) : Str :=
  bytes "HTTP/1.0 " ++ decimal rs.status.toInt ++ bytes " " ++ httpGetStatusDesc rs.status

def fieldLine (f : Field) : Str := f.name ++ bytes ": " ++ f.value

def responseLines (rs : Response) : List Str :=
  (if rs.cgi then [] else [statusLine rs]) ++ rs.header.map fieldLine

theorem printed_lines (rs : Response) :
    rs.printed = ((responseLines rs).map (· ++ bytes "\r\n")).flatten ++ bytes "\r\n" := by
  have hstatus : (if rs.cgi then [] else [responsePrintStatus rs]) =
      (if rs.cgi then [] else [statusLine rs]).map (· ++ bytes "\r\n") := by
    split <;> rfl
  have hfields : rs.header.map responsePrintField =
      (rs.header.map fieldLine).map (· ++ bytes "\r\n") := by
    rw [List.map_map]
    rfl
  rw [Response.printed, responsePrintHeader, hstatus, hfields, ← List.map_append,
    List.flatten_append, responseLines]
  simp

def LineFields (header : Header) : Prop :=
  ∀ f ∈ header, (10 : Byte) ∉ f.name ∧ (10 : Byte) ∉ f.value

theorem httpGetStatusDesc_line (status : Int32) : (10 : Byte) ∉ httpGetStatusDesc status := by
  have hall : ∀ m ∈ httpStatusMap, (10 : Byte) ∉ m.2 := by decide
  unfold httpGetStatusDesc
  cases hf : httpStatusMap.find? fun m => m.1 = status with
  | none => decide
  | some m => exact hall m (List.mem_of_find?_eq_some hf)

theorem statusLine_line (rs : Response) : (10 : Byte) ∉ statusLine rs := by
  have hnum : (10 : Byte) ∉ decimal rs.status.toInt := by
    intro hm
    rcases mem_decimal hm with he | he
    · exact absurd he (by decide)
    · exact absurd he.1 (by decide)
  have hdesc := httpGetStatusDesc_line rs.status
  simp [statusLine, hnum, hdesc, bytes]

/-- A client finds the fields of a response. -/
theorem mem_headerLines {rs : Response} (h : LineFields rs.header) (body : Str) {f : Field}
    (hf : f ∈ rs.header) :
    fieldLine f ++ [13] ∈ headerLines (rs.printed ++ body) := by
  have hlines : ∀ l ∈ responseLines rs, (10 : Byte) ∉ l ∧ l ≠ [] := by
    intro l hl
    rcases List.mem_append.mp hl with hl | hl
    · split at hl
      · cases hl
      · obtain rfl := List.mem_singleton.mp hl
        exact ⟨statusLine_line rs, by simp [statusLine, bytes]⟩
    · obtain ⟨g, hg, rfl⟩ := List.mem_map.mp hl
      obtain ⟨hname, hvalue⟩ := h g hg
      exact ⟨by simp [fieldLine, hname, hvalue, bytes], by simp [fieldLine, bytes]⟩
  rw [printed_lines, headerLines_lines hlines]
  exact List.mem_map_of_mem (List.mem_append_right _ (List.mem_map_of_mem hf))

def finalCookies (o : ClientOpt) (t : Drawn) (ss : ClientSes) (calls : List PageCall) : List Str :=
  cookieTexts o.mac (signedFor t.iv (sealedBuf o t (pageVars ss.vars calls))
    (clientId t ss.id) t.now)

def SessionReceived (o : ClientOpt) (t : Drawn) (ss : ClientSes) (calls : List PageCall)
    (bs : Str) : Prop :=
  ∀ cookie ∈ finalCookies o t ss calls, HasCookie bs cookie

theorem lineFields_set {header : Header} (h : LineFields header) {name value : Str}
    (hname : (10 : Byte) ∉ name) (hvalue : (10 : Byte) ∉ value) :
    LineFields (headerSetField header name value) := by
  induction header with
  | nil =>
    intro f hf
    obtain rfl := List.mem_singleton.mp hf
    exact ⟨hname, hvalue⟩
  | cons g header ih =>
    have ih := ih fun f hf => h f (List.mem_cons_of_mem _ hf)
    unfold headerSetField
    intro f hf
    split at hf
    · rcases List.mem_cons.mp hf with rfl | hf
      · exact ⟨hname, hvalue⟩
      · exact h f (List.mem_cons_of_mem _ hf)
    · rcases List.mem_cons.mp hf with rfl | hf
      · exact h _ List.mem_cons_self
      · exact ih f hf

theorem lineFields_append {h₁ h₂ : Header} (hl : LineFields h₁) (hr : LineFields h₂) :
    LineFields (h₁ ++ h₂) := by
  intro f hf
  rcases List.mem_append.mp hf with hf | hf
  · exact hl f hf
  · exact hr f hf

theorem pageResponse_lines {rs : Response} (h : LineFields rs.header) :
    LineFields (pageResponse rs).header :=
  lineFields_set (lineFields_set (lineFields_set (lineFields_set h (by decide) (by decide))
    (by decide) (by decide)) (by decide) (by decide)) (by decide)
    (by decide)

theorem urlSafe_line {s : Str} (h : ∀ c ∈ s, urlSafe c = true) : (10 : Byte) ∉ s :=
  fun hm => absurd (h 10 hm) (by decide)

theorem idFields_lines (o : ClientOpt) (t : Drawn) : LineFields (idFields o t) := by
  have hid : ∀ c ∈ t.newId, urlSafe c = true := by
    have hgood := t.newIdGood
    unfold sessionIsGoodId at hgood
    rw [Bool.and_eq_true, List.all_eq_true] at hgood
    exact fun c hc => urlSafe_of_isxdigit (hgood.2 c hc)
  have hline := urlSafe_line hid
  have hset : (10 : Byte) ∉ bytes "Set-Cookie" := by decide
  intro f hf
  simp only [idFields, List.mem_cons, List.not_mem_nil, or_false] at hf
  rcases hf with rfl | rfl
  · refine ⟨hset, ?_⟩
    have hrest : (10 : Byte) ∉ bytes "=; expires=Wed, 01-Jan-1990 10:10:10 GMT" := by decide
    simp [o.nameLine, hrest]
  · refine ⟨hset, ?_⟩
    rw [uUrlncpyEncode_safe hid]
    simp [o.nameLine, hline]

theorem cookieFields_lines (m : Mac) {iv buf : List Byte} (hiv : iv ≠ []) (hbuf : buf ≠ [])
    (sid : Str) (now : Int32) :
    LineFields ((cookieTexts m (signedFor iv buf sid now)).map fun c =>
      ⟨bytes "Set-Cookie", c⟩) := by
  have hset : (10 : Byte) ∉ bytes "Set-Cookie" := by decide
  intro f hf
  obtain ⟨c, hc, rfl⟩ := List.mem_map.mp hf
  rw [cookieTexts_eq] at hc
  obtain ⟨p, hp, rfl⟩ := List.mem_map.mp hc
  obtain ⟨hsafe, -⟩ := cookiePairs_safe m hiv hbuf sid now p hp
  have hname := urlSafe_line hsafe.nameSafe
  have hvalue := urlSafe_line hsafe.valueSafe
  exact ⟨hset, by simp [hname, hvalue]⟩

/-- What `session_free` adds to the header. -/
theorem clientSessionFree_adds (date : ℤ → Option Str) (o : ClientOpt) (t : Drawn) (ss : ClientSes)
    (header : Header) (hremoved : ss.removed = false) (hvars : ss.vars ≠ [])
    (hbuf : sealedBuf o t ss.vars ≠ [])
    (hcheck : (sealedBuf o t ss.vars).length ≤ COOKIE_MAX_SIZE) :
    clientSessionFree date o t ss header = header ++ (if ss.id = [] then idFields o t else []) ++
      (cookieTexts o.mac (signedFor t.iv (sealedBuf o t ss.vars) (clientId t ss.id) t.now)).map
        fun c => ⟨bytes "Set-Cookie", c⟩ := by
  have hiv := iv_ne_nil t.ivLength
  have hsave := sessionClientSave_sets date o.mac hiv hbuf hcheck (clientId t ss.id) t.now
  have hfields : ∀ cs : List Str, (cs.map cookieField).filterMap (·.field) = cs.map fun c =>
      ⟨bytes "Set-Cookie", c⟩ := by
    intro cs
    rw [List.filterMap_map]
    simp [cookieField, Function.comp_def]
  unfold clientSessionFree clientSessionSave
  by_cases hid : ss.id = []
  · rw [hid] at hsave
    simp [hremoved, hvars, hid, sessionGenId_eq, hsave, addFields, hfields]
  · simp [hremoved, hvars, hid, hsave, addFields, hfields]

/-- A client finds the cookies of the final variables when the page fits in the buffer of
the filter, and the text of the session in the buffers of the save. -/
theorem client_session_received {d : Device} {received : d.State → Str} (hd : Accepts d received)
    (date : ℤ → Option Str) (o : ClientOpt) (t : Drawn) {rs : Response} {ss : ClientSes}
    {calls : List PageCall} {io : Io d} (hio : Unwritten io) (hlines : LineFields rs.header)
    (hremoved : ss.removed = false) (hvars : pageVars ss.vars calls ≠ [])
    (hpage : (pageBytes calls).length < RFBUFSZ)
    (hbuf : sealedBuf o t (pageVars ss.vars calls) ≠ [])
    (hfits : 2 * (sealedBuf o t (pageVars ss.vars calls)).length + 16 < COOKIE_BUFSZ) :
    (∃ io', DypageServes date o t rs ss calls io io') ∧
      ∀ io', DypageServes date o t rs ss calls io io' →
        ∃ bs, received io'.dev = received io.dev ++ bs ∧ SessionReceived o t ss calls bs := by
  obtain ⟨io₁, hserves, hrec⟩ := dypage_sends date o t hd rs ss calls hio
  refine ⟨⟨io₁, hserves⟩, ?_⟩
  intro io' h
  obtain rfl := hserves.unique date o t h
  refine ⟨_, hrec, ?_⟩
  have hshort : ¬ ((pageResponse rs).method ≠ .head ∧ RFBUFSZ ≤ (pageBytes calls).length) :=
    fun hc => by omega
  have hcheck : (sealedBuf o t (pageVars ss.vars calls)).length ≤ COOKIE_MAX_SIZE := by
    unfold COOKIE_BUFSZ at hfits
    unfold COOKIE_MAX_SIZE
    omega
  have hiv := iv_ne_nil t.ivLength
  have hheader : (finalResponse date o t rs ss calls).header = (pageResponse rs).header ++
      (if ss.id = [] then idFields o t else []) ++
      (finalCookies o t ss calls).map fun c => ⟨bytes "Set-Cookie", c⟩ := by
    unfold finalResponse
    simp only [if_neg hshort]
    exact clientSessionFree_adds date o t { ss with
      vars := pageVars ss.vars calls } _ hremoved hvars hbuf hcheck
  have hline : LineFields (finalResponse date o t rs ss calls).header := by
    rw [hheader]
    refine lineFields_append (lineFields_append (pageResponse_lines hlines) ?_) ?_
    · split
      · exact idFields_lines o t
      · exact fun f hf => absurd hf List.not_mem_nil
    · exact cookieFields_lines o.mac hiv hbuf _ _
  intro cookie hc
  have hf : (⟨bytes "Set-Cookie", cookie⟩ : Field) ∈
      (finalResponse date o t rs ss calls).header := by
    rw [hheader]
    exact List.mem_append_right _ (List.mem_map.mpr ⟨cookie, hc, rfl⟩)
  have hmem := mem_headerLines hline (rs.body (pageBytes calls)) hf
  have hname : bytes "Set-Cookie" ++ bytes ": " = bytes "Set-Cookie: " := rfl
  rw [fieldLine, hname] at hmem
  exact hmem

/-- AES-256-CBC with a key of zeros and the vector of `sampleDrawn`, on the session of one variable;
of any other text it gives the length. -/
def sampleSeal (text : Str) : List Byte :=
  if text = bytes "a=1%00\n" then
    [162, 186, 168, 252, 72, 246, 156, 103, 152, 37, 43, 62, 109, 152, 222, 169]
  else text ++ List.replicate (16 - text.length % 16) 0

/-- HMAC-SHA1 with the key `klone` on what is signed of that session. -/
def sealMac : Mac where
  hash s :=
    if s = bytes "a2baa8fc48f69c6798252b3e6d98dea9" ++ bytes "0123456789abcdef0123456789abcdef" ++
      bytes "1300000000" ++
        bytes "000102030405060708090a0b0c0d0e0f" then
      [4, 165, 232, 37, 128, 50, 96, 127, 162, 148, 207, 22, 10, 52, 219, 246, 15, 167, 222, 199]
    else sampleMac.hash s
  nonempty s := by
    split
    · exact List.cons_ne_nil _ _
    · exact sampleMac.nonempty s

def sampleOpt : ClientOpt where
  name := bytes "klone_sid"
  mac := sealMac
  key := ⟨32, fun _ => none, fun _ => none⟩
  encode _ text := sampleSeal text
  nameFits := by decide
  nameLine := by decide

def sampleDrawn : Drawn where
  newId := bytes "0123456789abcdef0123456789abcdef"
  newIdGood := rfl
  iv := [0, 1, 2, 3, 4, 5, 6, 7, 8, 9, 10, 11, 12, 13, 14, 15]
  ivLength := rfl
  now := 1300000000

def newSession : ClientSes := ⟨[], [], false⟩

def sampleResponse : Response :=
  responseFor false .get (bytes "klone/2.2.0") (bytes "Sun, 13 Mar 2011 07:06:40 GMT")

def countPage (value text : Str) : List PageCall := [.session (.set (bytes "a") value), .write text]

def newStream : Io fifo := ioCreate (d := fifo) [] []

theorem newStream_unwritten : Unwritten newStream := ⟨rfl, rfl, rfl⟩

theorem client_session_received_short :
    (∃ io', DypageServes (fun _ => none) sampleOpt sampleDrawn sampleResponse newSession
      (countPage (bytes "1") (bytes "hi"))
      newStream io') ∧
    ∀ io', DypageServes (fun _ => none) sampleOpt sampleDrawn sampleResponse newSession
    (countPage (bytes "1") (bytes "hi"))
      newStream io' → ∃ bs, io'.dev = [] ++ bs ∧
        SessionReceived sampleOpt sampleDrawn newSession
          (countPage (bytes "1") (bytes "hi")) bs := by
  refine client_session_received fifo_accepts
    (fun _ => none) sampleOpt sampleDrawn newStream_unwritten ?_ rfl ?_ ?_ ?_ ?_
  · unfold LineFields
    decide
  · decide
  · decide
  · decide
  · decide

def Lost (value text : Str) : Prop :=
  ∃ io', DypageServes (fun _ => none) sampleOpt sampleDrawn sampleResponse newSession
    (countPage value text) newStream io' ∧
    ¬ SessionReceived sampleOpt sampleDrawn newSession (countPage value text) io'.dev

theorem lost_of {value text : Str}
    (h : bytes "Set-Cookie: KL1_CLISES_DATA=" ++
      uHexncpyEncode (sealedBuf sampleOpt sampleDrawn (pageVars [] (countPage value text))) ++
        [13] ∉ headerLines ((finalResponse (fun _ => none) sampleOpt sampleDrawn sampleResponse
          newSession (countPage value text)).printed ++
            sampleResponse.body (pageBytes (countPage value text)))) :
    Lost value text := by
  obtain ⟨io', hserves, hrec⟩ :=
    dypage_sends (fun _ => none) sampleOpt sampleDrawn fifo_accepts sampleResponse newSession
    (countPage value text) newStream_unwritten
  have hrec : io'.dev = _ := hrec.trans (List.nil_append _)
  refine ⟨io', hserves, fun hall => h ?_⟩
  have hdata := hall (KL1_CLISES_DATA ++ 61 :: uHexncpyEncode (sealedBuf sampleOpt sampleDrawn
    (pageVars [] (countPage value text)))) (List.mem_cons_of_mem _ List.mem_cons_self)
  have hname : bytes "Set-Cookie: " ++ (KL1_CLISES_DATA ++ [61]) =
      bytes "Set-Cookie: KL1_CLISES_DATA=" := by
    rfl
  rw [hrec] at hdata
  rw [← hname]
  simpa [HasCookie] using hdata

/-- A variable of 4096 bytes is refused by the save, and a page of 4096 bytes has had its
header sent by the time the session is saved. -/
theorem client_session_lost :
    Lost (List.replicate 4096 97) (bytes "hi") ∧ Lost (bytes "1") (List.replicate 4096 120) := by
  refine ⟨lost_of ?_, lost_of ?_⟩
  · decide +kernel
  · decide +kernel

end Klone.Session
