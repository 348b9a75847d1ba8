import Klone.Emb.Translate
import Klone.Request.Vars
import Klone.Response.Fields
import Klone.Response.Filter

/-! # Serving an embedded file

The file is written through a decrypting and an inflating codec, as far as they are
needed, and the response filter, which prints the header first. A client that accepts
deflated content gets a compressed file as it is, if the virtual host is configured so.
The cipher key is taken from the session; opening the session can add cookies to the
response.
-/
namespace Klone.Emb
open Klone.Chain Klone.Page Loop

structure StaticRequest where
  method : Method
  header : Header
  sendEncDeflate : Bool

/-- The variables of a session, and the cookies that are set when it is opened and
closed. -/
structure KeySession where
  vars : List Var
  cookies : List Str

def SESSION_KEY_VAR : Str := bytes "KLONE_CIPHER_KEY"

def CODEC_CIPHER_KEY_BUFSZ : ℕ := 2 * CODEC_CIPHER_KEY_LEN

def HTTP_STATUS_EXT_KEY_NEEDED : Int32 := 430

/-- The key, followed by zeros; there is none without session or variable, or if it is too long. -/
def supembGetCipherKey (ss : Option KeySession) : Option Str :=
  ss.bind fun ss => (varsGet ss.vars SESSION_KEY_VAR).bind fun v =>
    if CODEC_CIPHER_KEY_BUFSZ < v.value.length then none
    else some (v.value ++ List.replicate (CODEC_CIPHER_KEY_BUFSZ - v.value.length) 0)

def addCookies (rs : Response) (ss : Option KeySession) : Response :=
  { rs with
      header := rs.header ++ (ss.elim [] KeySession.cookies).map fun value => ⟨bytes "Set-Cookie", value⟩ }

/-- The response, and whether the data is sent as it is; `none` for an error. -/
def supembStaticSetHeaderFields (date : ℤ → Option Str) (rq : StaticRequest) (rs : Response)
    (e : EmbFile) :
    Response × Option Bool :=
  let rs := responseSetContentType rs e.mimeType
  match responseSetLastModified date rs e.mtime with
  | none => (rs, none)
  | some rs =>
    let rs := responseSetContentLength rs e.fileSize
    if rq.sendEncDeflate && e.comp && requestIsEncodingAccepted rq.header (bytes "deflate") then
      (responseSetContentLength (responseSetContentEncoding rs (bytes "deflate")) e.size, some true)
    else (rs, some false)

variable {d : Device}

structure Served (d : Device) where
  io : Io d
  rs : Response
  ok : Bool

/-- The filter refers to the response and prints it as it is when the first bytes come
out. It has no session. -/
def staticFilter (rs : Response) : Codec := responseFilterCreate some rs false

/-- An error without bytes written: the codecs are removed. -/
def supembFail (n : ℕ) (rs : Response) (ok : Bool) (io : Io d) : Option (Served d) :=
  (ioCodecsRemove n (ioCodecAddTail io (staticFilter rs))).map fun r => ⟨r.1, rs, ok⟩

def supembSent (rs : Response) (decrypting : Bool) (r : Io d × Bool) : Served d :=
  if r.2 then ⟨r.1, rs, true⟩
  else if decrypting then ⟨r.1, responseSetStatus rs HTTP_STATUS_EXT_KEY_NEEDED, true⟩
  else ⟨r.1, rs, false⟩

/-- The data is written and the codecs are removed. An error of `io_write` is not seen:
its `-1` is compared as an unsigned number with the size. -/
def supembSend (n : ℕ) (rs : Response) (decrypting : Bool) (data : Str) (io : Io d) :
    Option (Served d) :=
  (ioWrite n io data).bind fun w => (ioCodecsRemove n w.1).map (supembSent rs decrypting)

section Serve
variable (lib : Libs) (date : ℤ → Option Str)

/-- The filters of the content, before the response filter. -/
def staticCodecs (sai : Bool) (e : EmbFile) (key : Option Str) (rs : Response) (io : Io d) : Io d :=
  let io := ioCodecAddTail io (staticFilter rs)
  let io := if e.comp && !sai then ioCodecAddHead io (codecGzipCreate lib.inflate .uncompress)
    else io
  match key with
  | none => io
  | some key => ioCodecAddHead io (codecCipherCreate (lib.decrypt (key.take CODEC_CIPHER_KEY_LEN)))

def supembServeStatic (n : ℕ) (rq : StaticRequest) (rs : Response) (e : EmbFile)
    (ss : Option KeySession) (io : Io d) :
    Option (Served d) :=
  match supembStaticSetHeaderFields date rq rs e with
  | (rs, none) => supembFail n rs false io
  | (rs, some sai) =>
    if rq.method = .head then some ⟨ioCodecAddTail io (staticFilter rs), rs, true⟩
    else if e.encrypted then
      match supembGetCipherKey ss with
      | none => supembFail n (responseSetStatus (addCookies rs ss) HTTP_STATUS_EXT_KEY_NEEDED) true io
      | some key =>
        let rs := responseDisableCaching (addCookies rs ss)
        supembSend n rs true e.data (staticCodecs lib sai e (some key) rs io)
    else supembSend n rs false e.data (staticCodecs lib sai e none rs io)

def ioFree (n : ℕ) (io : Io d) : Option (Io d) :=
  (ioCodecsRemove n io).bind fun r => (ioFlush n r.1).map Prod.fst

/-- An embedded file is served and the connection closed. -/
def staticSession (n : ℕ) (rq : StaticRequest) (rs : Response) (e : EmbFile)
    (ss : Option KeySession) (io : Io d) :
    Option (Served d) :=
  (supembServeStatic lib date n rq rs e ss io).bind fun s => (ioFree n s.io).map fun io =>
    { s with io := io }

end Serve

def responseFor (cgi : Bool) (method : Method) (serverSig now : Str) : Response :=
  httpAddDefaultHeader ⟨cgi, method, 200, []⟩ serverSig now

/-! ## The chains of the server -/

def filterTail : Tail := ⟨False, False, True⟩

theorem rfCopy_out_ne {rf : Filter} {room : ℕ} {src : Str} (hroom : 0 < room) (hsrc : src ≠ []) :
    (rfCopy rf room src).out ≠ [] := by
  have hr : room ≠ 0 := by omega
  unfold rfCopy
  by_cases he : (rfRead rf room).2 = []
  · simp [he, hr, hsrc]
  · simp [he]

theorem responseFilter_greedy (setId : Header → Option Header) (rs : Response) (needsId : Bool) :
    (responseFilterCreate setId rs needsId).Greedy := by
  intro rf room src k hroom hsrc _ hret hout
  change (rfFeed setId _ room src).ret = some k at hret
  change (rfFeed setId _ room src).out = [] at hout
  unfold rfFeed at hret hout
  split at hret
  · exact (Option.some.inj hret).symm
  · next hm =>
    rw [if_neg hm] at hout
    split at hret
    · exact (Option.some.inj hret).symm
    · next hb =>
      rw [if_neg hb] at hout
      split at hret
      · cases hret
      · next ho =>
        rw [ho] at hout
        exact absurd hout (rfCopy_out_ne hroom hsrc)

theorem staticFilter_feeding (rs : Response) (total : Str) :
    Feeding filterTail [codecCreate (staticFilter rs)] total
    [sentBytes some rs false total] [] [] :=
  .last ⟨responseFilter_computes (fun h => absurd h Bool.false_ne_true) total, False.elim,
    fun _ => responseFilter_greedy some rs false⟩ Codec.Open.init

section Chains
variable {lib : Libs} {deflated : Str → Str} {encrypted : Str → Str → Str} {ti : TransInfo}

def sentBody (deflated : Str → Str) (sai : Bool) (file : Str) : Str :=
  if sai then deflated file else file

/-- Inflating what was packed. -/
theorem unpack_feeding (hlib : lib.Laws deflated encrypted) (ti : TransInfo) (sai : Bool)
    (hsai : sai = true → ti.comp = true) (rs : Response) (file : Str) :
    ∃ results, results.getLastD (packed deflated ti file) =
    sentBytes some rs false (sentBody deflated sai file) ∧
      Feeding filterTail
        (if ti.comp && !sai then
          codecCreate (codecGzipCreate lib.inflate .uncompress) :: [codecCreate (staticFilter rs)]
          else [codecCreate (staticFilter rs)]) (packed deflated ti file) results [] [] := by
  by_cases hun : ti.comp = true ∧ sai = false
  · obtain ⟨hcomp, rfl⟩ := hun
    have hinf := hlib.inflate file
    refine ⟨[file, sentBytes some rs false file], rfl, ?_⟩
    simp only [packed, hcomp, Bool.not_false, Bool.and_true, if_true]
    exact .link (Or.inr ⟨trivial, rfl⟩)
      (codecCreate_head (codecGzip_computes hinf) (codecGzip_quiet hinf))
      (staticFilter_feeding rs file)
  · have hbody : sentBody deflated sai file = packed deflated ti file := by
      unfold sentBody packed
      cases sai with
      | false => simp [show ti.comp ≠ true from fun h => hun ⟨h, rfl⟩]
      | true => simp [hsai rfl]
    have hno : (ti.comp && !sai) = false := by
      cases hc : ti.comp <;> cases hs : sai <;> simp_all
    rw [hbody, hno]
    exact ⟨[sentBytes some rs false (packed deflated ti file)], rfl, staticFilter_feeding rs _⟩

/-- The filters stand in the order in which they are applied. -/
theorem staticCodecs_eq (lib : Libs) (sai : Bool) (e : EmbFile) (key : Option Str) (rs : Response)
    {io : Io d} (hio : io.codecChain = []) :
    staticCodecs lib sai e key rs io = io.setChain
      ((key.map fun key => codecCreate
        (codecCipherCreate (lib.decrypt (key.take CODEC_CIPHER_KEY_LEN)))).toList ++
        if e.comp && !sai then [codecCreate (codecGzipCreate lib.inflate .uncompress),
          codecCreate (staticFilter rs)]
        else [codecCreate (staticFilter rs)]) := by
  unfold staticCodecs ioCodecAddTail ioCodecAddHead
  cases hun : e.comp && !sai <;> cases key <;> simp [hio, Io.setChain]

/-- The chain undoes what the translator did, as far as it is asked for. -/
theorem staticCodecs_feeding (hlib : lib.Laws deflated encrypted) (sai : Bool)
    (hsai : sai = true → ti.comp = true) {key : Option Str}
    (hkey : key.map (·.take CODEC_CIPHER_KEY_LEN) = if ti.encrypt then
      some (ti.key.take CODEC_CIPHER_KEY_LEN) else none)
    (rs : Response) (file : Str) {io : Io d} (hio : io.codecChain = []) :
    ∃ results links,
      results.getLastD (stored deflated encrypted ti file) =
        sentBytes some rs false (sentBody deflated sai file) ∧
      staticCodecs lib sai (printStaticPageBlock ti (stored deflated encrypted ti file)) key rs io =
        io.setChain links ∧
      Feeding filterTail links (stored deflated encrypted ti file) results [] [] := by
  obtain ⟨results, hlast, hf⟩ := unpack_feeding hlib ti sai hsai rs file
  have hlinks := staticCodecs_eq lib sai
    (printStaticPageBlock ti (stored deflated encrypted ti file)) key rs hio
  cases henc : ti.encrypt with
  | false =>
    rw [henc, if_neg Bool.false_ne_true, Option.map_eq_none_iff] at hkey
    have hst : stored deflated encrypted ti file = packed deflated ti file := by simp [stored, henc]
    rw [hst] at hlinks ⊢
    refine ⟨results, _, hlast, hlinks, ?_⟩
    rw [hkey]
    exact hf
  | true =>
    rw [henc, if_pos rfl] at hkey
    obtain ⟨key, rfl, hk⟩ := Option.map_eq_some_iff.mp hkey
    have hst : stored deflated encrypted ti file =
        encrypted (ti.key.take CODEC_CIPHER_KEY_LEN) (packed deflated ti file) := by
          simp [stored, henc]
    have hdec : (codecCipherCreate _).Computes True False _ _ :=
      codecCipher_computes (hlib.decrypt (ti.key.take CODEC_CIPHER_KEY_LEN)
        (packed deflated ti file))
    rw [hst] at hlinks ⊢
    refine ⟨packed deflated ti file :: results, _, ?_, hlinks, ?_⟩
    · rw [List.getLastD_cons]
      exact hlast
    · rw [Option.map_some, hk]
      exact .link (Or.inl trivial) (codecCreate_head hdec (hdec.quiet trivial)) hf

end Chains

/-! ## The bytes on the connection -/

structure Unwritten (io : Io d) : Prop where
  chain : io.codecChain = []
  wbuf : io.wbuf = none
  wcount : io.wcount = 0

theorem Unwritten.writing {io : Io d} (h : Unwritten io) (received : d.State → Str)
    {links : List Link} {q : Tail} {total : Str} {results : List Str}
    (hf : Feeding q links total results [] []) :
    Writing received q total results (received io.dev) [] (io.setChain links) := by
  refine ⟨⟨?_, ?_, fun _ => h.wcount⟩, [], hf, ?_⟩
  · change io.wcount ≤ _
    rw [h.wcount]
    exact Nat.zero_le _
  · intro mem hm
    cases h.wbuf.symm.trans hm
  · change received io.dev ++ window _ 0 io.wcount = _
    rw [h.wcount, window_zero]

/-- The codecs are removed and the write buffer is flushed. -/
theorem ioFree_ends {received : d.State → Str} (hd : Accepts d received) {io : Io d}
    (hok : io.WriteOk) (hchain : io.codecChain = []) :
    ∃ io', Ends (fun n => ioFree n io) io' ∧ received io'.dev = io.sent received := by
  obtain ⟨dev', hends, hrec⟩ := ioFlush_ends hd hok
  refine ⟨{ io with dev := dev', wcount := 0 }, ?_, hrec⟩
  unfold ioFree ioCodecsRemove
  have hnil : io.codecChain.isEmpty = true := by simp [hchain]
  simp only [hnil, if_true, Option.bind_some]
  exact hends.map Prod.fst

/-- The filtered data reaches the connection. -/
theorem supembSend_ends {received : d.State → Str} (hd : Accepts d received) {io : Io d}
    (hio : Unwritten io) {links : List Link} {q : Tail} {data : Str} {results : List Str}
    (hf : Feeding q links data results [] []) (rs : Response) (decrypting : Bool) :
    ∃ io', Ends (fun n => supembSend n rs decrypting data (io.setChain links)) ⟨io', rs, true⟩ ∧
    io'.WriteOk ∧
      io'.codecChain = [] ∧ io'.sent received = received io.dev ++ results.getLastD data := by
  obtain ⟨io₁, hwrite, hw, hwr⟩ := ioWrite_ends hd (hio.writing received hf) List.prefix_rfl
  obtain ⟨io₂, hremove, hok, hchain, hsent⟩ := ioCodecsRemove_ends hd hwr hw
  refine ⟨io₂, ?_, hok, hchain, hsent⟩
  exact hwrite.bind (g := fun n w => (ioCodecsRemove n w.1).map (supembSent rs decrypting))
    (hremove.map_eq rfl)

def staticResponse (date : ℤ → Option Str) (rq : StaticRequest) (rs : Response) (e : EmbFile)
    (ss : Option KeySession) :
    Response :=
  let rs := (supembStaticSetHeaderFields date rq rs e).1
  if e.encrypted then responseDisableCaching (addCookies rs ss) else rs

def sendAsIs (rq : StaticRequest) (e : EmbFile) : Bool :=
  rq.sendEncDeflate && e.comp && requestIsEncodingAccepted rq.header (bytes "deflate")

/-- With a date for the file all fields are set. -/
theorem supembStaticSetHeaderFields_dated {date : ℤ → Option Str} (rq : StaticRequest)
    (rs : Response) {e : EmbFile} (hdate : (date e.mtime).isSome = true) : ∃ stamp dated,
      dated = responseSetContentLength
        (responseSetField (responseSetContentType rs e.mimeType) (bytes "Last-Modified") stamp)
          e.fileSize ∧
      supembStaticSetHeaderFields date rq rs e =
        if sendAsIs rq e then
          (responseSetContentLength (responseSetContentEncoding dated (bytes "deflate")) e.size,
            some true)
        else (dated, some false) := by
  obtain ⟨stamp, hs⟩ := Option.isSome_iff_exists.mp hdate
  refine ⟨stamp, _, rfl, ?_⟩
  unfold supembStaticSetHeaderFields responseSetLastModified
  rw [hs]
  rfl

theorem supembStaticSetHeaderFields_sai {date : ℤ → Option Str} (rq : StaticRequest) (rs : Response)
    {e : EmbFile} (hdate : (date e.mtime).isSome = true) :
    (supembStaticSetHeaderFields date rq rs e).2 = some (sendAsIs rq e) := by
  obtain ⟨-, dated, -, heq⟩ := supembStaticSetHeaderFields_dated rq rs hdate
  rw [heq]
  cases sendAsIs rq e <;> rfl

theorem supembStaticSetHeaderFields_method (date : ℤ → Option Str) (rq : StaticRequest)
    (rs : Response) (e : EmbFile) :
    (supembStaticSetHeaderFields date rq rs e).1.method = rs.method := by
  unfold supembStaticSetHeaderFields responseSetLastModified
  cases date e.mtime with
  | none => rfl
  | some stamp =>
    cases rq.sendEncDeflate && e.comp && requestIsEncodingAccepted rq.header
      (bytes "deflate") <;> rfl

theorem staticResponse_method (date : ℤ → Option Str) (rq : StaticRequest) (rs : Response)
    (e : EmbFile) (ss : Option KeySession) :
    (staticResponse date rq rs e ss).method = rs.method := by
  rw [← supembStaticSetHeaderFields_method date rq rs e]
  unfold staticResponse
  cases e.encrypted <;> rfl

theorem staticFilter_sends {rs : Response} (hm : rs.method ≠ .head) (page : Str) :
    sentBytes some rs false page = rs.printed ++ page := by
  unfold sentBytes sentResponse
  rw [if_neg fun h => absurd h.1 Bool.false_ne_true, Response.body_of_ne hm]

section Get
variable {lib : Libs} {deflated : Str → Str} {encrypted : Str → Str → Str} {ti : TransInfo}
    {date : ℤ → Option Str}
  {rq : StaticRequest} {rs : Response} {ss : Option KeySession}

/-- The key of the session is the one that the file was encrypted with. -/
def RightKey (ti : TransInfo) (ss : Option KeySession) : Prop :=
  ti.encrypt = true →
    (supembGetCipherKey ss).map (·.take CODEC_CIPHER_KEY_LEN) =
      some (ti.key.take CODEC_CIPHER_KEY_LEN)

theorem supembServeStatic_get {received : d.State → Str} (hlib : lib.Laws deflated encrypted)
    (hd : Accepts d received) (hdate : (date ti.mtime).isSome = true) (hkey : RightKey ti ss)
    (hget : rq.method ≠ .head) (hrs : rs.method ≠ .head) {io : Io d} (hio : Unwritten io)
    (file : Str) {e : EmbFile}
    (he : e = printStaticPageBlock ti (stored deflated encrypted ti file)) :
    ∃ io', Ends (fun n => supembServeStatic lib date n rq rs e ss io)
    ⟨io', staticResponse date rq rs e ss, true⟩ ∧
      io'.WriteOk ∧ io'.codecChain = [] ∧ io'.sent received = received io.dev ++
        ((staticResponse date rq rs e ss).printed ++ sentBody deflated (sendAsIs rq e) file) := by
  have hmethod := staticResponse_method date rq rs e ss
  have hsai : sendAsIs rq e = true → ti.comp = true := by
    intro h
    simp only [sendAsIs, he, printStaticPageBlock, Bool.and_eq_true] at h
    exact h.1.2
  have hfields : supembStaticSetHeaderFields date rq rs e =
      ((supembStaticSetHeaderFields date rq rs e).1, some (sendAsIs rq e)) := by
    rw [← supembStaticSetHeaderFields_sai rq rs (e := e) (by rw [he]; exact hdate)]
  have hsend : ∀ key, key.map (·.take CODEC_CIPHER_KEY_LEN) =
      (if ti.encrypt then some (ti.key.take CODEC_CIPHER_KEY_LEN) else none) →
      ∃ io', Ends (fun n => supembSend n (staticResponse date rq rs e ss) e.encrypted e.data
          (staticCodecs lib (sendAsIs rq e) e key (staticResponse date rq rs e ss) io))
          ⟨io', staticResponse date rq rs e ss, true⟩ ∧ io'.WriteOk ∧ io'.codecChain = [] ∧
        io'.sent received = received io.dev ++
          ((staticResponse date rq rs e ss).printed ++ sentBody deflated (sendAsIs rq e) file) := by
    intro key hkey
    obtain ⟨results, links, hlast, hlinks, hf⟩ :=
      staticCodecs_feeding hlib (sendAsIs rq e) hsai hkey
      (staticResponse date rq rs e ss) file hio.chain
    have hdata : e.data = stored deflated encrypted ti file := by rw [he]; rfl
    rw [← he] at hlinks
    rw [hlinks, hdata, ← staticFilter_sends (hmethod ▸ hrs), ← hlast]
    exact supembSend_ends hd hio hf _ _
  unfold supembServeStatic
  rw [hfields]
  simp only [if_neg hget]
  have henc : e.encrypted = ti.encrypt := by rw [he]; rfl
  cases hte : ti.encrypt with
  | false =>
    rw [hte] at henc hsend
    have hresp : staticResponse date rq rs e ss = (supembStaticSetHeaderFields date rq rs e).1 := by
      simp [staticResponse, henc]
    have hnone := hsend none rfl
    rw [hresp, henc] at hnone
    rw [henc, hresp]
    exact hnone
  | true =>
    rw [hte] at henc hsend
    have hresp : staticResponse date rq rs e ss =
        responseDisableCaching (addCookies (supembStaticSetHeaderFields date rq rs e).1 ss) := by
      simp [staticResponse, henc]
    obtain ⟨key, hk, htake⟩ := Option.map_eq_some_iff.mp (hkey hte)
    have hsome := hsend (some key) (congrArg some htake)
    rw [hresp, henc] at hsome
    rw [henc, hk, hresp]
    exact hsome

/-- The header and the file, deflated or not, are what the client of a `GET` gets. -/
theorem staticSession_get {received : d.State → Str} (hlib : lib.Laws deflated encrypted)
    (hd : Accepts d received) (hdate : (date ti.mtime).isSome = true) (hkey : RightKey ti ss)
    (hget : rq.method ≠ .head) (hrs : rs.method ≠ .head) {io : Io d} (hio : Unwritten io)
    (file : Str) {e : EmbFile}
    (he : e = printStaticPageBlock ti (stored deflated encrypted ti file)) :
    ∃ io', Ends (fun n => staticSession lib date n rq rs e ss io)
    ⟨io', staticResponse date rq rs e ss, true⟩ ∧
      received io'.dev = received io.dev ++
        ((staticResponse date rq rs e ss).printed ++ sentBody deflated (sendAsIs rq e) file) := by
  obtain ⟨io₁, hserve, hok, hchain, hsent⟩ :=
    supembServeStatic_get hlib hd hdate hkey hget hrs hio file he
  obtain ⟨io₂, hfree, hrec⟩ := ioFree_ends hd hok hchain
  refine ⟨io₂, ?_, hrec.trans hsent⟩
  exact hserve.bind (g := fun n s => (ioFree n s.io).map fun io => { s with
    io := io }) (hfree.map_eq rfl)

end Get

end Klone.Emb
