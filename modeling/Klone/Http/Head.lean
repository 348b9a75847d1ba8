import Klone.Emb.EndToEnd
import Klone.Io.CopyLoops

/-! # `HEAD` and `GET` on static resources

The file-system supplier prints the header itself and leaves the content out for
`HEAD`. The embedded supplier leaves the header to the response filter, which is
flushed only when something has been written: for `HEAD` nothing has. A resource that
was not modified is answered with a header alone, whatever the supplier.
-/
namespace Klone.Static
open Klone.Chain Klone.Page Klone.Emb Loop

variable {d d₁ : Device}

def responsePrintHeaderToIo (n : ℕ) (rs : Response) (io : Io d) : Option (Io d × Bool) :=
  writeOps n ((responsePrintHeader rs).map .write) io

/-- A regular file: what `stat` says, the type guessed from the name, and the device
that is opened. -/
structure FsFile (d₁ : Device) where
  size : ℕ
  mtime : ℤ
  mimeType : Str
  dev : d₁.State

def fsSetHeaderFields (date : ℤ → Option Str) (rs : Response) (st : FsFile d₁) : Response × Bool :=
  let rs := responseSetContentType (responseSetContentLength rs st.size) st.mimeType
  match responseSetLastModified date rs st.mtime with
  | none => (rs, false)
  | some rs => (rs, true)

def answersZero : CopyEnd → Bool
  | .eof => true
  | _ => false

def fsContent (n : ℕ) (rs : Response) (st : FsFile d₁) (p : Io d × Bool) : Option (Served d) :=
  if p.2 = false then some ⟨p.1, rs, false⟩
  else if rs.method = .head then some ⟨p.1, rs, true⟩
  else (Chain.fsServe n (ioCreate st.dev []) p.1).map fun r => ⟨r.1.sink, rs, answersZero r.2⟩

def fsServe (date : ℤ → Option Str) (n : ℕ) (rs : Response) (st : FsFile d₁) (io : Io d) :
    Option (Served d) :=
  match fsSetHeaderFields date rs st with
  | (rs, false) => some ⟨io, rs, false⟩
  | (rs, true) => (responsePrintHeaderToIo n rs io).bind (fsContent n rs st)

inductive Resource (d₁ : Device) where
  | emb (e : EmbFile)
  | fs (st : FsFile d₁)

/-- The time of modification that the supplier reports; an encrypted resource is not cached. -/
def Resource.mtime : Resource d₁ → ℤ
  | .emb e => if e.encrypted then 0 else e.mtime
  | .fs st => st.mtime

def notModified (ims mtime : ℤ) : Bool := decide (ims ≠ 0 ∧ mtime ≠ 0 ∧ mtime ≤ ims)

def HTTP_STATUS_NOT_MODIFIED : Int32 := 304

section Serve
variable (lib : Libs) (date : ℤ → Option Str)

def serveResource (n : ℕ) (rq : StaticRequest) (rs : Response) (ss : Option KeySession)
    (io : Io d) :
    Resource d₁ → Option (Served d)
  | .emb e => supembServeStatic lib date n rq rs e ss io
  | .fs st => fsServe date n rs st io

def brokerServeStatic (n : ℕ) (ims : ℤ) (rq : StaticRequest) (rs : Response)
    (ss : Option KeySession) (io : Io d) (res : Resource d₁) : Option (Served d) :=
  if notModified ims res.mtime then
    let rs := responseSetStatus rs HTTP_STATUS_NOT_MODIFIED
    (responsePrintHeaderToIo n rs io).map fun p => ⟨p.1, rs, p.2⟩
  else serveResource lib date n rq rs ss io res

def staticConnection (n : ℕ) (ims : ℤ) (rq : StaticRequest) (rs : Response) (ss : Option KeySession)
    (io : Io d) (res : Resource d₁) : Option (Served d) :=
  (brokerServeStatic lib date n ims rq rs ss io res).bind fun s => (ioFree n s.io).map fun io =>
    { s with io := io }

end Serve

/-! ## Printing -/

section Printing
variable {received : d.State → Str} {io : Io d}

theorem writeOps_plain (hd : Accepts d received) (h : io.Plain) (pieces : List Str) :
    ∃ io', Ends (fun n => writeOps n (pieces.map .write) io) (io', true) ∧ io'.Plain ∧
      io'.sent received = io.sent received ++ pieces.flatten := by
  induction pieces generalizing io with
  | nil => exact ⟨io, Ends.const _, h, (List.append_nil _).symm⟩
  | cons piece pieces ih =>
    obtain ⟨io₁, hwrite, hkept⟩ := ioWrite_accepted hd h piece
    obtain ⟨io₂, hends, hplain, hsent⟩ := ih hkept.plain
    have hop : Ends (fun n => writeOp n io (.write piece)) (io₁, true) :=
      hwrite.map_eq (by simp)
    refine ⟨io₂, ?_, hplain, ?_⟩
    · exact hop.bind (g := fun n r => if r.2 then writeOps n (pieces.map .write) r.1
        else some r) hends
    · rw [hsent, hkept.sent, List.flatten_cons, List.append_assoc]

theorem unwritten_plain (h : Unwritten io) : io.Plain := by
  refine ⟨⟨?_, ?_, fun _ => h.wcount⟩, h.chain⟩
  · rw [h.wcount]
    exact Nat.zero_le _
  · intro mem hm
    cases h.wbuf.symm.trans hm

theorem unwritten_sent (h : Unwritten io) (received : d.State → Str) :
    io.sent received = received io.dev := by
  unfold Io.sent Io.buffered
  rw [h.wcount, window_zero, List.append_nil]

theorem responsePrintHeader_ends (hd : Accepts d received) (h : Unwritten io) (rs : Response) :
    ∃ io', Ends (fun n => responsePrintHeaderToIo n rs io) (io', true) ∧ io'.Plain ∧
      io'.sent received = received io.dev ++ rs.printed := by
  obtain ⟨io', hends, hplain, hsent⟩ :=
    writeOps_plain hd (unwritten_plain h) (responsePrintHeader rs)
  rw [unwritten_sent h] at hsent
  exact ⟨io', hends, hplain, hsent⟩

theorem printed_ne_nil (rs : Response) : rs.printed ≠ [] := by
  have hne : bytes "\r\n" ≠ [] := by decide
  unfold Response.printed responsePrintHeader
  simp [hne]

end Printing

/-! ## The file-system supplier -/

section FileSystem
variable {pending : d₁.State → Str} {received : d.State → Str} {date : ℤ → Option Str}

/-- Where the loop is in a file: what it has written and what it has still to read. -/
structure Copied (pending : d₁.State → Str) (received : d.State → Str) (sent rest : Str) (left : ℕ)
    (s : Pump d₁ (Io d)) :
    Prop where
  size : s.buf.length = BUFSZ
  plain : s.sink.Plain
  copied : ∃ done more, Input pending more s.io ∧ done ++ more = rest ∧
    s.sink.sent received = sent ++ done ∧
    more.length ≤ left

theorem fsLoop_ends (hd₁ : Delivers d₁ pending) (hd : Accepts d received) {src : Io d₁} {out : Io d}
    {rest : Str} (hsrc : Input pending rest src) (hout : out.Plain) :
    ∃ s : Pump d₁ (Io d), Ends (fun n => Chain.fsServe n src out) (s, .eof) ∧ s.sink.Plain ∧
      s.sink.sent received = out.sent received ++ rest := by
  have hrun := ends_run (pumpBody writeBlock)
    (I := fun m s => Copied pending received (out.sent received) rest m s)
    (Q := fun r => r.2 = .eof ∧ r.1.sink.Plain ∧ r.1.sink.sent received = out.sent received ++ rest)
    (m := rest.length) (s := ⟨src, List.replicate BUFSZ 0, out, []⟩)
    (fun m s => by
      rintro ⟨hsize, hplain, done, more, hin, hall, hsent, hm⟩
      obtain ⟨src', hread, hdel⟩ := ioRead_input hd₁ hin BUFSZ
      cases hbs : more.take BUFSZ with
      | nil =>
        have hnil : more = [] := (List.take_eq_nil_iff.mp hbs).resolve_left (by decide)
        subst hnil
        rw [List.append_nil] at hall
        subst hall
        exact Or.inr ⟨_, hread.bind (Ends.const _), rfl, hplain, hsent⟩
      | cons b bs =>
        rw [hbs] at hread hdel
        have hle : (b :: bs).length ≤ BUFSZ := hbs ▸ List.length_take_le _ _
        obtain ⟨hsize', hblock⟩ :=
          pumpRead_block writeBlock s src' hsize (List.cons_ne_nil b bs) hle
        obtain ⟨out', hwrite, hkept⟩ := ioWrite_accepted hd hplain (b :: bs)
        have hmore : more = (b :: bs) ++ more.drop (b :: bs).length :=
          List.prefix_iff_eq_append.mp hdel.begins |>.symm
        have hlen : (more.drop (b :: bs).length).length < more.length := by
          rw [List.length_drop]
          have hpos : 0 < more.length := List.length_pos_iff.mpr fun he => by simp [he] at hbs
          exact Nat.sub_lt hpos (Nat.succ_pos _)
        refine Or.inl ⟨⟨src', store s.buf (b :: bs), out',
          s.passed ++ [(b :: bs, (b :: bs).length)]⟩,
          (more.drop (b :: bs).length).length,
            hread.bind ?_, by omega, hsize', hkept.plain, done ++ b :: bs, _, hdel.input,
          ?_, ?_, le_refl _⟩
        · simp only [hblock, writeBlock_block]
          exact (hwrite.map_eq rfl).map_eq rfl
        · rw [List.append_assoc, ← hmore, hall]
        · rw [hkept.sent, hsent, List.append_assoc])
    ⟨List.length_replicate, hout, [], rest, hsrc, rfl, (List.append_nil _).symm, le_refl _⟩
  obtain ⟨⟨s, how⟩, ⟨rfl, hplain, hsent⟩, hends⟩ := hrun
  exact ⟨s, hends, hplain, hsent⟩

def fsResponse (date : ℤ → Option Str) (rs : Response) (st : FsFile d₁) : Response :=
  (fsSetHeaderFields date rs st).1

theorem fsSetHeaderFields_ok {rs : Response} {st : FsFile d₁}
    (hdate : (date st.mtime).isSome = true) :
    fsSetHeaderFields date rs st = (fsResponse date rs st, true) := by
  obtain ⟨stamp, hs⟩ := Option.isSome_iff_exists.mp hdate
  unfold fsResponse fsSetHeaderFields responseSetLastModified
  rw [hs]
  rfl

theorem fsResponse_method (date : ℤ → Option Str) (rs : Response) (st : FsFile d₁) :
    (fsResponse date rs st).method = rs.method := by
  unfold fsResponse fsSetHeaderFields responseSetLastModified
  cases date st.mtime <;> rfl

/-- The header does not depend on the method. -/
theorem fsResponse_printed (date : ℤ → Option Str) (cgi : Bool) (method method' : Method)
    (serverSig now : Str) (st : FsFile d₁) :
    (fsResponse date (responseFor cgi method serverSig now) st).printed =
      (fsResponse date (responseFor cgi method' serverSig now) st).printed := by
  unfold fsResponse fsSetHeaderFields responseSetLastModified
  cases date st.mtime <;> rfl

/-- The header, and for other methods than `HEAD` the content. -/
theorem fsServe_ends (hd₁ : Delivers d₁ pending) (hd : Accepts d received) (rs : Response)
    {st : FsFile d₁} (hdate : (date st.mtime).isSome = true) {io : Io d} (hio : Unwritten io) :
    ∃ io', Ends (fun n => fsServe date n rs st io) ⟨io', fsResponse date rs st, true⟩ ∧ io'.Plain ∧
      io'.sent received = received io.dev ++
        ((fsResponse date rs st).printed ++ rs.body (pending st.dev)) := by
  obtain ⟨io₁, hprint, hplain, hsent⟩ := responsePrintHeader_ends hd hio (fsResponse date rs st)
  have hmethod := fsResponse_method date rs st
  unfold fsServe
  rw [fsSetHeaderFields_ok hdate]
  by_cases hm : rs.method = .head
  · refine ⟨io₁, hprint.bind (g := fun n => fsContent n (fsResponse date rs st) st) ?_, hplain, ?_⟩
    · simp only [fsContent, hmethod, hm, Bool.true_eq_false, if_false, if_true]
      exact Ends.const _
    · rw [hsent, Response.body_of_head hm, List.append_nil]
  · obtain ⟨t, hbody, hplain₂, hsent₂⟩ := fsLoop_ends hd₁ hd (ioCreate_input pending st.dev) hplain
    refine ⟨t.sink, hprint.bind (g := fun n => fsContent n (fsResponse date rs st) st) ?_,
      hplain₂, ?_⟩
    · simp only [fsContent, hmethod, hm, Bool.true_eq_false, if_false]
      exact hbody.map_eq rfl
    · rw [hsent₂, hsent, Response.body_of_ne hm, List.append_assoc]

end FileSystem

/-! ## Whole connections -/

section Connections
variable (lib : Libs) {date : ℤ → Option Str} {received : d.State → Str} {ims : ℤ}
    (rq : StaticRequest) (rs : Response)
  (ss : Option KeySession) {io : Io d} {res : Resource d₁}

/-- What the broker has written reaches the client when the connection is closed. -/
theorem staticConnection_ends {lib : Libs} {rq : StaticRequest} {rs : Response}
    {ss : Option KeySession} (hd : Accepts d received) {s : Served d}
    (hs : Ends (fun n => brokerServeStatic lib date n ims rq rs ss io res) s)
    (hplain : s.io.Plain) :
    ∃ io', Ends (fun n => staticConnection lib date n ims rq rs ss io res) ⟨io', s.rs, s.ok⟩ ∧
      received io'.dev = s.io.sent received := by
  obtain ⟨io', hfree, hrec⟩ := ioFree_ends hd hplain.ok hplain.chain
  refine ⟨io', ?_, hrec⟩
  exact hs.bind (g := fun n s => (ioFree n s.io).map fun io => { s with
    io := io }) (hfree.map_eq rfl)

theorem staticConnection_notModified (date : ℤ → Option Str) (hd : Accepts d received)
    (hio : Unwritten io) (hnm : notModified ims res.mtime = true) :
    ∃ io', Ends (fun n => staticConnection lib date n ims rq rs ss io res)
        ⟨io', responseSetStatus rs HTTP_STATUS_NOT_MODIFIED, true⟩ ∧
      received io'.dev = received io.dev ++
        (responseSetStatus rs HTTP_STATUS_NOT_MODIFIED).printed := by
  obtain ⟨io₁, hprint, hplain, hsent⟩ :=
    responsePrintHeader_ends hd hio (responseSetStatus rs HTTP_STATUS_NOT_MODIFIED)
  have hs : Ends (fun n => brokerServeStatic lib date n ims rq rs ss io res)
      ⟨io₁, responseSetStatus rs HTTP_STATUS_NOT_MODIFIED, true⟩ := by
    simp only [brokerServeStatic, hnm, if_true]
    exact hprint.map_eq rfl
  obtain ⟨io', hends, hrec⟩ := staticConnection_ends hd hs hplain
  exact ⟨io', hends, hrec.trans hsent⟩

theorem brokerServeStatic_modified (date : ℤ → Option Str) (io : Io d) (res : Resource d₁)
    (hnm : notModified ims res.mtime = false) (n : ℕ) :
    brokerServeStatic lib date n ims rq rs ss io res =
    serveResource lib date n rq rs ss io res := by
  simp [brokerServeStatic, hnm]

theorem staticConnection_fs {pending : d₁.State → Str} (hd₁ : Delivers d₁ pending)
    (hd : Accepts d received) (hio : Unwritten io) {st : FsFile d₁}
    (hdate : (date st.mtime).isSome = true) (hnm : notModified ims st.mtime = false) :
    ∃ io', Ends (fun n => staticConnection lib date n ims rq rs ss io (.fs st))
    ⟨io', fsResponse date rs st, true⟩ ∧
      received io'.dev = received io.dev ++
        ((fsResponse date rs st).printed ++ rs.body (pending st.dev)) := by
  obtain ⟨io₁, hserve, hplain, hsent⟩ := fsServe_ends hd₁ hd rs hdate hio
  have hs : Ends (fun n => brokerServeStatic lib date n ims rq rs ss io (.fs st))
      ⟨io₁, fsResponse date rs st, true⟩ := by
    simp only [brokerServeStatic_modified lib rq rs ss date io (.fs st) hnm]
    exact hserve
  obtain ⟨io', hends, hrec⟩ := staticConnection_ends hd hs hplain
  exact ⟨io', hends, hrec.trans hsent⟩

/-- The filter of a `HEAD` request is removed without having printed anything. -/
theorem staticConnection_embHead (hio : Unwritten io) {e : EmbFile}
    (hdate : (date e.mtime).isSome = true) (hm : rq.method = .head)
    (hnm : notModified ims (Resource.emb e : Resource d₁).mtime = false) :
    ∃ s, Ends (fun n => staticConnection lib date n ims rq rs ss io (.emb e : Resource d₁)) s ∧
    s.io.dev = io.dev := by
  have hserve : ∀ n, supembServeStatic lib date n rq rs e ss io =
      some ⟨ioCodecAddTail io (staticFilter (supembStaticSetHeaderFields date rq rs e).1),
        (supembStaticSetHeaderFields date rq rs e).1, true⟩ := by
    intro n
    have hfields : supembStaticSetHeaderFields date rq rs e =
        ((supembStaticSetHeaderFields date rq rs e).1, some (sendAsIs rq e)) := by
      rw [← supembStaticSetHeaderFields_sai rq rs hdate]
    unfold supembServeStatic
    rw [hfields]
    simp only [hm, if_true]
  have hfree : Ends (fun n =>
    ioFree n (ioCodecAddTail io (staticFilter (supembStaticSetHeaderFields date rq rs e).1)))
      (io.setChain []) := by
    unfold ioFree ioCodecsRemove ioCodecAddTail
    have hw : (io.setChain (io.codecChain ++
        [codecCreate (staticFilter (supembStaticSetHeaderFields date rq rs e).1)])).wbuf.isSome =
          false := by
      change io.wbuf.isSome = false
      rw [hio.wbuf]
      rfl
    have hne : (io.setChain (io.codecChain ++
        [codecCreate (staticFilter
          (supembStaticSetHeaderFields date rq rs e).1)])).codecChain.isEmpty = false := by
      simp [Io.setChain]
    simp only [hne, hw, Bool.false_eq_true, if_false, Option.bind_some]
    have hflush : Ends (fun n => ioFlush n (io.setChain [])) (io.setChain [], true) := by
      apply ends_leave
      have hz : (io.setChain []).wcount = 0 := hio.wcount
      simp [flushStep, hz]
    exact hflush.map Prod.fst
  refine ⟨⟨io.setChain [], (supembStaticSetHeaderFields date rq rs e).1, true⟩, ?_, rfl⟩
  unfold staticConnection
  simp only [brokerServeStatic_modified lib rq rs ss date io (.emb e) hnm, serveResource, hserve,
    Option.bind_some]
  exact hfree.map_eq rfl

theorem staticConnection_embGet {deflated : Str → Str} {encrypted : Str → Str → Str}
    {ti : TransInfo} (hlib : lib.Laws deflated encrypted) (hd : Accepts d received)
    (hio : Unwritten io) (hdate : (date ti.mtime).isSome = true) (hkey : RightKey ti ss)
    (hget : rq.method ≠ .head) (hrs : rs.method ≠ .head) (file : Str) {e : EmbFile}
    (he : e = printStaticPageBlock ti (stored deflated encrypted ti file))
    (hnm : notModified ims (Resource.emb e : Resource d₁).mtime = false) :
    ∃ io', Ends (fun n => staticConnection lib date n ims rq rs ss io (.emb e : Resource d₁))
        ⟨io', staticResponse date rq rs e ss, true⟩ ∧
      received io'.dev = received io.dev ++
        ((staticResponse date rq rs e ss).printed ++ sentBody deflated (sendAsIs rq e) file) := by
  obtain ⟨io', hends, hrec⟩ := staticSession_get hlib hd hdate hkey hget hrs hio file he
  refine ⟨io', ?_, hrec⟩
  unfold staticConnection
  simp only [brokerServeStatic_modified lib rq rs ss date io (.emb e) hnm]
  exact hends

end Connections

/-- An embedded resource comes from the translator, and the session has its key. -/
def Resource.Embedded (deflated : Str → Str) (encrypted : Str → Str → Str)
    (ss : Option KeySession) :
    Resource d₁ → Prop
  | .emb e =>
    ∃ ti file, e = printStaticPageBlock ti (stored deflated encrypted ti file) ∧ RightKey ti ss
  | .fs _ => True

/-- A `HEAD` request gets the header that the same `GET` request gets before the body
exactly when the resource is a file or was not modified; for an embedded resource it
gets nothing otherwise. -/
theorem head_agrees_with_get_iff (lib : Libs) (deflated : Str → Str) (encrypted : Str → Str → Str)
    (hlib : lib.Laws deflated encrypted) (date : ℤ → Option Str)
    (hdate : ∀ t, (date t).isSome = true) (d₁ : Device) (pending : d₁.State → Str)
    (hd₁ : Delivers d₁ pending) (d : Device) (received : d.State → Str) (hd : Accepts d received)
    (io : Io d) (hio : Unwritten io) (ss : Option KeySession) (res : Resource d₁)
    (hres : res.Embedded deflated encrypted ss) (header : Header) (sendEncDeflate : Bool) (ims : ℤ)
    (cgi : Bool) (serverSig now : Str) :
    ∃ head get body,
      Ends (fun n => staticConnection lib date n ims ⟨.head, header, sendEncDeflate⟩
        (responseFor cgi .head serverSig now) ss io res) head ∧
      Ends (fun n => staticConnection lib date n ims ⟨.get, header, sendEncDeflate⟩
        (responseFor cgi .get serverSig now) ss io res) get ∧
      received get.io.dev = received io.dev ++ (get.rs.printed ++ body) ∧
      (received head.io.dev = received io.dev ++ get.rs.printed ↔
        (∃ st, res = .fs st) ∨ notModified ims res.mtime = true) := by
  by_cases hnm : notModified ims res.mtime = true
  · obtain ⟨io₁, hhead, hrec₁⟩ := staticConnection_notModified lib ⟨.head, header, sendEncDeflate⟩
      (responseFor cgi .head serverSig now) ss date hd hio hnm
    obtain ⟨io₂, hget, hrec₂⟩ := staticConnection_notModified lib ⟨.get, header, sendEncDeflate⟩
      (responseFor cgi .get serverSig now) ss date hd hio hnm
    refine ⟨_, _, [], hhead, hget, ?_, ?_⟩
    · rw [List.append_nil]
      exact hrec₂
    · exact ⟨fun _ => Or.inr hnm, fun _ => hrec₁⟩
  rw [Bool.not_eq_true] at hnm
  cases res with
  | fs st =>
    obtain ⟨io₁, hhead, hrec₁⟩ := staticConnection_fs lib ⟨.head, header, sendEncDeflate⟩
      (responseFor cgi .head serverSig now) ss hd₁ hd hio (hdate st.mtime) hnm
    obtain ⟨io₂, hget, hrec₂⟩ := staticConnection_fs lib ⟨.get, header, sendEncDeflate⟩
      (responseFor cgi .get serverSig now) ss hd₁ hd hio (hdate st.mtime) hnm
    refine ⟨_, _, _, hhead, hget, hrec₂, fun _ => Or.inl ⟨st, rfl⟩, fun _ => ?_⟩
    have hbody : (responseFor cgi .head serverSig now).body (pending st.dev) = [] :=
      Response.body_of_head rfl _
    rw [hbody, List.append_nil] at hrec₁
    rw [hrec₁, fsResponse_printed date cgi .head .get]
  | emb e =>
    obtain ⟨ti, file, he, hkey⟩ := hres
    have hm : Method.get ≠ .head := by decide
    obtain ⟨head, hhead, hdev⟩ := staticConnection_embHead lib ⟨.head, header, sendEncDeflate⟩
      (responseFor cgi .head serverSig now) ss hio (hdate e.mtime) rfl hnm
    obtain ⟨io₂, hget, hrec⟩ := staticConnection_embGet lib ⟨.get, header, sendEncDeflate⟩
      (responseFor cgi .get serverSig now) ss hlib hd hio (hdate ti.mtime) hkey hm hm file he hnm
    refine ⟨head, _, _, hhead, hget, hrec, fun h => ?_, ?_⟩
    · rw [hdev] at h
      exact absurd (List.self_eq_append_right.mp h) (printed_ne_nil _)
    · rintro (⟨st, hst⟩ | hmod)
      · cases hst
      · rw [hnm] at hmod
        cases hmod

theorem head_agrees_with_get_file :
    ∃ head get body,
      Ends (fun n => staticConnection sampleLibs sampleDate n 0 ⟨.head, [], true⟩
        (responseFor false .head (bytes "klone") (bytes "now")) none (ioCreate (d := fifo) [] [])
        (.fs ⟨2, 0, bytes "text/plain", bytes "hi"⟩ : Resource fifo)) head ∧
      Ends (fun n => staticConnection sampleLibs sampleDate n 0 ⟨.get, [], true⟩
        (responseFor false .get (bytes "klone") (bytes "now")) none (ioCreate (d := fifo) [] [])
        (.fs ⟨2, 0, bytes "text/plain", bytes "hi"⟩ : Resource fifo)) get ∧
      get.io.dev = get.rs.printed ++ body ∧ head.io.dev = get.rs.printed := by
  obtain ⟨head, get, body, hhead, hget, hrec, hiff⟩ :=
    head_agrees_with_get_iff sampleLibs sampleDeflated sampleEncrypted
    sampleLibs_laws sampleDate (fun _ => rfl) fifo id fifo_delivers fifo id fifo_accepts
      (ioCreate (d := fifo) [] [])
    (ioCreate_unwritten _) none (.fs ⟨2, 0, bytes "text/plain", bytes "hi"⟩) trivial [] true 0 false
      (bytes "klone")
    (bytes "now")
  exact ⟨head, get, body, hhead, hget, hrec, hiff.mpr (Or.inl ⟨_, rfl⟩)⟩

/-- The embedded sample file: nothing is sent for `HEAD`, a header and a body for `GET`. -/
theorem head_sends_nothing :
    ∃ head get,
      Ends (fun n => staticConnection sampleLibs sampleDate n 0 ⟨.head, [], true⟩
        (responseFor false .head (bytes "klone") (bytes "now")) (some sampleSession)
          (ioCreate (d := fifo) [] [])
        (.emb (printStaticPageBlock sampleInfo sampleC) : Resource fifo)) head ∧
      Ends (fun n => staticConnection sampleLibs sampleDate n 0 ⟨.get, [], true⟩
        (responseFor false .get (bytes "klone") (bytes "now")) (some sampleSession)
          (ioCreate (d := fifo) [] [])
        (.emb (printStaticPageBlock sampleInfo sampleC) : Resource fifo)) get ∧
      get.io.dev = get.rs.printed ++ sampleFile ∧ head.io.dev = [] ∧
      head.io.dev ≠ get.rs.printed := by
  have hm : Method.get ≠ .head := by decide
  have hdate : (sampleDate sampleInfo.mtime).isSome = true := rfl
  have he : printStaticPageBlock sampleInfo sampleC =
      printStaticPageBlock sampleInfo
        (stored sampleDeflated sampleEncrypted sampleInfo sampleFile) :=
    congrArg _ (by decide)
  have hnm : notModified 0
    (Resource.mtime (.emb (printStaticPageBlock sampleInfo sampleC) : Resource fifo)) = false := rfl
  obtain ⟨head, hhead, hdev⟩ := staticConnection_embHead sampleLibs ⟨.head, [], true⟩
    (responseFor false .head (bytes "klone") (bytes "now")) (some sampleSession)
      (ioCreate_unwritten (d := fifo) [])
    hdate rfl hnm
  obtain ⟨io₂, hget, hrec⟩ := staticConnection_embGet sampleLibs ⟨.get, [], true⟩
    (responseFor false .get (bytes "klone") (bytes "now"))
      (some sampleSession) sampleLibs_laws fifo_accepts
    (ioCreate_unwritten (d := fifo) []) hdate sampleSession_key hm hm sampleFile he hnm
  refine ⟨head, _, hhead, hget, hrec, hdev, ?_⟩
  rw [hdev]
  exact (printed_ne_nil _).symm

end Klone.Static
