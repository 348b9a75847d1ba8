import Klone.Emb.Serve
import Klone.Io.OneCodec

/-! # The filter of a page

What `dypage_serve` relies on: the response filter is the only codec of the stream, it
knows whether a page has written anything, and a header that is changed before it has been
printed is sent as changed.
-/
namespace Klone.Page
open Chain Loop Emb

/-- A byte is written when the page has written none. -/
def writeDummy {d : Device} (n : ℕ) (rf : Filter) (io : Io d) : Option (Io d) :=
  if rf.feeded then some io else (ioWrite n io (bytes "\n")).map Prod.fst

def pageBody (inp : Str) : Str := if inp = [] then bytes "\n" else inp

def withHeader (rf : Filter) (header : Header) : Filter :=
  { rf with rs := { rf.rs with header := header } }

variable {setId : Header → Option Header} {rs : Response} {needsId : Bool} {rf : Filter}

/-! ## What the filter knows -/

theorem rfRead_feeded (rf : Filter) (room : ℕ) : (rfRead rf room).1.feeded = rf.feeded := by
  unfold rfRead
  split
  · rfl
  · split <;> rfl

theorem rfCopy_feeded (rf : Filter) (room : ℕ) (src : Str) :
    (rfCopy rf room src).state.feeded = rf.feeded := by
  unfold rfCopy
  dsimp only
  split
  · exact rfRead_feeded rf room
  · exact rfRead_feeded rf room

theorem overflow_feeded {rf' : Filter} (h : rf.overflow setId = some rf') :
    rf'.feeded = rf.feeded := by
  unfold Filter.overflow Filter.setSessionId at h
  split at h
  · obtain ⟨rf₁, hid, rfl⟩ := Option.map_eq_some_iff.mp h
    split at hid
    · obtain ⟨fields, -, rfl⟩ := Option.map_eq_some_iff.mp hid
      rfl
    · cases hid
      rfl
  · cases h
    rfl

theorem rfFeed_feeded (rf : Filter) (room : ℕ) (src : Str) :
    (rfFeed setId rf room src).state.feeded = rf.feeded := by
  unfold rfFeed
  split
  · rfl
  · split
    · rfl
    · split
      · rfl
      · next hover => rw [rfCopy_feeded, overflow_feeded hover]

/-- The filter knows that something has been put into it. -/
theorem open_feeded {wide : Prop} {total inp out : Str}
    {s : (responseFilterCreate setId rs needsId).State}
    (h : (responseFilterCreate setId rs needsId).Open wide total s inp out) (hinp : inp ≠ []) :
    Filter.feeded s = true := by
  cases h with
  | init => exact absurd rfl hinp
  | @transform s inp out room src k h hroom _ hsrc htotal hret => exact rfFeed_feeded _ room src

/-! ## Another header -/

theorem buffering_withHeader {inp : Str} (h : Buffering rs needsId inp rf) (header : Header) :
    Buffering { rs with header := header } needsId inp (withHeader rf header) := by
  obtain ⟨hstate, rfl, hsession, hsize, hoff, hbuf⟩ := h
  refine ⟨hstate, rfl, hsession, hsize, hoff, ?_⟩
  exact hbuf

theorem flushing_withHeader {sent out : Str} (h : Flushing rs sent out rf) (header : Header) :
    Flushing rs sent out (withHeader rf header) := ⟨h.state, h.method, h.sent⟩

theorem from_drained {wide : Prop} {rs' : Response} {needsId' : Bool} {total out out' : Str}
    (h : Drained setId rs' needsId' total out rf)
    {s : ((responseFilterCreate setId rs needsId).from rf).State}
    (hs : ((responseFilterCreate setId rs needsId).from rf).Draining False wide [] s out') :
    Drained setId rs' needsId' total (out ++ out') s := by
  induction hs with
  | start hs =>
    obtain ⟨hstate, -, hout⟩ := open_nil hs
    rw [hout, List.append_nil, hstate]
    exact h
  | chunk hs hroom _ hret ih =>
    rcases rfFlush_moves (hroom.resolve_left id) ih with ⟨hc, -⟩ | ⟨-, -, -, -, hd⟩
    · cases hc.symm.trans hret
    · rw [← List.append_assoc]
      exact hd
  | complete hs hroom _ hret ih =>
    rcases rfFlush_moves (hroom.resolve_left id) ih with ⟨-, -, -, hd⟩ | ⟨hc, -⟩
    · exact hd
    · cases hc.symm.trans hret

/-- Going on from a state in which all of a page has been put into the filter, what is
left is sent. -/
theorem from_computes (rs : Response) (needsId : Bool) {rs' : Response} {needsId' : Bool}
    {total out rest : Str} (h : Drained setId rs' needsId' total out rf)
    (hrest : out ++ rest = sentBytes setId rs' needsId' total) :
    ((responseFilterCreate setId rs needsId).from rf).Computes False False [] rest := by
  refine ⟨?_, ?_, ?_, ?_⟩
  · intro s inp out' hs room src hroom _ hsrc htotal
    exact absurd (List.append_eq_nil_iff.mp (List.prefix_nil.mp htotal)).2 hsrc
  · intro s inp out' hs
    rw [(open_nil hs).2.2]
    exact List.nil_prefix
  · intro s out' hs room hroom _
    rcases rfFlush_moves (hroom.resolve_left id) (from_drained h hs) with ⟨hc, hall, hnil, -⟩ |
      ⟨hc, hd, hlen, hne, -⟩
    · refine ⟨?_, Or.inl ⟨hc, ?_, False.elim⟩⟩
      · change (rfFlush s room).out.length ≤ room
        rw [hnil]
        exact Nat.zero_le _
      · rw [← hrest] at hall
        exact List.append_cancel_left hall
    · exact ⟨hlen, Or.inr ⟨hc, hd, Or.inl hne⟩⟩
  · intro s out' hs
    have hb := (from_drained h hs).start.begins
    rw [← hrest] at hb
    exact (List.prefix_append_right_inj out).mp hb

/-! ## The stream of a page -/

section Stream
variable {d : Device} {received : d.State → Str}

def looseTail : Tail := ⟨False, False, False⟩

structure Putting (setId : Header → Option Header) (rs : Response) (needsId : Bool)
    (received : d.State → Str) (pre inp : Str) (rf : Filter) (io : Io d) : Prop where
  through : io.Through (responseFilterCreate setId rs needsId) rf
  ok : io.WriteOk
  wbuf : inp ≠ [] → io.wbuf ≠ none
  fed : ∃ out, (responseFilterCreate setId rs needsId).Open False inp rf inp out ∧
    io.sent received = pre ++ out

variable {pre inp : Str} {io : Io d}

theorem filter_fits (hid : needsId = true → (setId rs.header).isSome = true) (total : Str) :
    looseTail.Fits (responseFilterCreate setId rs needsId) total
    (sentBytes setId rs needsId total) :=
  ⟨responseFilter_computes hid total, False.elim, False.elim⟩

theorem open_grows {c : Codec} {total total' : Str} {s : c.State} {inp out : Str}
    (h : c.Open False total s inp out) (htotal : total <+: total') :
    c.Open False total' s inp out := by
  induction h with
  | init => exact .init
  | transform h hroom hsize hsrc hin hret ih =>
    exact .transform ih hroom hsize hsrc (hin.trans htotal) hret

theorem Putting.start (hio : Unwritten io) : Putting setId rs needsId received (received io.dev) []
    (responseFilterCreate setId rs needsId).init
    (io.setChain [codecCreate (responseFilterCreate setId rs needsId)]) := by
  refine ⟨rfl, ?_, fun h => absurd rfl h, [], .init, ?_⟩
  · refine ⟨?_, ?_, fun _ => hio.wcount⟩
    · change io.wcount ≤ _
      rw [hio.wcount]
      exact Nat.zero_le _
    · intro mem hm
      cases hio.wbuf.symm.trans hm
  · change received io.dev ++ window _ 0 io.wcount = _
    rw [hio.wcount, window_zero]

theorem Putting.writing (hid : needsId = true → (setId rs.header).isSome = true)
    (h : Putting setId rs needsId received pre inp rf io) (buf : Str) :
    Writing received looseTail (inp ++ buf)
    [sentBytes setId rs needsId (inp ++ buf)] pre inp io := by
  obtain ⟨out, ho, hsent⟩ := h.fed
  refine ⟨h.ok, out, ?_, hsent⟩
  rw [show io.codecChain = _ from h.through]
  exact .last (filter_fits hid _) (open_grows ho (List.prefix_append _ _))

/-- A chain with one codec that is fed. -/
theorem feeding_one {c : Codec} {s : c.State} {total result out : Str} {q : Tail}
    (h : Feeding q [codecLink c s] total [result] inp out) : c.Open False total s inp out := by
  cases h with
  | last hc ho => exact ho
  | link ha hh hr => cases hr

theorem Putting.write (hd : Accepts d received)
    (hid : needsId = true → (setId rs.header).isSome = true)
    (h : Putting setId rs needsId received pre inp rf io) (buf : Str) :
    ∃ io' rf', Ends (fun n => ioWrite n io buf) (io', some buf.length) ∧ io'.wbuf ≠ none ∧
      Putting setId rs needsId received pre (inp ++ buf) rf' io' := by
  obtain ⟨io', hends, hw, hok, out, hf, hsent⟩ :=
    ioWrite_ends hd (h.writing hid buf) List.prefix_rfl
  obtain ⟨n, hrun⟩ := hends.some_run
  obtain ⟨rf', hrf'⟩ := ioWrite_through h.through hrun
  rw [show io'.codecChain = _ from hrf'] at hf
  exact ⟨io', rf', hends, hw, hrf', hok, fun _ => hw, out, feeding_one hf, hsent⟩

theorem Putting.flush (hd : Accepts d received)
    (h : Putting setId rs needsId received pre inp rf io) :
    ∃ dev', Ends (fun n => ioFlush n io) ({ io with dev := dev', wcount := 0 }, true) ∧
      Putting setId rs needsId received pre inp rf { io with dev := dev', wcount := 0 } := by
  obtain ⟨dev', hends, hrec⟩ := ioFlush_ends hd h.ok
  obtain ⟨out, ho, hsent⟩ := h.fed
  refine ⟨dev', hends, h.through, ⟨Nat.zero_le _, h.ok.size, fun _ => rfl⟩, h.wbuf, out, ho, ?_⟩
  rw [← hsent, ← hrec]
  exact List.append_nil _

theorem Putting.ops (hd : Accepts d received)
    (hid : needsId = true → (setId rs.header).isSome = true)
    (h : Putting setId rs needsId received pre inp rf io) (ops : List WriteOp) :
    ∃ io' rf', Ends (fun n => writeOps n ops io) (io', true) ∧
      Putting setId rs needsId received pre (inp ++ written ops) rf' io' := by
  induction ops generalizing io inp rf with
  | nil =>
    refine ⟨io, rf, Ends.const _, ?_⟩
    rw [written, List.append_nil]
    exact h
  | cons op ops ih =>
    rw [written_cons, ← List.append_assoc]
    cases op with
    | write buf =>
      obtain ⟨io₁, rf₁, hends, -, h₁⟩ := h.write hd hid buf
      obtain ⟨io', rf', hends', h'⟩ := ih h₁
      have hwritten : written [WriteOp.write buf] = buf := List.append_nil buf
      rw [hwritten]
      have hop : Ends (fun n => writeOp n io (.write buf)) (io₁, true) := hends.map_eq (by simp)
      refine ⟨io', rf', ?_, h'⟩
      exact hop.bind (g := fun n r => if r.2 then writeOps n ops r.1 else some r) hends'
    | flush =>
      obtain ⟨dev', hends, h₁⟩ := h.flush hd
      obtain ⟨io', rf', hends', h'⟩ := ih h₁
      have hwritten : written [WriteOp.flush] = [] := rfl
      rw [hwritten, List.append_nil]
      have hop : Ends (fun n => writeOp n io .flush) ({ io with dev := dev', wcount := 0 }, true) :=
        hends
      refine ⟨io', rf', ?_, h'⟩
      exact hop.bind (g := fun n r => if r.2 then writeOps n ops r.1 else some r) hends'

/-- After the page the filter has been given the body. -/
theorem Putting.dummy (hd : Accepts d received)
    (hid : needsId = true → (setId rs.header).isSome = true)
    (h : Putting setId rs needsId received pre inp rf io) :
    ∃ io' rf', Ends (fun n => writeDummy n rf io) io' ∧ io'.wbuf ≠ none ∧
      Putting setId rs needsId received pre (pageBody inp) rf' io' := by
  obtain ⟨out, ho, hsent⟩ := h.fed
  unfold writeDummy pageBody
  by_cases hnil : inp = []
  · subst hnil
    obtain ⟨rfl, -, -⟩ := open_nil ho
    obtain ⟨io', rf', hends, hw, hp⟩ := h.write hd hid (bytes "\n")
    rw [if_pos rfl]
    exact ⟨io', rf', hends.map_eq rfl, hw, hp⟩
  · have hfeeded : rf.feeded = true := open_feeded ho hnil
    simp only [hfeeded, if_true, if_neg hnil]
    exact ⟨io, rf, Ends.const _, h.wbuf hnil, h⟩

/-- A page that fits in the buffer leaves the response of the filter as it is. -/
theorem Putting.short (hid : needsId = true → (setId rs.header).isSome = true)
    (h : Putting setId rs needsId received pre inp rf io)
    (hshort : ¬ (rs.method ≠ .head ∧ RFBUFSZ ≤ inp.length)) :
    rf.rs = rs ∧ rf.needsId = needsId := by
  obtain ⟨out, ho, -⟩ := h.fed
  rcases (open_fed hid ho).1 with ⟨-, hb⟩ | ⟨hm, hlen, -⟩
  · exact ⟨hb.response, hb.session⟩
  · exact absurd ⟨hm, hlen⟩ hshort

/-- What is left in the codec is sent when the stream is freed. -/
theorem freed_sent (hd : Accepts d received) (hok : io.WriteOk) (hwbuf : io.wbuf ≠ none) {c : Codec}
    {rest : Str} (hc : c.Computes False False [] rest) :
    ∃ io', Ends (fun n => ioFree n (io.setChain [codecCreate c])) io' ∧
      received io'.dev = io.sent received ++ rest := by
  have hw : Writing received looseTail [] [rest] (io.sent received) []
      (io.setChain [codecCreate c]) :=
    ⟨⟨hok.fits, hok.size, hok.null⟩, [], .last ⟨hc, False.elim, False.elim⟩ Codec.Open.init,
      (List.append_nil _).symm⟩
  obtain ⟨io₁, hremove, hok₁, -, hsent₁⟩ := ioCodecsRemove_ends hd hw hwbuf
  obtain ⟨dev', hflush, hrec⟩ := ioFlush_ends hd hok₁
  refine ⟨{ io₁ with dev := dev', wcount := 0 }, ?_, hrec.trans hsent₁⟩
  exact hremove.bind (g := fun n r => (ioFlush n r.1).map Prod.fst) (hflush.map_eq rfl)

/-- The response whose header is sent when the header is `header` after the page. -/
def freedResponse (setId : Header → Option Header) (rs : Response) (needsId : Bool) (page : Str)
    (header : Header) : Response :=
  if rs.method ≠ .head ∧ RFBUFSZ ≤ page.length then sentResponse setId rs needsId page
  else { rs with header := header }

/-- The header is changed after the page and the stream is freed: the header and the body
have been sent, and the change is in the header when the page has fitted in the buffer. -/
theorem Putting.freed (hd : Accepts d received)
    (hid : needsId = true → (setId rs.header).isSome = true)
    (h : Putting setId rs needsId received pre inp rf io) (hwbuf : io.wbuf ≠ none)
    (header : Header) :
    ∃ io', Ends (fun n => ioFree n
        (io.setChain [codecCreate
          ((responseFilterCreate setId rs needsId).from (withHeader rf header))])) io' ∧
      received io'.dev = pre ++
        ((freedResponse setId rs needsId inp header).printed ++ rs.body inp) := by
  obtain ⟨out, ho, hsent⟩ := h.fed
  unfold freedResponse
  rcases (open_fed hid ho).1 with ⟨rfl, hb⟩ | ⟨hm, hlen, hf⟩
  · -- the page is still in the buffer
    have hshort : ¬ (rs.method ≠ .head ∧ RFBUFSZ ≤ inp.length) := by
      rintro ⟨hm, hlen⟩
      have hoff := hb.off
      rw [hb.length_eq hm] at hoff
      omega
    have hb' := buffering_withHeader hb header
    have hdrained : Drained setId { rs with
        header := header } needsId inp [] (withHeader rf header) :=
      Or.inl (Or.inl ⟨rfl, hb'⟩)
    have hrest : sentBytes setId { rs with header := header } needsId inp =
        ({ rs with header := header } : Response).printed ++ rs.body inp := by
      unfold sentBytes
      rw [hb'.sentResponse_eq]
      rfl
    obtain ⟨io', hfree, hrec⟩ := freed_sent hd h.ok hwbuf
      (from_computes rs needsId hdrained ((List.nil_append _).trans hrest.symm))
    refine ⟨io', hfree, ?_⟩
    rw [hrec, hsent, List.append_nil, if_neg hshort]
  · -- the header has left the filter
    have hf' := flushing_withHeader hf header
    have hrest : out ++ rf.iob.getD [] = sentBytes setId rs needsId inp := by
      rw [hf.sent, sentBytes, Response.body_of_ne hm]
    obtain ⟨io', hfree, hrec⟩ := freed_sent hd h.ok hwbuf
      (from_computes rs needsId (Or.inl (Or.inr ⟨hm, hlen, hf'⟩)) hrest)
    refine ⟨io', hfree, ?_⟩
    rw [hrec, hsent, List.append_assoc, hrest, if_pos ⟨hm, hlen⟩]
    rfl

end Stream

end Klone.Page
