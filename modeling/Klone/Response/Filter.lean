import Klone.Io.Composition
import Klone.Response.Header

/-! # The response filter

A codec that prints the header before the body of a page. It keeps the first bytes
back, so that the header can be changed for as long as they fit in its buffer. With
a page that does not fit, a session without an id is given one before the header is
printed, which adds cookies to the header: `setId` is what this does to the fields,
and `none` an error.
-/
namespace Klone.Page
open Klone.Chain

def RFBUFSZ : ℕ := 4096

inductive RfState where
  | buffering
  | flushing
  deriving DecidableEq, Repr

structure Filter where
  rs : Response
  needsId : Bool
  state : RfState
  feeded : Bool
  buf : Str
  off : ℕ
  iob : Option Str

/-- Bytes printed to a stream over a block of `size` bytes; what does not fit is not stored. -/
def memPrint (size : ℕ) (mem new : Str) : Str := mem ++ new.take (size - mem.length)

/-- What the stream that the header is printed to contains afterwards. -/
def rfInitIob (rf : Filter) : Str :=
  let hsz := responseGetMaxHeaderSize rf.rs + rf.off
  let header := (responsePrintHeader rf.rs).foldl (memPrint hsz) []
  if rf.rs.method ≠ .head then memPrint hsz header (window rf.buf 0 rf.off) else header

def Filter.start (rf : Filter) : Filter :=
  { rf with state := .flushing, iob := some (rfInitIob rf) }

/-- What remains of the header and the buffer is read before anything else. -/
def rfRead (rf : Filter) (room : ℕ) : Filter × Str :=
  match rf.iob with
  | none => (rf, [])
  | some rest => if rest.take room = [] then ({ rf with iob := none }, []) else
      ({ rf with iob := some (rest.drop room) }, rest.take room)

def rfFlush (rf : Filter) (room : ℕ) : Flushed Filter :=
  let rf := if rf.state = .buffering then rf.start else rf
  let r := rfRead rf room
  if r.2 = [] then ⟨r.1, .complete, room, []⟩ else ⟨r.1, .chunk, r.2.length, r.2⟩

section Transform
variable (setId : Header → Option Header)

def Filter.setSessionId (rf : Filter) : Option Filter :=
  if rf.needsId then
    (setId rf.rs.header).map fun h => { rf with rs := { rf.rs with header := h }, needsId := false }
  else some rf

def Filter.overflow (rf : Filter) : Option Filter :=
  if rf.state = .buffering then (rf.setSessionId setId).map Filter.start else some rf

def rfCopy (rf : Filter) (room : ℕ) (src : Str) : Transformed Filter :=
  let r := rfRead rf room
  if r.2 = [] then ⟨r.1, some (min room src.length), src.take room⟩ else ⟨r.1, some 0, r.2⟩

def rfFeed (rf : Filter) (room : ℕ) (src : Str) : Transformed Filter :=
  if rf.rs.method = .head then ⟨rf, some src.length, []⟩
  else if rf.state = .buffering ∧ rf.off + src.length < RFBUFSZ then
    ⟨{ rf with buf := blit rf.buf rf.off src, off := rf.off + src.length }, some src.length, []⟩
  else
    match rf.overflow setId with
    | none => ⟨{ rf with state := .flushing }, none, []⟩
    | some rf => rfCopy rf room src

def rfTransform (rf : Filter) (room : ℕ) (src : Str) : Transformed Filter :=
  rfFeed setId { rf with feeded := true } room src

def responseFilterCreate (rs : Response) (needsId : Bool) : Codec where
  State := Filter
  init := ⟨rs, needsId, .buffering, false, List.replicate RFBUFSZ 0, 0, none⟩
  transform := rfTransform setId
  flush := rfFlush

end Transform

/-! ## The header buffer -/

theorem foldl_memPrint {size : ℕ} {pieces : List Str} {mem : Str}
    (h : mem.length + pieces.flatten.length ≤ size) :
    pieces.foldl (memPrint size) mem = mem ++ pieces.flatten := by
  induction pieces generalizing mem with
  | nil => simp
  | cons piece pieces ih =>
    rw [List.flatten_cons, List.length_append] at h
    have hp : memPrint size mem piece = mem ++ piece := by
      unfold memPrint
      rw [List.take_of_length_le (by omega)]
    rw [List.foldl_cons, hp, ih (by rw [List.length_append]; omega), List.flatten_cons,
      List.append_assoc]

def Response.printed (rs : Response) : Str := (responsePrintHeader rs).flatten

def Response.body (rs : Response) (page : Str) : Str := if rs.method = .head then [] else page

/-- Nothing is cut off by the header buffer. -/
theorem rfInitIob_eq (rf : Filter) (hoff : (window rf.buf 0 rf.off).length = rf.off) :
    rfInitIob rf = rf.rs.printed ++ rf.rs.body (window rf.buf 0 rf.off) := by
  have hlen := responsePrintHeader_length rf.rs
  have hheader : (responsePrintHeader rf.rs).foldl
    (memPrint (responseGetMaxHeaderSize rf.rs + rf.off)) [] =
      rf.rs.printed := by
    rw [foldl_memPrint (by rw [List.length_nil]; omega), List.nil_append]
    rfl
  unfold rfInitIob Response.body
  dsimp only
  rw [hheader]
  by_cases hm : rf.rs.method = .head
  · rw [if_neg (not_not_intro hm), if_pos hm, List.append_nil]
  · have hfit : rf.rs.printed.length ≤ responseGetMaxHeaderSize rf.rs := hlen
    rw [if_pos hm, if_neg hm, memPrint, List.take_of_length_le (by omega)]

/-! ## Histories -/

section Histories
variable (setId : Header → Option Header) (rs : Response) (needsId : Bool)

def sentResponse (page : Str) : Response :=
  if needsId = true ∧ rs.method ≠ .head ∧ RFBUFSZ ≤ page.length then
    { rs with header := (setId rs.header).getD rs.header }
  else rs

/-- Nothing has been stored yet, and the bytes to send are in the buffer. -/
structure Buffering (inp : Str) (rf : Filter) : Prop where
  state : rf.state = .buffering
  response : rf.rs = rs
  session : rf.needsId = needsId
  size : rf.buf.length = RFBUFSZ
  off : rf.off < RFBUFSZ
  buf : window rf.buf 0 rf.off = rs.body inp

/-- The header has been printed: what has been stored and what is still to be read
are together what is sent. -/
structure Flushing (sent out : Str) (rf : Filter) : Prop where
  state : rf.state = .flushing
  method : rf.rs.method = rs.method
  sent : out ++ rf.iob.getD [] = sent

end Histories

variable {setId : Header → Option Header} {rs : Response} {needsId : Bool} {inp out sent : Str}
    {rf : Filter}

theorem Response.body_of_ne {rs : Response} (h : rs.method ≠ .head) (page : Str) :
    rs.body page = page := if_neg h

theorem Response.body_of_head {rs : Response} (h : rs.method = .head) (page : Str) :
    rs.body page = [] := if_pos h

theorem Buffering.off_eq (h : Buffering rs needsId inp rf) :
    (window rf.buf 0 rf.off).length = rf.off := by
  apply length_window
  have ho := h.off
  rw [h.size]
  omega

theorem Buffering.start (h : Buffering rs needsId inp rf) (fields : Header) (b : Bool) :
    Flushing rs (({ rs with header := fields } : Response).printed ++ rs.body inp) []
      ({ rf with rs := { rs with header := fields }, needsId := b } : Filter).start := by
  refine ⟨rfl, rfl, ?_⟩
  have hiob := rfInitIob_eq { rf with rs := { rs with header := fields }, needsId := b } h.off_eq
  change [] ++ rfInitIob _ = _
  rw [hiob, List.nil_append]
  dsimp only
  rw [h.buf]
  congr 1
  unfold Response.body
  split <;> rfl

/-- A read takes something or finds nothing left. -/
theorem rfRead_moves {room : ℕ} (hroom : 0 < room) (h : Flushing rs sent out rf) :
    Flushing rs sent (out ++ (rfRead rf room).2) (rfRead rf room).1 ∧
    (rfRead rf room).2.length ≤ room ∧
      ((rfRead rf room).2 = [] → out = sent ∧ (rfRead rf room).1.iob = none) := by
  have hsent := h.sent
  unfold rfRead
  cases hi : rf.iob with
  | none =>
    rw [hi, Option.getD_none, List.append_nil] at hsent
    refine ⟨⟨h.state, h.method, ?_⟩, Nat.zero_le _, fun _ => ⟨hsent, hi⟩⟩
    dsimp only
    rw [hi, List.append_nil, Option.getD_none, List.append_nil, hsent]
  | some rest =>
    rw [hi, Option.getD_some] at hsent
    dsimp only
    split
    · next he =>
      have hnil : rest = [] := by
        rcases List.take_eq_nil_iff.mp he with h0 | h0
        · omega
        · exact h0
      rw [hnil, List.append_nil] at hsent
      refine ⟨⟨h.state, h.method, ?_⟩, Nat.zero_le _, fun _ => ⟨hsent, rfl⟩⟩
      rw [List.append_nil, Option.getD_none, List.append_nil, hsent]
    · next he =>
      refine ⟨⟨h.state, h.method, ?_⟩, List.length_take_le _ _, fun hn => absurd hn he⟩
      rw [Option.getD_some, List.append_assoc, List.take_append_drop, hsent]

/-- What is left of the header and the buffer goes first, and then the input. -/
theorem rfCopy_moves {room : ℕ} {src header : Str} (hroom : 0 < room) (hsrc : src ≠ [])
    (h : Flushing rs (header ++ inp) out rf) :
    ∃ k, (rfCopy rf room src).ret = some k ∧ k ≤ src.length ∧
    (rfCopy rf room src).out.length ≤ room ∧
      (0 < k ∨ (rfCopy rf room src).out ≠ []) ∧
      Flushing rs (header ++ (inp ++ src.take k)) (out ++ (rfCopy rf room src).out)
        (rfCopy rf room src).state := by
  obtain ⟨hf, hlen, hnil⟩ := rfRead_moves hroom h
  have hpos := List.length_pos_iff.mpr hsrc
  unfold rfCopy
  dsimp only
  by_cases he : (rfRead rf room).2 = []
  · rw [if_pos he]
    obtain ⟨rfl, hiob⟩ := hnil he
    refine ⟨min room src.length, rfl, Nat.min_le_right _ _, List.length_take_le _ _, Or.inl ?_,
      hf.state, hf.method, ?_⟩
    · exact lt_min hroom hpos
    · rw [hiob, Option.getD_none, List.append_nil, List.append_assoc]
      simp [List.take_eq_take_iff]
  · rw [if_neg he]
    refine ⟨0, rfl, Nat.zero_le _, hlen, Or.inr he, ?_⟩
    rw [List.take_zero, List.append_nil]
    exact hf

/-- The states of the filter after some of `total` has been offered to it. -/
def Fed (setId : Header → Option Header) (rs : Response) (needsId : Bool) (total inp out : Str)
    (rf : Filter) : Prop :=
  out = [] ∧ Buffering rs needsId inp rf ∨
    rs.method ≠ .head ∧ RFBUFSZ ≤ total.length ∧
      Flushing rs ((sentResponse setId rs needsId total).printed ++ inp) out rf

theorem overflow_flushing {total : Str} (hid : needsId = true → (setId rs.header).isSome = true)
    (hm : rs.method ≠ .head) (hlen : RFBUFSZ ≤ total.length) (h : Buffering rs needsId inp rf) :
    ∃ rf', rf.overflow setId = some rf' ∧
      Flushing rs ((sentResponse setId rs needsId total).printed ++ inp) [] rf' := by
  unfold Filter.overflow Filter.setSessionId sentResponse
  rw [if_pos h.state, h.session]
  obtain rfl := h.response
  cases hn : needsId with
  | true =>
    obtain ⟨fields, hf⟩ := Option.isSome_iff_exists.mp (hid hn)
    have hstart := h.start fields false
    rw [Response.body_of_ne hm] at hstart
    rw [if_pos rfl, if_pos ⟨rfl, hm, hlen⟩, hf]
    exact ⟨_, rfl, hstart⟩
  | false =>
    have hstart := h.start rf.rs.header rf.needsId
    rw [Response.body_of_ne hm] at hstart
    rw [if_neg Bool.false_ne_true, if_neg fun hc => Bool.false_ne_true hc.1]
    exact ⟨_, rfl, hstart⟩

theorem Buffering.length_eq (hm : rs.method ≠ .head) (h : Buffering rs needsId inp rf) :
    rf.off = inp.length := by
  have hl := h.off_eq
  rw [h.buf, Response.body_of_ne hm] at hl
  exact hl.symm

structure FilterMoved (setId : Header → Option Header) (rs : Response) (needsId : Bool)
    (total inp out : Str) (room : ℕ) (src : Str) (t : Transformed Filter) (k : ℕ) : Prop where
  ret : t.ret = some k
  taken : k ≤ src.length
  stored : t.out.length ≤ room
  progress : 0 < k ∨ t.out ≠ []
  fed : Fed setId rs needsId total (inp ++ src.take k) (out ++ t.out) t.state

theorem rfFeed_buffers {total src : Str} {room : ℕ} (hsrc : src ≠ [])
    (hb : Buffering rs needsId inp rf) (hfit : rs.method = .head ∨ rf.off + src.length < RFBUFSZ) :
    FilterMoved setId rs needsId total inp [] room src (rfFeed setId rf room src) src.length := by
  have hpos := List.length_pos_iff.mpr hsrc
  have hresp := hb.response
  unfold rfFeed
  by_cases hm : rs.method = .head
  · have hnil := hb.buf
    rw [Response.body_of_head hm] at hnil
    rw [if_pos (hresp ▸ hm)]
    refine ⟨rfl, le_refl _, Nat.zero_le _, Or.inl hpos,
      Or.inl ⟨rfl, hb.state, hresp, hb.session, hb.size, hb.off, ?_⟩⟩
    rw [Response.body_of_head hm]
    exact hnil
  · have hfit := hfit.resolve_left hm
    have hsize := hb.size
    have hw : window (blit rf.buf (0 + rf.off) src) 0 (rf.off + src.length) =
        window rf.buf 0 rf.off ++ src.take src.length := window_blit (by omega) (le_refl _)
    rw [Nat.zero_add, hb.buf, Response.body_of_ne hm] at hw
    rw [if_neg (hresp ▸ hm), if_pos ⟨hb.state, hfit⟩]
    refine ⟨rfl, le_refl _, Nat.zero_le _, Or.inl hpos,
      Or.inl ⟨rfl, hb.state, hresp, hb.session, ?_, hfit, ?_⟩⟩
    · change (blit rf.buf rf.off src).length = RFBUFSZ
      rw [length_blit (by omega), hsize]
    · rw [Response.body_of_ne hm]
      exact hw

theorem rfCopy_moved {total src : Str} {room : ℕ} (hroom : 0 < room) (hsrc : src ≠ [])
    (hm : rs.method ≠ .head) (hlen : RFBUFSZ ≤ total.length)
    (hf : Flushing rs ((sentResponse setId rs needsId total).printed ++ inp) out rf) :
    ∃ k, FilterMoved setId rs needsId total inp out room src (rfCopy rf room src) k := by
  obtain ⟨k, hret, hk, hstored, hprog, hf'⟩ := rfCopy_moves hroom hsrc hf
  exact ⟨k, hret, hk, hstored, hprog, Or.inr ⟨hm, hlen, hf'⟩⟩

theorem rfFeed_moves {total src : Str} {room : ℕ}
    (hid : needsId = true → (setId rs.header).isSome = true) (hroom : 0 < room) (hsrc : src ≠ [])
    (htotal : inp ++ src <+: total) (h : Fed setId rs needsId total inp out rf) :
    ∃ k, FilterMoved setId rs needsId total inp out room src (rfFeed setId rf room src) k := by
  rcases h with ⟨rfl, hb⟩ | ⟨hm, hlen, hf⟩
  · by_cases hfit : rs.method = .head ∨ rf.off + src.length < RFBUFSZ
    · exact ⟨_, rfFeed_buffers hsrc hb hfit⟩
    · obtain ⟨hm, hfull⟩ := not_or.mp hfit
      have hlen : RFBUFSZ ≤ total.length := by
        have hl := htotal.length_le
        have hoff := hb.length_eq hm
        rw [List.length_append] at hl
        omega
      obtain ⟨rf', hover, hf⟩ := overflow_flushing hid hm hlen hb
      unfold rfFeed
      rw [if_neg (hb.response ▸ hm), if_neg fun hc => hfull hc.2, hover]
      exact rfCopy_moved hroom hsrc hm hlen hf
  · have hstate : ¬ rf.state = .buffering := by
      rw [hf.state]
      decide
    unfold rfFeed Filter.overflow
    rw [if_neg (hf.method ▸ hm), if_neg fun hc => hstate hc.1, if_neg hstate]
    exact rfCopy_moved hroom hsrc hm hlen hf

theorem Fed.feeded {total : Str} (h : Fed setId rs needsId total inp out rf) :
    Fed setId rs needsId total inp out { rf with feeded := true } := by
  rcases h with ⟨ho, hb⟩ | ⟨hm, hlen, hf⟩
  · exact Or.inl ⟨ho, hb.state, hb.response, hb.session, hb.size, hb.off, hb.buf⟩
  · exact Or.inr ⟨hm, hlen, hf.state, hf.method, hf.sent⟩

theorem open_fed {wide : Prop} {total : Str}
    (hid : needsId = true → (setId rs.header).isSome = true)
    {s : (responseFilterCreate setId rs needsId).State}
    (h : (responseFilterCreate setId rs needsId).Open wide total s inp out) :
    Fed setId rs needsId total inp out s ∧ inp <+: total := by
  induction h with
  | init =>
    refine ⟨Or.inl ⟨rfl, rfl, rfl, rfl, List.length_replicate, Nat.zero_lt_succ _, ?_⟩,
      List.nil_prefix⟩
    change [] = rs.body []
    unfold Response.body
    split <;> rfl
  | @transform s inp out room src k h hroom _ hsrc htotal hret ih =>
    obtain ⟨k', hm⟩ := rfFeed_moves hid hroom hsrc htotal ih.1.feeded
    obtain rfl : k' = k := Option.some.inj (hm.ret.symm.trans hret)
    refine ⟨hm.fed, ?_⟩
    exact ((List.prefix_append_right_inj inp).mpr (List.take_prefix _ _)).trans htotal

def sentBytes (setId : Header → Option Header) (rs : Response) (needsId : Bool) (page : Str) :
    Str :=
  (sentResponse setId rs needsId page).printed ++ rs.body page

/-- The states of the filter after some calls of `flush`. -/
def Drained (setId : Header → Option Header) (rs : Response) (needsId : Bool) (total out : Str)
    (rf : Filter) : Prop :=
  Fed setId rs needsId total total out rf ∨ Flushing rs (sentBytes setId rs needsId total) out rf

/-- A page that is still in the buffer is sent with the header as it is. -/
theorem Buffering.sentResponse_eq {total : Str} (h : Buffering rs needsId total rf) :
    sentResponse setId rs needsId total = rs := by
  apply if_neg
  rintro ⟨-, hm, hlen⟩
  have hoff := h.off
  rw [h.length_eq hm] at hoff
  omega

theorem Drained.start {total : Str} (h : Drained setId rs needsId total out rf) :
    Flushing rs (sentBytes setId rs needsId total) out
    (if rf.state = .buffering then rf.start else rf) := by
  have hflushing : ∀ sent, Flushing rs sent out rf →
      Flushing rs sent out (if rf.state = .buffering then rf.start else rf) := by
    intro sent hf
    rw [if_neg]
    · exact hf
    · rw [hf.state]
      decide
  rcases h with (⟨rfl, hb⟩ | ⟨hm, -, hf⟩) | hf
  · rw [if_pos hb.state]
    unfold sentBytes
    rw [hb.sentResponse_eq]
    obtain rfl := hb.response
    exact hb.start rf.rs.header rf.needsId
  · apply hflushing
    unfold sentBytes
    rw [Response.body_of_ne hm]
    exact hf
  · exact hflushing _ hf

theorem rfFlush_moves {total : Str} {room : ℕ} (hroom : 0 < room)
    (h : Drained setId rs needsId total out rf) :
    (rfFlush rf room).ret = .complete ∧ out = sentBytes setId rs needsId total ∧
    (rfFlush rf room).out = [] ∧
        Drained setId rs needsId total out (rfFlush rf room).state ∨
      (rfFlush rf room).ret = .chunk ∧ (rfFlush rf room).dcount = (rfFlush rf room).out.length ∧
        (rfFlush rf room).out.length ≤ room ∧ (rfFlush rf room).out ≠ [] ∧
        Drained setId rs needsId total (out ++ (rfFlush rf room).out) (rfFlush rf room).state := by
  obtain ⟨hf, hlen, hnil⟩ := rfRead_moves hroom h.start
  unfold rfFlush
  dsimp only
  by_cases he : (rfRead (if rf.state = .buffering then rf.start else rf) room).2 = []
  · rw [he, List.append_nil] at hf
    rw [if_pos he]
    exact Or.inl ⟨rfl, (hnil he).1, rfl, Or.inr hf⟩
  · rw [if_neg he]
    exact Or.inr ⟨rfl, rfl, hlen, he, Or.inr hf⟩

theorem draining_drained {wide : Prop} {total : Str}
    (hid : needsId = true → (setId rs.header).isSome = true)
    {s : (responseFilterCreate setId rs needsId).State}
    (h : (responseFilterCreate setId rs needsId).Draining False wide total s out) :
    Drained setId rs needsId total out s := by
  induction h with
  | start h => exact Or.inl (open_fed hid h).1
  | chunk h hroom _ hret ih =>
    rcases rfFlush_moves (hroom.resolve_left id) ih with ⟨hc, -⟩ | ⟨-, -, -, -, hd⟩
    · cases hc.symm.trans hret
    · exact hd
  | complete h hroom _ hret ih =>
    rcases rfFlush_moves (hroom.resolve_left id) ih with ⟨-, -, -, hd⟩ | ⟨hc, -⟩
    · exact hd
    · cases hc.symm.trans hret

theorem Flushing.begins {sent : Str} (h : Flushing rs sent out rf) : out <+: sent := by
  rw [← h.sent]
  exact List.prefix_append _ _

theorem Fed.begins {total : Str} (hin : inp <+: total) (h : Fed setId rs needsId total inp out rf) :
    out <+: sentBytes setId rs needsId total := by
  rcases h with ⟨rfl, -⟩ | ⟨hm, -, hf⟩
  · exact List.nil_prefix
  · unfold sentBytes
    rw [Response.body_of_ne hm]
    exact hf.begins.trans ((List.prefix_append_right_inj _).mpr hin)

/-- The filter turns a page into the header and the page. It is not strict: a complete
flush does not set the number of bytes, and without room it loses what is left. -/
theorem responseFilter_computes {wide : Prop}
    (hid : needsId = true → (setId rs.header).isSome = true) (total : Str) :
    (responseFilterCreate setId rs needsId).Computes False wide total
    (sentBytes setId rs needsId total) := by
  refine ⟨?_, ?_, ?_, ?_⟩
  · intro s inp out h room src hroom _ hsrc htotal
    obtain ⟨k, hm⟩ := rfFeed_moves hid hroom hsrc htotal (open_fed hid h).1.feeded
    exact ⟨k, hm.ret, hm.taken, hm.stored, hm.progress⟩
  · intro s inp out h
    obtain ⟨hf, hin⟩ := open_fed hid h
    exact hf.begins hin
  · intro s out h room hroom _
    rcases rfFlush_moves (hroom.resolve_left id) (draining_drained hid h) with
      ⟨hc, hall, hnil, -⟩ | ⟨hc, hd, hlen, hne, -⟩
    · refine ⟨?_, Or.inl ⟨hc, hall, False.elim⟩⟩
      change (rfFlush s room).out.length ≤ room
      rw [hnil]
      exact Nat.zero_le _
    · exact ⟨hlen, Or.inr ⟨hc, hd, Or.inl hne⟩⟩
  · intro s out h
    exact (draining_drained hid h).start.begins

/-- The device receives the header once and then the page, whatever the calls. -/
theorem filter_sends_header_then_page (setId : Header → Option Header) (rs : Response)
    (needsId : Bool) (hid : needsId = true → (setId rs.header).isSome = true) (d : Device)
    (received : d.State → Str) (hd : Accepts d received) (dev : d.State) (ops : List WriteOp)
    (hops : ∃ buf, WriteOp.write buf ∈ ops) :
    ∃ io', Loop.Ends (fun n =>
      writeSession n ops (ioCreate dev [responseFilterCreate setId rs needsId])) (io', true) ∧
      received io'.dev = received dev ++
        ((sentResponse setId rs needsId (written ops)).printed ++ rs.body (written ops)) := by
  have hf : Feeding ⟨False, False, False⟩ ([responseFilterCreate setId rs needsId].map codecCreate)
    (written ops)
      [sentBytes setId rs needsId (written ops)] [] [] :=
    .last ⟨responseFilter_computes hid (written ops), False.elim, False.elim⟩ Codec.Open.init
  exact writeSession_ends hd (setChain_writing received hf dev) hops

/-- A page that fills the buffer, so that the session id comes into the header. -/
theorem filter_sends_header_then_page_full :
    ∃ io', Loop.Ends (fun n =>
      writeSession n [.write (List.replicate RFBUFSZ 120), .flush, .write (bytes "!")]
      (ioCreate (d := fifo) []
        [responseFilterCreate (fun h => some (h ++ [⟨bytes "Set-Cookie", bytes "id=1"⟩]))
        ⟨false, .get, 200, [⟨bytes "Server", bytes "klone"⟩]⟩ true])) (io', true) ∧
      io'.dev = bytes "HTTP/1.0 200 OK\r\nServer: klone\r\nSet-Cookie: id=1\r\n\r\n" ++
        (List.replicate RFBUFSZ 120 ++ bytes "!") := by
  obtain ⟨io', hends, hdev⟩ := filter_sends_header_then_page
    (fun h => some (h ++ [⟨bytes "Set-Cookie", bytes "id=1"⟩]))
    ⟨false, .get, 200, [⟨bytes "Server", bytes "klone"⟩]⟩ true
      (fun _ => rfl) fifo id fifo_accepts []
    [.write (List.replicate RFBUFSZ 120), .flush, .write (bytes "!")] ⟨_, List.mem_cons_self⟩
  have hlong : RFBUFSZ ≤ (List.replicate RFBUFSZ (120 : Byte) ++ bytes "!").length := by
    rw [List.length_append, List.length_replicate]
    exact Nat.le_add_right _ _
  have hsent : sentResponse (fun h => some (h ++ [⟨bytes "Set-Cookie", bytes "id=1"⟩]))
      ⟨false, .get, 200, [⟨bytes "Server", bytes "klone"⟩]⟩ true
        (List.replicate RFBUFSZ 120 ++ bytes "!") =
        ⟨false, .get, 200, [⟨bytes "Server", bytes "klone"⟩, ⟨bytes "Set-Cookie", bytes "id=1"⟩]⟩ :=
    if_pos ⟨rfl, by decide, hlong⟩
  have hprinted : Response.printed
    ⟨false, .get, 200, [⟨bytes "Server", bytes "klone"⟩, ⟨bytes "Set-Cookie", bytes "id=1"⟩]⟩ =
      bytes "HTTP/1.0 200 OK\r\nServer: klone\r\nSet-Cookie: id=1\r\n\r\n" := by decide +kernel
  refine ⟨io', hends, hdev.trans ?_⟩
  have hwritten : written [.write (List.replicate RFBUFSZ 120), .flush, .write (bytes "!")] =
      List.replicate RFBUFSZ 120 ++ bytes "!" := rfl
  rw [hwritten, hsent, hprinted, Response.body_of_ne (by decide)]
  rfl

end Klone.Page
