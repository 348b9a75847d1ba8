import Klone.Io.Memory
import Klone.Io.Duplex

/-! # The position of a stream

`io_seek` and `io_tell` flush the write buffer and ask the device. The read buffers are
left as they are, so that the position of the device is that of the next byte only when
they are empty.
-/
namespace Klone.Chain
open Loop

/-- The `seek` and `tell` operations of a type of stream, where it has them; `none` for a
negative answer. -/
structure Position (d : Device) where
  seek : Option (d.State → ℕ → d.State × Option ℕ)
  tell : Option (d.State → Option ℕ)

variable {d : Device}

def ioSeek (p : Position d) (n : ℕ) (io : Io d) (off : ℕ) : Option (Io d × Option ℕ) :=
  (ioFlush n io).map fun r =>
    if r.2 then
      match p.seek with
      | none => (r.1, none)
      | some seek => (r.1.setDev (seek r.1.dev off).1, (seek r.1.dev off).2)
    else (r.1, none)

def ioTell (p : Position d) (n : ℕ) (io : Io d) : Option (Io d × Option ℕ) :=
  (ioFlush n io).map fun r => (r.1, if r.2 then p.tell.bind fun tell => tell r.1.dev else none)

def ioMemSeek (m : Mem) (off : ℕ) : Mem × Option ℕ :=
  if h : off < m.buf.length then (⟨m.buf, off, Nat.le_of_lt h⟩, some off) else (m, none)

def ioMemTell (m : Mem) : Option ℕ := some m.off

def ioMemPosition : Position ioMem := ⟨some ioMemSeek, some ioMemTell⟩

def Mem.ahead (m : Mem) : Str := m.buf.drop m.off

theorem ioMem_delivers : Delivers ioMem Mem.ahead := by
  intro m size hsize
  have hfits := m.fits
  refine ⟨min size m.room, rfl, ?_, Nat.min_le_left _ _, ?_⟩
  · change m.buf.drop (m.off + min size m.room) = (m.buf.drop m.off).drop _
    rw [List.drop_drop]
  · intro hne
    have hlt : m.off < m.buf.length := List.drop_eq_nil_iff.not.mp hne |> Nat.lt_of_not_le
    unfold Mem.room
    omega

/-! ## States of a stream that is read -/

theorem start_fits (content : Str) : 0 ≤ content.length := Nat.zero_le _

/-- A stream over `content` of which nothing has been read. -/
def memStream (content : Str) : Io ioMem :=
  ioCreate (d := ioMem) ⟨content, 0, start_fits content⟩ []

def Drained (io : Io ioMem) : Prop := io.rcount = 0 ∧ io.ucount = 0

/-- The states that reading leads to, and seeking while the read buffers are empty, each
with the position in the content of the byte that is next. -/
inductive Reached (content : Str) : Io ioMem → ℕ → Prop
  | start : Reached content (memStream content) 0
  | read {io io' : Io ioMem} {pos size : ℕ} {r : Option Str} : Reached content io pos →
    Ends (fun n => ioRead n io size) (io', r) → Reached content io' (pos + (r.getD []).length)
  | gets {io io' : Io ioMem} {pos size : ℕ} {r : Option Str} : Reached content io pos →
    Ends (fun n => ioGets n io size) (io', r) → Reached content io' (pos + (r.getD []).length)
  | tell {io io' : Io ioMem} {pos : ℕ} {r : Option ℕ} : Reached content io pos →
    Ends (fun n => ioTell ioMemPosition n io) (io', r) → Reached content io' pos
  | seek {io io' : Io ioMem} {pos off : ℕ} {r : Option ℕ} : Reached content io pos →
    (r ≠ none → Drained io) →
    Ends (fun n => ioSeek ioMemPosition n io off) (io', r) → Reached content io' (r.getD pos)

/-- `io_tell` gives the position of the byte that is next. -/
def Tells (io : Io ioMem) (pos : ℕ) : Prop :=
  ∃ io', Ends (fun n => ioTell ioMemPosition n io) (io', some pos)

/-- The next read returns the bytes from `pos` on, whatever its size. -/
def ReadsFrom (content : Str) (io : Io ioMem) (pos : ℕ) : Prop :=
  ∀ size, ∃ io', Ends (fun n => ioRead n io size) (io', some ((content.drop pos).take size))

structure At (content : Str) (pos : ℕ) (io : Io ioMem) : Prop where
  buf : Mem.buf io.dev = content
  unwritten : io.wcount = 0
  inside : pos ≤ content.length
  input : Input Mem.ahead (content.drop pos) io

variable {content : Str} {pos : ℕ} {io : Io ioMem}

theorem memStream_at (content : Str) : At content 0 (memStream content) :=
  ⟨rfl, rfl, start_fits content,
    ioCreate_input (d := ioMem) Mem.ahead ⟨content, 0, start_fits content⟩⟩

/-- The device is ahead by what is in the read buffers. -/
theorem At.ahead (h : At content pos io) :
    Mem.off io.dev = pos + (io.readable ++ io.fetched).length := by
  have hlen := congrArg List.length h.input.rest
  have hfits := Mem.fits io.dev
  have hin := h.inside
  have hbuf := congrArg List.length h.buf
  simp only [Mem.ahead, List.length_append, List.length_drop] at hlen ⊢
  omega

theorem At.buffers (h : At content pos io) :
    (io.readable ++ io.fetched).length = io.rcount + io.ucount := by
  rw [List.length_append, h.input.ok.readable_length]
  cases hr : io.rbuf with
  | none =>
    obtain ⟨-, huc⟩ := h.input.ok.null hr
    rw [Io.fetched_nil huc, huc]
    rfl
  | some mem => rw [h.input.ok.fetched_length (by rw [hr]; exact Option.some_ne_none mem)]

theorem At.drained_iff (h : At content pos io) : Drained io ↔ io.readable ++ io.fetched = [] := by
  rw [← List.length_eq_zero_iff, h.buffers]
  unfold Drained
  omega

/-- A flush has nothing to do. -/
theorem At.flush (h : At content pos io) : Ends (fun n => ioFlush n io) (io, true) := by
  apply ends_leave
  rw [flushStep, if_pos h.unwritten]

theorem At.tell (h : At content pos io) :
    Ends (fun n => ioTell ioMemPosition n io)
    (io, some (pos + (io.readable ++ io.fetched).length)) := by
  apply h.flush.map_eq
  rw [← h.ahead]
  rfl

theorem At.seek (h : At content pos io) (off : ℕ) :
    Ends (fun n => ioSeek ioMemPosition n io off)
    (io.setDev (ioMemSeek io.dev off).1, (ioMemSeek io.dev off).2) :=
  h.flush.map_eq rfl

theorem At.seek_inside (h : At content pos io) {off : ℕ} (hoff : off < content.length) :
    ∃ io', Ends (fun n => ioSeek ioMemPosition n io off) (io', some off) ∧
    Mem.buf io'.dev = content ∧
      io'.wcount = 0 ∧ (Drained io' ↔ Drained io) ∧
        Input Mem.ahead (io.readable ++ io.fetched ++ content.drop off) io' := by
  have hlt : off < (Mem.buf io.dev).length := by rwa [h.buf]
  have hseek : ioMemSeek io.dev off = (⟨Mem.buf io.dev, off, Nat.le_of_lt hlt⟩, some off) :=
    dif_pos hlt
  have hends := h.seek off
  rw [hseek] at hends
  refine ⟨_, hends, h.buf, h.unwritten, Iff.rfl, ⟨?_, h.input.chain, h.input.eof, ?_⟩⟩
  · exact ⟨h.input.ok.size, h.input.ok.null, h.input.ok.rfits, h.input.ok.ufits, h.input.ok.uempty⟩
  · change io.readable ++ (io.fetched ++ (Mem.buf io.dev).drop off) = _
    rw [h.buf, List.append_assoc]

theorem At.seek_outside (h : At content pos io) {off : ℕ} (hoff : content.length ≤ off) :
    Ends (fun n => ioSeek ioMemPosition n io off) (io, none) := by
  have hseek : ioMemSeek io.dev off = (io.dev, none) := by
    apply dif_neg
    rw [h.buf]
    omega
  have hends := h.seek off
  rw [hseek] at hends
  exact hends

/-- The bytes that are read are the next ones, and the position moves on by them. -/
theorem At.delivered (h : At content pos io) {out : Str} {io' : Io ioMem}
    (hdel : Delivered Mem.ahead (content.drop pos) io out io')
    (hsame : SameWrites (d := ioMem) Mem.buf io io') :
    At content (pos + out.length) io' := by
  have hle := hdel.begins.length_le
  have hin := h.inside
  rw [List.length_drop] at hle
  refine ⟨hsame.received.trans h.buf, hsame.wcount.trans h.unwritten, by omega, ?_⟩
  rw [← List.drop_drop]
  exact hdel.input

theorem At.read (h : At content pos io) {size : ℕ} {io' : Io ioMem} {r : Option Str}
    (hr : Ends (fun n => ioRead n io size) (io', r)) :
    At content (pos + (r.getD []).length) io' := by
  obtain ⟨io₁, hends, hdel⟩ := ioRead_input ioMem_delivers h.input size
  cases hr.unique hends
  obtain ⟨n, hrun⟩ := hends.some_run
  exact h.delivered hdel (ioRead_sameWrites (fun _ _ => rfl) hrun)

theorem At.gets (h : At content pos io) {size : ℕ} {io' : Io ioMem} {r : Option Str}
    (hr : Ends (fun n => ioGets n io size) (io', r)) :
    At content (pos + (r.getD []).length) io' := by
  obtain ⟨io₁, r₁, hends, hdel, -⟩ := ioGetUntil_shortest ioMem_delivers h.input 10 size
  cases hr.unique hends
  obtain ⟨n, hrun⟩ := hends.some_run
  exact h.delivered hdel (ioGetUntil_sameWrites (fun _ _ => rfl) hrun)

/-- Seeking with empty read buffers moves to the position. -/
theorem At.seek_drained (h : At content pos io) {off : ℕ} (hoff : off < content.length)
    (hd : Drained io) :
    ∃ io', Ends (fun n => ioSeek ioMemPosition n io off) (io', some off) ∧ At content off io' := by
  obtain ⟨io', hends, hbuf, hwc, -, hin⟩ := h.seek_inside hoff
  rw [h.drained_iff.mp hd, List.nil_append] at hin
  exact ⟨io', hends, hbuf, hwc, Nat.le_of_lt hoff, hin⟩

/-- Every state that is reached is at its position. -/
theorem Reached.at (h : Reached content io pos) : At content pos io := by
  induction h with
  | start => exact memStream_at content
  | read _ hr ih => exact ih.read hr
  | gets _ hr ih => exact ih.gets hr
  | tell _ hr ih =>
    cases hr.unique ih.tell
    exact ih
  | @seek io io' pos off r _ hd hr ih =>
    by_cases hoff : off < content.length
    · obtain ⟨io₁, hends, -⟩ := ih.seek_inside hoff
      have hsome : r = some off := congrArg Prod.snd (hr.unique hends)
      obtain ⟨io₂, hends₂, hat⟩ :=
        ih.seek_drained hoff (hd (by rw [hsome]; exact Option.some_ne_none off))
      cases hr.unique hends₂
      exact hat
    · cases hr.unique (ih.seek_outside (Nat.le_of_not_lt hoff))
      exact ih

/-- Bytes left in the read buffers come before those from the position. -/
theorem readsFrom_iff {left : Str} {off : ℕ} (h : Input Mem.ahead (left ++ content.drop off) io) :
    ReadsFrom content io off ↔ left = [] := by
  constructor
  · intro hreads
    obtain ⟨io', hends⟩ := hreads (left ++ content.drop off).length
    obtain ⟨io₁, hends₁, -⟩ := ioRead_input ioMem_delivers h (left ++ content.drop off).length
    have hsame := Option.some.inj (congrArg Prod.snd (hends.unique hends₁))
    have hlen := congrArg List.length hsame
    simp only [List.length_take, List.length_append] at hlen
    exact List.length_eq_zero_iff.mp (by omega)
  · rintro rfl size
    rw [List.nil_append] at h
    obtain ⟨io', hends, -⟩ := ioRead_input ioMem_delivers h size
    exact ⟨io', hends⟩

theorem At.tells_iff (h : At content pos io) : Tells io pos ↔ Drained io := by
  rw [h.drained_iff, ← List.length_eq_zero_iff]
  constructor
  · rintro ⟨io', hends⟩
    have hsame := Option.some.inj (congrArg Prod.snd (hends.unique h.tell))
    omega
  · intro hz
    have htell := h.tell
    rw [hz, Nat.add_zero] at htell
    exact ⟨io, htell⟩

/-- In every state that is reached the position told is that of the next byte exactly when
the read buffers are empty. A seek inside the content succeeds, and then what is read
begins at the offset, and so does what is told, exactly when they are empty before it. -/
theorem seek_tell_iff (h : Reached content io pos) :
    (Tells io pos ↔ Drained io) ∧
      (∀ off < content.length, ∃ io',
        Ends (fun n => ioSeek ioMemPosition n io off) (io', some off) ∧
        (ReadsFrom content io' off ∧ Tells io' off ↔ Drained io)) ∧
      ∀ off, content.length ≤ off → ∃ io',
        Ends (fun n => ioSeek ioMemPosition n io off) (io', none) := by
  have hat := h.at
  refine ⟨hat.tells_iff, ?_, fun off hoff => ⟨io, hat.seek_outside hoff⟩⟩
  intro off hoff
  obtain ⟨io', hends, -, -, hsame, hin⟩ := hat.seek_inside hoff
  refine ⟨io', hends, ?_⟩
  constructor
  · rintro ⟨hreads, -⟩
    exact hat.drained_iff.mpr ((readsFrom_iff hin).mp hreads)
  · intro hd
    refine ⟨(readsFrom_iff hin).mpr (hat.drained_iff.mp hd), ?_⟩
    obtain ⟨io₁, hends₁, hat₁⟩ := hat.seek_drained hoff hd
    cases hends.unique hends₁
    exact hat₁.tells_iff.mpr (hsame.mpr hd)

/-- One of two bytes has been read, the other is in the read buffer. -/
theorem one_of_two : ∃ io, Reached (bytes "ab") io 1 ∧ io.rcount = 1 := by
  obtain ⟨io, hends, -⟩ := ioRead_input ioMem_delivers (memStream_at (bytes "ab")).input 1
  have hcount : Ends (fun n => (ioRead n (memStream (bytes "ab")) 1).map fun r =>
      r.1.rcount) 1 := by
    refine ⟨3, fun n hn => ?_⟩
    obtain ⟨k, rfl⟩ : ∃ k, n = k + 3 := ⟨n - 3, by omega⟩
    rfl
  exact ⟨io, .read .start hends, (hends.map fun r => r.1.rcount).unique hcount⟩

theorem seek_tell_one : ∃ io, Reached (bytes "ab") io 1 ∧ (Tells io 1 ↔ Drained io) ∧
    (∀ off < (bytes "ab").length, ∃ io',
      Ends (fun n => ioSeek ioMemPosition n io off) (io', some off) ∧
      (ReadsFrom (bytes "ab") io' off ∧ Tells io' off ↔ Drained io)) ∧
    ∀ off, (bytes "ab").length ≤ off → ∃ io',
    Ends (fun n => ioSeek ioMemPosition n io off) (io', none) := by
  obtain ⟨io, h, -⟩ := one_of_two
  exact ⟨io, h, seek_tell_iff h⟩

/-- After one byte of two the position told is the end, and a seek to the start is followed
by the byte that was left over. -/
theorem seek_reads_left_over : ∃ io, Reached (bytes "ab") io 1 ∧ ¬ Tells io 1 ∧
    ∃ io', Ends (fun n => ioSeek ioMemPosition n io 0) (io', some 0) ∧
    ¬ ReadsFrom (bytes "ab") io' 0 := by
  obtain ⟨io, h, hcount⟩ := one_of_two
  have hat := h.at
  have hnot : ¬ Drained io := by
    intro hd
    rw [hd.1] at hcount
    cases hcount
  obtain ⟨io', hends, -, -, -, hin⟩ := hat.seek_inside (show 0 < (bytes "ab").length by decide)
  exact ⟨io, h, hat.tells_iff.not.mpr hnot, io', hends,
    fun hreads => hnot (hat.drained_iff.mpr ((readsFrom_iff hin).mp hreads))⟩

end Klone.Chain
