import Klone.Io.Output

/-! # Streams in memory

A block of fixed size with one position for reading and writing. A write that does
not fit is cut, and a full block takes nothing more; whatever is written to a stream
over a block, the block gets the beginning of it that fits.
-/
namespace Klone.Chain
open Loop

structure Mem where
  buf : Str
  off : ℕ
  fits : off ≤ buf.length

def Mem.written (m : Mem) : Str := m.buf.take m.off

def Mem.room (m : Mem) : ℕ := m.buf.length - m.off

theorem Mem.written_length (m : Mem) : m.written.length = m.off := by
  rw [Mem.written, List.length_take, Nat.min_eq_left m.fits]

def ioMemRead (m : Mem) (size : ℕ) : Mem × Option Str :=
  (⟨m.buf, m.off + min size m.room, by have := m.fits; unfold Mem.room; omega⟩,
    some (window m.buf m.off (min size m.room)))

theorem Mem.blit_fits (m : Mem) (bs : Str) :
    m.off + min bs.length m.room ≤ (blit m.buf m.off (bs.take (min bs.length m.room))).length := by
  have hfits := m.fits
  have hlen : (bs.take (min bs.length m.room)).length = min bs.length m.room := by
    rw [List.length_take]
    omega
  rw [length_blit (by unfold Mem.room at hlen ⊢; omega)]
  unfold Mem.room
  omega

def ioMemWrite (m : Mem) (bs : Str) : Mem × Option ℕ :=
  (⟨blit m.buf m.off (bs.take (min bs.length m.room)), m.off + min bs.length m.room,
    m.blit_fits bs⟩,
    some (min bs.length m.room))

def ioMem : Device := ⟨Mem, ioMemRead, ioMemWrite⟩

/-- A block of `size` bytes with the position at its start. -/
def ioMemCreate (size : ℕ) : Mem := ⟨List.replicate size 0, 0, Nat.zero_le _⟩

theorem ioMemWrite_size (m : Mem) (bs : Str) : (ioMemWrite m bs).1.buf.length = m.buf.length := by
  have hfits := m.fits
  apply length_blit
  rw [List.length_take]
  unfold Mem.room
  omega

theorem ioMemWrite_written (m : Mem) (bs : Str) :
    (ioMemWrite m bs).1.written = m.written ++ bs.take m.room := by
  have hfits := m.fits
  have hlen : (bs.take (min bs.length m.room)).length = min bs.length m.room := by
    rw [List.length_take]
    omega
  have hb : window (blit m.buf (0 + m.off) (bs.take (min bs.length m.room))) 0
    (m.off + min bs.length m.room) =
      window m.buf 0 m.off ++ (bs.take (min bs.length m.room)).take (min bs.length m.room) :=
    window_blit (by unfold Mem.room at hlen ⊢; omega) (by omega)
  rw [Nat.zero_add, List.take_take, Nat.min_self] at hb
  have htake : bs.take (min bs.length m.room) = bs.take m.room := by
    rw [Nat.min_comm, ← List.take_eq_take_min]
  rw [htake] at hb
  change (blit m.buf m.off (bs.take (min bs.length m.room))).take (m.off + min bs.length m.room) = _
  rw [htake]
  exact hb

theorem ioMem_partial : Partial ioMem Mem.written := by
  constructor
  · intro m bs k h
    obtain rfl : min bs.length m.room = k := Option.some.inj h
    refine ⟨Nat.min_le_left _ _, ?_⟩
    rw [Nat.min_comm, ← List.take_eq_take_min]
    exact ioMemWrite_written m bs
  · intro m bs h
    cases h

theorem ioMemWrite_room (m : Mem) (bs : Str) : (ioMemWrite m bs).1.room = m.room - bs.length := by
  unfold Mem.room
  rw [ioMemWrite_size]
  change m.buf.length - (m.off + min bs.length m.room) = _
  unfold Mem.room
  omega

/-- A flush moves as many bytes to the block as fit. -/
theorem ioFlush_mem {io : Io ioMem} (h : io.WriteOk) :
    ∃ m : Mem, Ends (fun n => ioFlush n io)
        ({ io with dev := m, wcount := io.wcount - min io.wcount (Mem.room io.dev) }, true) ∧
      m.written = Mem.written io.dev ++ io.buffered.take (Mem.room io.dev) ∧
      m.buf.length = (Mem.buf io.dev).length := by
  by_cases hz : io.wcount = 0
  · refine ⟨io.dev, ends_leave ?_, ?_, rfl⟩
    · have hsame : ({ io with
        dev := io.dev, wcount := io.wcount - min io.wcount (Mem.room io.dev) } : Io ioMem) =
          io := by
        rw [hz, Nat.zero_sub, ← hz]
      rw [hsame, flushStep, if_pos hz]
    · rw [Io.buffered, hz, window_zero, List.take_nil, List.append_nil]
  have hlen := h.buffered_length
  have hfirst := ioMemWrite_written io.dev io.buffered
  have hroom := ioMemWrite_room io.dev io.buffered
  have hsize := ioMemWrite_size io.dev io.buffered
  have hret : (ioMemWrite io.dev io.buffered).2 = some (min io.wcount (Mem.room io.dev)) := by
    rw [← hlen]
    rfl
  cases hk : min io.wcount (Mem.room io.dev) with
  | zero =>
    refine ⟨(ioMemWrite io.dev io.buffered).1, ends_leave ?_, hfirst, hsize⟩
    rw [hk] at hret
    change some (flushStep (io, 0)) =
      some (.leave (io.setDev (ioMemWrite io.dev io.buffered).1, true))
    rw [Io.buffered] at hret ⊢
    simp only [flushStep, hz, if_false, ioMem, hret]
  | succ k =>
    rw [hk] at hret
    have hagain : some (flushStep (io, 0)) = some (.again
        ({ io with dev := (ioMemWrite io.dev io.buffered).1, wcount := io.wcount - (k + 1) },
          0 + (k + 1))) := by
      rw [Io.buffered] at hret ⊢
      simp only [flushStep, hz, if_false, ioMem, hret]
    by_cases hrest : io.wcount - (k + 1) = 0
    · refine ⟨(ioMemWrite io.dev io.buffered).1, (ends_leave ?_).run_again hagain, hfirst, hsize⟩
      simp [flushStep, hrest]
    · have hfull : Mem.room (ioMemWrite io.dev io.buffered).1 = 0 := by omega
      generalize (ioMemWrite io.dev io.buffered).1 = m at *
      have hsecond := ioMemWrite_written m
        (window (io.wbuf.getD []) (0 + (k + 1)) (io.wcount - (k + 1)))
      have hsize' := ioMemWrite_size m
        (window (io.wbuf.getD []) (0 + (k + 1)) (io.wcount - (k + 1)))
      rw [hfull, List.take_zero, List.append_nil, hfirst] at hsecond
      refine ⟨_, (ends_leave ?_).run_again hagain, hsecond, hsize'.trans hsize⟩
      have hret' : (ioMemWrite m (window (io.wbuf.getD []) (0 + (k + 1)) (io.wcount - (k + 1)))).2 =
          some 0 := by
        simp [ioMemWrite, hfull]
      simp only [flushStep, hrest, if_false, ioMem, hret']
      rfl

/-- The stream has been given `total`: the block and the write buffer have all of it, or
the block is full. -/
structure Filling (size : ℕ) (total : Str) (io : Io ioMem) : Prop where
  plain : io.Plain
  block : (Mem.buf io.dev).length = size
  sent : io.sent (d := ioMem) Mem.written = total ∨ Mem.off io.dev = size ∧
    Mem.written io.dev <+: total

/-- The number of bytes in the block and the write buffer. -/
def taken (io : Io ioMem) : ℕ := Mem.off io.dev + io.wcount

theorem sent_length {io : Io ioMem} (h : io.WriteOk) :
    (io.sent (d := ioMem) Mem.written).length = taken io := by
  have hoff := Mem.written_length io.dev
  have hbuffered := h.buffered_length
  unfold Io.sent taken
  rw [List.length_append]
  omega

theorem Kept.taken {io io' : Io ioMem} {used : Str} (h : io.Plain)
    (hk : Kept (d := ioMem) Mem.written io used io') :
    taken io' = taken io + used.length := by
  have hsent := congrArg List.length hk.sent
  rwa [List.length_append, sent_length hk.plain.ok, sent_length h.ok] at hsent

/-- What the block has after a flush is the whole text, or the block is full. -/
theorem Filling.written {size : ℕ} {total : Str} {io : Io ioMem} (h : Filling size total io)
    {m : Mem} (hwritten : m.written = Mem.written io.dev ++ io.buffered.take (Mem.room io.dev)) :
    (io.wcount ≤ Mem.room io.dev ∧ m.written = total) ∨ m.off = size ∧ m.written <+: total := by
  have hoff := Mem.written_length io.dev
  have hlen := h.plain.ok.buffered_length
  have hfits := Mem.fits io.dev
  have hroom : Mem.room io.dev = size - Mem.off io.dev := by
    unfold Mem.room
    rw [h.block]
  rw [← m.written_length]
  rcases h.sent with hsent | ⟨hfull, hpre⟩
  · by_cases hle : io.wcount ≤ Mem.room io.dev
    · left
      rw [hwritten, List.take_of_length_le (by rw [hlen]; exact hle)]
      exact ⟨hle, hsent⟩
    · right
      refine ⟨?_, ?_⟩
      · have hsz := h.block
        rw [hwritten, List.length_append, List.length_take, hoff, hlen]
        omega
      · rw [hwritten, ← hsent]
        exact (List.prefix_append_right_inj _).mpr (List.take_prefix _ _)
  · right
    have hz : Mem.room io.dev = 0 := by omega
    rw [hz, List.take_zero, List.append_nil] at hwritten
    rw [hwritten, hoff]
    exact ⟨hfull, hpre⟩

theorem ioFlush_filling {size : ℕ} {total : Str} {io : Io ioMem} (h : Filling size total io) :
    ∃ io', Ends (fun n => ioFlush n io) (io', true) ∧ Filling size total io' ∧ io'.wbuf = io.wbuf ∧
      (io'.wcount = 0 ∨ Mem.off io'.dev = size) ∧ taken io' = taken io := by
  obtain ⟨m, hends, hwritten, hsize⟩ := ioFlush_mem h.plain.ok
  have hoff : m.off = Mem.off io.dev + min (Mem.room io.dev) io.wcount := by
    have hbefore := Mem.written_length io.dev
    have hlen := h.plain.ok.buffered_length
    rw [← m.written_length, hwritten, List.length_append, List.length_take, hbefore, hlen]
  have hflushed := h.written hwritten
  have hfits := Mem.fits io.dev
  have hsz := h.block
  have hroom : Mem.room io.dev = size - Mem.off io.dev := by
    unfold Mem.room
    rw [hsz]
  refine ⟨_, hends, ⟨⟨⟨?_, h.plain.ok.size, ?_⟩, h.plain.chain⟩, hsize.trans hsz, ?_⟩, rfl, ?_, ?_⟩
  · exact (Nat.sub_le _ _).trans h.plain.ok.fits
  · intro hn
    change io.wcount - _ = 0
    rw [h.plain.ok.null hn, Nat.zero_sub]
  · refine hflushed.imp ?_ id
    rintro ⟨hle, hall⟩
    change m.written ++ window _ 0 (io.wcount - min io.wcount (Mem.room io.dev)) = total
    rw [Nat.min_eq_left hle, Nat.sub_self, window_zero, List.append_nil, hall]
  · change io.wcount - min io.wcount (Mem.room io.dev) = 0 ∨ m.off = size
    omega
  · change m.off + (io.wcount - min io.wcount (Mem.room io.dev)) = Mem.off io.dev + io.wcount
    omega

theorem Filling.weaken {size : ℕ} {total more : Str} {io : Io ioMem} (h : Filling size total io)
    (hfull : Mem.off io.dev = size) : Filling size (total ++ more) io := by
  refine ⟨h.plain, h.block, Or.inr ⟨hfull, ?_⟩⟩
  rcases h.sent with hsent | ⟨-, hpre⟩
  · rw [← hsent]
    exact (List.prefix_append _ _).trans (List.prefix_append _ _)
  · exact hpre.trans (List.prefix_append _ _)

theorem Filling.kept {size : ℕ} {total used : Str} {io io' : Io ioMem} (h : Filling size total io)
    (hk : Kept (d := ioMem) Mem.written io used io') (hdev : io'.dev = io.dev) :
    Filling size (total ++ used) io' := by
  refine ⟨hk.plain, by rw [hdev]; exact h.block, ?_⟩
  rcases h.sent with hsent | ⟨hfull, hpre⟩
  · exact Or.inl (by rw [hk.sent, hsent])
  · exact Or.inr (by rw [hdev]; exact ⟨hfull, hpre.trans (List.prefix_append _ _)⟩)

/-- A round of `io_write` takes some bytes, or gives up because the block is full. -/
theorem writeBody_filling {size : ℕ} {total : Str} {io : Io ioMem} (h : Filling size total io)
    (hw : io.wbuf ≠ none) {buf : Str} (hbuf : buf ≠ []) :
    (∃ io' k, Ends (fun n => writeBody n (io, buf)) (.again (io', buf.drop (k + 1))) ∧
      k + 1 ≤ buf.length ∧
      Filling size (total ++ buf.take (k + 1)) io' ∧ io'.wbuf ≠ none ∧
        taken io' = taken io + (k + 1)) ∨
    ∃ io', Ends (fun n => writeBody n (io, buf)) (.leave (io', false)) ∧ Filling size total io' ∧
      Mem.off io'.dev = size ∧ taken io = size + IO_WR_BUFSZ := by
  obtain ⟨io₁, hroom, h₁, hwbuf, hfree, hcount⟩ : ∃ io₁, Ends (fun n => makeRoom n io) (io₁, true) ∧
      Filling size total io₁ ∧ io₁.wbuf = io.wbuf ∧
      (io₁.wcount < IO_WR_BUFSZ ∨ Mem.off io₁.dev = size) ∧
        taken io₁ = taken io := by
    unfold makeRoom
    by_cases hf : io.wcount = IO_WR_BUFSZ
    · simp only [if_pos hf]
      obtain ⟨io₁, hends, h₁, hwbuf, hor, hcount⟩ := ioFlush_filling h
      refine ⟨io₁, hends, h₁, hwbuf, hor.imp ?_ id, hcount⟩
      intro hz
      rw [hz]
      decide
    · simp only [if_neg hf]
      exact ⟨io, Ends.const _, h, rfl, Or.inl (lt_of_le_of_ne h.plain.ok.fits hf), rfl⟩
  have hw₁ : io₁.wbuf ≠ none := by rwa [hwbuf]
  by_cases hlt : io₁.wcount < IO_WR_BUFSZ
  · obtain ⟨io', k, hends, hle, hk, hdev⟩ := writeBody_takes Mem.written hroom h₁.plain hw₁ hbuf hlt
    have htaken := hk.taken h₁.plain
    rw [hcount, List.length_take, Nat.min_eq_left hle] at htaken
    exact Or.inl ⟨io', k, hends, hle, h₁.kept hk hdev, hk.wbuf, htaken⟩
  · have hfull := hfree.resolve_left hlt
    have hfits := h₁.plain.ok.fits
    refine Or.inr ⟨io₁, ?_, h₁, hfull, ?_⟩
    · exact writeBody_gives_up hroom h₁.plain hbuf (by omega)
    · unfold taken at hcount ⊢
      omega

/-- Whatever is written, the block gets the beginning of it that fits. A write fails when
the block and the write buffer have no room for all of it. -/
theorem ioWrite_filling {size : ℕ} {total : Str} {io : Io ioMem} (h : Filling size total io)
    (buf : Str) :
    ∃ io' ok, Ends (fun n => ioWrite n io buf) (io', if ok then some buf.length else none) ∧
      Filling size (total ++ buf) io' ∧ (ok = false → Mem.off io'.dev = size) ∧
        if ok then taken io' = taken io + buf.length
        else size + IO_WR_BUFSZ < taken io + buf.length := by
  have hrun := ends_run writeBody
    (I := fun m s => m = s.2.length ∧ ∃ used, buf = used ++ s.2 ∧ Filling size (total ++ used) s.1 ∧
      s.1.wbuf ≠ none ∧
      taken s.1 = taken io + used.length)
    (Q := fun r => Filling size (total ++ buf) r.1 ∧ (r.2 = false → Mem.off r.1.dev = size) ∧
      if r.2 then taken r.1 = taken io + buf.length else size + IO_WR_BUFSZ < taken io + buf.length)
    (m := buf.length) (s := (ioWriteStart io, buf))
    (fun m s => by
      obtain ⟨io₁, rest⟩ := s
      rintro ⟨rfl, used, rfl, hk, hw, hcount⟩
      by_cases hz : rest = []
      · subst hz
        rw [List.append_nil]
        exact Or.inr ⟨(io₁, true), Ends.const _, hk, fun hf => (by cases hf), hcount⟩
      rcases writeBody_filling hk hw hz with ⟨io₂, k, hends, hle, h₂, hw₂, hcount₂⟩ |
        ⟨io₂, hends, h₂, hfull, hcap⟩
      · refine Or.inl ⟨_, _, hends, ?_, rfl, used ++ rest.take (k + 1), ?_, ?_, hw₂, ?_⟩
        · change (rest.drop (k + 1)).length < rest.length
          rw [List.length_drop]
          omega
        · rw [List.append_assoc, List.take_append_drop]
        · rw [← List.append_assoc]
          exact h₂
        · rw [hcount₂, hcount, List.length_append, List.length_take, Nat.min_eq_left hle,
            Nat.add_assoc]
      · have hpos := List.length_pos_iff.mpr hz
        have hend : taken io₁ = taken io + used.length := hcount
        have hcap : taken io₁ = size + IO_WR_BUFSZ := hcap
        refine Or.inr ⟨_, hends, ?_, fun _ => hfull, ?_⟩
        · rw [← List.append_assoc]
          exact h₂.weaken hfull
        · change size + IO_WR_BUFSZ < taken io + (used ++ rest).length
          rw [List.length_append]
          omega)
    ⟨rfl, [], rfl, by
      have hk := ioWriteStart_kept Mem.written h.plain
      have hf := h.kept hk (ioWriteStart_dev io)
      exact ⟨hf, hk.wbuf, hk.taken h.plain⟩⟩
  obtain ⟨⟨io', ok⟩, ⟨hf, hfull, hcount⟩, hends⟩ := hrun
  exact ⟨io', ok, hends.map_eq rfl, hf, hfull, hcount⟩

theorem ioMemCreate_filling (size : ℕ) :
    Filling size [] (ioCreate (d := ioMem) (ioMemCreate size) []) :=
  ⟨outputCreate_plain _, List.length_replicate, Or.inl rfl⟩

/-- After a last flush the block has the beginning that fits. -/
theorem Filling.flushed {size : ℕ} {total : Str} {io : Io ioMem} (h : Filling size total io) :
    ∃ io', Ends (fun n => ioFlush n io) (io', true) ∧ Mem.written io'.dev = total.take size := by
  obtain ⟨io', hends, h', -, hor, -⟩ := ioFlush_filling h
  refine ⟨io', hends, ?_⟩
  have hlen := Mem.written_length io'.dev
  have hfits := Mem.fits io'.dev
  have hblock := h'.block
  have hpre : Mem.written io'.dev <+: total := by
    rcases h'.sent with hsent | ⟨-, hpre⟩
    · exact ⟨_, hsent⟩
    · exact hpre
  rcases hor with hz | hfull
  · rcases h'.sent with hsent | ⟨hfull, -⟩
    · unfold Io.sent Io.buffered at hsent
      rw [hz, window_zero, List.append_nil] at hsent
      rw [← hsent, List.take_of_length_le (by omega)]
    · rw [List.prefix_iff_eq_take.mp hpre, hlen, hfull]
  · rw [List.prefix_iff_eq_take.mp hpre, hlen, hfull]

end Klone.Chain
