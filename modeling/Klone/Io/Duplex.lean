import Klone.Io.Input
import Klone.Io.OneCodec

/-! # Streams in both directions

A connection is read and written through one stream. Writing leaves what is still to be
read as it is, and reading what has been written.
-/
namespace Klone.Chain
open Loop

structure Duplex (d : Device) (pending received : d.State → Str) : Prop where
  delivers : Delivers d pending
  accepts : Accepts d received
  read_received : ∀ s size, received (d.read s size).1 = received s
  write_pending : ∀ s bs, pending (d.write s bs).1 = pending s

variable {d : Device} {pending received : d.State → Str}

/-! ## Writing -/

structure SameReads (pending : d.State → Str) (io io' : Io d) : Prop where
  eof : io'.eof = io.eof
  rbuf : io'.rbuf = io.rbuf
  rcount : io'.rcount = io.rcount
  roff : io'.roff = io.roff
  ubuf : io'.ubuf = io.ubuf
  ucount : io'.ucount = io.ucount
  uoff : io'.uoff = io.uoff
  pending : pending io'.dev = pending io.dev

theorem SameReads.refl (io : Io d) :
    SameReads pending io io := ⟨rfl, rfl, rfl, rfl, rfl, rfl, rfl, rfl⟩

theorem SameReads.trans {io io' io'' : Io d} (h : SameReads pending io io')
    (h' : SameReads pending io' io'') :
    SameReads pending io io'' :=
  ⟨h'.eof.trans h.eof, h'.rbuf.trans h.rbuf, h'.rcount.trans h.rcount, h'.roff.trans h.roff,
    h'.ubuf.trans h.ubuf,
    h'.ucount.trans h.ucount, h'.uoff.trans h.uoff, h'.pending.trans h.pending⟩

theorem SameReads.readable {io io' : Io d} (h : SameReads pending io io') :
    io'.readable = io.readable := by
  unfold Io.readable
  rw [h.rbuf, h.roff, h.rcount]

theorem SameReads.fetched {io io' : Io d} (h : SameReads pending io io') :
    io'.fetched = io.fetched := by
  unfold Io.fetched
  rw [h.ubuf, h.uoff, h.ucount]

theorem SameReads.readOk {io io' : Io d} (h : SameReads pending io io') (hok : io.ReadOk) :
    io'.ReadOk := by
  refine ⟨?_, ?_, ?_, ?_, ?_⟩
  · intro mem hm
    rw [h.ubuf]
    exact hok.size mem (h.rbuf ▸ hm)
  · intro hn
    rw [h.rcount, h.ucount]
    exact hok.null (h.rbuf ▸ hn)
  · rw [h.roff, h.rcount]
    exact hok.rfits
  · rw [h.uoff, h.ucount]
    exact hok.ufits
  · rw [h.ucount, h.uoff]
    exact hok.uempty

theorem SameReads.input {io io' : Io d} {rest : Str} (h : SameReads pending io io')
    (hin : Input pending rest (io.setChain [])) :
    Input pending rest (io'.setChain []) := by
  have hok : io'.ReadOk :=
    h.readOk ⟨hin.ok.size, hin.ok.null, hin.ok.rfits, hin.ok.ufits, hin.ok.uempty⟩
  refine ⟨⟨hok.size, hok.null, hok.rfits, hok.ufits, hok.uempty⟩, rfl, h.eof.trans hin.eof, ?_⟩
  change io'.readable ++ (io'.fetched ++ pending io'.dev) = rest
  rw [h.readable, h.fetched, h.pending]
  exact hin.rest

theorem Input.setChain_nil {io : Io d} {rest : Str} (h : Input pending rest io) :
    io.setChain [] = io := by
  rw [← h.chain]
  rfl

section Write
variable (hd : Duplex d pending received)
include hd

theorem flushStep_sameReads (s : Io d × ℕ) :
    (flushStep s).Keeps (fun t => SameReads pending s.1 t.1)
    (fun r => SameReads pending s.1 r.1) := by
  have hwrite := hd.write_pending s.1.dev (window (s.1.wbuf.getD []) s.2 s.1.wcount)
  unfold flushStep
  dsimp only
  split
  · exact SameReads.refl _
  · split
    · exact ⟨rfl, rfl, rfl, rfl, rfl, rfl, rfl, hwrite⟩
    · exact ⟨rfl, rfl, rfl, rfl, rfl, rfl, rfl, hwrite⟩
    · exact ⟨rfl, rfl, rfl, rfl, rfl, rfl, rfl, hwrite⟩

theorem ioFlush_sameReads {n : ℕ} {io : Io d} {r : Io d × Bool} (h : ioFlush n io = some r) :
    SameReads pending io r.1 := by
  refine run_keeps (I := fun s => SameReads pending io s.1)
    (J := fun r => SameReads pending io r.1) ?_
    (SameReads.refl io) h
  intro s i hs he
  obtain rfl := Option.some.inj he
  have hstep := flushStep_sameReads hd s
  cases hi : flushStep s with
  | again t =>
    rw [hi] at hstep
    exact hs.trans hstep
  | leave r =>
    rw [hi] at hstep
    exact hs.trans hstep

theorem makeRoom_sameReads {n : ℕ} {io : Io d} {r : Io d × Bool} (h : makeRoom n io = some r) :
    SameReads pending io r.1 := by
  unfold makeRoom at h
  split at h
  · exact ioFlush_sameReads hd h
  · cases h
    exact SameReads.refl _

theorem writeBody_sameReads {n : ℕ} {io : Io d} {buf : Str} {i : Iter (Io d × Str) (Io d × Bool)}
    (h : writeBody n (io, buf) = some i) :
    i.Keeps (fun t => SameReads pending io t.1) (fun r => SameReads pending io r.1) := by
  unfold writeBody at h
  split at h
  · cases h
    exact SameReads.refl _
  · obtain ⟨r, hroom, h⟩ := Option.bind_eq_some_iff.mp h
    have hsame := makeRoom_sameReads hd hroom
    unfold writeRoomed at h
    split at h
    · obtain ⟨t, -, rfl⟩ := Option.map_eq_some_iff.mp h
      have hput : ∀ io' : Io d, SameReads pending r.1 io' → SameReads pending io io' :=
        fun _ h' => hsame.trans h'
      unfold writeStep
      dsimp only
      split
      · exact hput _ ⟨rfl, rfl, rfl, rfl, rfl, rfl, rfl, rfl⟩
      · split
        · exact hput _ ⟨rfl, rfl, rfl, rfl, rfl, rfl, rfl, rfl⟩
        · exact hput _ ⟨rfl, rfl, rfl, rfl, rfl, rfl, rfl, rfl⟩
    · cases h
      exact hsame

theorem ioWrite_sameReads {n : ℕ} {io : Io d} {buf : Str} {r : Io d × Option ℕ}
    (h : ioWrite n io buf = some r) :
    SameReads pending io r.1 := by
  obtain ⟨r', hrun, rfl⟩ := Option.map_eq_some_iff.mp h
  refine run_keeps (I := fun s => SameReads pending io s.1)
    (J := fun r => SameReads pending io r.1) ?_ ?_ hrun
  · intro s i hs he
    have hstep := writeBody_sameReads hd he
    cases i with
    | again t => exact hs.trans hstep
    | leave r => exact hs.trans hstep
  · change SameReads pending io (if io.wbuf = none then ioWbufAlloc io else io)
    split
    · exact ⟨rfl, rfl, rfl, rfl, rfl, rfl, rfl, rfl⟩
    · exact SameReads.refl _

end Write

/-! ## Reading -/

structure SameWrites (received : d.State → Str) (io io' : Io d) : Prop where
  wbuf : io'.wbuf = io.wbuf
  wcount : io'.wcount = io.wcount
  received : received io'.dev = received io.dev

theorem SameWrites.refl (io : Io d) : SameWrites received io io := ⟨rfl, rfl, rfl⟩

theorem SameWrites.trans {io io' io'' : Io d} (h : SameWrites received io io')
    (h' : SameWrites received io' io'') :
    SameWrites received io io'' :=
  ⟨h'.wbuf.trans h.wbuf, h'.wcount.trans h.wcount, h'.received.trans h.received⟩

theorem SameWrites.writeOk {io io' : Io d} (h : SameWrites received io io') (hok : io.WriteOk) :
    io'.WriteOk := by
  refine ⟨?_, ?_, ?_⟩
  · rw [h.wcount]
    exact hok.fits
  · rw [h.wbuf]
    exact hok.size
  · rw [h.wbuf, h.wcount]
    exact hok.null

theorem SameWrites.sent {io io' : Io d} (h : SameWrites received io io') :
    io'.sent received = io.sent received := by
  unfold Io.sent Io.buffered
  rw [h.wbuf, h.wcount, h.received]

theorem underflowTransfer_sameWrites {n : ℕ} {io : Io d} {i : Iter (Io d) (Io d × Option ℕ)}
    (h : underflowTransfer n io = some i) :
    i.Keeps (SameWrites received io) (fun r => SameWrites received io r.1) := by
  obtain ⟨t, -, rfl⟩ := Option.map_eq_some_iff.mp h
  unfold underflowTransferred
  dsimp only
  split
  · exact ⟨rfl, rfl, rfl⟩
  · split
    · exact ⟨rfl, rfl, rfl⟩
    · exact ⟨rfl, rfl, rfl⟩

theorem underflowEof_sameWrites {n : ℕ} {io : Io d} {i : Iter (Io d) (Io d × Option ℕ)}
    (h : underflowEof n io = some i) :
    i.Keeps (SameWrites received io) (fun r => SameWrites received io r.1) := by
  unfold underflowEof at h
  split at h
  · cases h
    exact SameWrites.refl _
  · obtain ⟨r, -, rfl⟩ := Option.map_eq_some_iff.mp h
    unfold underflowFlushed
    dsimp only
    split
    · exact ⟨rfl, rfl, rfl⟩
    · exact ⟨rfl, rfl, rfl⟩
    · exact ⟨rfl, rfl, rfl⟩

theorem keeps_sameWrites {io io' : Io d} {i : Iter (Io d) (Io d × Option ℕ)}
    (h : SameWrites received io io')
    (hi : i.Keeps (SameWrites received io') (fun r => SameWrites received io' r.1)) :
    i.Keeps (SameWrites received io) (fun r => SameWrites received io r.1) := by
  cases i with
  | again t => exact h.trans hi
  | leave r => exact h.trans hi

section Read
variable (hd : ∀ s size, received (d.read s size).1 = received s)
include hd

theorem underflowBody_sameWrites {n : ℕ} {io : Io d} {i : Iter (Io d) (Io d × Option ℕ)}
    (h : underflowBody n io = some i) :
    i.Keeps (SameWrites received io) (fun r => SameWrites received io r.1) := by
  have hread : SameWrites received io (io.setDev (d.read io.dev IO_RD_BUFSZ).1) :=
    ⟨rfl, rfl, hd io.dev IO_RD_BUFSZ⟩
  unfold underflowBody at h
  split at h
  · cases h
    exact SameWrites.refl _
  · split at h
    · exact underflowTransfer_sameWrites h
    · dsimp only at h
      split at h
      · cases h
        exact hread
      · exact keeps_sameWrites hread (underflowEof_sameWrites h)
      · next bs _ _ =>
        have hfetch : SameWrites received io ((io.setDev (d.read io.dev IO_RD_BUFSZ).1).fetch bs) :=
          ⟨rfl, rfl, hread.received⟩
        exact keeps_sameWrites hfetch (underflowTransfer_sameWrites h)

theorem ioUnderflow_sameWrites {n : ℕ} {io : Io d} {r : Io d × Option ℕ}
    (h : ioUnderflow n io = some r) :
    SameWrites received io r.1 := by
  refine run_keeps (I := SameWrites received io) (J := fun r => SameWrites received io r.1) ?_ ?_ h
  · intro s i hs he
    exact keeps_sameWrites hs (underflowBody_sameWrites hd he)
  · split
    · exact ⟨rfl, rfl, rfl⟩
    · exact SameWrites.refl _

theorem ioRead_sameWrites {n : ℕ} {io : Io d} {size : ℕ} {r : Io d × Option Str}
    (h : ioRead n io size = some r) :
    SameWrites received io r.1 := by
  unfold ioRead at h
  split at h
  · cases h
    exact SameWrites.refl _
  · refine run_keeps (I := fun s => SameWrites received io s.io)
      (J := fun r => SameWrites received io r.1) ?_
      (SameWrites.refl io) h
    intro s i hs he
    unfold readBody at he
    split at he
    · cases he
      exact hs
    · split at he
      · cases he
        exact hs.trans ⟨rfl, rfl, rfl⟩
      · obtain ⟨u, hu, rfl⟩ := Option.map_eq_some_iff.mp he
        have hsame := hs.trans (ioUnderflow_sameWrites hd hu)
        unfold readUnderflown
        split
        · exact hsame
        · exact hsame
        · exact hsame.trans ⟨rfl, rfl, rfl⟩

theorem untilLoop_sameWrites {n : ℕ} {io : Io d} {stop : Byte} {size : ℕ} {u : Io d × Option ℕ}
    {r : Io d × Option Str} (hu : SameWrites received io u.1)
    (h : untilLoop n stop size u = some r) : SameWrites received io r.1 := by
  unfold untilLoop at h
  split at h
  · cases h
    exact hu
  · cases h
    exact hu
  · refine run_keeps (I := fun s => SameWrites received io s.io)
      (J := fun r => SameWrites received io r.1) ?_ hu h
    intro s i hs he
    unfold untilBody at he
    split at he
    · cases he
      exact hs.trans ⟨rfl, rfl, rfl⟩
    · split at he
      · obtain ⟨v, hv, rfl⟩ := Option.map_eq_some_iff.mp he
        have hdrain : SameWrites received io s.io.drain := hs.trans ⟨rfl, rfl, rfl⟩
        have hsame := hdrain.trans (ioUnderflow_sameWrites hd hv)
        unfold untilUnderflown
        split
        · exact hsame
        · exact hsame
        · exact hsame
      · cases he
        exact hs.trans ⟨rfl, rfl, rfl⟩

theorem ioGetUntil_sameWrites {n : ℕ} {io : Io d} {stop : Byte} {size : ℕ} {r : Io d × Option Str}
    (h : ioGetUntil n io stop size = some r) : SameWrites received io r.1 := by
  unfold ioGetUntil at h
  split at h
  · cases h
    exact SameWrites.refl _
  · split at h
    · exact untilLoop_sameWrites hd (SameWrites.refl io) h
    · obtain ⟨u, hu, hloop⟩ := Option.bind_eq_some_iff.mp h
      exact untilLoop_sameWrites hd (ioUnderflow_sameWrites hd hu) hloop

end Read

end Klone.Chain
