import Klone.Emb.EndToEnd
import Klone.Io.CopyLoops
import Klone.Io.Pipe
import Klone.Utils.Md5

/-! # The digest of a stream

`u_md5io` reads a stream block by block. The state of the digest is that after all that has
been read, so that neither the blocks nor the pieces in which the device delivers them matter.
-/
namespace Klone.Md5
open Chain Loop
variable {d : Device} {pending : d.State → Str}

/-- `u_md5io`, with the text that it makes of the digest. -/
def uMd5ioText (n : ℕ) (io : Io d) : Option (Str × CopyEnd) :=
  (uMd5io n io).map fun r => (uTohex (md5Finish r.1.sink), r.2)

/-- The step: a block comes to the digest, or all has been read. -/
theorem uMd5io_step {P : Str → Io d → Prop} {total got : Str} (hy : Yields P total)
    {s : Pump d Md5State} (hbuf : s.buf.length = BUFSZ) (hp : P got s.io) (hs : After s.sink got) :
    (∃ t c, Ends (fun n => pumpBody appendBlock n s) (.again t) ∧ c ≠ [] ∧ t.buf.length = BUFSZ ∧
        P (got ++ c) t.io ∧ After t.sink (got ++ c)) ∨
      ∃ t, Ends (fun n => pumpBody appendBlock n s) (.leave (t, .eof)) ∧ After t.sink total := by
  obtain ⟨io', out, hends, hp', hlen, hall⟩ := hy.read hp
  cases out with
  | nil =>
    refine Or.inr ⟨_, hends.bind (Ends.const _), ?_⟩
    rw [← hall rfl]
    exact hs
  | cons b out =>
    obtain ⟨hsize, hblock⟩ := pumpRead_block appendBlock s io' hbuf (List.cons_ne_nil b out) hlen
    have hshort : (b :: out).length + 63 < 2 ^ 31 :=
      (Nat.add_le_add_right hlen 63).trans_lt (by decide)
    refine Or.inl ⟨⟨io', store s.buf (b :: out), appendPiece s.sink (b :: out),
      s.passed ++ [(b :: out, (b :: out).length)]⟩, b :: out,
      hends.bind ?_, List.cons_ne_nil b out, hsize, hp', appendPiece_after hs hshort⟩
    simp only [hblock]
    exact Ends.const _

/-- The run: the digest of a stream is that of all that is read from it. -/
theorem uMd5io_yields {P : Str → Io d → Prop} {total : Str} (hy : Yields P total) {io : Io d}
    (hp : P [] io) :
    Ends (fun n => uMd5ioText n io) (uTohex (digest total), .eof) := by
  have hrun := ends_run (pumpBody appendBlock)
    (I := fun m s => ∃ got, m = total.length - got.length ∧ s.buf.length = BUFSZ ∧ P got s.io ∧
      After s.sink got)
    (Q := fun r : Pump d Md5State × CopyEnd => r.2 = .eof ∧ After r.1.sink total)
    (s := ⟨io, List.replicate BUFSZ 0, md5Init, []⟩)
    (fun m s => by
      rintro ⟨got, rfl, hbuf, hp, hs⟩
      rcases uMd5io_step hy hbuf hp hs with ⟨t, c, hends, hc, hbuf', hp', hs'⟩ | ⟨t, hends, hs'⟩
      · refine Or.inl ⟨t, _, hends, ?_, got ++ c, rfl, hbuf', hp', hs'⟩
        have hle := (hy.begins hp').length_le
        have hpos := List.length_pos_iff.mpr hc
        rw [List.length_append] at hle ⊢
        omega
      · exact Or.inr ⟨(t, .eof), hends, rfl, hs'⟩)
    ⟨[], rfl, List.length_replicate, hp, md5Init_after⟩
  obtain ⟨⟨s, how⟩, ⟨rfl, hs⟩, hends⟩ := hrun
  refine hends.map_eq ?_
  rw [md5Finish_after hs]

/-- The digest of a stream is that of its content, whatever the pieces in which the device
delivers it, and behind a decompressing codec that of the decompressed content. -/
theorem uMd5io_content (hd : Delivers d pending) (dev : d.State) :
    Ends (fun n => uMd5ioText n (ioCreate dev [])) (uTohex (digest (pending dev)), .eof) ∧
      ∀ {z : Zlib} {plain : Str}, z.Computes false (pending dev) plain →
        Ends (fun n => uMd5ioText n
          (Emb.ioCodecAddTail (ioCreate dev []) (codecGzipCreate z .uncompress)))
          (uTohex (digest plain), .eof) := by
  refine ⟨uMd5io_yields (input_yields hd _) ⟨pending dev, rfl, ioCreate_input pending dev⟩, ?_⟩
  intro z plain hz
  obtain ⟨P, hy, hp⟩ := gzip_yields hd dev hz
  exact uMd5io_yields hy hp

theorem uMd5io_content_fifo :
    Ends (fun n => uMd5ioText n (ioCreate (d := fifo) Emb.sampleZ []))
    (uTohex (digest Emb.sampleZ), .eof) ∧
      Ends (fun n => uMd5ioText n (Emb.ioCodecAddTail (ioCreate (d := fifo) Emb.sampleZ [])
        (codecGzipCreate (Emb.collecting Emb.sampleInflated) .uncompress)))
          (uTohex (digest Emb.sampleFile), .eof) :=
  ⟨(uMd5io_content fifo_delivers Emb.sampleZ).1,
    (uMd5io_content fifo_delivers Emb.sampleZ).2
      (Emb.collecting_computes Emb.sampleInflated false Emb.sampleZ)⟩

end Klone.Md5
