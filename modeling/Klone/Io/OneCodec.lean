import Klone.Io.Composition

/-! # A stream with one codec

The codec keeps its place in the chain while the stream is written to, and only its
state changes. With one codec the buffer of its link is not used.
-/
namespace Klone.Chain
open Loop

variable {d : Device} {c : Codec}

def codecLink (c : Codec) (s : c.State) : Link := ⟨c, s, List.replicate CODEC_BUFSZ 0, 0, 0⟩

def Io.Through (c : Codec) (s : c.State) (io : Io d) : Prop := io.codecChain = [codecLink c s]

theorem Io.Through.unique {io : Io d} {s t : c.State} (hs : io.Through c s) (ht : io.Through c t) :
    s = t := by
  have hlinks : [codecLink c s] = [codecLink c t] := Eq.trans hs.symm ht
  simpa [codecLink] using hlinks

theorem flushStep_chain {s t : Io d × ℕ} (h : flushStep s = .again t) :
    t.1.codecChain = s.1.codecChain := by
  unfold flushStep at h
  dsimp only at h
  split at h
  · cases h
  · split at h
    · cases h
    · cases h
    · cases h
      rfl

theorem flushStep_leave {s : Io d × ℕ} {r : Io d × Bool} (h : flushStep s = .leave r) :
    r.1.codecChain = s.1.codecChain := by
  unfold flushStep at h
  dsimp only at h
  split at h
  · cases h
    rfl
  · split at h
    · cases h
      rfl
    · cases h
      rfl
    · cases h

theorem ioFlush_chain {n : ℕ} {io : Io d} {r : Io d × Bool} (h : ioFlush n io = some r) :
    r.1.codecChain = io.codecChain := by
  obtain ⟨t, hreach, hleave⟩ := run_reaches h
  have hkeep : t.1.codecChain = io.codecChain := by
    refine hreach.invariant (I := fun s => s.1.codecChain = io.codecChain) ?_ rfl
    intro s u hs he
    exact (flushStep_chain (Option.some.inj he)).trans hs
  exact (flushStep_leave (Option.some.inj hleave)).trans hkeep

theorem makeRoom_chain {n : ℕ} {io : Io d} {r : Io d × Bool} (h : makeRoom n io = some r) :
    r.1.codecChain = io.codecChain := by
  unfold makeRoom at h
  split at h
  · exact ioFlush_chain h
  · cases h
    rfl

/-- A call of `transform` by the stream. -/
theorem ioTransfer_through {n : ℕ} {io : Io d} {s : c.State} {room : ℕ} {src : Str}
    {t : TransformRes} (hio : io.Through c s) (h : ioTransfer n io room src = some t) :
    ∃ s', t.links = [codecLink c s'] := by
  have hchain : io.codecChain = [codecLink c s] := hio
  unfold ioTransfer at h
  simp only [hchain] at h
  cases n with
  | zero => cases h
  | succ n =>
    rw [ioTransform] at h
    cases h
    exact ⟨_, rfl⟩

def Io.HasCodec (c : Codec) (io : Io d) : Prop := ∃ s, io.Through c s

theorem writeStep_through {io : Io d} {buf : Str} {s : c.State} {t : TransformRes}
    (ht : t.links = [codecLink c s]) :
    (writeStep io buf t).Keeps (fun u => u.1.HasCodec c) (fun r => r.1.HasCodec c) := by
  unfold writeStep
  dsimp only
  split
  · exact ⟨s, ht⟩
  · split
    · exact ⟨s, ht⟩
    · exact ⟨s, ht⟩

theorem writeBody_through {n : ℕ} {t : Io d × Str} {i : Iter (Io d × Str) (Io d × Bool)}
    (hio : t.1.HasCodec c) (h : writeBody n t = some i) :
    i.Keeps (fun u => u.1.HasCodec c) (fun r => r.1.HasCodec c) := by
  obtain ⟨s, hio⟩ := hio
  unfold writeBody at h
  split at h
  · cases h
    exact ⟨s, hio⟩
  · obtain ⟨r, hroom, h⟩ := Option.bind_eq_some_iff.mp h
    have hr : r.1.Through c s := (makeRoom_chain hroom).trans hio
    unfold writeRoomed at h
    split at h
    · obtain ⟨t, ht, rfl⟩ := Option.map_eq_some_iff.mp h
      obtain ⟨s', hs'⟩ := ioTransfer_through hr ht
      exact writeStep_through hs'
    · cases h
      exact ⟨s, hr⟩

theorem ioWrite_through {n : ℕ} {io : Io d} {buf : Str} {s : c.State} {r : Io d × Option ℕ}
    (hio : io.Through c s) (h : ioWrite n io buf = some r) : ∃ s', r.1.Through c s' := by
  obtain ⟨r', hrun, rfl⟩ := Option.map_eq_some_iff.mp h
  have hstart : (if io.wbuf = none then ioWbufAlloc io else io).HasCodec c := by
    split
    · exact ⟨s, hio⟩
    · exact ⟨s, hio⟩
  exact run_keeps (I := fun u => u.1.HasCodec c) (J := fun r => r.1.HasCodec c)
    (fun _ _ => writeBody_through) hstart hrun

/-! ## Going on from a state -/

/-- The codec as if it had been created in the state `s`. -/
def Codec.from (c : Codec) (s : c.State) : Codec := { c with init := s }

/-- Nothing more is put into the codec. -/
theorem open_nil {wide : Prop} {s : c.State} {inp out : Str} (h : c.Open wide [] s inp out) :
    s = c.init ∧ inp = [] ∧ out = [] := by
  cases h with
  | init => exact ⟨rfl, rfl, rfl⟩
  | transform h hroom _ hsrc htotal hret =>
    have hnil := List.append_eq_nil_iff.mp (List.prefix_nil.mp htotal)
    exact absurd hnil.2 hsrc

end Klone.Chain
