import Klone.Codec.Gzip
import Klone.Io.Composition
import Klone.Io.Seek

/-! # Piping one stream into another

What a stream yields when it is read block by block does not depend on the blocks, and what
a stream has been given does not depend on the pieces. A pipe only needs the one of its
input and the other of its output.
-/
namespace Klone.Chain
open Loop

variable {d e : Device} {pending : d.State → Str} {received : e.State → Str}

/-- What is read from a stream block by block makes up `total`; `P got` says that `got` has
been read. -/
structure Yields (P : Str → Io d → Prop) (total : Str) : Prop where
  begins : ∀ {got io}, P got io → got <+: total
  read : ∀ {got io}, P got io → ∃ io' out, Ends (fun n => ioRead n io 4096) (io', some out) ∧
    P (got ++ out) io' ∧
    out.length ≤ 4096 ∧ (out = [] → got = total)

theorem input_yields (hd : Delivers d pending) (total : Str) :
    Yields (fun got (io : Io d) => ∃ rest, got ++ rest = total ∧ Input pending rest io) total where
  begins := fun ⟨rest, hall, _⟩ => ⟨rest, hall⟩
  read := by
    rintro got io ⟨rest, rfl, hin⟩
    obtain ⟨io', hends, hdel⟩ := ioRead_input hd hin 4096
    refine ⟨io', rest.take 4096, hends, ⟨_, ?_, hdel.input⟩, List.length_take_le _ _,
      fun hnil => ?_⟩
    · rw [List.append_assoc, List.append_cancel_left_eq]
      exact List.prefix_iff_eq_append.mp hdel.begins
    · rcases List.take_eq_nil_iff.mp hnil with h | h
      · cases h
      · rw [h, List.append_nil]

theorem reading_yields {q : Tail} (hquiet : q.quiet) (hd : Delivers d pending) (total : Str)
    (results : List Str) :
    Yields (fun got (io : Io d) => Reading q pending total results got io ∧
      EofDone total results got io)
      (results.getLastD total) where
  begins := fun h => h.1.begins
  read := by
    rintro got io ⟨hread, heof⟩
    obtain ⟨⟨io', res⟩, ⟨out, rfl, hread', heof', hlen⟩, hends⟩ :=
      ioRead_ends hquiet hd hread heof 4096
    refine ⟨io', out, hends, ⟨hread', heof'⟩, ?_, ?_⟩
    · omega
    · rintro rfl
      rcases hlen with hlen | ⟨-, hall⟩
      · cases hlen
      · rwa [List.append_nil] at hall

/-- Through a decompressing codec a stream yields the decompressed content. -/
theorem gzip_yields (hd : Delivers d pending) (dev : d.State) {z : Zlib} {plain : Str}
    (hz : z.Computes false (pending dev) plain) :
    ∃ P : Str → Io d → Prop, Yields P plain ∧
    P [] ((ioCreate dev []).setChain [codecCreate (codecGzipCreate z .uncompress)]) := by
  have hf : Feeding ⟨False, True, False⟩ [codecCreate (codecGzipCreate z .uncompress)] (pending dev)
      [plain] [] [] :=
    .last ⟨codecGzip_computes hz, fun _ => codecGzip_quiet hz, False.elim⟩ Codec.Open.init
  refine ⟨_, reading_yields trivial hd (pending dev) [plain], setChain_reading pending hf, ?_⟩
  intro he
  exact absurd rfl he

/-- A stream takes all that it is given; `P sent` says that it has been given `sent`. -/
structure Absorbs (P : Str → Io e → Prop) : Prop where
  write : ∀ {sent io}, P sent io → ∀ bs, ∃ io',
    Ends (fun n => ioWrite n io bs) (io', some bs.length) ∧ P (sent ++ bs) io'

theorem plain_absorbs (he : Accepts e received) :
    Absorbs fun sent (io : Io e) => io.Plain ∧ io.sent received = sent where
  write := by
    rintro sent io ⟨hplain, rfl⟩ bs
    obtain ⟨io', hends, hkept⟩ := ioWrite_accepted he hplain bs
    exact ⟨io', hends, hkept.plain, hkept.sent⟩

/-! ## `io_pipe` -/

structure Piping (d e : Device) where
  src : Io d
  dst : Io e
  count : ℕ

def pipeWritten (s : Piping d e) (src : Io d) (bs : Str) (w : Io e × Option ℕ) :
    Iter (Piping d e) (Piping d e × Option ℕ) :=
  match w.2 with
  | none => .leave (⟨src, w.1, s.count⟩, none)
  | some _ => .again ⟨src, w.1, s.count + bs.length⟩

def ioPipeBody (n : ℕ) (s : Piping d e) : Option (Iter (Piping d e) (Piping d e × Option ℕ)) :=
  (ioRead n s.src 4096).bind fun r =>
    match r.2 with
    | none => some (.leave ({ s with src := r.1 }, none))
    | some [] => some (.leave ({ s with src := r.1 }, some s.count))
    | some (b :: bs) => (ioWrite n s.dst (b :: bs)).map (pipeWritten s r.1 (b :: bs))

def ioPipe (n : ℕ) (out : Io e) (inp : Io d) : Option (Piping d e × Option ℕ) :=
  run (ioPipeBody n) n ⟨inp, out, 0⟩

variable {P : Str → Io d → Prop} {Q : Str → Io e → Prop} {total got sent : Str}

/-- The step: a block is moved, or there is none. -/
theorem ioPipeBody_moves (hy : Yields P total) (hq : Absorbs Q) {s : Piping d e} (hp : P got s.src)
    (hs : Q (sent ++ got) s.dst) (hcount : s.count = got.length) :
    (∃ t c, Ends (fun n => ioPipeBody n s) (.again t) ∧ c ≠ [] ∧ P (got ++ c) t.src ∧
      Q (sent ++ (got ++ c)) t.dst ∧
        t.count = (got ++ c).length) ∨
      ∃ t, Ends (fun n => ioPipeBody n s) (.leave (t, some total.length)) ∧
      Q (sent ++ total) t.dst ∧
        t.count = total.length := by
  obtain ⟨src', out, hends, hp', -, hall⟩ := hy.read hp
  cases out with
  | nil =>
    obtain rfl := hall rfl
    refine Or.inr ⟨{ s with src := src' }, hends.bind ?_, hs, hcount⟩
    rw [hcount]
    exact Ends.const _
  | cons b out =>
    obtain ⟨dst', hwrite, hs'⟩ := hq.write hs (b :: out)
    rw [List.append_assoc] at hs'
    refine Or.inl ⟨⟨src', dst', s.count + (b :: out).length⟩, b :: out,
      hends.bind (hwrite.map_eq rfl), List.cons_ne_nil b out,
      hp', hs', ?_⟩
    rw [hcount, List.length_append]

/-- The run: all of the input is moved, and counted. -/
theorem ioPipe_yields (hy : Yields P total) (hq : Absorbs Q) {out : Io e} {inp : Io d}
    (hp : P [] inp) (hs : Q sent out) :
    ∃ s, Ends (fun n => ioPipe n out inp) (s, some total.length) ∧ Q (sent ++ total) s.dst ∧
    s.count = total.length := by
  have hrun := ends_run (fun n => ioPipeBody (d := d) (e := e) n)
    (I := fun m s => ∃ got, m = total.length - got.length ∧ P got s.src ∧ Q (sent ++ got) s.dst ∧
      s.count = got.length)
    (Q := fun r => r.2 = some total.length ∧ Q (sent ++ total) r.1.dst ∧ r.1.count = total.length)
    (s := ⟨inp, out, 0⟩)
    (fun m s => by
      rintro ⟨got, rfl, hp, hs, hcount⟩
      rcases ioPipeBody_moves hy hq hp hs hcount with ⟨t, c, hends, hc, hp', hs', hcount'⟩ |
        ⟨t, hends, hdone⟩
      · refine Or.inl ⟨t, _, hends, ?_, got ++ c, rfl, hp', hs', hcount'⟩
        have hle := (hy.begins hp').length_le
        have hpos := List.length_pos_iff.mpr hc
        rw [List.length_append] at hle ⊢
        omega
      · exact Or.inr ⟨_, hends, rfl, hdone⟩)
    ⟨[], rfl, hp, (List.append_nil sent).symm ▸ hs, rfl⟩
  obtain ⟨⟨s, res⟩, ⟨rfl, hdone⟩, hends⟩ := hrun
  exact ⟨s, hends, hdone⟩

/-! ## `u_io_unzip_copy` -/

/-- A stream around the data, with a decompressing codec, is piped to `out`. -/
def uIoUnzipCopy (inflate : Zlib) (n : ℕ) (out : Io e) (data : Str) : Option (Io e × Bool) :=
  (ioPipe n out ((memStream data).setChain [codecCreate (codecGzipCreate inflate .uncompress)])).map
    fun r =>
    (r.1.dst, r.2.isSome)

theorem uIoUnzipCopy_ends {inflate : Zlib} {data plain : Str}
    (hz : inflate.Computes false data plain) (hq : Absorbs Q) {out : Io e} (hs : Q sent out) :
    ∃ out', Ends (fun n => uIoUnzipCopy inflate n out data) (out', true) ∧
    Q (sent ++ plain) out' := by
  obtain ⟨P, hy, hp⟩ := gzip_yields ioMem_delivers ⟨data, 0, start_fits data⟩ hz
  obtain ⟨s, hends, hs', -⟩ := ioPipe_yields hy hq hp hs
  exact ⟨s.dst, hends.map_eq rfl, hs'⟩

end Klone.Chain
