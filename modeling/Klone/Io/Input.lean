import Klone.Io.Output
import Klone.Io.Source

/-! # Input without codecs

Single bytes, lines and blocks are read from the same buffers. Whatever the order
and the sizes of the calls, and however the device cuts its bytes, a call returns
the next of them.
-/
namespace Klone.Chain
open Loop

variable {d e : Device} {pending : d.State → Str} {received : e.State → Str}

def ioGetc (n : ℕ) (io : Io d) : Option (Io d × Option Str) := ioRead n io 1

def Io.advance (io : Io d) (wr : ℕ) : Io d :=
  { io with rcount := io.rcount - wr, roff := io.roff + wr, rtot := io.rtot + wr }

def Io.drain (io : Io d) : Io d := { io with rcount := 0, roff := 0, rtot := io.rtot + io.rcount }

/-- What `io_get_until` does after the read buffer has been refilled. -/
def untilUnderflown (size : ℕ) (out : Str) (u : Io d × Option ℕ) :
    Iter (Reader d) (Io d × Option Str) :=
  match u.2 with
  | none => .leave (u.1, none)
  | some 0 => .leave (u.1, some out)
  | some (_ + 1) => .again ⟨u.1, size, out⟩

def untilBody (stop : Byte) (n : ℕ) (s : Reader d) : Option (Iter (Reader d) (Io d × Option Str)) :=
  match s.io.readable.findIdx? (· == stop) with
  | some i =>
    let wr := min (i + 1) s.size
    some (.leave (s.io.advance wr, some (s.out ++ s.io.readable.take wr)))
  | none =>
    if s.io.rcount ≤ s.size then
      (ioUnderflow n s.io.drain).map
        (untilUnderflown (s.size - s.io.rcount) (s.out ++ s.io.readable))
    else some (.leave (s.io.advance s.size, some (s.out ++ s.io.readable.take s.size)))

/-- The loop of `io_get_until`, when there is something in the read buffer. -/
def untilLoop (n : ℕ) (stop : Byte) (size : ℕ) (u : Io d × Option ℕ) : Option (Io d × Option Str) :=
  match u.2 with
  | none => some (u.1, none)
  | some 0 => some (u.1, some [])
  | some (_ + 1) => run (untilBody stop n) n ⟨u.1, size, []⟩

def ioGetUntil (n : ℕ) (io : Io d) (stop : Byte) (size : ℕ) : Option (Io d × Option Str) :=
  if size < 2 then some (io, none)
  else if io.rcount ≠ 0 then untilLoop n stop (size - 1) (io, some io.rcount)
  else (ioUnderflow n io).bind (untilLoop n stop (size - 1))

def ioGets (n : ℕ) (io : Io d) (size : ℕ) : Option (Io d × Option Str) := ioGetUntil n io 10 size

/-- The streams of an `io_copy`, the bytes it has still to copy and those it has copied. -/
structure Copier (d e : Device) where
  src : Io d
  dst : Io e
  rem : ℕ
  copied : Str

def copyWritten (s : Copier d e) (src : Io d) (bs : Str) (w : Io e × Option ℕ) :
    Iter (Copier d e) (Copier d e × Bool) :=
  match w.2 with
  | none => .leave (⟨src, w.1, s.rem, s.copied⟩, false)
  | some _ => .again ⟨src, w.1, s.rem - bs.length, s.copied ++ bs⟩

def copyRead (n : ℕ) (s : Copier d e) (r : Io d × Option Str) :
    Option (Iter (Copier d e) (Copier d e × Bool)) :=
  match r.2 with
  | none => some (.leave ({ s with src := r.1 }, false))
  | some [] => some (.leave ({ s with src := r.1 }, true))
  | some (b :: bs) => (ioWrite n s.dst (b :: bs)).map (copyWritten s r.1 (b :: bs))

def ioCopyBody (n : ℕ) (s : Copier d e) : Option (Iter (Copier d e) (Copier d e × Bool)) :=
  if s.rem = 0 then some (.leave (s, true))
  else (ioRead n s.src (min 4096 s.rem)).bind (copyRead n s)

def ioCopy (n : ℕ) (dst : Io e) (src : Io d) (size : ℕ) : Option (Copier d e × Option ℕ) :=
  (run (ioCopyBody n) n ⟨src, dst, size, []⟩).map fun r =>
    (r.1, if r.2 then some (size - r.1.rem) else none)

/-! ## The buffers -/

structure Input (pending : d.State → Str) (rest : Str) (io : Io d) : Prop where
  ok : io.ReadOk
  chain : io.codecChain = []
  eof : io.eof = 0
  rest : io.readable ++ (io.fetched ++ pending io.dev) = rest

variable {rest : Str} {io : Io d}

theorem ioCreate_input (pending : d.State → Str) (dev : d.State) :
    Input pending (pending dev) (ioCreate dev []) :=
  ⟨⟨(fun _ hm => by cases hm), fun _ => ⟨rfl, rfl⟩, Nat.zero_le _, Nat.zero_le _, fun _ => rfl⟩,
    rfl, rfl, rfl⟩

theorem Input.readable_prefix (h : Input pending rest io) : io.readable <+: rest := ⟨_, h.rest⟩

theorem Input.advance (h : Input pending rest io) {wr : ℕ} (hwr : wr ≤ io.rcount) :
    Input pending (rest.drop wr) (io.advance wr) := by
  have hlen := h.ok.readable_length
  have hread : (io.advance wr).readable = io.readable.drop wr := window_drop _ _ _ _
  refine ⟨⟨h.ok.size, ?_, ?_, h.ok.ufits, h.ok.uempty⟩, h.chain, h.eof, ?_⟩
  · intro hn
    obtain ⟨hrc, huc⟩ := h.ok.null hn
    refine ⟨?_, huc⟩
    change io.rcount - wr = 0
    omega
  · have hfits := h.ok.rfits
    change io.roff + wr + (io.rcount - wr) ≤ IO_RD_BUFSZ
    omega
  · rw [hread, ← h.rest, List.drop_append_of_le_length (by omega)]
    rfl

theorem Input.drain (h : Input pending rest io) : Input pending (rest.drop io.rcount) io.drain := by
  have hlen := h.ok.readable_length
  have hread : io.drain.readable = [] := Io.readable_nil rfl
  refine ⟨⟨h.ok.size, ?_, ?_, h.ok.ufits, h.ok.uempty⟩, h.chain, h.eof, ?_⟩
  · intro hn
    exact ⟨rfl, (h.ok.null hn).2⟩
  · exact Nat.zero_le _
  · rw [hread, ← h.rest, List.drop_append_of_le_length (by omega), ← hlen, List.drop_length]
    rfl

/-! ## `io_underflow` -/

/-- All fetched bytes move to the read buffer. -/
theorem underflowTransfer_plain (hok : io.ReadOk) (hchain : io.codecChain = [])
    (hr : io.rbuf ≠ none) (hz : io.rcount = 0) (hu : io.ucount ≠ 0) (n : ℕ) :
    underflowTransfer n io =
    some (.again ((io.useFetched io.ucount).refill io.fetched io.fetched.length)) := by
  have hlen := hok.fetched_length hr
  have hfits := hok.ufits
  have hle : io.fetched.length ≤ IO_RD_BUFSZ := by omega
  have hset : io.setChain [] = io := by
    rw [← hchain]
    rfl
  have hmin : min io.ucount IO_RD_BUFSZ = io.ucount := Nat.min_eq_left (by omega)
  simp [underflowTransfer, ioTransfer, hchain, hz, hlen, hmin, underflowTransferred, hu, hset,
    List.take_of_length_le hle]

/-- The fetched bytes move to the read buffer. -/
theorem underflowTransfer_input (h : Input pending rest io) (hr : io.rbuf ≠ none)
    (hz : io.rcount = 0) (hu : io.ucount ≠ 0) :
    ∃ io', (∀ n, underflowTransfer n io = some (.again io')) ∧ Input pending rest io' ∧
    io'.rcount ≠ 0 ∧
      io'.rtot = io.rtot ∧ io'.dev = io.dev ∧ io'.ucount = 0 ∧ io'.rcount = io.ucount := by
  have hlen := h.ok.fetched_length hr
  have hfits := h.ok.ufits
  have hle : io.fetched.length ≤ IO_RD_BUFSZ := by omega
  obtain ⟨hok, hfetched⟩ := h.ok.useFetched (le_refl _) hr
  obtain ⟨hok', hread⟩ := hok.refill hr hle (le_refl _)
  refine ⟨(io.useFetched io.ucount).refill io.fetched io.fetched.length,
    underflowTransfer_plain h.ok h.chain hr hz hu,
    ⟨hok', h.chain, h.eof, ?_⟩, ?_, rfl, rfl, Nat.sub_self _, hlen⟩
  · have hdev : ((io.useFetched io.ucount).refill io.fetched io.fetched.length).fetched =
        (io.useFetched io.ucount).fetched := rfl
    rw [hread, hdev, hfetched, List.take_length, ← hlen, List.drop_length, List.nil_append,
      ← h.rest, Io.readable_nil hz,
      List.nil_append]
    rfl
  · change io.fetched.length ≠ 0
    omega

/-- The first round fetches bytes and moves them, or finds the end of the input. -/
theorem underflowBody_input (hd : Delivers d pending) (h : Input pending rest io)
    (hr : io.rbuf ≠ none) (hz : io.rcount = 0) :
    (∃ io', (∀ n, underflowBody n io = some (.again io')) ∧ Input pending rest io' ∧
      io'.rcount ≠ 0 ∧
      io'.rtot = io.rtot) ∨
    ∃ io', (∀ n, underflowBody n io = some (.leave (io', some 0))) ∧ Input pending rest io' ∧
    io'.rcount = 0 ∧
      io'.rtot = io.rtot ∧ rest = [] := by
  by_cases hu : io.ucount = 0
  · obtain ⟨k, hret, hpend, hle, hpos⟩ := hd io.dev IO_RD_BUFSZ (by decide)
    have hrest : pending io.dev = rest := by
      rw [← h.rest, Io.readable_nil hz, Io.fetched_nil hu]
      rfl
    by_cases hbs : (pending io.dev).take k = []
    · have hnil : pending io.dev = [] := by
        by_contra hne
        have hk := hpos hne
        rcases List.take_eq_nil_iff.mp hbs with he | he
        · omega
        · exact hne he
      have hdev : pending (d.read io.dev IO_RD_BUFSZ).1 = [] := by rw [hpend, hnil, List.drop_nil]
      refine Or.inr ⟨io.setDev (d.read io.dev IO_RD_BUFSZ).1, ?_,
        ⟨⟨h.ok.size, h.ok.null, h.ok.rfits, h.ok.ufits,
        h.ok.uempty⟩, h.chain, h.eof, ?_⟩, hz, rfl, ?_⟩
      · intro n
        have hchain : (io.setDev (d.read io.dev IO_RD_BUFSZ).1).codecChain.isEmpty = true := by
          change io.codecChain.isEmpty = true
          rw [h.chain]
          rfl
        have hcount : (io.setDev (d.read io.dev IO_RD_BUFSZ).1).rcount = 0 := hz
        simp [underflowBody, hz, hu, hret, hbs, underflowEof, hchain, hcount]
      · change io.readable ++ (io.fetched ++ pending (d.read io.dev IO_RD_BUFSZ).1) = rest
        rw [hdev, ← h.rest, hnil]
      · rw [← hrest, hnil]
    · obtain ⟨b, bs, hcons⟩ := List.exists_cons_of_ne_nil hbs
      have hlen : ((pending io.dev).take k).length ≤ IO_RD_BUFSZ :=
        (List.length_take_le _ _).trans hle
      have hok : (io.setDev (d.read io.dev IO_RD_BUFSZ).1).ReadOk :=
        ⟨h.ok.size, h.ok.null, h.ok.rfits, h.ok.ufits, h.ok.uempty⟩
      obtain ⟨hok', hfetched⟩ := hok.fetch hr hu hlen
      have hin : Input pending rest
          ((io.setDev (d.read io.dev IO_RD_BUFSZ).1).fetch ((pending io.dev).take k)) := by
        have hread : ((io.setDev (d.read io.dev IO_RD_BUFSZ).1).fetch
            ((pending io.dev).take k)).readable = [] :=
          Io.readable_nil hz
        refine ⟨hok', h.chain, h.eof, ?_⟩
        rw [hfetched, hread, List.nil_append]
        change _ ++ pending (d.read io.dev IO_RD_BUFSZ).1 = rest
        rw [hpend, List.take_append_drop, hrest]
      have hcount : ((io.setDev (d.read io.dev IO_RD_BUFSZ).1).fetch
          ((pending io.dev).take k)).ucount ≠ 0 := by
        change io.ucount + _ ≠ 0
        have hlen' := List.length_pos_iff.mpr hbs
        omega
      obtain ⟨io', hstep, hin', hne, htot, -⟩ := underflowTransfer_input hin hr hz hcount
      refine Or.inl ⟨io', ?_, hin', hne, htot⟩
      intro n
      rw [← hstep n]
      simp [underflowBody, hz, hu, hret, hcons]
  · obtain ⟨io', hstep, hin', hne, htot, -⟩ := underflowTransfer_input h hr hz hu
    refine Or.inl ⟨io', ?_, hin', hne, htot⟩
    intro n
    rw [← hstep n]
    simp [underflowBody, hz, hu]

theorem ioRbufAlloc_input (h : Input pending rest io) (hr : io.rbuf = none) :
    Input pending rest (ioRbufAlloc io) := by
  obtain ⟨hrc, huc⟩ := h.ok.null hr
  have hread : (ioRbufAlloc io).readable = [] := Io.readable_nil hrc
  have hfetched : (ioRbufAlloc io).fetched = [] := Io.fetched_nil huc
  refine ⟨⟨?_, fun _ => ⟨hrc, huc⟩, ?_, h.ok.ufits, h.ok.uempty⟩, h.chain, h.eof, ?_⟩
  · intro mem hm
    obtain rfl := Option.some.inj hm
    exact ⟨List.length_replicate, List.length_replicate⟩
  · change 0 + io.rcount ≤ IO_RD_BUFSZ
    rw [hrc]
    exact Nat.zero_le _
  · rw [hread, hfetched, ← h.rest, Io.readable_nil hrc, Io.fetched_nil huc]
    rfl

/-- An empty read buffer is refilled, unless nothing is left to read. -/
theorem ioUnderflow_input (hd : Delivers d pending) (h : Input pending rest io)
    (hz : io.rcount = 0) :
    ∃ io', Ends (fun n => ioUnderflow n io) (io', some io'.rcount) ∧ Input pending rest io' ∧
    io'.rtot = io.rtot ∧
      (io'.rcount = 0 → rest = []) := by
  obtain ⟨io₀, hstart, h₀, hr₀, hz₀, htot₀⟩ :
    ∃ io₀, (if io.rbuf = none then ioRbufAlloc io else io) = io₀ ∧
      Input pending rest io₀ ∧ io₀.rbuf ≠ none ∧ io₀.rcount = 0 ∧ io₀.rtot = io.rtot := by
    by_cases hr : io.rbuf = none
    · exact ⟨_, if_pos hr, ioRbufAlloc_input h hr, Option.some_ne_none _, hz, rfl⟩
    · exact ⟨io, if_neg hr, h, hr, hz, rfl⟩
  unfold ioUnderflow
  rw [hstart]
  rcases underflowBody_input hd h₀ hr₀ hz₀ with ⟨io', hstep, hin, hne, htot⟩ |
    ⟨io', hstep, hin, hrc, htot, hnil⟩
  · refine ⟨io', ⟨2, fun n hn => ?_⟩, hin, htot.trans htot₀, fun hz' => absurd hz' hne⟩
    obtain ⟨k, rfl⟩ : ∃ k, n = k + 2 := ⟨n - 2, by omega⟩
    dsimp only
    rw [run_again (hstep _), run_leave (r := (io', some io'.rcount))]
    simp [underflowBody, hne]
  · refine ⟨io', ⟨1, fun n hn => ?_⟩, hin, htot.trans htot₀, fun _ => hnil⟩
    obtain ⟨k, rfl⟩ : ∃ k, n = k + 1 := ⟨n - 1, by omega⟩
    dsimp only
    rw [run_leave (hstep _), hrc]

/-! ## `io_read` and `io_get_until` -/

structure Delivered (pending : d.State → Str) (rest : Str) (io : Io d) (out : Str) (io' : Io d) :
    Prop where
  begins : out <+: rest
  input : Input pending (rest.drop out.length) io'
  rtot : io'.rtot = io.rtot + out.length

theorem Delivered.refl (h : Input pending rest io) :
    Delivered pending rest io [] io := ⟨List.nil_prefix, h, rfl⟩

theorem Delivered.trans {out out' : Str} {io' io'' : Io d} (h : Delivered pending rest io out io')
    (h' : Delivered pending (rest.drop out.length) io' out' io'') :
    Delivered pending rest io (out ++ out') io'' := by
  refine ⟨?_, ?_, ?_⟩
  · obtain ⟨more, hmore⟩ := h.begins
    have hb := h'.begins
    rw [← hmore, List.drop_left] at hb
    rw [← hmore]
    exact (List.prefix_append_right_inj out).mpr hb
  · rw [List.length_append, ← List.drop_drop]
    exact h'.input
  · rw [h'.rtot, h.rtot, List.length_append, Nat.add_assoc]

theorem Delivered.eq_take {out : Str} {io' : Io d} (h : Delivered pending rest io out io') :
    out = rest.take out.length := List.prefix_iff_eq_take.mp h.begins

theorem Input.delivered (h : Input pending rest io) {wr : ℕ} (hwr : wr ≤ io.rcount) :
    Delivered pending rest io (io.readable.take wr) (io.advance wr) := by
  have hlen : (io.readable.take wr).length = wr := by
    rw [List.length_take, h.ok.readable_length, Nat.min_eq_left hwr]
  refine ⟨(List.take_prefix _ _).trans h.readable_prefix, ?_, ?_⟩
  · rw [hlen]
    exact h.advance hwr
  · rw [hlen]
    rfl

theorem Input.drained (h : Input pending rest io) :
    Delivered pending rest io io.readable io.drain := by
  have hlen := h.ok.readable_length
  refine ⟨h.readable_prefix, ?_, ?_⟩
  · rw [hlen]
    exact h.drain
  · rw [hlen]
    rfl

theorem ioUnderflow_delivered (hd : Delivers d pending) (h : Input pending rest io)
    (hz : io.rcount = 0) :
    ∃ io', Ends (fun n => ioUnderflow n io) (io', some io'.rcount) ∧
    Delivered pending rest io [] io' ∧
      (io'.rcount = 0 → rest = []) := by
  obtain ⟨io', hends, hin, htot, hnil⟩ := ioUnderflow_input hd h hz
  exact ⟨io', hends, ⟨List.nil_prefix, hin, htot⟩, hnil⟩

theorem readUnderflown_some {io' : Io d} (h : io'.rcount ≠ 0) (s : Reader d) :
    readUnderflown s (io', some io'.rcount) = .again (readStep { s with io := io' }) := by
  obtain ⟨k, hk⟩ := Nat.exists_eq_succ_of_ne_zero h
  simp only [readUnderflown, hk]

theorem untilUnderflown_some {io' : Io d} (h : io'.rcount ≠ 0) (size : ℕ) (out : Str) :
    untilUnderflown size out (io', some io'.rcount) = .again ⟨io', size, out⟩ := by
  obtain ⟨k, hk⟩ := Nat.exists_eq_succ_of_ne_zero h
  simp only [untilUnderflown, hk]

theorem readStep_eq (s : Reader d) : readStep s = ⟨s.io.advance (min s.io.rcount s.size),
    s.size - min s.io.rcount s.size, s.out ++ s.io.readable.take (min s.io.rcount s.size)⟩ := by
  have htake : window (s.io.rbuf.getD []) s.io.roff (min s.io.rcount s.size) =
      s.io.readable.take (min s.io.rcount s.size) := window_take _ _ (Nat.min_le_left _ _)
  rw [← htake]
  rfl

structure Wanting (pending : d.State → Str) (rest : Str) (io : Io d) (size : ℕ) (s : Reader d) :
    Prop where
  total : s.out.length + s.size = size
  delivered : Delivered pending rest io s.out s.io

theorem Wanting.readStep {s : Reader d} {size : ℕ} (h : Wanting pending rest io size s) :
    Wanting pending rest io size (readStep s) := by
  have hlen := h.delivered.input.ok.readable_length
  have htotal := h.total
  rw [readStep_eq]
  refine ⟨?_, h.delivered.trans (h.delivered.input.delivered (Nat.min_le_left _ _))⟩
  change (s.out ++ s.io.readable.take _).length + (s.size - min s.io.rcount s.size) = size
  rw [List.length_append, List.length_take]
  omega

theorem readStep_size {s : Reader d} (hz : s.io.rcount ≠ 0) (hs : s.size ≠ 0) :
    (Chain.readStep s).size < s.size := by
  rw [readStep_eq]
  change s.size - min s.io.rcount s.size < s.size
  omega

theorem Wanting.full {s : Reader d} {size : ℕ} (h : Wanting pending rest io size s)
    (hs : s.size = 0) :
    s.out = rest.take size := by
  have ht := h.delivered.eq_take
  have htotal := h.total
  rw [hs, Nat.add_zero] at htotal
  rwa [htotal] at ht

theorem Wanting.ended {s : Reader d} {size : ℕ} (h : Wanting pending rest io size s)
    (hnil : rest.drop s.out.length = []) : s.out = rest.take size := by
  have ht := h.delivered.eq_take
  have hle : rest.length ≤ s.out.length := List.drop_eq_nil_iff.mp hnil
  have htotal := h.total
  rw [ht, List.take_of_length_le hle, List.take_of_length_le (by omega)]

theorem readBody_input (hd : Delivers d pending) {size : ℕ} {s : Reader d}
    (h : Wanting pending rest io size s) :
    (∃ t, Ends (fun n => readBody n s) (.again t) ∧ t.size < s.size ∧
      Wanting pending rest io size t) ∨
      ∃ io', Ends (fun n => readBody n s) (.leave (io', some (rest.take size))) ∧
        Delivered pending rest io (rest.take size) io' := by
  unfold readBody
  by_cases hs : s.size = 0
  · simp only [if_pos hs]
    rw [← h.full hs]
    exact Or.inr ⟨s.io, Ends.const _, h.delivered⟩
  simp only [if_neg hs]
  by_cases hz : s.io.rcount = 0
  · simp only [if_neg (not_not.mpr hz)]
    obtain ⟨io', hends, hdel, hnil⟩ := ioUnderflow_delivered hd h.delivered.input hz
    have hdel' := h.delivered.trans hdel
    rw [List.append_nil] at hdel'
    by_cases hz' : io'.rcount = 0
    · rw [← h.ended (hnil hz')]
      refine Or.inr ⟨io', hends.map_eq ?_, hdel'⟩
      simp [readUnderflown, hz']
    · have hw : Wanting pending rest io size { s with io := io' } := ⟨h.total, hdel'⟩
      exact Or.inl ⟨_, hends.map_eq (readUnderflown_some hz' s), readStep_size hz' hs, hw.readStep⟩
  · simp only [if_pos hz]
    exact Or.inl ⟨_, Ends.const _, readStep_size hz hs, h.readStep⟩

theorem ioRead_input (hd : Delivers d pending) (h : Input pending rest io) (size : ℕ) :
    ∃ io', Ends (fun n => ioRead n io size) (io', some (rest.take size)) ∧
      Delivered pending rest io (rest.take size) io' := by
  have hrun := ends_run readBody
    (I := fun m s => m = s.size ∧ Wanting pending rest io size s)
    (Q := fun r => r.2 = some (rest.take size) ∧ Delivered pending rest io (rest.take size) r.1)
    (m := size) (s := ⟨io, size, []⟩)
    (fun m s => by
      rintro ⟨rfl, hw⟩
      rcases readBody_input hd hw with ⟨t, hends, hlt, ht⟩ | ⟨io', hends, hdel⟩
      · exact Or.inl ⟨t, t.size, hends, hlt, rfl, ht⟩
      · exact Or.inr ⟨_, hends, rfl, hdel⟩)
    ⟨rfl, by simp, Delivered.refl h⟩
  obtain ⟨⟨io', ret⟩, ⟨rfl, hdel⟩, hends⟩ := hrun
  refine ⟨io', ?_, hdel⟩
  unfold ioRead
  simp only [h.eof]
  exact hends

/-! ## Lines -/

structure Seeking (pending : d.State → Str) (rest : Str) (io : Io d) (stop : Byte) (line : Str)
    (s : Reader d) : Prop where
  delivered : Delivered pending rest io s.out s.io
  filled : s.io.rcount ≠ 0
  line : line = s.out ++ takeThrough stop s.size (rest.drop s.out.length)

theorem untilBody_input (hd : Delivers d pending) {stop : Byte} {line : Str} {s : Reader d}
    (h : Seeking pending rest io stop line s) :
    (∃ t, Ends (fun n => untilBody stop n s) (.again t) ∧
      (rest.drop t.out.length).length < (rest.drop s.out.length).length ∧
      Seeking pending rest io stop line t) ∨
      ∃ io', Ends (fun n => untilBody stop n s) (.leave (io', some line)) ∧
      Delivered pending rest io line io' := by
  have hin := h.delivered.input
  have hlen := hin.ok.readable_length
  have hline := h.line
  rw [← hin.rest] at hline
  unfold untilBody
  cases hf : s.io.readable.findIdx? (· == stop) with
  | some i =>
    rw [takeThrough_found hf] at hline
    have hi : i < s.io.readable.length := by
      obtain ⟨hi, -⟩ := List.findIdx?_eq_some_iff_findIdx_eq.mp hf
      exact hi
    dsimp only
    rw [hline]
    exact Or.inr ⟨_, Ends.const _, h.delivered.trans (hin.delivered (by omega))⟩
  | none =>
    dsimp only
    by_cases hle : s.io.rcount ≤ s.size
    · simp only [if_pos hle]
      rw [takeThrough_passes hf _ (by omega), hlen] at hline
      have hdrained := h.delivered.trans hin.drained
      obtain ⟨io', hends, hdel, hnil⟩ := ioUnderflow_delivered hd hin.drained.input rfl
      have hdel' := hdrained.trans (by rw [List.length_append, ← List.drop_drop]; exact hdel)
      rw [List.append_nil] at hdel'
      have hmore : rest.drop (s.out ++ s.io.readable).length =
          s.io.fetched ++ pending s.io.dev := by
        rw [List.length_append, ← List.drop_drop, ← hin.rest, List.drop_left]
      by_cases hz : io'.rcount = 0
      · have hnil' := hnil hz
        rw [← hin.rest, List.drop_left] at hnil'
        rw [hnil', takeThrough_nil, List.append_nil] at hline
        rw [hline]
        refine Or.inr ⟨io', hends.map_eq ?_, hdel'⟩
        simp [untilUnderflown, hz]
      · refine Or.inl ⟨_, hends.map_eq (untilUnderflown_some hz _ _), ?_, ⟨hdel', hz, ?_⟩⟩
        · have hfilled := h.filled
          have hsplit := congrArg List.length hin.rest
          rw [List.length_append] at hsplit
          rw [hmore]
          omega
        · change line = s.out ++ s.io.readable ++ takeThrough stop (s.size - s.io.rcount)
            (rest.drop _)
          rw [hmore, hline, List.append_assoc]
    · simp only [if_neg hle]
      rw [takeThrough_cut hf _ (by omega)] at hline
      rw [hline]
      exact Or.inr ⟨_, Ends.const _, h.delivered.trans (hin.delivered (by omega))⟩

theorem untilLoop_input (hd : Delivers d pending) {io' : Io d}
    (h : Delivered pending rest io [] io') (hz : io'.rcount = 0 → rest = []) (stop : Byte)
    (size : ℕ) :
    ∃ io'', Ends (fun n => untilLoop n stop size (io', some io'.rcount))
    (io'', some (takeThrough stop size rest)) ∧
      Delivered pending rest io (takeThrough stop size rest) io'' := by
  unfold untilLoop
  by_cases hrc : io'.rcount = 0
  · obtain rfl := hz hrc
    rw [hrc, takeThrough_nil]
    exact ⟨io', Ends.const _, h⟩
  obtain ⟨k, hk⟩ : ∃ k, io'.rcount = k + 1 := ⟨io'.rcount - 1, by omega⟩
  rw [hk]
  dsimp only
  have hrun := ends_run (untilBody stop)
    (I := fun m s => m = (rest.drop s.out.length).length ∧
      Seeking pending rest io stop (takeThrough stop size rest) s)
    (Q := fun r => r.2 = some (takeThrough stop size rest) ∧
      Delivered pending rest io (takeThrough stop size rest) r.1)
    (m := rest.length) (s := ⟨io', size, []⟩)
    (fun m s => by
      rintro ⟨rfl, hs⟩
      rcases untilBody_input hd hs with ⟨t, hends, hlt, ht⟩ | ⟨io'', hends, hdel⟩
      · exact Or.inl ⟨t, _, hends, hlt, rfl, ht⟩
      · exact Or.inr ⟨_, hends, rfl, hdel⟩)
    ⟨rfl, h, hrc, rfl⟩
  obtain ⟨⟨io'', ret⟩, ⟨rfl, hdel⟩, hends⟩ := hrun
  exact ⟨io'', hends, hdel⟩

theorem ioGetUntil_input (hd : Delivers d pending) (h : Input pending rest io) (stop : Byte)
    {size : ℕ} (hsize : 2 ≤ size) :
    ∃ io', Ends (fun n => ioGetUntil n io stop size)
    (io', some (takeThrough stop (size - 1) rest)) ∧
      Delivered pending rest io (takeThrough stop (size - 1) rest) io' := by
  unfold ioGetUntil
  simp only [if_neg (Nat.not_lt.mpr hsize)]
  by_cases hz : io.rcount = 0
  · simp only [if_neg (not_not.mpr hz)]
    obtain ⟨io', hends, hdel, hnil⟩ := ioUnderflow_delivered hd h hz
    obtain ⟨io'', hends', hdel'⟩ := untilLoop_input hd hdel hnil stop (size - 1)
    exact ⟨io'', hends.bind hends', hdel'⟩
  · simp only [if_pos hz]
    exact untilLoop_input hd (Delivered.refl h) (fun hz' => absurd hz' hz) stop (size - 1)

/-! ## `io_copy` -/

structure Copying (pending : d.State → Str) (received : e.State → Str) (rest : Str) (io : Io d)
    (dst : Io e) (size : ℕ) (s : Copier d e) : Prop where
  total : s.copied.length + s.rem = size
  delivered : Delivered pending rest io s.copied s.src
  plain : s.dst.Plain
  sent : s.dst.sent received = dst.sent received ++ s.copied

theorem ioCopyBody_input (hd : Delivers d pending) (he : Accepts e received) {dst : Io e} {size : ℕ}
    {s : Copier d e} (h : Copying pending received rest io dst size s) :
    (∃ t, Ends (fun n => ioCopyBody n s) (.again t) ∧ t.rem < s.rem ∧
      Copying pending received rest io dst size t) ∨
      ∃ t, Ends (fun n => ioCopyBody n s) (.leave (t, true)) ∧
      Copying pending received rest io dst size t ∧
        t.copied = rest.take size := by
  have ht := h.delivered.eq_take
  have htotal := h.total
  unfold ioCopyBody
  by_cases hz : s.rem = 0
  · simp only [if_pos hz]
    refine Or.inr ⟨s, Ends.const _, h, ?_⟩
    rw [hz, Nat.add_zero] at htotal
    rwa [htotal] at ht
  simp only [if_neg hz]
  obtain ⟨src', hends, hdel⟩ := ioRead_input hd h.delivered.input (min 4096 s.rem)
  cases hbs : (rest.drop s.copied.length).take (min 4096 s.rem) with
  | nil =>
    rw [hbs] at hends hdel
    have hdel' := h.delivered.trans hdel
    rw [List.append_nil] at hdel'
    refine Or.inr ⟨_, hends.bind (Ends.const _), ⟨htotal, hdel', h.plain, h.sent⟩, ?_⟩
    have hle : rest.length ≤ s.copied.length := by
      rcases List.take_eq_nil_iff.mp hbs with hzero | hnil
      · omega
      · exact List.drop_eq_nil_iff.mp hnil
    rw [ht, List.take_of_length_le hle, List.take_of_length_le (by omega)]
  | cons b bs =>
    have hlen : (b :: bs).length ≤ s.rem := by
      rw [← hbs, List.length_take]
      omega
    rw [hbs] at hends hdel
    obtain ⟨dst', hwrite, hkept⟩ := ioWrite_accepted he h.plain (b :: bs)
    refine Or.inl ⟨⟨src', dst', s.rem - (b :: bs).length, s.copied ++ b :: bs⟩,
      hends.bind (hwrite.map_eq rfl), ?_, ?_⟩
    · change s.rem - (bs.length + 1) < s.rem
      omega
    · refine ⟨?_, h.delivered.trans hdel, hkept.plain, ?_⟩
      · change (s.copied ++ b :: bs).length + (s.rem - (b :: bs).length) = size
        rw [List.length_append]
        omega
      · rw [hkept.sent, h.sent, List.append_assoc]

theorem ioCopy_input (hd : Delivers d pending) (he : Accepts e received) (h : Input pending rest io)
    {dst : Io e} (hdst : dst.Plain) (size : ℕ) :
    ∃ s, Ends (fun n => ioCopy n dst io size) (s, some s.copied.length) ∧
    s.copied = rest.take size ∧
      Copying pending received rest io dst size s := by
  have hrun := ends_run ioCopyBody
    (I := fun m s => m = s.rem ∧ Copying pending received rest io dst size s)
    (Q := fun r => r.2 = true ∧ r.1.copied = rest.take size ∧
      Copying pending received rest io dst size r.1)
    (m := size) (s := ⟨io, dst, size, []⟩)
    (fun m s => by
      rintro ⟨rfl, hs⟩
      rcases ioCopyBody_input hd he hs with ⟨t, hends, hlt, ht⟩ | ⟨t, hends, ht, hc⟩
      · exact Or.inl ⟨t, _, hends, hlt, rfl, ht⟩
      · exact Or.inr ⟨_, hends, rfl, hc, ht⟩)
    ⟨rfl, Nat.zero_add _, Delivered.refl h, hdst, (List.append_nil _).symm⟩
  obtain ⟨⟨s, ok⟩, ⟨rfl, hc, hs⟩, hends⟩ := hrun
  refine ⟨s, hends.map_eq ?_, hc, hs⟩
  have hrem : size - s.rem = s.copied.length := by
    have htotal : s.copied.length + s.rem = size := hs.total
    omega
  simp only [if_true, hrem]

/-! ## Sequences of calls -/

/-- `p` is the shortest beginning of `rest` that ends in `stop`, has `n` bytes or is
all of it. -/
structure ShortestUntil (stop : Byte) (n : ℕ) (rest p : Str) : Prop where
  begins : p <+: rest
  reached : p.getLast? = some stop ∨ p.length = n ∨ p = rest
  least : ∀ q, q <+: rest → q.getLast? = some stop ∨ q.length = n ∨ q = rest → p.length ≤ q.length

theorem takeThrough_shortest (stop : Byte) (n : ℕ) (rest : Str) :
    ShortestUntil stop n rest (takeThrough stop n rest) := by
  induction n generalizing rest with
  | zero => exact ⟨List.nil_prefix, Or.inr (Or.inl rfl), fun _ _ _ => Nat.zero_le _⟩
  | succ n ih =>
    cases rest with
    | nil => exact ⟨List.nil_prefix, Or.inr (Or.inr rfl), fun _ _ _ => Nat.zero_le _⟩
    | cons c rest =>
      obtain ⟨hb, hr, hl⟩ := ih rest
      by_cases hc : c = stop
      · subst hc
        simp only [takeThrough, if_true]
        refine ⟨by simp, Or.inl rfl, ?_⟩
        intro q hq hreach
        cases q with
        | nil => simp at hreach
        | cons => simp
      · simp only [takeThrough, hc, if_false]
        refine ⟨(List.prefix_cons_inj c).mpr hb, ?_, ?_⟩
        · rcases hr with hr | hr | hr
          · have hne : takeThrough stop n rest ≠ [] := by
              intro he
              rw [he] at hr
              cases hr
            refine Or.inl ?_
            rw [List.getLast?_cons_of_ne_nil hne, hr]
          · exact Or.inr (Or.inl (congrArg (· + 1) hr))
          · exact Or.inr (Or.inr (congrArg (c :: ·) hr))
        · intro q hq hreach
          cases q with
          | nil => simp at hreach
          | cons b q =>
            obtain ⟨rfl, hq'⟩ := List.cons_prefix_cons.mp hq
            apply Nat.succ_le_succ
            apply hl q hq'
            rcases hreach with hreach | hreach | hreach
            · cases q with
              | nil => exact absurd (Option.some.inj hreach) hc
              | cons b' q => exact Or.inl hreach
            · exact Or.inr (Or.inl (Nat.succ.inj hreach))
            · exact Or.inr (Or.inr (List.cons.inj hreach).2)

theorem ioGetUntil_shortest (hd : Delivers d pending) (h : Input pending rest io) (stop : Byte)
    (size : ℕ) :
    ∃ io' r, Ends (fun n => ioGetUntil n io stop size) (io', r) ∧
    Delivered pending rest io (r.getD []) io' ∧
      if size < 2 then r = none else ∃ line, r = some line ∧
        ShortestUntil stop (size - 1) rest line := by
  by_cases hsize : size < 2
  · refine ⟨io, none, ?_, Delivered.refl h, ?_⟩
    · simp only [ioGetUntil, if_pos hsize]
      exact Ends.const _
    · rw [if_pos hsize]
  · obtain ⟨io', hends, hdel⟩ := ioGetUntil_input hd h stop (Nat.le_of_not_lt hsize)
    refine ⟨io', _, hends, hdel, ?_⟩
    rw [if_neg hsize]
    exact ⟨_, rfl, takeThrough_shortest _ _ _⟩

variable {ι : Type*} [DecidableEq ι]

inductive InOp (ι : Type*) where
  | read (size : ℕ)
  | getc
  | getUntil (stop : Byte) (size : ℕ)
  | gets (size : ℕ)
  | copy (dst : ι) (size : ℕ)

structure Streams (d e : Device) (ι : Type*) where
  src : Io d
  outs : ι → Io e

/-- A call, with the bytes that it returned or copied; `none` for `-1`. -/
def inputStep (n : ℕ) (s : Streams d e ι) : InOp ι → Option (Streams d e ι × Option Str)
  | .read size => (ioRead n s.src size).map fun r => ({ s with src := r.1 }, r.2)
  | .getc => (ioGetc n s.src).map fun r => ({ s with src := r.1 }, r.2)
  | .getUntil stop size => (ioGetUntil n s.src stop size).map fun r => ({ s with src := r.1 }, r.2)
  | .gets size => (ioGets n s.src size).map fun r => ({ s with src := r.1 }, r.2)
  | .copy dst size => (ioCopy n (s.outs dst) s.src size).map fun r =>
      (⟨r.1.src, Function.update s.outs dst r.1.dst⟩, r.2.map fun _ => r.1.copied)

def inputRun (n : ℕ) : List (InOp ι) → Streams d e ι → Option (Streams d e ι × List (Option Str))
  | [], s => some (s, [])
  | op :: ops, s => (inputStep n s op).bind fun r => (inputRun n ops r.1).map fun t => (t.1,
    r.2 :: t.2)

def Returns (rest : Str) : InOp ι → Option Str → Prop
  | .read size, r => r = some (rest.take size)
  | .getc, r => r = some (rest.take 1)
  | .getUntil stop size, r =>
    if size < 2 then r = none else ∃ line, r = some line ∧ ShortestUntil stop (size - 1) rest line
  | .gets size, r =>
    if size < 2 then r = none
    else ∃ line, r = some line ∧ ShortestUntil 10 (size - 1) rest line
  | .copy _ size, r => r = some (rest.take size)

/-- Every call returns what it should of the bytes that the calls before it have left. -/
inductive Follows : Str → List (InOp ι) → List (Option Str) → Prop
  | nil (rest : Str) : Follows rest [] []
  | cons {rest : Str} {op : InOp ι} {ops : List (InOp ι)} {r : Option Str}
    {rs : List (Option Str)} :
    Returns rest op r → Follows (rest.drop (r.getD []).length) ops rs →
    Follows rest (op :: ops) (r :: rs)

def deliveredBytes (results : List (Option Str)) : Str := (results.map (·.getD [])).flatten

def copiedTo (i : ι) : List (InOp ι) → List (Option Str) → Str
  | .copy dst _ :: ops, r :: rs => (if dst = i then r.getD [] else []) ++ copiedTo i ops rs
  | _ :: ops, _ :: rs => copiedTo i ops rs
  | _, _ => []

structure Stepped (pending : d.State → Str) (received : e.State → Str) (rest : Str)
    (s : Streams d e ι) (op : InOp ι) (s' : Streams d e ι) (r : Option Str) : Prop where
  returns : Returns rest op r
  delivered : Delivered pending rest s.src (r.getD []) s'.src
  plain : ∀ i, (s'.outs i).Plain
  sent : ∀ i, (s'.outs i).sent received = (s.outs i).sent received ++ copiedTo i [op] [r]

theorem inputStep_input (hd : Delivers d pending) (he : Accepts e received) {s : Streams d e ι}
    (h : Input pending rest s.src) (ho : ∀ i, (s.outs i).Plain) (op : InOp ι) :
    ∃ s' r, Ends (fun n => inputStep n s op) (s', r) ∧ Stepped pending received rest s op s' r := by
  have hsame : ∀ i, (s.outs i).sent received = (s.outs i).sent received ++ [] :=
    fun i => (List.append_nil _).symm
  cases op with
  | read size =>
    obtain ⟨io', hends, hdel⟩ := ioRead_input hd h size
    exact ⟨_, _, hends.map_eq rfl, ⟨rfl, hdel, ho, hsame⟩⟩
  | getc =>
    obtain ⟨io', hends, hdel⟩ := ioRead_input hd h 1
    exact ⟨_, _, hends.map_eq rfl, ⟨rfl, hdel, ho, hsame⟩⟩
  | getUntil stop size =>
    obtain ⟨io', r, hends, hdel, hr⟩ := ioGetUntil_shortest hd h stop size
    exact ⟨_, _, hends.map_eq rfl, ⟨hr, hdel, ho, hsame⟩⟩
  | gets size =>
    obtain ⟨io', r, hends, hdel, hr⟩ := ioGetUntil_shortest hd h 10 size
    exact ⟨_, _, hends.map_eq rfl, ⟨hr, hdel, ho, hsame⟩⟩
  | copy dst size =>
    obtain ⟨c, hends, hcopied, hc⟩ := ioCopy_input hd he h (ho dst) size
    refine ⟨_, _, hends.map_eq rfl, ⟨congrArg some hcopied, hc.delivered, ?_, ?_⟩⟩
    · intro i
      by_cases hi : i = dst
      · subst hi
        simpa using hc.plain
      · simpa [hi] using ho i
    · intro i
      by_cases hi : i = dst
      · subst hi
        simpa [copiedTo] using hc.sent
      · simp [hi, copiedTo, Ne.symm hi]

theorem copiedTo_cons (i : ι) (op : InOp ι) (ops : List (InOp ι)) (r : Option Str)
    (rs : List (Option Str)) :
    copiedTo i (op :: ops) (r :: rs) = copiedTo i [op] [r] ++ copiedTo i ops rs := by
  cases op <;> simp [copiedTo]

theorem inputRun_input (hd : Delivers d pending) (he : Accepts e received) {s : Streams d e ι}
    (h : Input pending rest s.src) (ho : ∀ i, (s.outs i).Plain) (ops : List (InOp ι)) :
    ∃ s' results, Ends (fun n => inputRun n ops s) (s', results) ∧ Follows rest ops results ∧
      Delivered pending rest s.src (deliveredBytes results) s'.src ∧
      ∀ i, (s'.outs i).sent received = (s.outs i).sent received ++ copiedTo i ops results := by
  induction ops generalizing s rest with
  | nil => exact ⟨s, [], Ends.const _, .nil rest, Delivered.refl h,
    fun i => (List.append_nil _).symm⟩
  | cons op ops ih =>
    obtain ⟨s₁, r, hends, hstep⟩ := inputStep_input hd he h ho op
    obtain ⟨s', rs, hends', hf, hdel, hsent⟩ := ih hstep.delivered.input hstep.plain
    refine ⟨s', r :: rs, hends.bind (hends'.map_eq rfl), .cons hstep.returns hf,
      hstep.delivered.trans hdel, ?_⟩
    intro i
    rw [hsent, hstep.sent, copiedTo_cons i op ops r rs, List.append_assoc]

/-- The calls return one after the other the bytes that the device delivers, each of
them as many as it should, and count them. -/
theorem input_loses_nothing (hd : Delivers d pending) (he : Accepts e received) (dev : d.State)
    {outs : ι → Io e} (ho : ∀ i, (outs i).Plain) (ops : List (InOp ι)) :
    ∃ s results, Ends (fun n => inputRun n ops ⟨ioCreate dev [], outs⟩) (s, results) ∧
      Follows (pending dev) ops results ∧ deliveredBytes results <+: pending dev ∧
      s.src.rtot = (deliveredBytes results).length ∧
      ∀ i, (s.outs i).sent received = (outs i).sent received ++ copiedTo i ops results := by
  obtain ⟨s, results, hends, hf, hdel, hsent⟩ :=
    inputRun_input (s := ⟨ioCreate dev [], outs⟩) hd he (ioCreate_input pending dev) ho ops
  refine ⟨s, results, hends, hf, hdel.begins, ?_, hsent⟩
  rw [hdel.rtot]
  exact Nat.zero_add _

theorem input_loses_nothing_fifo : ∃ s results, Ends (fun n => inputRun (d := fifo) (e := fifo) n
      [.gets 8, .copy () 1, .getUntil 58 3, .getc, .read 4]
        ⟨ioCreate (bytes "ab\ncde:f") [], fun _ => ioCreate [] []⟩)
      (s, results) ∧
    Follows (bytes "ab\ncde:f") [.gets 8, .copy () 1, .getUntil 58 3, .getc, .read 4] results ∧
    deliveredBytes results <+: bytes "ab\ncde:f" ∧ s.src.rtot = (deliveredBytes results).length ∧
    ∀ i, (s.outs i).sent id = Io.sent (d := fifo) id (ioCreate [] []) ++
      copiedTo i [.gets 8, .copy () 1, .getUntil 58 3, .getc, .read 4] results :=
  input_loses_nothing fifo_delivers fifo_accepts (bytes "ab\ncde:f")
    (fun _ => ⟨⟨Nat.zero_le _, (fun _ hm => by cases hm), fun _ => rfl⟩, rfl⟩) _

end Klone.Chain
