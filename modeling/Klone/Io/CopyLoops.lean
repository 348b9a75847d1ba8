import Klone.Io.Input
import Klone.Utils.Md5

/-! # Loops that pass on what they read

A stream is read in blocks, and each block is passed on: written to another stream, or added
to a digest. The answer of `io_read` is kept in a `size_t`, in which an error is no end of the
input but the largest length of all. `io_write` takes that length as it is and goes on behind
the buffer; for `md5_append` it is an `int`, -1, and nothing to add.
-/
namespace Klone.Chain
open Loop Md5

def BUFSZ : ℕ := 4096

inductive CopyEnd where
  | eof
  | failed
  | outOfBuffer (c : ℕ)

inductive Passed (W : Type*) where
  | taken (w : W)
  | refused (w : W)
  | outOfBuffer

/-- The state of a loop, with the calls that it has made: what they find in the buffer and the
length. -/
structure Pump (d : Device) (W : Type*) where
  io : Io d
  buf : Str
  sink : W
  passed : List (Str × ℕ)

variable {d e : Device} {W : Type*} (pass : ℕ → W → Str → ℕ → Option (Passed W))

/-- The answer of `io_read` as a `size_t`. -/
def sizeOfAnswer : Option Str → ℕ
  | none => sizeMod - 1
  | some bs => bs.length

def Pump.after (s : Pump d W) (c : ℕ) : Passed W → Iter (Pump d W) (Pump d W × CopyEnd)
  | .taken w => .again { s with sink := w }
  | .refused w => .leave ({ s with sink := w }, .failed)
  | .outOfBuffer => .leave (s, .outOfBuffer c)

def pumpRead (n : ℕ) (s : Pump d W) (r : Io d × Option Str) :
    Option (Iter (Pump d W) (Pump d W × CopyEnd)) :=
  let c := sizeOfAnswer r.2
  let s := { s with io := r.1, buf := store s.buf (r.2.getD []) }
  if c = 0 then some (.leave (s, .eof))
  else (pass n s.sink (s.buf.take c) c).map
    (Pump.after { s with passed := s.passed ++ [(s.buf.take c, c)] } c)

def pumpBody (n : ℕ) (s : Pump d W) : Option (Iter (Pump d W) (Pump d W × CopyEnd)) :=
  (ioRead n s.io BUFSZ).bind (pumpRead pass n s)

def pump (n : ℕ) (io : Io d) (sink : W) : Option (Pump d W × CopyEnd) :=
  run (pumpBody pass n) n ⟨io, List.replicate BUFSZ 0, sink, []⟩

/-- `io_write` copies `c` bytes, also where the buffer has fewer. -/
def writeBlock (n : ℕ) (out : Io e) (bs : Str) (c : ℕ) : Option (Passed (Io e)) :=
  if bs.length < c then some .outOfBuffer
  else (ioWrite n out bs).map fun w => if w.2.isSome then .taken w.1 else .refused w.1

/-- The loop of `fs_serve`; `eof` is its answer 0. -/
def fsServe (n : ℕ) (io : Io d) (out : Io e) : Option (Pump d (Io e) × CopyEnd) :=
  pump writeBlock n io out

def appendBlock (_ : ℕ) (pms : Md5State) (bs : Str) (c : ℕ) : Option (Passed Md5State) :=
  some (.taken (md5Append pms bs (BitVec.ofNat 32 c)))

/-- The loop of `u_md5io`; `eof` is its answer 0, and it has no other. -/
def uMd5io (n : ℕ) (io : Io d) : Option (Pump d Md5State × CopyEnd) := pump appendBlock n io md5Init

/-! ## What a copy is -/

/-- How a copy comes to its end: at the end of the input, at an error of a read, or where a
block is not taken. -/
inductive Ending where
  | eof
  | error
  | refused
  deriving DecidableEq

/-- The blocks that `io_read` delivers, up to the end or the first failure on either side. -/
inductive Copies : Io d → W → List Str → Ending → Prop
  | eof {io io' : Io d} {w : W} : Ends (fun n => ioRead n io BUFSZ) (io', some []) →
    Copies io w [] .eof
  | error {io io' : Io d} {w : W} : Ends (fun n => ioRead n io BUFSZ) (io', none) →
    Copies io w [] .error
  | refused {io io' : Io d} {w w' : W} {bs : Str} :
    Ends (fun n => ioRead n io BUFSZ) (io', some bs) → bs ≠ [] →
    Ends (fun n => pass n w bs bs.length) (.refused w') → Copies io w [bs] .refused
  | more {io io' : Io d} {w w' : W} {bs : Str} {blocks : List Str} {how : Ending} :
    Ends (fun n => ioRead n io BUFSZ) (io', some bs) → bs ≠ [] →
    Ends (fun n => pass n w bs bs.length) (.taken w') → Copies io' w' blocks how →
    Copies io w (bs :: blocks) how

def Ending.expected : Ending → CopyEnd
  | .eof => .eof
  | .error => .failed
  | .refused => .failed

def callsOf (blocks : List Str) : List (Str × ℕ) := blocks.map fun bs => (bs, bs.length)

/-- The loop ends as a copy does, after it has passed on the blocks and nothing else. -/
def Survives (loop : ℕ → Option (Pump d W × CopyEnd)) (io : Io d) (w : W) : Prop :=
  ∃ blocks how s, Copies pass io w blocks how ∧ Ends loop (s, how.expected) ∧
    s.passed = callsOf blocks

/-! ## The loop -/

variable {pass} {io : Io d} {w : W} {blocks : List Str} {how : Ending}

/-- No call of `io_read` stores more than it is asked for. -/
theorem ioRead_length {n size : ℕ} {io io' : Io d} {bs : Str}
    (h : ioRead n io size = some (io', some bs)) :
    bs.length ≤ size := by
  unfold ioRead at h
  split at h
  · cases h
    exact Nat.zero_le _
  · refine run_keeps (I := fun s : Reader d => s.out.length + s.size ≤ size)
      (J := fun r : Io d × Option Str => ∀ bs, r.2 = some bs → bs.length ≤ size) ?_
        (by simp) h bs rfl
    have hstep : ∀ s : Reader d, s.out.length + s.size ≤ size →
        (readStep s).out.length + (readStep s).size ≤ size := by
      intro s hs
      have hwin : (window (s.io.rbuf.getD []) s.io.roff (min s.io.rcount s.size)).length ≤
          min s.io.rcount s.size :=
        List.length_take_le _ _
      simp only [readStep, List.length_append]
      omega
    intro s i hs hi
    unfold readBody at hi
    split at hi
    · cases hi
      rintro bs ⟨⟩
      omega
    split at hi
    · cases hi
      exact hstep s hs
    · obtain ⟨u, -, rfl⟩ := Option.map_eq_some_iff.mp hi
      unfold readUnderflown
      split
      · rintro bs ⟨⟩
      · rintro bs ⟨⟩
        omega
      · exact hstep { s with io := u.1 } hs

variable (pass) in
/-- A block that has been read is what is passed on. -/
theorem pumpRead_block (s : Pump d W) (io' : Io d) {bs : Str} (hbuf : s.buf.length = BUFSZ)
    (hne : bs ≠ []) (hfits : bs.length ≤ BUFSZ) :
    (store s.buf bs).length = BUFSZ ∧ ∀ n, pumpRead pass n s (io', some bs) =
      (pass n s.sink bs bs.length).map
        (Pump.after ⟨io', store s.buf bs, s.sink, s.passed ++ [(bs, bs.length)]⟩ bs.length) := by
  have hlength : (store s.buf bs).length = BUFSZ := by
    rw [store_length, hbuf, Nat.max_eq_left hfits]
  have htake : (store s.buf bs).take bs.length = bs := List.take_left
  have hpos := List.length_pos_iff.mpr hne
  refine ⟨hlength, fun n => ?_⟩
  unfold pumpRead
  simp only [sizeOfAnswer, Option.getD_some, htake]
  rw [if_neg (by omega)]

variable (pass) in
/-- After an error the buffer is passed on with the largest length of all. -/
theorem pumpRead_error (n : ℕ) (s : Pump d W) (io' : Io d) (hbuf : s.buf.length = BUFSZ) :
    pumpRead pass n s (io', none) = (pass n s.sink s.buf (sizeMod - 1)).map
      (Pump.after ⟨io', s.buf, s.sink, s.passed ++ [(s.buf, sizeMod - 1)]⟩ (sizeMod - 1)) := by
  have hall : s.buf.take (sizeMod - 1) = s.buf := List.take_of_length_le (by rw [hbuf]; decide)
  have hne : sizeMod - 1 ≠ 0 := by decide
  have hstore : store s.buf [] = s.buf := rfl
  unfold pumpRead
  simp only [sizeOfAnswer, Option.getD_none, hne, hstore, hall, if_false]

structure Along (pass : ℕ → W → Str → ℕ → Option (Passed W)) (blocks : List Str) (how : Ending)
    (rest : List Str) (s : Pump d W) : Prop where
  size : s.buf.length = BUFSZ
  copies : Copies pass s.io s.sink rest how
  passed : s.passed ++ callsOf rest = callsOf blocks

/-- The step: a round passes on a block, leaves as the copy ends, or meets an error. -/
theorem pumpBody_copies {rest : List Str} {s : Pump d W} (h : Along pass blocks how rest s) :
    (∃ t rest', Ends (fun n => pumpBody pass n s) (.again t) ∧ rest'.length < rest.length ∧
      Along pass blocks how rest' t) ∨
    (∃ t, Ends (fun n => pumpBody pass n s) (.leave (t, how.expected)) ∧ how ≠ .error ∧
      t.passed = callsOf blocks) ∨
    (how = .error ∧ ∃ io', Ends (fun n => ioRead n s.io BUFSZ) (io', none)) := by
  obtain ⟨io, buf, sink, passed⟩ := s
  obtain ⟨hbuf, hc, hpassed⟩ := h
  cases hc with
  | eof hread =>
    refine Or.inr (Or.inl ⟨_, hread.bind (Ends.const _), Ending.noConfusion, ?_⟩)
    rw [← hpassed]
    exact (List.append_nil _).symm
  | @error _ io' _ hread => exact Or.inr (Or.inr ⟨rfl, io', hread⟩)
  | @refused _ io' _ w' bs hread hne hpass =>
    obtain ⟨n, hn⟩ := hread.some_run
    obtain ⟨-, hblock⟩ := pumpRead_block pass ⟨io, buf, sink, passed⟩ io' hbuf hne
      (ioRead_length hn)
    refine Or.inr (Or.inl ⟨⟨io', store buf bs, w', passed ++ [(bs, bs.length)]⟩, hread.bind ?_,
      Ending.noConfusion,
      hpassed⟩)
    simp only [hblock]
    exact hpass.map_eq rfl
  | @more _ io' _ w' bs rest' _ hread hne hpass hrest =>
    obtain ⟨n, hn⟩ := hread.some_run
    obtain ⟨hbuf', hblock⟩ :=
      pumpRead_block pass ⟨io, buf, sink, passed⟩ io' hbuf hne (ioRead_length hn)
    refine Or.inl ⟨⟨io', store buf bs, w', passed ++ [(bs, bs.length)]⟩, rest', hread.bind ?_,
      Nat.lt_succ_self _, hbuf',
      hrest, ?_⟩
    · simp only [hblock]
      exact hpass.map_eq rfl
    · rw [← hpassed]
      exact List.append_assoc _ _ _

theorem along_start (h : Copies pass io w blocks how) :
    Along pass blocks how blocks ⟨io, List.replicate BUFSZ 0, w, []⟩ :=
  ⟨List.length_replicate, h, rfl⟩

/-- The run: without an error a loop passes on the blocks of the copy and leaves as it ends. -/
theorem pump_copies (h : Copies pass io w blocks how) (hne : how ≠ .error) :
    ∃ s, Ends (fun n => pump pass n io w) (s, how.expected) ∧ s.passed = callsOf blocks := by
  have hrun := ends_run (pumpBody pass)
    (I := fun m s => ∃ rest, m = rest.length ∧ Along pass blocks how rest s)
    (Q := fun r => r.2 = how.expected ∧ r.1.passed = callsOf blocks)
    (m := blocks.length) (s := ⟨io, List.replicate BUFSZ 0, w, []⟩)
    (fun m s => by
      rintro ⟨rest, rfl, ha⟩
      rcases pumpBody_copies ha with ⟨t, rest', hends, hlt, ha'⟩ |
        ⟨t, hends, -, hpassed⟩ | ⟨herror, -⟩
      · exact Or.inl ⟨t, _, hends, hlt, rest', rfl, ha'⟩
      · exact Or.inr ⟨_, hends, rfl, hpassed⟩
      · exact absurd herror hne)
    ⟨blocks, rfl, along_start h⟩
  obtain ⟨⟨s, how'⟩, ⟨rfl, hpassed⟩, hends⟩ := hrun
  exact ⟨s, hends, hpassed⟩

def Careless (pass : ℕ → W → Str → ℕ → Option (Passed W)) : Prop :=
  ∀ {d : Device} {io : Io d} {w blocks}, Copies pass io w blocks .error →
    ∀ s, ¬ Ends (fun n => pump pass n io w) (s, .failed)

/-- Bytes behind the buffer end the loop there. -/
theorem careless_of_overrun
    (hpass : ∀ n w bs c, bs.length < c → pass n w bs c = some .outOfBuffer) : Careless pass := by
  intro d io w blocks h s hends
  have hrun := ends_run (pumpBody pass)
    (I := fun m s => ∃ rest, m = rest.length ∧ Along pass blocks .error rest s)
    (Q := fun r => r.2 = .outOfBuffer (sizeMod - 1))
    (m := blocks.length) (s := ⟨io, List.replicate BUFSZ 0, w, []⟩)
    (fun m s => by
      rintro ⟨rest, rfl, ha⟩
      rcases pumpBody_copies ha with ⟨t, rest', hends, hlt, ha'⟩ | ⟨t, -, hne, -⟩ | ⟨-, io', hread⟩
      · exact Or.inl ⟨t, _, hends, hlt, rest', rfl, ha'⟩
      · exact absurd rfl hne
      · refine Or.inr ⟨(⟨io', s.buf, s.sink, s.passed ++ [(s.buf, sizeMod - 1)]⟩,
          .outOfBuffer (sizeMod - 1)),
          hread.bind ?_, rfl⟩
        have hshort : s.buf.length < sizeMod - 1 := by
          rw [ha.size]
          decide
        simp only [pumpRead_error pass _ s io' ha.size, hpass _ _ _ _ hshort]
        exact Ends.const _)
    ⟨blocks, rfl, along_start h⟩
  obtain ⟨r, hr, hends'⟩ := hrun
  obtain rfl := hends.unique hends'
  cases hr

/-- Where whatever is passed on is taken, a loop has no end but that of the input. -/
theorem pump_eof (hpass : ∀ n w bs c, ∃ w', pass n w bs c = some (.taken w')) {n : ℕ}
    {r : Pump d W × CopyEnd} (h : pump pass n io w = some r) : r.2 = .eof := by
  refine run_keeps (I := fun _ : Pump d W => True)
    (J := fun r : Pump d W × CopyEnd => r.2 = .eof) ?_ trivial h
  intro s i _ hi
  obtain ⟨⟨io', out⟩, -, hi⟩ := Option.bind_eq_some_iff.mp hi
  unfold pumpRead at hi
  dsimp only at hi
  split at hi
  · cases hi
    rfl
  · obtain ⟨p, hp, rfl⟩ := Option.map_eq_some_iff.mp hi
    obtain ⟨w', hw'⟩ := hpass n s.sink _ _
    cases hw'.symm.trans hp
    trivial

theorem careless_of_taken (hpass : ∀ n w bs c, ∃ w', pass n w bs c = some (.taken w')) :
    Careless pass := by
  intro d io w blocks _ s hends
  obtain ⟨n, hn⟩ := hends.some_run
  cases pump_eof hpass hn

/-- A loop survives a stream unless a read of it fails. -/
theorem survives_iff (hp : Careless pass) :
    Survives pass (fun n => pump pass n io w) io w ↔ ∃ blocks how, Copies pass io w blocks how ∧
    how ≠ .error := by
  constructor
  · rintro ⟨blocks, how, s, hc, hends, -⟩
    refine ⟨blocks, how, hc, ?_⟩
    rintro rfl
    exact hp hc s hends
  · rintro ⟨blocks, how, hc, hne⟩
    obtain ⟨s, hends, hpassed⟩ := pump_copies hc hne
    exact ⟨blocks, how, s, hc, hends, hpassed⟩

/-- A copy comes to one end. -/
theorem Copies.unique {blocks' : List Str} {how' : Ending} (h : Copies pass io w blocks how)
    (h' : Copies pass io w blocks' how') : how = how' := by
  induction h generalizing blocks' with
  | eof hread =>
    cases h' with
    | eof => rfl
    | error hread' => cases hread.unique hread'
    | refused hread' hne => cases hread.unique hread'; exact absurd rfl hne
    | more hread' hne => cases hread.unique hread'; exact absurd rfl hne
  | error hread =>
    cases h' with
    | eof hread' => cases hread.unique hread'
    | error => rfl
    | refused hread' => cases hread.unique hread'
    | more hread' => cases hread.unique hread'
  | refused hread hne hpass =>
    cases h' with
    | eof hread' => cases hread.unique hread'; exact absurd rfl hne
    | error hread' => cases hread.unique hread'
    | refused => rfl
    | more hread' _ hpass' =>
      cases hread.unique hread'
      cases hpass.unique hpass'
  | more hread hne hpass _ ih =>
    cases h' with
    | eof hread' => cases hread.unique hread'; exact absurd rfl hne
    | error hread' => cases hread.unique hread'
    | refused hread' _ hpass' =>
      cases hread.unique hread'
      cases hpass.unique hpass'
    | more hread' _ hpass' hrest =>
      cases hread.unique hread'
      cases hpass.unique hpass'
      exact ih hrest

/-! ## A stream over a device whose reads may fail -/

/-- The device delivers at most `left` bytes; any read of it may report an error. -/
structure Finite (d : Device) (left : d.State → ℕ) : Prop where
  fits : ∀ {s size bs}, (d.read s size).2 = some bs → bs.length ≤ size
  left : ∀ {s size bs}, (d.read s size).2 = some bs → left (d.read s size).1 + bs.length ≤ left s

/-- A read of the device fails before the end of the input, when `got` bytes of a block are
there. Where the device has no bytes the block is at its end, and the input is when there is
none of the block. -/
inductive Fails (d : Device) : d.State → ℕ → Prop
  | now {s : d.State} {got : ℕ} : (d.read s IO_RD_BUFSZ).2 = none → Fails d s got
  | next {s : d.State} {got : ℕ} : (d.read s IO_RD_BUFSZ).2 = some [] → got ≠ 0 →
    Fails d (d.read s IO_RD_BUFSZ).1 0 → Fails d s got
  | more {s : d.State} {got : ℕ} {bs : Str} : (d.read s IO_RD_BUFSZ).2 = some bs → bs ≠ [] →
    Fails d (d.read s IO_RD_BUFSZ).1 ((got + bs.length) % BUFSZ) → Fails d s got

theorem fails_empty {s : d.State} {got : ℕ} (h : (d.read s IO_RD_BUFSZ).2 = some []) :
    Fails d s got ↔ got ≠ 0 ∧ Fails d (d.read s IO_RD_BUFSZ).1 0 := by
  refine ⟨fun hf => ?_, fun hf => .next h hf.1 hf.2⟩
  cases hf with
  | now hnone =>
    rw [h] at hnone
    cases hnone
  | next _ hgot hf => exact ⟨hgot, hf⟩
  | more hsome hne =>
    rw [h] at hsome
    exact absurd (Option.some.inj hsome).symm hne

theorem fails_more {s : d.State} {got : ℕ} {bs : Str} (h : (d.read s IO_RD_BUFSZ).2 = some bs)
    (hne : bs ≠ []) :
    Fails d s got ↔ Fails d (d.read s IO_RD_BUFSZ).1 ((got + bs.length) % BUFSZ) := by
  refine ⟨fun hf => ?_, .more h hne⟩
  cases hf with
  | now hnone =>
    rw [h] at hnone
    cases hnone
  | next hnil =>
    rw [h] at hnil
    exact absurd (Option.some.inj hnil) hne
  | more hsome _ hf =>
    rw [h] at hsome
    obtain rfl := Option.some.inj hsome
    exact hf

structure Fed (io : Io d) : Prop where
  ok : io.ReadOk
  chain : io.codecChain = []
  eof : io.eof = 0
  moved : io.ucount = 0

/-- Such a stream as one that ends with its buffer. -/
theorem Fed.input (h : Fed io) : Input (fun _ => []) io.readable io := by
  refine ⟨h.ok, h.chain, h.eof, ?_⟩
  rw [Io.fetched_nil h.moved, List.append_nil, List.append_nil]

theorem ioCreate_fed (dev : d.State) : Fed (ioCreate dev []) := by
  have hin : Input (fun _ => []) [] (ioCreate dev []) := ioCreate_input _ dev
  exact ⟨hin.ok, hin.chain, hin.eof, rfl⟩

theorem Fed.advance (h : Fed io) {wr : ℕ} (hwr : wr ≤ io.rcount) : Fed (io.advance wr) := by
  have hin := h.input.advance hwr
  exact ⟨hin.ok, hin.chain, hin.eof, h.moved⟩

/-- A stream is refilled by what one read of the device delivers. -/
theorem ioUnderflow_fed {left : d.State → ℕ} (hd : Finite d left) (h : Fed io)
    (hz : io.rcount = 0) :
    ((d.read io.dev IO_RD_BUFSZ).2 = none ∧ ∃ io', Ends (fun n => ioUnderflow n io) (io', none)) ∨
    ∃ bs io', (d.read io.dev IO_RD_BUFSZ).2 = some bs ∧
    Ends (fun n => ioUnderflow n io) (io', some bs.length) ∧ Fed io' ∧
      io'.rcount = bs.length ∧ io'.dev = (d.read io.dev IO_RD_BUFSZ).1 := by
  obtain ⟨io₀, hstart, h₀, hr₀, hz₀, hu₀, hdev₀⟩ :
    ∃ io₀, (if io.rbuf = none then ioRbufAlloc io else io) = io₀ ∧
      Input (fun _ => []) io.readable io₀ ∧ io₀.rbuf ≠ none ∧ io₀.rcount = 0 ∧ io₀.ucount = 0 ∧
      io₀.dev = io.dev := by
    by_cases hr : io.rbuf = none
    · exact ⟨_, if_pos hr, ioRbufAlloc_input h.input hr, Option.some_ne_none _, hz, h.moved, rfl⟩
    · exact ⟨io, if_neg hr, h.input, hr, hz, h.moved, rfl⟩
  rw [Io.readable_nil hz] at h₀
  unfold ioUnderflow
  rw [hstart, ← hdev₀]
  have hok : (io₀.setDev (d.read io₀.dev IO_RD_BUFSZ).1).ReadOk :=
    ⟨h₀.ok.size, h₀.ok.null, h₀.ok.rfits, h₀.ok.ufits, h₀.ok.uempty⟩
  cases hret : (d.read io₀.dev IO_RD_BUFSZ).2 with
  | none =>
    refine Or.inl ⟨rfl, io₀.setDev (d.read io₀.dev IO_RD_BUFSZ).1, 1, fun n hn => ?_⟩
    obtain ⟨k, rfl⟩ : ∃ k, n = k + 1 := ⟨n - 1, by omega⟩
    exact run_leave (by simp [underflowBody, hz₀, hu₀, hret]) k
  | some bs =>
    refine Or.inr ⟨bs, ?_⟩
    by_cases hbs : bs = []
    · subst hbs
      refine ⟨io₀.setDev (d.read io₀.dev IO_RD_BUFSZ).1, rfl, ⟨1, fun n hn => ?_⟩,
        ⟨hok, h₀.chain, h₀.eof, hu₀⟩, hz₀, rfl⟩
      obtain ⟨k, rfl⟩ : ∃ k, n = k + 1 := ⟨n - 1, by omega⟩
      have hchain : (io₀.setDev (d.read io₀.dev IO_RD_BUFSZ).1).codecChain = [] := h₀.chain
      have hcount : (io₀.setDev (d.read io₀.dev IO_RD_BUFSZ).1).rcount = 0 := hz₀
      exact run_leave (by simp [underflowBody, hz₀, hu₀, hret, underflowEof, hchain, hcount]) k
    · obtain ⟨b, bs', hcons⟩ := List.exists_cons_of_ne_nil hbs
      obtain ⟨hok', hfetched⟩ := hok.fetch hr₀ hu₀ (hd.fits hret)
      have hin : Input (fun _ => []) bs ((io₀.setDev (d.read io₀.dev IO_RD_BUFSZ).1).fetch bs) := by
        have hread : ((io₀.setDev (d.read io₀.dev IO_RD_BUFSZ).1).fetch bs).readable = [] :=
          Io.readable_nil hz₀
        refine ⟨hok', h₀.chain, h₀.eof, ?_⟩
        rw [hfetched, hread, List.append_nil, List.nil_append]
      have hcount : ((io₀.setDev (d.read io₀.dev IO_RD_BUFSZ).1).fetch bs).ucount = bs.length := by
        change io₀.ucount + bs.length = bs.length
        rw [hu₀, Nat.zero_add]
      have hpos := List.length_pos_iff.mpr hbs
      obtain ⟨io', hstep, hin', -, -, hdev, hmoved, hrc⟩ :=
        underflowTransfer_input hin hr₀ hz₀ (by omega)
      refine ⟨io', rfl, ⟨2, fun n hn => ?_⟩, ⟨hin'.ok, hin'.chain, hin'.eof, hmoved⟩,
        hrc.trans hcount, hdev⟩
      obtain ⟨k, rfl⟩ : ∃ k, n = k + 2 := ⟨n - 2, by omega⟩
      have hagain : underflowBody (k + 2) io₀ = some (.again io') := by
        rw [← hstep (k + 2)]
        simp [underflowBody, hz₀, hu₀, hret, hcons]
      dsimp only
      rw [run_again hagain, run_leave (r := (io', some bs.length))]
      simp [underflowBody, hrc, hcount, hbs]

section Reads
variable {left : d.State → ℕ}

structure Partway (left : d.State → ℕ) (io : Io d) (s : Reader d) : Prop where
  fed : Fed s.io
  total : s.out.length + s.size = BUFSZ
  spare : s.size = 0 → s.io.rcount < BUFSZ
  fails : Fails d io.dev io.rcount ↔ Fails d s.io.dev ((s.out.length + s.io.rcount) % BUFSZ)
  left : left s.io.dev + (s.out.length + s.io.rcount) ≤ left io.dev + io.rcount

structure Block (left : d.State → ℕ) (io : Io d) (bs : Str) (io' : Io d) : Prop where
  fed : Fed io'
  spare : io'.rcount < BUFSZ
  ended : bs = [] → ¬ Fails d io.dev io.rcount
  fails : bs ≠ [] → (Fails d io.dev io.rcount ↔ Fails d io'.dev io'.rcount)
  left : left io'.dev + io'.rcount + bs.length ≤ left io.dev + io.rcount

theorem Partway.readStep {s : Reader d} (h : Partway left io s) (hs : s.size ≠ 0) :
    Partway left io (Chain.readStep s) := by
  have htotal := h.total
  have hfits := h.fed.ok.rfits
  have hlen : (s.io.readable.take (min s.io.rcount s.size)).length = min s.io.rcount s.size := by
    rw [List.length_take, h.fed.ok.readable_length]
    omega
  have hsum : (s.out ++ s.io.readable.take (min s.io.rcount s.size)).length +
    (s.io.rcount - min s.io.rcount s.size) =
      s.out.length + s.io.rcount := by
    rw [List.length_append, hlen]
    omega
  rw [readStep_eq]
  refine ⟨h.fed.advance (Nat.min_le_left _ _), ?_, ?_, ?_, ?_⟩
  · change (s.out ++ _).length + (s.size - min s.io.rcount s.size) = BUFSZ
    rw [List.length_append, hlen]
    omega
  · have hbuf : IO_RD_BUFSZ = BUFSZ := rfl
    intro hz
    change s.size - min s.io.rcount s.size = 0 at hz
    change s.io.rcount - min s.io.rcount s.size < BUFSZ
    omega
  · change _ ↔ Fails d s.io.dev
      (((s.out ++ _).length + (s.io.rcount - min s.io.rcount s.size)) % BUFSZ)
    rw [hsum]
    exact h.fails
  · change left s.io.dev + ((s.out ++ _).length + (s.io.rcount - min s.io.rcount s.size)) ≤ _
    rw [hsum]
    exact h.left

/-- A block is full; what is left in the buffer begins the next one. -/
theorem Partway.full {s : Reader d} (h : Partway left io s) (hs : s.size = 0) :
    Block left io s.out s.io := by
  have htotal := h.total
  have hspare := h.spare hs
  have hpos : s.out ≠ [] := by
    intro hnil
    rw [hnil, hs] at htotal
    cases htotal
  refine ⟨h.fed, hspare, fun hnil => absurd hnil hpos, fun _ => ?_, ?_⟩
  · rw [h.fails, show s.out.length + s.io.rcount =
      s.io.rcount + BUFSZ by omega, Nat.add_mod_right, Nat.mod_eq_of_lt hspare]
  · have hleft := h.left
    omega

/-- The device has no bytes: the block is what there is. -/
theorem Partway.ended (hd : Finite d left) {s : Reader d} (h : Partway left io s) (hs : s.size ≠ 0)
    (hz : s.io.rcount = 0) {io' : Io d} (hret : (d.read s.io.dev IO_RD_BUFSZ).2 = some [])
    (hfed : Fed io') (hz' : io'.rcount = 0) (hdev : io'.dev = (d.read s.io.dev IO_RD_BUFSZ).1) :
    Block left io s.out io' := by
  have htotal := h.total
  have hfails := h.fails
  rw [hz, Nat.add_zero, Nat.mod_eq_of_lt (by omega), fails_empty hret, ← hdev] at hfails
  refine ⟨hfed, by rw [hz']; decide, ?_, ?_, ?_⟩
  · intro hnil
    rw [hfails, hnil]
    exact fun hf => hf.1 rfl
  · intro hne
    rw [hfails, hz']
    exact and_iff_right (List.length_pos_iff.mpr hne).ne'
  · have hread := hd.left hret
    have hleft := h.left
    rw [hdev, hz']
    simp only [List.length_nil] at hread
    omega

/-- The step of `io_read`. -/
theorem readBody_fed (hd : Finite d left) {s : Reader d} (h : Partway left io s) :
    (∃ t, Ends (fun n => readBody n s) (.again t) ∧ t.size < s.size ∧ Partway left io t) ∨
      (∃ io', Ends (fun n => readBody n s) (.leave (io', none)) ∧ Fails d io.dev io.rcount) ∨
      ∃ bs io', Ends (fun n => readBody n s) (.leave (io', some bs)) ∧ Block left io bs io' := by
  unfold readBody
  by_cases hs : s.size = 0
  · simp only [if_pos hs]
    exact Or.inr (Or.inr ⟨s.out, s.io, Ends.const _, h.full hs⟩)
  simp only [if_neg hs]
  by_cases hz : s.io.rcount = 0
  · simp only [if_neg (not_not.mpr hz)]
    rcases ioUnderflow_fed hd h.fed hz with ⟨hret, io', hends⟩ |
      ⟨bs, io', hret, hends, hfed, hrc, hdev⟩
    · refine Or.inr (Or.inl ⟨io', hends.map_eq rfl, ?_⟩)
      rw [h.fails]
      exact .now hret
    by_cases hbs : bs = []
    · subst hbs
      exact Or.inr (Or.inr ⟨s.out, io', hends.map_eq rfl, h.ended hd hs hz hret hfed hrc hdev⟩)
    · have hfits : bs.length ≤ BUFSZ := hd.fits hret
      have hp : Partway left io { s with io := io' } := by
        refine ⟨hfed, h.total, fun hs' => absurd hs' hs, ?_, ?_⟩
        · rw [h.fails, hz, Nat.add_zero, fails_more hret hbs, hrc, hdev, Nat.mod_add_mod]
        · have hread := hd.left hret
          have hleft := h.left
          change left io'.dev + (s.out.length + io'.rcount) ≤ _
          rw [hdev, hrc]
          omega
      refine Or.inl ⟨_, hends.map_eq ?_, readStep_size (s := { s with
        io := io' }) ?_ hs, hp.readStep hs⟩
      · obtain ⟨b, bs, rfl⟩ := List.exists_cons_of_ne_nil hbs
        rfl
      · change io'.rcount ≠ 0
        rw [hrc]
        exact (List.length_pos_iff.mpr hbs).ne'
  · simp only [if_pos hz]
    exact Or.inl ⟨_, Ends.const _, readStep_size hz hs, h.readStep hs⟩

/-- Every call of `io_read` returns: with an error when a read of the device fails, or with a block. -/
theorem ioRead_fed (hd : Finite d left) (h : Fed io) (hspare : io.rcount < BUFSZ) :
    (∃ io', Ends (fun n => ioRead n io BUFSZ) (io', none) ∧ Fails d io.dev io.rcount) ∨
      ∃ bs io', Ends (fun n => ioRead n io BUFSZ) (io', some bs) ∧ Block left io bs io' := by
  have hrun := ends_run readBody
    (I := fun m s => m = s.size ∧ Partway left io s)
    (Q := fun r => (r.2 = none ∧ Fails d io.dev io.rcount) ∨ ∃ bs, r.2 = some bs ∧
      Block left io bs r.1)
    (m := BUFSZ) (s := ⟨io, BUFSZ, []⟩)
    (fun m s => by
      rintro ⟨rfl, hp⟩
      rcases readBody_fed hd hp with ⟨t, hends, hlt, ht⟩ | ⟨io', hends, hf⟩ | ⟨bs, io', hends, hb⟩
      · exact Or.inl ⟨t, t.size, hends, hlt, rfl, ht⟩
      · exact Or.inr ⟨_, hends, Or.inl ⟨rfl, hf⟩⟩
      · exact Or.inr ⟨_, hends, Or.inr ⟨bs, rfl, hb⟩⟩)
    ⟨rfl, h, Nat.zero_add _,
      fun hz => absurd hz (by decide : BUFSZ ≠ 0), by simp [Nat.mod_eq_of_lt hspare], by simp⟩
  have hloop : ∀ n, ioRead n io BUFSZ = run (readBody n) n ⟨io, BUFSZ, []⟩ :=
    fun n => if_neg (not_not.mpr h.eof)
  simp only [hloop]
  obtain ⟨⟨io', ret⟩, hq, hends⟩ := hrun
  rcases hq with ⟨rfl, hf⟩ | ⟨bs, rfl, hb⟩
  · exact Or.inl ⟨io', hends, hf⟩
  · exact Or.inr ⟨bs, io', hends, hb⟩

/-- Every block is taken or refused, again and again, from the states of a sink in `P`. -/
def Answers (pass : ℕ → W → Str → ℕ → Option (Passed W)) (P : W → Prop) : Prop :=
  ∀ w, P w → ∀ bs, ∃ w', P w' ∧
    (Ends (fun n => pass n w bs bs.length) (.taken w') ∨
      Ends (fun n => pass n w bs bs.length) (.refused w'))

/-- A copy of a finite input comes to an end, and to the end of the input only when no read
fails before it. -/
theorem copies_exists (hd : Finite d left) {P : W → Prop} (hp : Answers pass P) (h : Fed io)
    (hspare : io.rcount < BUFSZ) (hw : P w) :
    ∃ blocks how, Copies pass io w blocks how ∧ (how = .error → Fails d io.dev io.rcount) ∧
      (how = .eof → ¬ Fails d io.dev io.rcount) := by
  induction hm : left io.dev + io.rcount using Nat.strong_induction_on generalizing io w with
  | h m ih =>
    subst hm
    rcases ioRead_fed hd h hspare with ⟨io', hends, hf⟩ | ⟨bs, io', hends, hb⟩
    · exact ⟨[], .error, .error hends, fun _ => hf, fun he => (by cases he)⟩
    by_cases hbs : bs = []
    · subst hbs
      exact ⟨[], .eof, .eof hends, fun he => (by cases he), fun _ => hb.ended rfl⟩
    obtain ⟨w', hw', hpass | hpass⟩ := hp w hw bs
    · have hleft := hb.left
      have hpos := List.length_pos_iff.mpr hbs
      obtain ⟨blocks, how, hc, herror, heof⟩ := ih _ (by omega) hb.fed hb.spare hw' rfl
      rw [← hb.fails hbs] at herror heof
      exact ⟨bs :: blocks, how, .more hends hbs hpass hc, herror, heof⟩
    · exact ⟨[bs], .refused, .refused hends hbs hpass, fun he => (by cases he),
        fun he => (by cases he)⟩

/-- Over a finite input a loop survives unless the copy meets an error, which it does not when
no read fails. -/
theorem survives_finite (hd : Finite d left) (hcare : Careless pass) {P : W → Prop}
    (hp : Answers pass P) (hw : P w) (dev : d.State) :
    let io := ioCreate dev []
    (Survives pass (fun n => pump pass n io w) io w ↔ ¬ ∃ blocks, Copies pass io w blocks .error) ∧
      (¬ Fails d dev 0 → Survives pass (fun n => pump pass n io w) io w) := by
  obtain ⟨blocks, how, hc, herror, -⟩ :=
    copies_exists hd hp (ioCreate_fed dev) (by decide : 0 < BUFSZ) hw
  dsimp only
  rw [survives_iff hcare]
  refine ⟨⟨?_, ?_⟩, ?_⟩
  · rintro ⟨blocks', how', hc', hne⟩ ⟨blocks'', hc''⟩
    exact hne (hc'.unique hc'')
  · intro hno
    refine ⟨blocks, how, hc, ?_⟩
    rintro rfl
    exact hno ⟨blocks, hc⟩
  · intro hf
    exact ⟨blocks, how, hc, fun he => hf (herror he)⟩

def TakesAll (pass : ℕ → W → Str → ℕ → Option (Passed W)) (P : W → Prop) : Prop :=
  ∀ w, P w → ∀ bs, ∃ w', Ends (fun n => pass n w bs bs.length) (.taken w') ∧ P w'

theorem TakesAll.answers {P : W → Prop} (ht : TakesAll pass P) : Answers pass P := by
  intro w hw bs
  obtain ⟨w', hends, hw'⟩ := ht w hw bs
  exact ⟨w', hw', .inl hends⟩

theorem TakesAll.taken {P : W → Prop} (ht : TakesAll pass P) (hw : P w)
    (h : Copies pass io w blocks how) :
    how ≠ .refused := by
  induction h with
  | eof _ => exact Ending.noConfusion
  | error _ => exact Ending.noConfusion
  | @refused _ _ w _ bs _ _ hpass =>
    obtain ⟨w', hends, -⟩ := ht w hw bs
    cases hpass.unique hends
  | @more _ _ w _ bs _ _ _ _ hpass _ ih =>
    obtain ⟨w', hends, hw'⟩ := ht w hw bs
    cases hpass.unique hends
    exact ih hw'

/-- Where every block is taken a loop survives just when no read of the device fails. -/
theorem TakesAll.survives_iff (hd : Finite d left) (hcare : Careless pass) {P : W → Prop}
    (ht : TakesAll pass P) (hw : P w) (dev : d.State) :
    Survives pass (fun n => pump pass n (ioCreate dev []) w) (ioCreate dev []) w ↔
    ¬ Fails d dev 0 := by
  refine ⟨?_, (survives_finite hd hcare ht.answers hw dev).2⟩
  obtain ⟨blocks, how, hc, -, heof⟩ :=
    copies_exists hd ht.answers (ioCreate_fed dev) (by decide : 0 < BUFSZ) hw
  rw [Chain.survives_iff hcare]
  rintro ⟨blocks', how', hc', hne⟩
  have hsame := hc.unique hc'
  cases how' with
  | eof => exact heof hsame
  | error => exact absurd rfl hne
  | refused => exact absurd hsame (ht.taken hw hc)

end Reads

/-! ## The two loops -/

theorem append_takes : TakesAll appendBlock fun _ => True :=
  fun pms _ bs => ⟨md5Append pms bs (BitVec.ofNat 32 bs.length), Ends.const _, trivial⟩

theorem append_careless : Careless appendBlock :=
  careless_of_taken fun _ pms bs c => ⟨md5Append pms bs (BitVec.ofNat 32 c), rfl⟩

/-- `u_md5io` has no answer but 0. -/
theorem uMd5io_eof {n : ℕ} {r : Pump d Md5State × CopyEnd} (h : uMd5io n io = some r) :
    r.2 = .eof :=
  pump_eof (fun _ pms bs c => ⟨md5Append pms bs (BitVec.ofNat 32 c), rfl⟩) h

theorem write_careless : Careless (writeBlock (e := e)) :=
  careless_of_overrun fun _ _ _ _ h => if_pos h

theorem writeBlock_block (n : ℕ) (out : Io e) (bs : Str) : writeBlock n out bs bs.length =
    (ioWrite n out bs).map fun w => if w.2.isSome then .taken w.1 else .refused w.1 :=
  if_neg (lt_irrefl _)

theorem write_takes {received : e.State → Str} (he : Accepts e received) :
    TakesAll (writeBlock (e := e)) Io.Plain := by
  intro out hout bs
  obtain ⟨out', hends, hkept⟩ := ioWrite_accepted he hout bs
  refine ⟨out', ?_, hkept.plain⟩
  simp only [writeBlock_block]
  exact hends.map_eq rfl

theorem ioCreate_plain (dev : d.State) : (ioCreate dev []).Plain :=
  ⟨⟨Nat.zero_le _, fun _ hm => (by cases hm), fun _ => rfl⟩, rfl⟩

theorem uMd5io_survives_iff :
    Survives appendBlock (fun n => uMd5io n io) io md5Init ↔
    ∃ blocks, Copies appendBlock io md5Init blocks .eof := by
  unfold uMd5io
  rw [survives_iff append_careless]
  constructor
  · rintro ⟨blocks, how, hc, hne⟩
    cases how with
    | eof => exact ⟨blocks, hc⟩
    | error => exact absurd rfl hne
    | refused => exact absurd rfl (append_takes.taken trivial hc)
  · rintro ⟨blocks, hc⟩
    exact ⟨blocks, .eof, hc, Ending.noConfusion⟩

/-- Both loops do what they should, on any stream, exactly when no call of `io_read` reports an
error before the end or, where the blocks are written, before a write fails. Over a finite input
a loop whose blocks are all taken does so exactly when no read of the device fails. -/
theorem copy_survives_iff {left : d.State → ℕ} (hd : Finite d left) (dev : d.State) :
    (Survives appendBlock (fun n => uMd5io n (ioCreate dev [])) (ioCreate dev []) md5Init ↔
      ¬ Fails d dev 0) ∧
      (∀ {e} {P : Io e → Prop} (out : Io e), TakesAll writeBlock P → P out →
        (Survives writeBlock (fun n => fsServe n (ioCreate dev []) out) (ioCreate dev []) out ↔
          ¬ Fails d dev 0)) ∧
      (∀ {e} {P : Io e → Prop} (out : Io e), Answers writeBlock P → P out →
        (Survives writeBlock (fun n => fsServe n (ioCreate dev []) out) (ioCreate dev []) out ↔
          ¬ ∃ blocks, Copies writeBlock (ioCreate dev []) out blocks .error) ∧
        (¬ Fails d dev 0 → Survives writeBlock (fun n => fsServe n (ioCreate dev []) out)
          (ioCreate dev []) out)) ∧
      (∀ {d} (io : Io d), Survives appendBlock (fun n => uMd5io n io) io md5Init ↔
        ∃ blocks, Copies appendBlock io md5Init blocks .eof) ∧
      ∀ {d e} (io : Io d) (out : Io e), Survives writeBlock (fun n => fsServe n io out) io out ↔
        ∃ blocks how, Copies writeBlock io out blocks how ∧ how ≠ .error := by
  refine ⟨append_takes.survives_iff hd append_careless trivial dev, ?_, ?_, ?_, ?_⟩
  · intro e P out ht hw
    exact ht.survives_iff hd write_careless hw dev
  · intro e P out hp hw
    exact survives_finite hd write_careless hp hw dev
  · intro d io
    exact uMd5io_survives_iff
  · intro d e io out
    exact survives_iff write_careless

/-! ## A device that fails -/

/-- A device with the answers that it has still to give. -/
def script : Device where
  State := List (Option Str)
  read := fun
    | [], _ => ([], some [])
    | none :: s, _ => (s, none)
    | some bs :: s, size => if bs.length ≤ size then (s, some bs) else (some (bs.drop size) :: s,
      some (bs.take size))
  write := fun s bs => (s, some bs.length)

def script.left (s : script.State) : ℕ :=
  (List.map (fun a : Option Str => (a.getD []).length) s).sum

theorem script_finite : Finite script script.left := by
  have hread : ∀ (s : script.State) size bs, (script.read s size).2 = some bs →
      bs.length ≤ size ∧ script.left (script.read s size).1 + bs.length ≤ script.left s := by
    intro s size bs h
    match s with
    | [] =>
      obtain rfl := Option.some.inj h
      exact ⟨Nat.zero_le _, le_rfl⟩
    | none :: s => cases h
    | some b :: s =>
      simp only [script] at h ⊢
      split at h
      · next hfits =>
        obtain rfl := Option.some.inj h
        rw [if_pos hfits]
        refine ⟨hfits, ?_⟩
        simp only [script.left, List.map_cons, List.sum_cons, Option.getD_some]
        omega
      · next hlong =>
        obtain rfl := Option.some.inj h
        rw [if_neg hlong]
        simp only [script.left, List.map_cons, List.sum_cons, Option.getD_some, List.length_take,
          List.length_drop]
        omega
  exact ⟨fun h => (hread _ _ _ h).1, fun h => (hread _ _ _ h).2⟩

def broken : script.State := [some (bytes "abc"), none]

theorem copy_survives_script :
    (Survives appendBlock (fun n => uMd5io n (ioCreate (d := script) [some (bytes "abc")] []))
      (ioCreate (d := script) [some (bytes "abc")] []) md5Init ↔
      ¬ Fails script [some (bytes "abc")] 0) ∧
    (Survives writeBlock (fun n => fsServe n (ioCreate broken []) (ioCreate (d := fifo) [] []))
      (ioCreate broken [])
      (ioCreate (d := fifo) [] []) ↔ ¬ Fails script broken 0) :=
  ⟨(copy_survives_iff script_finite [some (bytes "abc")]).1,
    (copy_survives_iff script_finite broken).2.1 (ioCreate (d := fifo) [] [])
      (write_takes fifo_accepts) (ioCreate_plain _)⟩

/-- The error comes to `md5_append` and `io_write` as a length. -/
theorem read_error_overruns :
    ¬ Survives appendBlock (fun n => uMd5io n (ioCreate broken [])) (ioCreate broken []) md5Init ∧
      ¬ Survives writeBlock (fun n => fsServe n (ioCreate broken []) (ioCreate (d := fifo) [] []))
        (ioCreate broken [])
        (ioCreate (d := fifo) [] []) := by
  have hread : (script.read broken IO_RD_BUFSZ).2 = some (bytes "abc") := rfl
  have hfails : Fails script broken 0 := .more hread (by decide) (.now rfl)
  refine ⟨fun h => ?_, fun h => ?_⟩
  · exact (append_takes.survives_iff script_finite append_careless trivial broken).mp h hfails
  · exact ((write_takes fifo_accepts).survives_iff script_finite write_careless (ioCreate_plain _)
      broken).mp h hfails

end Klone.Chain
