import Klone.Io.ChainContract
import Klone.Io.Stream

/-! # Writing through a chain

Bytes given to `io_write` are in the codecs, in the write buffer or at the device.
Whatever the calls, the device and the write buffer together have what the chain
has stored, and after the chain has been flushed this is all of its output.
-/
namespace Klone.Chain
open Loop

variable {d : Device} {received : d.State → Str}

/-- The device takes some of the bytes it is offered, in order. -/
def Accepts (d : Device) (received : d.State → Str) : Prop :=
  ∀ s bs, bs ≠ [] → ∃ k, (d.write s bs).2 = some k ∧ 0 < k ∧ k ≤ bs.length ∧
    received (d.write s bs).1 = received s ++ bs.take k

structure Io.WriteOk (io : Io d) : Prop where
  fits : io.wcount ≤ IO_WR_BUFSZ
  size : ∀ mem, io.wbuf = some mem → mem.length = IO_WR_BUFSZ
  null : io.wbuf = none → io.wcount = 0

def Io.sent (received : d.State → Str) (io : Io d) : Str := received io.dev ++ io.buffered

/-! ## The write buffer -/

theorem flushStep_ends (hd : Accepts d received) (io : Io d) {off : ℕ} {mem : Str}
    (hw : io.wbuf = some mem) (hfit : off + io.wcount ≤ mem.length) (hc : io.wcount ≠ 0) :
    ∃ dev' c, flushStep (io, off) = .again ({ io with
      dev := dev', wcount := io.wcount - (c + 1) }, off + (c + 1)) ∧
      c + 1 ≤ io.wcount ∧
      received dev' ++ window mem (off + (c + 1)) (io.wcount - (c + 1)) =
        received io.dev ++ window mem off io.wcount := by
  have hlen := length_window hfit
  have hne : window mem off io.wcount ≠ [] := by
    intro he
    rw [he] at hlen
    exact hc hlen.symm
  obtain ⟨k, hret, hpos, hle, hrec⟩ := hd io.dev _ hne
  obtain ⟨c, rfl⟩ : ∃ c, k = c + 1 := ⟨k - 1, by omega⟩
  refine ⟨(d.write io.dev (window mem off io.wcount)).1, c, ?_, by omega, ?_⟩
  · unfold flushStep
    dsimp only
    rw [if_neg hc, hw, Option.getD_some, hret]
  · rw [hrec, List.append_assoc, window_drop, List.take_append_drop]

theorem ioFlush_ends (hd : Accepts d received) {io : Io d} (h : io.WriteOk) :
    ∃ dev', Ends (fun n => ioFlush n io) ({ io with dev := dev', wcount := 0 }, true) ∧
      received dev' = io.sent received := by
  have hrun := ends_run (fun _ s => some (flushStep s))
    (I := fun m s => ∃ dev' w off, s = ({ io with dev := dev', wcount := w }, off) ∧ w ≤ m ∧
      (w = 0 ∨ ∃ mem, io.wbuf = some mem ∧ off + w ≤ mem.length) ∧
      received dev' ++ window (io.wbuf.getD []) off w = io.sent received)
    (Q := fun r => ∃ dev', r = ({ io with
      dev := dev', wcount := 0 }, true) ∧ received dev' = io.sent received)
    (m := io.wcount) (s := (io, 0))
    (fun m s => by
      rintro ⟨dev', w, off, rfl, hm, hfit, hsent⟩
      by_cases hz : w = 0
      · subst hz
        rw [window_zero, List.append_nil] at hsent
        exact Or.inr ⟨_, Ends.const _, dev', rfl, hsent⟩
      · obtain ⟨mem, hw, hfit⟩ := hfit.resolve_left hz
        obtain ⟨dev'', c, he, hle, hrec⟩ :=
          flushStep_ends hd { io with dev := dev', wcount := w } hw hfit hz
        have hle : c + 1 ≤ w := hle
        refine Or.inl ⟨_, w - (c + 1),
          he ▸ Ends.const _, by omega, dev'', w - (c + 1), off + (c + 1), rfl, le_refl _,
          ?_, ?_⟩
        · exact Or.inr ⟨mem, hw, by omega⟩
        · rw [hw, Option.getD_some] at hsent ⊢
          exact hrec.trans hsent)
    ⟨io.dev, io.wcount, 0, rfl, le_refl _, by
      cases hw : io.wbuf with
      | none => exact Or.inl (h.null hw)
      | some mem => exact Or.inr ⟨mem, rfl, by rw [h.size mem hw, Nat.zero_add]; exact h.fits⟩, rfl⟩
  obtain ⟨r, ⟨dev', rfl, hrec⟩, hends⟩ := hrun
  exact ⟨dev', hends, hrec⟩

/-- There is room in the write buffer and the bytes that have left the codecs are the same. -/
theorem makeRoom_ends (hd : Accepts d received) {io : Io d} (h : io.WriteOk) :
    ∃ io', Ends (fun n => makeRoom n io) (io', true) ∧ io'.WriteOk ∧ io'.wcount < IO_WR_BUFSZ ∧
      io'.sent received = io.sent received ∧ io'.codecChain = io.codecChain ∧
      io'.wbuf = io.wbuf := by
  unfold makeRoom
  by_cases hf : io.wcount = IO_WR_BUFSZ
  · simp only [if_pos hf]
    obtain ⟨dev', hends, hrec⟩ := ioFlush_ends hd h
    refine ⟨_, hends, ⟨Nat.zero_le _, h.size, fun _ => rfl⟩,
      Nat.zero_lt_of_lt (by decide : 0 < IO_WR_BUFSZ), ?_, rfl, rfl⟩
    change received dev' ++ window _ 0 0 = _
    rw [window_zero, List.append_nil, hrec]
  · simp only [if_neg hf]
    exact ⟨io, Ends.const _, h, lt_of_le_of_ne h.fits hf, rfl, rfl, rfl⟩

theorem Io.WriteOk.put {io : Io d} (h : io.WriteOk) (received : d.State → Str) (hw : io.wbuf ≠ none)
    {bs : Str} (hbs : bs.length ≤ IO_WR_BUFSZ - io.wcount) :
    (io.put bs).WriteOk ∧ (io.put bs).sent received = io.sent received ++ bs := by
  obtain ⟨mem, hmem⟩ := Option.ne_none_iff_exists'.mp hw
  have hsize := h.size mem hmem
  have hfits := h.fits
  have hput : (io.put bs).wbuf = some (blit mem io.wcount bs) := by
    change io.wbuf.map (blit · io.wcount bs) = _
    rw [hmem]
    rfl
  refine ⟨⟨?_, ?_, ?_⟩, ?_⟩
  · change io.wcount + bs.length ≤ IO_WR_BUFSZ
    omega
  · intro mem' hm
    obtain rfl := Option.some.inj (hput.symm.trans hm)
    rw [length_blit (by omega), hsize]
  · intro hn
    rw [hput] at hn
    cases hn
  · have hb : window (blit mem (0 + io.wcount) bs) 0 (io.wcount + bs.length) =
        window mem 0 io.wcount ++ bs.take bs.length := window_blit (by omega) (le_refl _)
    rw [Nat.zero_add, List.take_length] at hb
    unfold Io.sent Io.buffered
    rw [hput, hmem, List.append_assoc]
    exact congrArg (received io.dev ++ ·) hb

theorem Io.put_wbuf {io : Io d} (hw : io.wbuf ≠ none) (bs : Str) : (io.put bs).wbuf ≠ none := by
  obtain ⟨mem, hmem⟩ := Option.ne_none_iff_exists'.mp hw
  change io.wbuf.map _ ≠ none
  rw [hmem]
  exact Option.some_ne_none _

/-! ## `io_write` -/

structure Writing (received : d.State → Str) (q : Tail) (total : Str) (results : List Str)
    (pre inp : Str) (io : Io d) : Prop where
  ok : io.WriteOk
  chain : ∃ out, Feeding q io.codecChain total results inp out ∧ io.sent received = pre ++ out

variable {q : Tail} {total : Str} {results : List Str} {pre inp : Str}

/-- A round of `io_write` takes input or stores output. -/
theorem writeBody_moves (hd : Accepts d received) {io : Io d} {out buf : Str} (hio : io.WriteOk)
    (hw : io.wbuf ≠ none) (hbuf : buf ≠ []) (htotal : inp ++ buf <+: total)
    (hf : Feeding q io.codecChain total results inp out)
    (hs : io.sent received = pre ++ out) :
    ∃ io' k o, Ends (fun n => writeBody n (io, buf)) (.again (io', buf.drop k)) ∧ k ≤ buf.length ∧
      (0 < k ∨ o ≠ []) ∧ io'.WriteOk ∧ io'.wbuf ≠ none ∧
      Feeding q io'.codecChain total results (inp ++ buf.take k) (out ++ o) ∧
      io'.sent received = pre ++ (out ++ o) := by
  obtain ⟨io₁, hroom, hok, hlt, hsent, hchain, hbufeq⟩ := makeRoom_ends hd hio
  rw [← hchain] at hf
  obtain ⟨t, k, ht, hm⟩ := ioTransfer_moves (Nat.sub_pos_of_lt hlt) (Nat.sub_le _ _) hbuf htotal hf
  have hw₁ : io₁.wbuf ≠ none := hbufeq ▸ hw
  have hok₂ : (io₁.setChain t.links).WriteOk := ⟨hok.fits, hok.size, hok.null⟩
  obtain ⟨hput, hsent'⟩ := hok₂.put received hw₁ hm.stored
  have hstep : writeStep io₁ buf t =
      .again ((io₁.setChain t.links).put t.out, buf.drop k) := by
    have hnone := not_idle hm.progress
    unfold writeStep
    dsimp only
    rw [hm.ret]
    exact if_neg hnone
  refine ⟨(io₁.setChain t.links).put t.out, k, t.out, ?_, hm.taken, hm.progress, hput,
    Io.put_wbuf hw₁ _, hm.feeding, ?_⟩
  · rw [← hstep]
    unfold writeBody
    simp only [if_neg hbuf]
    exact hroom.bind (g := fun n => writeRoomed n buf) (ht.map (writeStep io₁ buf))
  · rw [hsent', ← List.append_assoc, ← hs, ← hsent]
    rfl

theorem ioWbufAlloc_writing {io : Io d} (h : Writing received q total results pre inp io)
    (hw : io.wbuf = none) :
    Writing received q total results pre inp (ioWbufAlloc io) := by
  obtain ⟨out, hf, hs⟩ := h.chain
  have hz := h.ok.null hw
  refine ⟨⟨h.ok.fits, ?_, fun _ => hz⟩, out, hf, ?_⟩
  · intro mem hm
    obtain rfl := Option.some.inj hm
    exact List.length_replicate
  · rw [← hs]
    unfold Io.sent Io.buffered ioWbufAlloc
    dsimp only
    rw [hz, window_zero, window_zero]

/-- The write buffer is there after the first lines of `io_write`. -/
theorem writing_alloc {io : Io d} (h : Writing received q total results pre inp io) :
    Writing received q total results pre inp (if io.wbuf = none then ioWbufAlloc io else io) ∧
      (if io.wbuf = none then ioWbufAlloc io else io).wbuf ≠ none := by
  by_cases hw : io.wbuf = none
  · rw [if_pos hw]
    exact ⟨ioWbufAlloc_writing h hw, Option.some_ne_none _⟩
  · rw [if_neg hw]
    exact ⟨h, hw⟩

theorem ioWrite_ends (hd : Accepts d received) {io : Io d}
    (h : Writing received q total results pre inp io) {buf : Str} (htotal : inp ++ buf <+: total) :
    ∃ io', Ends (fun n => ioWrite n io buf) (io', some buf.length) ∧ io'.wbuf ≠ none ∧
      Writing received q total results pre (inp ++ buf) io' := by
  obtain ⟨⟨hok, out, hf, hs⟩, hw⟩ := writing_alloc h
  have hrun := ends_run (fun n => writeBody n)
    (I := fun m s => s.1.WriteOk ∧ s.1.wbuf ≠ none ∧ ∃ got out, got ++ s.2 = inp ++ buf ∧
      Feeding q s.1.codecChain total results got out ∧ s.1.sent received = pre ++ out ∧
      s.2.length + ((results.getLastD total).length - out.length) ≤ m)
    (Q := fun r => r.2 = true ∧ r.1.wbuf ≠ none ∧
      Writing received q total results pre (inp ++ buf) r.1)
    (s := (if io.wbuf = none then ioWbufAlloc io else io, buf))
    (fun m s => by
      obtain ⟨io, rem⟩ := s
      rintro ⟨hok, hw, got, out, htot, hf, hs, hm⟩
      dsimp only at htot hm
      by_cases hrem : rem = []
      · subst hrem
        rw [List.append_nil] at htot
        subst htot
        refine Or.inr ⟨(io, true), ?_, rfl, hw, hok, out, hf, hs⟩
        unfold writeBody
        simp only [if_pos]
        exact Ends.const _
      · obtain ⟨io', k, o, hends, hk, hprog, hok', hw', hf', hs'⟩ := writeBody_moves hd hok hw hrem
          (htot ▸ htotal) hf hs
        have htot' : (got ++ rem.take k) ++ rem.drop k = inp ++ buf := by
          rw [List.append_assoc, List.take_append_drop, htot]
        have hle := hf'.begins.length_le
        refine Or.inl ⟨_, _, hends, ?_, hok', hw', _, _, htot', hf', hs', le_refl _⟩
        rw [List.length_append] at hle ⊢
        have hlen : (rem.drop k).length = rem.length - k := List.length_drop
        rw [hlen]
        rcases hprog with hpos | hne
        · omega
        · have hpos := List.length_pos_iff.mpr hne
          omega)
    ⟨hok, hw, inp, out, rfl, hf, hs, le_refl _⟩
  obtain ⟨⟨io', ok⟩, ⟨rfl, hw', hwr⟩, hends⟩ := hrun
  exact ⟨io', hends.map _, hw', hwr⟩

/-! ## Flushing the chain -/

theorem copyBody_moves (hd : Accepts d received) {io : Io d} (hio : io.WriteOk)
    (hw : io.wbuf ≠ none) {bs : Str} (hbs : bs ≠ []) :
    ∃ io' k, Ends (fun n => copyBody n (io, bs)) (.again (io', bs.drop k)) ∧ 0 < k ∧ k ≤ bs.length ∧
    io'.WriteOk ∧
      io'.wbuf ≠ none ∧ io'.codecChain = io.codecChain ∧
      io'.sent received = io.sent received ++ bs.take k := by
  obtain ⟨io₁, hroom, hok, hlt, hsent, hchain, hbuf⟩ := makeRoom_ends hd hio
  have hpos := List.length_pos_iff.mpr hbs
  have hlen : (bs.take (min bs.length (IO_WR_BUFSZ - io₁.wcount))).length ≤
      IO_WR_BUFSZ - io₁.wcount := by
    rw [List.length_take]
    omega
  have hw₁ : io₁.wbuf ≠ none := hbuf ▸ hw
  obtain ⟨hput, hsent'⟩ := hok.put received hw₁ hlen
  refine ⟨_, min bs.length (IO_WR_BUFSZ - io₁.wcount),
    ?_, by omega, by omega, hput, Io.put_wbuf hw₁ _, hchain, ?_⟩
  · unfold copyBody
    simp only [if_neg hbs]
    exact hroom.map _
  · rw [hsent', hsent]

theorem copyBody_ends (hd : Accepts d received) {io : Io d} (hio : io.WriteOk) (hw : io.wbuf ≠ none)
    (bs : Str) :
    ∃ io', Ends (fun n => run (copyBody n) n (io, bs)) (io', true) ∧ io'.WriteOk ∧ io'.wbuf ≠ none ∧
      io'.codecChain = io.codecChain ∧ io'.sent received = io.sent received ++ bs := by
  have hrun := ends_run (fun n => copyBody n)
    (I := fun m s => s.1.WriteOk ∧ s.1.wbuf ≠ none ∧ s.1.codecChain = io.codecChain ∧
      s.1.sent received ++ s.2 = io.sent received ++ bs ∧ s.2.length ≤ m)
    (Q := fun r => r.2 = true ∧ r.1.WriteOk ∧ r.1.wbuf ≠ none ∧ r.1.codecChain = io.codecChain ∧
      r.1.sent received = io.sent received ++ bs)
    (s := (io, bs))
    (fun m s => by
      obtain ⟨io₁, rem⟩ := s
      rintro ⟨hok, hw, hchain, hsent, hm⟩
      dsimp only at hchain hsent hm
      by_cases hrem : rem = []
      · subst hrem
        rw [List.append_nil] at hsent
        refine Or.inr ⟨(io₁, true), ?_, rfl, hok, hw, hchain, hsent⟩
        unfold copyBody
        simp only [if_pos]
        exact Ends.const _
      · obtain ⟨io', k, hends, hpos, hk, hok', hw', hchain', hsent'⟩ :=
          copyBody_moves hd hok hw hrem
        refine Or.inl ⟨_, (rem.drop k).length, hends, ?_, hok', hw', hchain'.trans hchain,
          ?_, le_refl _⟩
        · rw [List.length_drop]
          omega
        · rw [hsent', List.append_assoc, List.take_append_drop, hsent])
    ⟨hio, hw, rfl, rfl, le_refl _⟩
  obtain ⟨⟨io', ok⟩, ⟨rfl, hok, hw', hchain, hsent⟩, hends⟩ := hrun
  exact ⟨io', hends, hok, hw', hchain, hsent⟩

/-- A round of `io_chain_flush` is the last one, or the chain has stored something. -/
theorem chainFlushBody_moves (hd : Accepts d received) {io : Io d} {out : Str} (hio : io.WriteOk)
    (hw : io.wbuf ≠ none) (he : Emptying q io.codecChain total results out)
    (hs : io.sent received = pre ++ out) :
    (∃ io' o, Ends (fun n => chainFlushBody n io) (.again io') ∧ o ≠ [] ∧ io'.WriteOk ∧
      io'.wbuf ≠ none ∧
        Emptying q io'.codecChain total results (out ++ o) ∧
        io'.sent received = pre ++ (out ++ o)) ∨
      ∃ io', Ends (fun n => chainFlushBody n io) (.leave (io', true)) ∧ io'.WriteOk ∧
        io'.sent received = pre ++ results.getLastD total := by
  obtain ⟨r, hr, hdone⟩ := ioChainFlushChunk_ends (by decide : 0 < 4096) le_rfl he
  have hok' : (io.setChain r.links).WriteOk := ⟨hio.fits, hio.size, hio.null⟩
  rcases hdone with ⟨hret, hall, -, -, -⟩ | ⟨hret, hcount, hne, hlen, he'⟩
  · refine Or.inr ⟨io.setChain r.links, ?_, hok', ?_⟩
    · apply hr.bind (g := fun n => chainFlushed n io)
      unfold chainFlushed
      rw [hret]
      exact Ends.const _
    · rw [← hall, ← hs]
      rfl
  · obtain ⟨io', hcopy, hok'', hw', hchain, hsent⟩ := copyBody_ends hd hok' hw r.out
    refine Or.inl ⟨io', r.out, ?_, hne, hok'', hw', hchain ▸ he', ?_⟩
    · have hbuf : window (blit (List.replicate 4096 0) 0 r.out) 0 r.dcount = r.out := by
        rw [hcount]
        apply window_blit_start
        rw [List.length_replicate]
        exact hlen
      apply hr.bind (g := fun n => chainFlushed n io)
      unfold chainFlushed
      rw [hret]
      dsimp only
      rw [hbuf]
      exact hcopy.map _
    · rw [hsent, ← List.append_assoc, ← hs]
      rfl

theorem ioChainFlush_ends (hd : Accepts d received) {io : Io d}
    (h : Writing received q total results pre total io) (hw : io.wbuf ≠ none) :
    ∃ io', Ends (fun n => ioChainFlush n io) (io', true) ∧ io'.WriteOk ∧
      io'.sent received = pre ++ results.getLastD total := by
  obtain ⟨hok, out, hf, hs⟩ := h
  have hrun := ends_run (fun n => chainFlushBody n)
    (I := fun m s => s.WriteOk ∧ s.wbuf ≠ none ∧ ∃ out, Emptying q s.codecChain total results out ∧
      s.sent received = pre ++ out ∧ (results.getLastD total).length - out.length ≤ m)
    (Q := fun r => r.2 = true ∧ r.1.WriteOk ∧ r.1.sent received = pre ++ results.getLastD total)
    (s := io)
    (fun m s => by
      rintro ⟨hok, hw, out, he, hs, hm⟩
      rcases chainFlushBody_moves hd hok hw he hs with
        ⟨io', o, hends, hne, hok', hw', he', hs'⟩ | ⟨io', hends, hok', hs'⟩
      · refine Or.inl ⟨io', (results.getLastD total).length - (out ++ o).length, hends, ?_, hok',
          hw', _, he', hs', le_refl _⟩
        have hle := he'.begins.length_le
        have hpos := List.length_pos_iff.mpr hne
        rw [List.length_append] at hle ⊢
        omega
      · exact Or.inr ⟨(io', true), hends, rfl, hok', hs'⟩)
    ⟨hok, hw, out, hf.emptying, hs, le_refl _⟩
  obtain ⟨⟨io', ok⟩, ⟨rfl, hok', hs'⟩, hends⟩ := hrun
  exact ⟨io', hends, hok', hs'⟩

theorem ioCodecsRemove_ends (hd : Accepts d received) {io : Io d}
    (h : Writing received q total results pre total io) (hw : io.wbuf ≠ none) :
    ∃ io', Ends (fun n => ioCodecsRemove n io) (io', true) ∧ io'.WriteOk ∧ io'.codecChain = [] ∧
      io'.sent received = pre ++ results.getLastD total := by
  have hchain : ¬ io.codecChain.isEmpty = true := by
    intro he
    obtain ⟨out, hf, -⟩ := h.chain
    rw [List.isEmpty_iff.mp he] at hf
    cases hf
  obtain ⟨io', hends, hok, hs⟩ := ioChainFlush_ends hd h hw
  refine ⟨io'.setChain [], ?_, ⟨hok.fits, hok.size, hok.null⟩, rfl, hs⟩
  unfold ioCodecsRemove
  simp only [if_neg hchain, if_pos (Option.isSome_iff_ne_none.mpr hw)]
  exact hends.map _

/-! ## Sessions -/

inductive WriteOp where
  | write (buf : Str)
  | flush

def written : List WriteOp → Str
  | [] => []
  | .write buf :: ops => buf ++ written ops
  | .flush :: ops => written ops

def writeOp (n : ℕ) (io : Io d) : WriteOp → Option (Io d × Bool)
  | .write buf => (ioWrite n io buf).map fun r => (r.1, decide (r.2 = some buf.length))
  | .flush => ioFlush n io

/-- Calls one after the other, up to the first that fails. -/
def writeOps (n : ℕ) : List WriteOp → Io d → Option (Io d × Bool)
  | [], io => some (io, true)
  | op :: ops, io => (writeOp n io op).bind fun r => if r.2 then writeOps n ops r.1 else some r

def writeSession (n : ℕ) (ops : List WriteOp) (io : Io d) : Option (Io d × Bool) :=
  (writeOps n ops io).bind fun w =>
    (ioCodecsRemove n w.1).bind fun r => (ioFlush n r.1).map fun f => (f.1, w.2 && r.2 && f.2)

theorem writeOp_ends (hd : Accepts d received) {io : Io d}
    (h : Writing received q total results pre inp io) {op : WriteOp}
    (htotal : inp ++ written [op] <+: total) :
    ∃ io', Ends (fun n => writeOp n io op) (io', true) ∧
    Writing received q total results pre (inp ++ written [op]) io' ∧
      ((∃ buf, op = .write buf) ∨ io.wbuf ≠ none → io'.wbuf ≠ none) := by
  cases op with
  | write buf =>
    rw [written, written, List.append_nil] at htotal ⊢
    obtain ⟨io', hends, hw, hwr⟩ := ioWrite_ends hd h htotal
    refine ⟨io', ?_, hwr, fun _ => hw⟩
    have hmap := hends.map fun r => (r.1, decide (r.2 = some buf.length))
    rw [decide_eq_true rfl] at hmap
    exact hmap
  | flush =>
    obtain ⟨dev', hends, hrec⟩ := ioFlush_ends hd h.ok
    obtain ⟨out, hf, hs⟩ := h.chain
    refine ⟨_, hends, ⟨⟨Nat.zero_le _, h.ok.size, fun _ => rfl⟩, out, ?_, ?_⟩, ?_⟩
    · rw [written, written, List.append_nil]
      exact hf
    · rw [← hs, ← hrec]
      exact List.append_nil _
    · rintro (⟨buf, he⟩ | hw)
      · cases he
      · exact hw

theorem written_cons (op : WriteOp) (ops : List WriteOp) :
    written (op :: ops) = written [op] ++ written ops := by
  cases op with
  | write buf => simp [written]
  | flush => simp [written]

theorem writeOps_ends (hd : Accepts d received) {io : Io d}
    (h : Writing received q total results pre inp io) {ops : List WriteOp}
    (htotal : inp ++ written ops <+: total) :
    ∃ io', Ends (fun n => writeOps n ops io) (io', true) ∧
    Writing received q total results pre (inp ++ written ops) io' ∧
      ((∃ buf, WriteOp.write buf ∈ ops) ∨ io.wbuf ≠ none → io'.wbuf ≠ none) := by
  induction ops generalizing io inp with
  | nil =>
    refine ⟨io, Ends.const _, ?_, ?_⟩
    · rw [written, List.append_nil]
      exact h
    · rintro (⟨buf, hm⟩ | hw)
      · exact absurd hm List.not_mem_nil
      · exact hw
  | cons op ops ih =>
    rw [written_cons, ← List.append_assoc] at htotal
    obtain ⟨io₁, hends, hwr, hw⟩ := writeOp_ends hd h ((List.prefix_append _ _).trans htotal)
    obtain ⟨io', hends', hwr', hw'⟩ := ih hwr htotal
    refine ⟨io', ?_, ?_, ?_⟩
    · exact hends.bind (g := fun n r => if r.2 then writeOps n ops r.1 else some r) hends'
    · rw [written_cons, ← List.append_assoc]
      exact hwr'
    · rintro (⟨buf, hm⟩ | hnull)
      · rcases List.mem_cons.mp hm with he | hm
        · exact hw' (Or.inr (hw (Or.inl ⟨buf, he.symm⟩)))
        · exact hw' (Or.inl ⟨buf, hm⟩)
      · exact hw' (Or.inr (hw (Or.inr hnull)))

/-- The device has received the output of the chain for all that was written. -/
theorem writeSession_ends (hd : Accepts d received) {io : Io d} {ops : List WriteOp}
    (h : Writing received q (written ops) results pre [] io)
    (hops : ∃ buf, WriteOp.write buf ∈ ops) :
    ∃ io', Ends (fun n => writeSession n ops io) (io', true) ∧
      received io'.dev = pre ++ results.getLastD (written ops) := by
  obtain ⟨io₁, hends, hwr, hw⟩ := writeOps_ends hd h List.prefix_rfl
  rw [List.nil_append] at hwr
  obtain ⟨io₂, hends₂, hok, -, hs⟩ := ioCodecsRemove_ends hd hwr (hw (Or.inl hops))
  obtain ⟨dev', hends₃, hrec⟩ := ioFlush_ends hd hok
  refine ⟨{ io₂ with dev := dev', wcount := 0 }, ?_, hrec.trans hs⟩
  have hlast := hends₃.map fun f => (f.1, true && true && f.2)
  have hmid := hends₂.bind
    (g := fun n r => (ioFlush n r.1).map fun f => (f.1, true && r.2 && f.2)) hlast
  exact hends.bind (g := fun n w => (ioCodecsRemove n w.1).bind fun r =>
    (ioFlush n r.1).map fun f => (f.1, w.2 && r.2 && f.2)) hmid

end Klone.Chain
