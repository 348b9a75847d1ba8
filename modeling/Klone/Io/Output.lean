import Klone.Io.Composition

/-! # Output to a device that may fail

A stream without codecs over a device that takes any part of what it is offered,
takes nothing, or reports an error. `io_flush` moves along the write buffer while
the device takes bytes, but leaves what remains where it is: after a flush that the
device stops half way the buffer no longer starts with the next bytes to send.
-/
namespace Klone.Chain
open Loop

variable {d : Device} {received : d.State → Str}

/-- The device takes a beginning of the bytes it is offered, or fails and takes nothing. -/
structure Partial (d : Device) (received : d.State → Str) : Prop where
  taken : ∀ {s bs k}, (d.write s bs).2 = some k → k ≤ bs.length ∧
    received (d.write s bs).1 = received s ++ bs.take k
  failed : ∀ {s bs}, (d.write s bs).2 = none → received (d.write s bs).1 = received s

/-- The device takes all of the bytes when it is offered the rest again and again. -/
inductive Takes (d : Device) : d.State → Str → Prop
  | nil (s : d.State) : Takes d s []
  | more {s : d.State} {bs : Str} {k : ℕ} : bs ≠ [] → (d.write s bs).2 = some (k + 1) →
    Takes d (d.write s bs).1 (bs.drop (k + 1)) → Takes d s bs

/-- The device takes nothing of the bytes, with or without an error. -/
def Refuses (d : Device) (s : d.State) (bs : Str) : Prop :=
  (d.write s bs).2 = none ∨ (d.write s bs).2 = some 0

def Settles (d : Device) (s : d.State) (bs : Str) : Prop := Takes d s bs ∨ Refuses d s bs

theorem Io.WriteOk.buffered_length {io : Io d} (h : io.WriteOk) :
    io.buffered.length = io.wcount := by
  cases hw : io.wbuf with
  | none =>
    rw [Io.buffered, h.null hw, window_zero]
    rfl
  | some mem =>
    apply length_window
    rw [hw, Option.getD_some, h.size mem hw, Nat.zero_add]
    exact h.fits

/-! ## `io_flush` -/

theorem Takes.ends (hd : Partial d received) {dev : d.State} {bs : Str} (h : Takes d dev bs)
    {io : Io d} {mem : Str} (hw : io.wbuf = some mem) {off w : ℕ} (hfit : off + w ≤ mem.length)
    (hbs : window mem off w = bs) :
    ∃ dev', Ends (fun n => run (fun s => some (flushStep s)) n ({ io with
      dev := dev, wcount := w }, off))
      ({ io with dev := dev', wcount := 0 }, true) ∧ received dev' = received dev ++ bs := by
  have hlen := length_window hfit
  rw [hbs] at hlen
  induction h generalizing off w with
  | nil s =>
    obtain rfl : w = 0 := hlen.symm
    exact ⟨s, ends_leave (by simp [flushStep]), by simp⟩
  | @more s bs k hne hret _ ih =>
    have hz : w ≠ 0 := by
      intro hz
      exact hne (List.length_eq_zero_iff.mp (hlen.trans hz))
    obtain ⟨hle, hrec⟩ := hd.taken hret
    have hfit' : off + (k + 1) + (w - (k + 1)) ≤ mem.length := by omega
    obtain ⟨dev', hends, hrec'⟩ :=
      ih hfit' (by rw [window_drop, hbs]) (by rw [List.length_drop, hlen])
    refine ⟨dev', hends.run_again ?_, ?_⟩
    · simp [flushStep, hz, hw, hbs, hret]
    · rw [hrec', hrec, List.append_assoc, List.take_append_drop]

theorem Refuses.ends (hd : Partial d received) {io : Io d} (h : Refuses d io.dev io.buffered)
    (hz : io.wcount ≠ 0) :
    ∃ dev' ok, Ends (fun n => ioFlush n io) (io.setDev dev', ok) ∧
    received dev' = received io.dev := by
  rcases h with h | h
  · refine ⟨_, false, ends_leave ?_, hd.failed h⟩
    rw [Io.buffered] at h ⊢
    simp [flushStep, hz, h]
  · refine ⟨(d.write io.dev io.buffered).1, true, ends_leave ?_, ?_⟩
    · rw [Io.buffered] at h ⊢
      simp [flushStep, hz, h]
    · rw [(hd.taken h).2, List.take_zero, List.append_nil]

structure Io.Plain (io : Io d) : Prop where
  ok : io.WriteOk
  chain : io.codecChain = []

/-- A flush that settles empties the write buffer or leaves it, and loses nothing. -/
theorem ioFlush_settles (hd : Partial d received) {io : Io d} (h : io.Plain)
    (hs : Settles d io.dev io.buffered) :
    ∃ io' ok, Ends (fun n => ioFlush n io) (io', ok) ∧ io'.Plain ∧ io'.wbuf = io.wbuf ∧
      io'.sent received = io.sent received := by
  by_cases hz : io.wcount = 0
  · exact ⟨io, true, ends_leave (by simp [flushStep, hz]), h, rfl, rfl⟩
  rcases hs with hs | hs
  · cases hw : io.wbuf with
    | none => exact absurd (h.ok.null hw) hz
    | some mem =>
      have hb : window mem 0 io.wcount = io.buffered := by rw [Io.buffered, hw, Option.getD_some]
      have hfit : 0 + io.wcount ≤ mem.length := by
        rw [Nat.zero_add, h.ok.size mem hw]
        exact h.ok.fits
      obtain ⟨dev', hends, hrec⟩ := hs.ends hd hw hfit hb
      refine ⟨_, true, hends, ⟨⟨Nat.zero_le _, h.ok.size, fun _ => rfl⟩, h.chain⟩, hw, ?_⟩
      change received dev' ++ window _ 0 0 = _
      rw [window_zero, List.append_nil, hrec]
      rfl
  · obtain ⟨dev', ok, hends, hrec⟩ := hs.ends hd hz
    refine ⟨_, ok, hends, ⟨⟨h.ok.fits, h.ok.size, h.ok.null⟩, h.chain⟩, rfl, ?_⟩
    change received dev' ++ io.buffered = _
    rw [hrec]
    rfl

/-! ## `io_write` -/

theorem makeRoom_settles (hd : Partial d received) {io : Io d} (h : io.Plain)
    (hs : io.wcount = IO_WR_BUFSZ → Settles d io.dev io.buffered) :
    ∃ io' ok, Ends (fun n => makeRoom n io) (io', ok) ∧ io'.Plain ∧ io'.wbuf = io.wbuf ∧
      io'.sent received = io.sent received := by
  unfold makeRoom
  by_cases hf : io.wcount = IO_WR_BUFSZ
  · simp only [if_pos hf]
    exact ioFlush_settles hd h (hs hf)
  · simp only [if_neg hf]
    exact ⟨io, true, Ends.const _, h, rfl, rfl⟩

/-- What a round of `io_write` leaves behind when it has taken `used` of its bytes. -/
structure Kept (received : d.State → Str) (io : Io d) (used : Str) (io' : Io d) : Prop where
  plain : io'.Plain
  wbuf : io'.wbuf ≠ none
  sent : io'.sent received = io.sent received ++ used

theorem Kept.trans {io io' io'' : Io d} {u v : Str} (h : Kept received io u io')
    (h' : Kept received io' v io'') :
    Kept received io (u ++ v) io'' :=
  ⟨h'.plain, h'.wbuf, by rw [h'.sent, h.sent, List.append_assoc]⟩

theorem Io.Plain.setChain {io : Io d} (h : io.Plain) : io.setChain [] = io := by
  rw [← h.chain]
  rfl

theorem writeRoomed_plain {io : Io d} (h : io.Plain) (n : ℕ) (buf : Str) :
    writeRoomed n buf (io, true) = some (writeStep io buf
      ⟨[], some (min buf.length (IO_WR_BUFSZ - io.wcount)),
        buf.take (IO_WR_BUFSZ - io.wcount)⟩) := by
  simp [writeRoomed, ioTransfer, h.chain]

theorem writeBody_bind {buf : Str} (hbuf : buf ≠ []) (io : Io d) :
    (fun n => writeBody n (io, buf)) = fun n => (makeRoom n io).bind (writeRoomed n buf) := by
  funext n
  exact if_neg hbuf

/-- With room in the write buffer a round takes some bytes. -/
theorem writeBody_takes (received : d.State → Str) {io io₁ : Io d}
    (hroom : Ends (fun n => makeRoom n io) (io₁, true)) (h₁ : io₁.Plain) (hw₁ : io₁.wbuf ≠ none)
    {buf : Str} (hbuf : buf ≠ []) (hfree : io₁.wcount < IO_WR_BUFSZ) :
    ∃ io' k, Ends (fun n => writeBody n (io, buf)) (.again (io', buf.drop (k + 1))) ∧
    k + 1 ≤ buf.length ∧
      Kept received io₁ (buf.take (k + 1)) io' ∧ io'.dev = io₁.dev := by
  have hpos := List.length_pos_iff.mpr hbuf
  obtain ⟨k, hk⟩ : ∃ k, min buf.length (IO_WR_BUFSZ - io₁.wcount) = k + 1 :=
    ⟨min buf.length (IO_WR_BUFSZ - io₁.wcount) - 1, by omega⟩
  have htake : buf.take (IO_WR_BUFSZ - io₁.wcount) = buf.take (k + 1) := by
    rw [← hk, Nat.min_comm, List.take_eq_take_min]
  have hfits : (buf.take (k + 1)).length ≤ IO_WR_BUFSZ - io₁.wcount := by
    rw [List.length_take]
    omega
  obtain ⟨hok, hput⟩ := h₁.ok.put received hw₁ hfits
  refine ⟨io₁.put (buf.take (k + 1)), k,
    ?_, by omega, ⟨⟨hok, h₁.chain⟩, Io.put_wbuf hw₁ _, hput⟩, rfl⟩
  rw [writeBody_bind hbuf]
  apply hroom.bind
  simp only [writeRoomed_plain h₁, htake, hk]
  simp only [writeStep, h₁.setChain, Nat.add_eq_zero_iff, one_ne_zero, and_false,
    false_and, if_false]
  exact Ends.const _

/-- Without room in the write buffer a round gives up. -/
theorem writeBody_gives_up {io io₁ : Io d} (hroom : Ends (fun n => makeRoom n io) (io₁, true))
    (h₁ : io₁.Plain) {buf : Str} (hbuf : buf ≠ []) (hfull : IO_WR_BUFSZ - io₁.wcount = 0) :
    Ends (fun n => writeBody n (io, buf)) (.leave (io₁, false)) := by
  rw [writeBody_bind hbuf]
  apply hroom.bind
  simp only [writeRoomed_plain h₁, hfull]
  simp only [writeStep, h₁.setChain, Nat.min_zero, List.take_zero, and_self, if_true]
  exact Ends.const _

/-- A round of `io_write` takes some bytes or gives up. -/
theorem writeBody_settles (hd : Partial d received) {io : Io d} (h : io.Plain) (hw : io.wbuf ≠ none)
    {buf : Str} (hbuf : buf ≠ []) (hs : io.wcount = IO_WR_BUFSZ → Settles d io.dev io.buffered) :
    (∃ io' k, Ends (fun n => writeBody n (io, buf)) (.again (io', buf.drop (k + 1))) ∧
      k + 1 ≤ buf.length ∧
      Kept received io (buf.take (k + 1)) io') ∨
    ∃ io', Ends (fun n => writeBody n (io, buf)) (.leave (io', false)) ∧
    Kept received io [] io' := by
  obtain ⟨io₁, ok, hroom, h₁, hwbuf, hsent⟩ := makeRoom_settles hd h hs
  have hw₁ : io₁.wbuf ≠ none := by rwa [hwbuf]
  have hkept : Kept received io [] io₁ := ⟨h₁, hw₁, by rw [hsent, List.append_nil]⟩
  by_cases hgo : ok = true ∧ io₁.wcount < IO_WR_BUFSZ
  · obtain ⟨rfl, hfree⟩ := hgo
    obtain ⟨io', k, hends, hle, hk, -⟩ := writeBody_takes received hroom h₁ hw₁ hbuf hfree
    exact Or.inl ⟨io', k, hends, hle, hkept.trans hk⟩
  · refine Or.inr ⟨io₁, ?_, hkept⟩
    cases ok with
    | false =>
      rw [writeBody_bind hbuf]
      exact hroom.bind (Ends.const _)
    | true =>
      have hle := not_and.mp hgo rfl
      exact writeBody_gives_up hroom h₁ hbuf (by omega)

def ioWriteStart (io : Io d) : Io d := if io.wbuf = none then ioWbufAlloc io else io

/-- `io_write` with the bytes that it consumed, which are fewer than it was given when
it fails. -/
def ioWriteLogged (n : ℕ) (io : Io d) (buf : Str) : Option ((Io d × Option ℕ) × Str) :=
  (run (logged (writeBody n)) n (ioWriteStart io, buf)).map fun r =>
    ((r.2.1, if r.2.2 then some buf.length else none), buf.take (buf.length - r.1.2.length))

theorem ioWriteLogged_fst (n : ℕ) (io : Io d) (buf : Str) :
    (ioWriteLogged n io buf).map Prod.fst = ioWrite n io buf := by
  rw [ioWriteLogged, ioWrite, ← run_logged (writeBody n), Option.map_map, Option.map_map]
  rfl

theorem ioWriteStart_dev (io : Io d) : (ioWriteStart io).dev = io.dev := by
  unfold ioWriteStart
  split <;> rfl

theorem ioWriteStart_kept (received : d.State → Str) {io : Io d} (h : io.Plain) :
    Kept received io [] (ioWriteStart io) := by
  unfold ioWriteStart
  split
  · next hw =>
    have hz := h.ok.null hw
    refine ⟨⟨⟨h.ok.fits, ?_, fun hn => by cases hn⟩, h.chain⟩, Option.some_ne_none _, ?_⟩
    · intro mem hm
      obtain rfl := Option.some.inj hm
      exact List.length_replicate
    · change received io.dev ++ window _ 0 io.wcount = received io.dev ++ window _ 0 io.wcount ++ []
      rw [hz, window_zero, window_zero, List.append_nil, List.append_nil]
  · next hw => exact ⟨h, hw, by rw [List.append_nil]⟩

def WriteFlushes (io : Io d) (buf : Str) (io' : Io d) : Prop :=
  io'.wcount = IO_WR_BUFSZ ∧ ∃ rest, rest ≠ [] ∧ Visits writeBody (ioWriteStart io, buf) (io', rest)

theorem writeBody_fits {io : Io d} (h : io.Plain) {buf : Str} (hbuf : buf ≠ [])
    (hfit : io.wcount + buf.length ≤ IO_WR_BUFSZ) (n : ℕ) :
    writeBody n (io, buf) = some (.again (io.put buf, [])) := by
  have hpos := List.length_pos_iff.mpr hbuf
  have hroom : makeRoom n io = some (io, true) := if_neg (by omega)
  have hmin : min buf.length (IO_WR_BUFSZ - io.wcount) = buf.length := by omega
  have htake : buf.take (IO_WR_BUFSZ - io.wcount) = buf := List.take_of_length_le (by omega)
  simp [writeBody, hbuf, hroom, writeRoomed_plain h, hmin, htake, writeStep, h.setChain]

/-- Bytes that fit in the write buffer are written without a flush. -/
theorem writeFlushes_fits {io : Io d} (h : io.Plain) {buf : Str}
    (hfit : io.wcount + buf.length ≤ IO_WR_BUFSZ) (io' : Io d) : ¬ WriteFlushes io buf io' := by
  have hk : Kept (fun _ => []) io [] (ioWriteStart io) := ioWriteStart_kept _ h
  have hcount : (ioWriteStart io).wcount = io.wcount := by
    unfold ioWriteStart
    split <;> rfl
  rintro ⟨hfull, rest, hrest, hv⟩
  have hpos := List.length_pos_iff.mpr hrest
  rcases Relation.ReflTransGen.cases_head hv with heq | ⟨t, hstep, hv⟩
  · obtain ⟨rfl, rfl⟩ := Prod.mk.inj heq
    omega
  by_cases hbuf : buf = []
  · subst hbuf
    cases hstep.unique (Ends.const (Iter.leave (ioWriteStart io, true)))
  obtain rfl := Iter.again.inj
    (hstep.unique ⟨0, fun n _ => writeBody_fits hk.plain hbuf (by omega) n⟩)
  rcases Relation.ReflTransGen.cases_head hv with heq | ⟨t', hstep', -⟩
  · exact hrest (Prod.mk.inj heq).2.symm
  · cases hstep'.unique (Ends.const (Iter.leave (_, true)))

/-- What `io_write` consumes goes behind what was sent before, in order. -/
theorem ioWriteLogged_settles (hd : Partial d received) {io : Io d} (h : io.Plain) (buf : Str)
    (hs : ∀ io', WriteFlushes io buf io' → Settles d io'.dev io'.buffered) :
    ∃ io' ret used, Ends (fun n => ioWriteLogged n io buf) ((io', ret), used) ∧
    Kept received io used io' := by
  have hrun := ends_run (fun n => logged (writeBody n))
    (I := fun m s => m = s.2.length ∧ Visits writeBody (ioWriteStart io, buf) s ∧
      ∃ used, buf = used ++ s.2 ∧ Kept received io used s.1)
    (Q := fun r => ∃ used, buf = used ++ r.1.2 ∧ Kept received io used r.2.1)
    (m := buf.length) (s := (ioWriteStart io, buf))
    (fun m s => by
      obtain ⟨io₁, rest⟩ := s
      rintro ⟨rfl, hv, used, rfl, hk⟩
      by_cases hz : rest = []
      · subst hz
        exact Or.inr ⟨_, Ends.logged_leave (Ends.const _), used, rfl, hk⟩
      rcases writeBody_settles hd hk.plain hk.wbuf hz (fun hf => hs io₁ ⟨hf, rest, hz, hv⟩) with
        ⟨io₂, k, hends, hle, hk₂⟩ | ⟨io₂, hends, hk₂⟩
      · refine Or.inl ⟨_, _, hends.logged_again, ?_, rfl, hv.tail hends, used ++ rest.take (k + 1),
          ?_, hk.trans hk₂⟩
        · change (rest.drop (k + 1)).length < rest.length
          rw [List.length_drop]
          omega
        · rw [List.append_assoc, List.take_append_drop]
      · refine Or.inr ⟨_, hends.logged_leave, used, rfl, ?_⟩
        have hk' := hk.trans hk₂
        rwa [List.append_nil] at hk')
    ⟨rfl, Relation.ReflTransGen.refl, [], rfl, ioWriteStart_kept _ h⟩
  obtain ⟨⟨head, io', ok⟩, ⟨used, hbuf, hk⟩, hends⟩ := hrun
  have hused : buf.take (buf.length - head.2.length) = used := by
    rw [hbuf]
    simp
  exact ⟨io', if ok then some buf.length else none, used,
    hends.map_eq (congrArg (Prod.mk _) hused), hk⟩

/-- A device that always takes something gets all of the bytes. -/
theorem ioWrite_accepted (hd : Accepts d received) {io : Io d} (h : io.Plain) (buf : Str) :
    ∃ io', Ends (fun n => ioWrite n io buf) (io', some buf.length) ∧ Kept received io buf io' := by
  have hrun := ends_run writeBody
    (I := fun m s => m = s.2.length ∧ ∃ used, buf = used ++ s.2 ∧ Kept received io used s.1)
    (Q := fun r => r.2 = true ∧ Kept received io buf r.1)
    (m := buf.length) (s := (ioWriteStart io, buf))
    (fun m s => by
      obtain ⟨io₁, rest⟩ := s
      rintro ⟨rfl, used, rfl, hk⟩
      by_cases hz : rest = []
      · subst hz
        refine Or.inr ⟨_, Ends.const _, rfl, ?_⟩
        rw [List.append_nil]
        exact hk
      obtain ⟨io₂, hroom, hok, hfree, hsent, hchain, hwbuf⟩ := makeRoom_ends hd hk.plain.ok
      have h₂ : Kept received io₁ [] io₂ :=
        ⟨⟨hok, by rw [hchain, hk.plain.chain]⟩, by rw [hwbuf]; exact hk.wbuf, by rw [hsent,
          List.append_nil]⟩
      obtain ⟨io₃, k, hends, hle, h₃, -⟩ := writeBody_takes received hroom h₂.plain h₂.wbuf hz hfree
      refine Or.inl ⟨_, _, hends, ?_, rfl, used ++ rest.take (k + 1), ?_, hk.trans (h₂.trans h₃)⟩
      · change (rest.drop (k + 1)).length < rest.length
        rw [List.length_drop]
        omega
      · rw [List.append_assoc, List.take_append_drop])
    ⟨rfl, [], rfl, ioWriteStart_kept _ h⟩
  obtain ⟨⟨io', ok⟩, ⟨rfl, hk⟩, hends⟩ := hrun
  exact ⟨io', hends.map_eq rfl, hk⟩

/-! ## Sequences of calls -/

inductive OutOp where
  | write (buf : Str)
  | flush

structure Output (d : Device) where
  io : Io d
  consumed : Str

def outputStep (n : ℕ) (s : Output d) : OutOp → Option (Output d)
  | .write buf => (ioWriteLogged n s.io buf).map fun r => ⟨r.1.1, s.consumed ++ r.2⟩
  | .flush => (ioFlush n s.io).map fun r => ⟨r.1, s.consumed⟩

def outputRun (n : ℕ) : List OutOp → Output d → Option (Output d)
  | [], s => some s
  | op :: ops, s => (outputStep n s op).bind (outputRun n ops)

def outputCreate (dev : d.State) : Output d := ⟨ioCreate dev [], []⟩

def OpFlushes (s : Output d) : OutOp → Io d → Prop
  | .write buf, io' => WriteFlushes s.io buf io'
  | .flush, io' => io' = s.io

def Settled : Output d → List OutOp → Prop
  | _, [] => True
  | s, op :: ops => (∀ io', OpFlushes s op io' → Settles d io'.dev io'.buffered) ∧
    ∀ s', Ends (fun n => outputStep n s op) s' → Settled s' ops

/-- What the device has accepted and what the write buffer starts with are the
consumed bytes. -/
def InOrder (received : d.State → Str) (s : Output d) : Prop :=
  received s.io.dev ++ s.io.buffered = s.consumed

theorem outputStep_settles (hd : Partial d received) {s : Output d} (h : s.io.Plain)
    (ho : InOrder received s) (op : OutOp)
    (hs : ∀ io', OpFlushes s op io' → Settles d io'.dev io'.buffered) :
    ∃ s', Ends (fun n => outputStep n s op) s' ∧ s'.io.Plain ∧ InOrder received s' := by
  cases op with
  | write buf =>
    obtain ⟨io', ret, used, hends, hk⟩ := ioWriteLogged_settles hd h buf hs
    refine ⟨_, hends.map _, hk.plain, ?_⟩
    change io'.sent received = s.consumed ++ used
    rw [hk.sent, ← ho]
    rfl
  | flush =>
    obtain ⟨io', ok, hends, hp, -, hsent⟩ := ioFlush_settles hd h (hs s.io rfl)
    exact ⟨_, hends.map _, hp, hsent.trans ho⟩

theorem Settled.of_prefix {s : Output d} {pre ops : List OutOp} (h : Settled s ops)
    (hp : pre <+: ops) :
    Settled s pre := by
  induction pre generalizing s ops with
  | nil => trivial
  | cons op pre ih =>
    obtain ⟨rest, rfl⟩ := hp
    exact ⟨h.1, fun s' hs' => ih (h.2 s' hs') (List.prefix_append pre rest)⟩

theorem outputRun_settles (hd : Partial d received) {s : Output d} (h : s.io.Plain)
    (ho : InOrder received s) {ops : List OutOp} (hs : Settled s ops) :
    ∃ s', Ends (fun n => outputRun n ops s) s' ∧ InOrder received s' := by
  induction ops generalizing s with
  | nil => exact ⟨s, Ends.const s, ho⟩
  | cons op ops ih =>
    obtain ⟨s₁, hends, h₁, ho₁⟩ := outputStep_settles hd h ho op hs.1
    obtain ⟨s', hends', ho'⟩ := ih h₁ ho₁ (hs.2 s₁ hends)
    exact ⟨s', hends.bind hends', ho'⟩

theorem outputCreate_plain (dev : d.State) : (outputCreate dev).io.Plain :=
  ⟨⟨Nat.zero_le _, (fun _ hm => by cases hm), fun _ => rfl⟩, rfl⟩

/-- In a run in which no flush stops half way, every state that is reached has the
consumed bytes in order, and the device has a beginning of them. -/
theorem output_keeps_order (hd : Partial d received) {dev : d.State} (hdev : received dev = [])
    {ops : List OutOp} (hs : Settled (outputCreate dev) ops) {pre : List OutOp} (hp : pre <+: ops) :
    ∃ s, Ends (fun n => outputRun n pre (outputCreate dev)) s ∧ InOrder received s ∧
      received s.io.dev <+: s.consumed := by
  have ho : InOrder received (outputCreate dev) := by
    change received dev ++ window _ 0 0 = []
    rw [hdev, window_zero, List.append_nil]
  obtain ⟨s, hends, hi⟩ := outputRun_settles hd (outputCreate_plain dev) ho (hs.of_prefix hp)
  exact ⟨s, hends, hi, ⟨_, hi⟩⟩

/-- A device that answers each write as it has been told to; at the end of its script
it is full. -/
def scripted : Device where
  State := Str × List (Option ℕ)
  read s _ := (s, some [])
  write s bs :=
    match s.2 with
    | [] => (s, some 0)
    | none :: script => ((s.1, script), none)
    | some k :: script => ((s.1 ++ bs.take k, script), some (min k bs.length))

theorem scripted_partial : Partial scripted Prod.fst := by
  constructor
  · rintro ⟨got, script⟩ bs k h
    rcases script with - | ⟨- | k', script⟩
    · obtain rfl : 0 = k := Option.some.inj h
      exact ⟨Nat.zero_le _, by simp [scripted]⟩
    · cases h
    · obtain rfl : min k' bs.length = k := Option.some.inj h
      refine ⟨Nat.min_le_right _ _, ?_⟩
      change got ++ bs.take k' = got ++ bs.take (min k' bs.length)
      rw [List.take_eq_take_min]
  · rintro ⟨got, script⟩ bs h
    rcases script with - | ⟨- | k', script⟩
    · cases h
    · rfl
    · cases h

theorem output_keeps_order_scripted :
    ∃ s, Ends (fun n => outputRun n [.write (bytes "ab"), .flush, .flush]
      (outputCreate (d := scripted) ([], [some 0, some 1, some 1]))) s ∧ InOrder Prod.fst s ∧
    s.io.dev.1 <+: s.consumed := by
  suffices hs : Settled (outputCreate (d := scripted) ([], [some 0, some 1, some 1]))
      [.write (bytes "ab"), .flush, .flush] from
    output_keeps_order scripted_partial rfl hs (List.prefix_refl _)
  refine ⟨?_, ?_⟩
  · intro io' hf
    exact absurd hf (writeFlushes_fits (outputCreate_plain _) (by decide) io')
  rintro s₁ ⟨N, hN⟩
  obtain rfl := Option.some.inj (hN (N + 2) (by omega))
  refine ⟨?_, ?_⟩
  · rintro io' rfl
    exact Or.inr (Or.inr rfl)
  rintro s₂ ⟨M, hM⟩
  obtain rfl := Option.some.inj (hM (M + 2) (by omega))
  refine ⟨?_, fun _ _ => trivial⟩
  rintro io' rfl
  refine Or.inl (.more (k := 0) (by decide) (by decide)
    (.more (k := 0) (by decide) (by decide) (.nil _)))

/-- The second byte is lost and the first one is kept twice when the device takes one
byte of two and then no more. -/
theorem output_loses_order :
    ¬ ∀ (d : Device) (received : d.State → Str), Partial d received → ∀ dev : d.State,
    received dev = [] →
      ∀ (ops : List OutOp) (n : ℕ) (s : Output d), outputRun n ops (outputCreate dev) = some s →
      InOrder received s := by
  intro h
  have hrun : ∃ s : Output scripted,
      outputRun 3 [.write (bytes "ab"), .flush]
        (outputCreate (d := scripted) ([], [some 1, some 0])) = some s ∧
        s.io.dev.1 ++ s.io.buffered = bytes "aa" ∧ s.consumed = bytes "ab" :=
          ⟨_, rfl, by decide, by decide⟩
  obtain ⟨s, hs, hsent, hcons⟩ := hrun
  have ho : s.io.dev.1 ++ s.io.buffered = s.consumed :=
    h scripted Prod.fst scripted_partial _ rfl _ _ s hs
  rw [hsent, hcons] at ho
  exact absurd ho (by decide)

end Klone.Chain
