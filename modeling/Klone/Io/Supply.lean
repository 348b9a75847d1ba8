import Klone.Io.Duplex

/-! # Reading what there is

A call that does not get to the end of the input returns the next bytes, wherever they
come from: the read buffer, the device, or a codec that passes on what it is given.
-/
namespace Klone.Chain
open Loop

variable {d : Device} {P : Str → Io d → Prop}

/-- `P rest io`: the bytes `rest` are read from the stream one after the other. What
happens after them is left open. -/
structure Supply (P : Str → Io d → Prop) : Prop where
  ok : ∀ {rest io}, P rest io → io.ReadOk
  eof : ∀ {rest io}, P rest io → io.eof = 0
  begins : ∀ {rest io}, P rest io → io.readable <+: rest
  advance : ∀ {rest io wr}, P rest io → wr ≤ io.rcount → P (rest.drop wr) (io.advance wr)
  drain : ∀ {rest io}, P rest io → P (rest.drop io.rcount) io.drain
  underflow : ∀ {rest io}, P rest io → io.rcount = 0 → rest ≠ [] →
    ∃ io', Ends (fun n => ioUnderflow n io) (io', some io'.rcount) ∧ P rest io' ∧ io'.rcount ≠ 0

structure Supplied (P : Str → Io d → Prop) (rest : Str) (size : ℕ) (s : Reader d) : Prop where
  begins : s.out <+: rest
  total : s.out.length + s.size = size
  more : P (rest.drop s.out.length) s.io

section Read
variable (hp : Supply P) {rest : Str} {size : ℕ}
include hp

theorem Supplied.readStep {s : Reader d} (h : Supplied P rest size s) :
    Supplied P rest size (readStep s) := by
  have hlen := (hp.ok h.more).readable_length
  have htotal := h.total
  have hbegins := (List.take_prefix (min s.io.rcount s.size) _).trans (hp.begins h.more)
  have hout : (s.io.readable.take (min s.io.rcount s.size)).length = min s.io.rcount s.size := by
    rw [List.length_take, hlen]
    omega
  rw [readStep_eq]
  refine ⟨?_, ?_, ?_⟩
  · obtain ⟨more, hmore⟩ := h.begins
    rw [← hmore, List.drop_left] at hbegins
    rw [← hmore]
    exact (List.prefix_append_right_inj s.out).mpr hbegins
  · change (s.out ++ _).length + (s.size - min s.io.rcount s.size) = size
    rw [List.length_append, hout]
    omega
  · change P (rest.drop (s.out ++ _).length) (s.io.advance _)
    rw [List.length_append, hout, ← List.drop_drop]
    exact hp.advance h.more (Nat.min_le_left _ _)

theorem readBody_supply (hsize : size ≤ rest.length) {s : Reader d} (h : Supplied P rest size s) :
    (∃ t, Ends (fun n => readBody n s) (.again t) ∧ t.size < s.size ∧ Supplied P rest size t) ∨
      ∃ io', Ends (fun n => readBody n s) (.leave (io', some (rest.take size))) ∧
      P (rest.drop size) io' := by
  have htotal := h.total
  unfold readBody
  by_cases hs : s.size = 0
  · simp only [if_pos hs]
    rw [hs, Nat.add_zero] at htotal
    have hout := List.prefix_iff_eq_take.mp h.begins
    have hmore := h.more
    rw [htotal] at hout hmore
    rw [← hout]
    exact Or.inr ⟨s.io, Ends.const _, hmore⟩
  simp only [if_neg hs]
  by_cases hz : s.io.rcount = 0
  · simp only [if_neg (not_not.mpr hz)]
    have hne : rest.drop s.out.length ≠ [] := by
      intro hnil
      have hle := List.drop_eq_nil_iff.mp hnil
      omega
    obtain ⟨io', hends, hmore, hz'⟩ := hp.underflow h.more hz hne
    have hs' : Supplied P rest size { s with io := io' } := ⟨h.begins, h.total, hmore⟩
    exact Or.inl ⟨_, hends.map_eq (readUnderflown_some hz' s), readStep_size hz' hs,
      hs'.readStep hp⟩
  · simp only [if_pos hz]
    exact Or.inl ⟨_, Ends.const _, readStep_size hz hs, h.readStep hp⟩

/-- As many bytes as have been asked for. -/
theorem ioRead_supply {io : Io d} (h : P rest io) (hsize : size ≤ rest.length) :
    ∃ io', Ends (fun n => ioRead n io size) (io', some (rest.take size)) ∧
    P (rest.drop size) io' := by
  have hrun := ends_run readBody
    (I := fun m s => m = s.size ∧ Supplied P rest size s)
    (Q := fun r => r.2 = some (rest.take size) ∧ P (rest.drop size) r.1)
    (m := size) (s := ⟨io, size, []⟩)
    (fun m s => by
      rintro ⟨rfl, hs⟩
      rcases readBody_supply hp hsize hs with ⟨t, hends, hlt, ht⟩ | ⟨io', hends, hmore⟩
      · exact Or.inl ⟨t, t.size, hends, hlt, rfl, ht⟩
      · exact Or.inr ⟨_, hends, rfl, hmore⟩)
    ⟨rfl, List.nil_prefix, Nat.zero_add _, h⟩
  obtain ⟨⟨io', ret⟩, ⟨rfl, hmore⟩, hends⟩ := hrun
  refine ⟨io', ?_, hmore⟩
  unfold ioRead
  simp only [hp.eof h]
  exact hends

end Read

/-! ## Lines -/

structure LineAhead (P : Str → Io d → Prop) (stop : Byte) (rest line : Str) (s : Reader d) :
    Prop where
  begins : s.out <+: rest
  more : P (rest.drop s.out.length) s.io
  filled : s.io.rcount ≠ 0
  line : line = s.out ++ takeThrough stop s.size (rest.drop s.out.length)
  ahead : stop ∈ rest.drop s.out.length ∨ s.size < (rest.drop s.out.length).length

section Line
variable (hp : Supply P) {rest line : Str} {stop : Byte}
include hp

theorem LineAhead.leave {s : Reader d} (h : LineAhead P stop rest line s) {wr : ℕ}
    (hwr : wr ≤ s.io.rcount) (hline : line = s.out ++ s.io.readable.take wr) :
    P (rest.drop line.length) (s.io.advance wr) := by
  have hlen := (hp.ok h.more).readable_length
  have htake : (s.io.readable.take wr).length = wr := by
    rw [List.length_take, hlen, Nat.min_eq_left hwr]
  rw [hline, List.length_append, htake, ← List.drop_drop]
  exact hp.advance h.more hwr

/-- When the end of the line is not in the read buffer, it is behind it. -/
theorem LineAhead.behind {s : Reader d} (h : LineAhead P stop rest line s) {more : Str}
    (hf : s.io.readable.findIdx? (· == stop) = none)
    (hmore : s.io.readable ++ more = rest.drop s.out.length) (hle : s.io.rcount ≤ s.size) :
    stop ∈ more ∨ s.size - s.io.rcount < more.length := by
  have hlen := (hp.ok h.more).readable_length
  have ha := h.ahead
  rw [← hmore, List.mem_append, List.length_append] at ha
  rcases ha with (hs | hs) | hs
  · have hno := List.findIdx?_eq_none_iff.mp hf stop hs
    simp at hno
  · exact Or.inl hs
  · exact Or.inr (by omega)

theorem untilBody_supply {s : Reader d} (h : LineAhead P stop rest line s) :
    (∃ t, Ends (fun n => untilBody stop n s) (.again t) ∧
      (rest.drop t.out.length).length < (rest.drop s.out.length).length ∧
      LineAhead P stop rest line t) ∨
      ∃ io', Ends (fun n => untilBody stop n s) (.leave (io', some line)) ∧
      P (rest.drop line.length) io' := by
  have hlen := (hp.ok h.more).readable_length
  obtain ⟨more, hmore⟩ := hp.begins h.more
  have hline := h.line
  rw [← hmore] at hline
  unfold untilBody
  cases hf : s.io.readable.findIdx? (· == stop) with
  | some i =>
    rw [takeThrough_found hf] at hline
    obtain ⟨hi, -⟩ := List.findIdx?_eq_some_iff_findIdx_eq.mp hf
    have hwr : min (i + 1) s.size ≤ s.io.rcount := by omega
    have hleave := h.leave hp hwr hline
    dsimp only
    rw [← hline]
    exact Or.inr ⟨_, Ends.const _, hleave⟩
  | none =>
    dsimp only
    by_cases hle : s.io.rcount ≤ s.size
    · simp only [if_pos hle]
      rw [takeThrough_passes hf _ (by omega), hlen] at hline
      have hrest : rest.drop (s.out ++ s.io.readable).length = more := by
        rw [List.length_append, ← List.drop_drop, ← hmore, List.drop_left]
      have hdrained := hp.drain h.more
      rw [← hlen, ← hmore, List.drop_left] at hdrained
      have hahead := h.behind hp hf hmore hle
      have hne : more ≠ [] := by
        rintro rfl
        rcases hahead with hs | hs
        · cases hs
        · exact absurd hs (Nat.not_lt_zero _)
      obtain ⟨io', hends, hmore', hz⟩ := hp.underflow hdrained rfl hne
      refine Or.inl ⟨_, hends.map_eq (untilUnderflown_some hz _ _), ?_, ⟨?_, ?_, hz, ?_, ?_⟩⟩
      · have hfilled := h.filled
        rw [hrest, ← hmore, List.length_append]
        omega
      · obtain ⟨tail, htail⟩ := h.begins
        have hdrop : rest.drop s.out.length = tail := by rw [← htail, List.drop_left]
        rw [← htail, ← hdrop, ← hmore, ← List.append_assoc]
        exact List.prefix_append _ _
      · rw [hrest]
        exact hmore'
      · rw [hrest, hline, List.append_assoc]
      · rw [hrest]
        exact hahead
    · simp only [if_neg hle]
      rw [takeThrough_cut hf _ (by omega)] at hline
      have hwr : s.size ≤ s.io.rcount := by omega
      have hleave := h.leave hp hwr hline
      rw [← hline]
      exact Or.inr ⟨_, Ends.const _, hleave⟩

/-- The bytes up to the end of the line. -/
theorem ioGetUntil_supply {io : Io d} (h : P rest io) {size : ℕ} (hsize : 2 ≤ size)
    (hahead : stop ∈ rest ∨ size - 1 < rest.length) :
    ∃ io', Ends (fun n => ioGetUntil n io stop size)
    (io', some (takeThrough stop (size - 1) rest)) ∧
      P (rest.drop (takeThrough stop (size - 1) rest).length) io' := by
  have hne : rest ≠ [] := by
    rintro rfl
    rcases hahead with hs | hs
    · cases hs
    · exact absurd hs (Nat.not_lt_zero _)
  have hloop : ∀ io₁ : Io d, P rest io₁ → io₁.rcount ≠ 0 →
      ∃ io', Ends (fun n => untilLoop n stop (size - 1) (io₁, some io₁.rcount))
        (io', some (takeThrough stop (size - 1) rest)) ∧
        P (rest.drop (takeThrough stop (size - 1) rest).length) io' := by
    intro io₁ h₁ hz
    have hrun := ends_run (untilBody stop)
      (I := fun m s => m = (rest.drop s.out.length).length ∧
        LineAhead P stop rest (takeThrough stop (size - 1) rest) s)
      (Q := fun r => r.2 = some (takeThrough stop (size - 1) rest) ∧
        P (rest.drop (takeThrough stop (size - 1) rest).length) r.1)
      (m := rest.length) (s := ⟨io₁, size - 1, []⟩)
      (fun m s => by
        rintro ⟨rfl, hs⟩
        rcases untilBody_supply hp hs with ⟨t, hends, hlt, ht⟩ | ⟨io', hends, hmore⟩
        · exact Or.inl ⟨t, _, hends, hlt, rfl, ht⟩
        · exact Or.inr ⟨_, hends, rfl, hmore⟩)
      ⟨rfl, List.nil_prefix, h₁, hz, rfl, hahead⟩
    obtain ⟨⟨io', ret⟩, ⟨rfl, hmore⟩, hends⟩ := hrun
    obtain ⟨k, hk⟩ : ∃ k, io₁.rcount = k + 1 := ⟨io₁.rcount - 1, by omega⟩
    rw [hk]
    exact ⟨io', hends, hmore⟩
  unfold ioGetUntil
  simp only [if_neg (Nat.not_lt.mpr hsize)]
  by_cases hz : io.rcount = 0
  · simp only [if_neg (not_not.mpr hz)]
    obtain ⟨io₁, hends, h₁, hz₁⟩ := hp.underflow h hz hne
    obtain ⟨io', hends', hmore⟩ := hloop io₁ h₁ hz₁
    exact ⟨io', hends.bind hends', hmore⟩
  · simp only [if_pos hz]
    exact hloop io h hz

end Line

/-! ## Where the bytes come from -/

section Sources
variable {pending received : d.State → Str} {rest : Str} {io : Io d}

/-- The stream without its codecs still reads `rest`, and nothing has been written since
it was `io₀`. -/
structure Aside (pending received : d.State → Str) (io₀ : Io d) (rest : Str) (io : Io d) :
    Prop where
  input : Input pending rest (io.setChain [])
  chain : io.codecChain = io₀.codecChain
  writes : SameWrites received io₀ io

theorem Aside.advance {io₀ : Io d} (h : Aside pending received io₀ rest io) {wr : ℕ}
    (hwr : wr ≤ io.rcount) :
    Aside pending received io₀ (rest.drop wr) (io.advance wr) :=
  ⟨h.input.advance hwr, h.chain, h.writes.trans ⟨rfl, rfl, rfl⟩⟩

theorem Aside.drain {io₀ : Io d} (h : Aside pending received io₀ rest io) :
    Aside pending received io₀ (rest.drop io.rcount) io.drain :=
  ⟨h.input.drain, h.chain, h.writes.trans ⟨rfl, rfl, rfl⟩⟩

/-- A stream without codecs reads all that is left. -/
theorem plain_supply (hd : Duplex d pending received) :
    Supply fun rest (io : Io d) => Input pending rest io ∧ io.WriteOk where
  ok h := h.1.ok
  eof h := h.1.eof
  begins h := Input.readable_prefix h.1
  advance h hwr := ⟨h.1.advance hwr, h.2.fits, h.2.size, h.2.null⟩
  drain h := ⟨h.1.drain, h.2.fits, h.2.size, h.2.null⟩
  underflow := by
    rintro rest io ⟨h, hok⟩ hz hne
    obtain ⟨io', hends, hin, -, hnil⟩ := ioUnderflow_input hd.delivers h hz
    obtain ⟨n, hrun⟩ := hends.some_run
    exact ⟨io', hends, ⟨hin, (ioUnderflow_sameWrites hd.read_received hrun).writeOk hok⟩,
      fun hz' => hne (hnil hz')⟩

/-- Whatever the codecs are, the read buffer can be read. -/
theorem buffered_supply (io₀ : Io d) (more : Str) :
    Supply fun rest (io : Io d) => Aside pending received io₀ (rest ++ more) io ∧
    io.readable = rest where
  ok h := ⟨h.1.input.ok.size, h.1.input.ok.null, h.1.input.ok.rfits, h.1.input.ok.ufits,
    h.1.input.ok.uempty⟩
  eof h := h.1.input.eof
  begins h := h.2 ▸ List.prefix_rfl
  advance := by
    rintro rest io wr ⟨h, rfl⟩ hwr
    have hlen : io.readable.length = io.rcount := h.input.ok.readable_length
    have hnext := h.advance hwr
    rw [List.drop_append_of_le_length (by omega)] at hnext
    exact ⟨hnext, window_drop _ _ _ _⟩
  drain := by
    rintro rest io ⟨h, rfl⟩
    have hlen : io.readable.length = io.rcount := h.input.ok.readable_length
    have hnext := h.drain
    rw [List.drop_append_of_le_length (by omega)] at hnext
    refine ⟨hnext, ?_⟩
    rw [← hlen, List.drop_length]
    exact Io.readable_nil rfl
  underflow := by
    rintro rest io ⟨h, rfl⟩ hz hne
    exact absurd (Io.readable_nil hz) hne

/-- A codec that gives back what it is given, and stays as it is. -/
def Passing (c : Codec) (s : c.State) : Prop :=
  ∀ room src, 0 < room → src ≠ [] →
    c.transform s room src = ⟨s, some (min src.length room), src.take room⟩

variable {c : Codec} {s : c.State}

theorem underflowTransfer_passing (hc : Passing c s) (hio : io.Through c s) {n : ℕ} {t : Io d}
    (hz : io.rcount = 0) (hne : io.fetched ≠ [])
    (h : underflowTransfer n (io.setChain []) = some (.again t)) :
    underflowTransfer (n + 1) io = some (.again (t.setChain io.codecChain)) := by
  have hchain : io.codecChain = [codecLink c s] := hio
  have htrans := hc (IO_RD_BUFSZ - io.rcount) io.fetched (by rw [hz]; decide) hne
  have hpos := List.length_pos_iff.mpr hne
  have hmin : min io.fetched.length (IO_RD_BUFSZ - io.rcount) ≠ 0 := by
    rw [hz]
    have hbuf : 0 < IO_RD_BUFSZ := by decide
    omega
  have hfetched : (io.setChain []).fetched = io.fetched := rfl
  have hcount : (io.setChain []).rcount = io.rcount := rfl
  have hnil : (io.setChain []).codecChain = [] := rfl
  simp only [underflowTransfer, ioTransfer, hnil, hfetched, hcount, Option.map_some,
    Option.some.injEq,
    underflowTransferred, hmin, false_and, if_false, Iter.again.injEq] at h
  simp only [underflowTransfer, ioTransfer, hchain, ioTransform, codecLink, htrans, Link.setState,
    underflowTransferred, hmin,
    Option.some.injEq, false_and, if_false, Option.map_some, Iter.again.injEq]
  rw [← h]
  rfl

theorem underflowBody_passing (hd : Delivers d pending) (hc : Passing c s) (hio : io.Through c s)
    (hok : io.ReadOk) (hr : io.rbuf ≠ none) {n : ℕ} {t : Io d} (hz : io.rcount = 0)
    (h : underflowBody n (io.setChain []) = some (.again t)) :
    underflowBody (n + 1) io = some (.again (t.setChain io.codecChain)) := by
  have hcount : (io.setChain []).rcount = io.rcount := rfl
  have hucount : (io.setChain []).ucount = io.ucount := rfl
  unfold underflowBody at h ⊢
  rw [hcount, hucount, if_neg (not_not.mpr hz)] at h
  rw [if_neg (not_not.mpr hz)]
  by_cases hu : io.ucount = 0
  · rw [if_neg (not_not.mpr hu)] at h ⊢
    obtain ⟨k, hret, -, hle, -⟩ := hd io.dev IO_RD_BUFSZ (by decide)
    have hdev : (io.setChain []).dev = io.dev := rfl
    rw [hdev] at h
    simp only [hret] at h ⊢
    cases hbs : (pending io.dev).take k with
    | nil =>
      simp only [hbs] at h
      cases h
    | cons b bs =>
      simp only [hbs] at h
      have hlen : (b :: bs).length ≤ IO_RD_BUFSZ := by
        rw [← hbs]
        exact (List.length_take_le _ _).trans hle
      have hok' : (io.setDev (d.read io.dev IO_RD_BUFSZ).1).ReadOk :=
        ⟨hok.size, hok.null, hok.rfits, hok.ufits, hok.uempty⟩
      have hfetched := (hok'.fetch hr hu hlen).2
      have hne : ((io.setDev (d.read io.dev IO_RD_BUFSZ).1).fetch (b :: bs)).fetched ≠ [] := by
        rw [hfetched]
        exact List.cons_ne_nil _ _
      have hio' : ((io.setDev (d.read io.dev IO_RD_BUFSZ).1).fetch (b :: bs)).Through c s := hio
      exact underflowTransfer_passing hc hio' hz hne h
  · rw [if_pos hu] at h ⊢
    have hne : io.fetched ≠ [] := by
      rw [← List.length_pos_iff, hok.fetched_length hr]
      omega
    exact underflowTransfer_passing hc hio hz hne h

/-- Through a codec that passes on what it is given, all that is left is read. -/
theorem passing_supply (hd : Duplex d pending received) (hc : Passing c s) {io₀ : Io d}
    (hio : io₀.Through c s) :
    Supply fun rest (io : Io d) => Aside pending received io₀ rest io where
  ok h := ⟨h.input.ok.size, h.input.ok.null, h.input.ok.rfits, h.input.ok.ufits, h.input.ok.uempty⟩
  eof h := h.input.eof
  begins h := by
    have hbegins := Input.readable_prefix h.input
    exact hbegins
  advance h hwr := h.advance hwr
  drain h := h.drain
  underflow := by
    intro rest io h hz hne
    obtain ⟨io₁, hstart, h₁, hr₁, hz₁⟩ :
      ∃ io₁, (if io.rbuf = none then ioRbufAlloc io else io) = io₁ ∧
        Aside pending received io₀ rest io₁ ∧ io₁.rbuf ≠ none ∧ io₁.rcount = 0 := by
      by_cases hr : io.rbuf = none
      · have hin : Input pending rest ((ioRbufAlloc io).setChain []) := ioRbufAlloc_input h.input hr
        exact ⟨_, if_pos hr, ⟨hin, h.chain, h.writes.trans ⟨rfl, rfl, rfl⟩⟩,
          Option.some_ne_none _, hz⟩
      · exact ⟨io, if_neg hr, h, hr, hz⟩
    have hthrough : io₁.Through c s := h₁.chain.trans hio
    have hok : io₁.ReadOk :=
      ⟨h₁.input.ok.size, h₁.input.ok.null, h₁.input.ok.rfits, h₁.input.ok.ufits, h₁.input.ok.uempty⟩
    rcases underflowBody_input hd.delivers h₁.input hr₁ hz₁ with ⟨t, hstep, hin, hcount, -⟩ |
      ⟨-, -, -, -, -, hnil⟩
    · have hstep' : ∀ n, underflowBody (n + 1) io₁ = some (.again (t.setChain io₁.codecChain)) :=
        fun n =>
        underflowBody_passing hd.delivers hc hthrough hok hr₁ hz₁ (hstep n)
      have hends : Ends (fun n => ioUnderflow n io) (t.setChain io₁.codecChain, some t.rcount) := by
        refine ⟨2, fun n hn => ?_⟩
        obtain ⟨k, rfl⟩ : ∃ k, n = k + 2 := ⟨n - 2, by omega⟩
        unfold ioUnderflow
        rw [hstart]
        dsimp only
        rw [run_again (hstep' (k + 1)), run_leave (r := (t.setChain io₁.codecChain, some t.rcount))]
        have hcount' : (t.setChain io₁.codecChain).rcount ≠ 0 := hcount
        simp only [underflowBody, if_pos hcount']
        rfl
      obtain ⟨n, hrun⟩ := hends.some_run
      have hback : (t.setChain io₁.codecChain).setChain [] = t := by
        rw [← hin.chain]
        rfl
      have hin' : Input pending rest ((t.setChain io₁.codecChain).setChain []) := by rwa [hback]
      exact ⟨_, hends, ⟨hin', h₁.chain,
        h.writes.trans (ioUnderflow_sameWrites hd.read_received hrun)⟩, hcount⟩
    · exact absurd hnil hne

end Sources

end Klone.Chain
