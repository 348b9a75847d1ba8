import Klone.Io.ChainContract
import Klone.Io.Stream

/-! # Reading through a chain

The bytes read so far and those in the read buffer are together what the chain has
stored. It has been given what the device delivered, less what is still in the
underflow buffer; after the last byte of the device the chain is flushed.
-/
namespace Klone.Chain
open Loop

variable {d : Device} {pending : d.State → Str}

/-- The device delivers what is pending in pieces of any size, and then reports the
end of the input for good. -/
def Delivers (d : Device) (pending : d.State → Str) : Prop :=
  ∀ s size, 0 < size → ∃ k, (d.read s size).2 = some ((pending s).take k) ∧
    pending (d.read s size).1 = (pending s).drop k ∧ k ≤ size ∧ (pending s ≠ [] → 0 < k)

structure Io.ReadOk (io : Io d) : Prop where
  size : ∀ mem, io.rbuf = some mem → mem.length = IO_RD_BUFSZ ∧ io.ubuf.length = IO_RD_BUFSZ
  null : io.rbuf = none → io.rcount = 0 ∧ io.ucount = 0
  rfits : io.roff + io.rcount ≤ IO_RD_BUFSZ
  ufits : io.uoff + io.ucount ≤ IO_RD_BUFSZ
  uempty : io.ucount = 0 → io.uoff = 0

/-- The chain has stored `out`: it is fed, or it is flushed after the whole input. -/
def Phase (q : Tail) (pending : d.State → Str) (total : Str) (results : List Str) (out : Str)
    (io : Io d) : Prop :=
  (∃ inp, Feeding q io.codecChain total results inp out ∧
    inp ++ (io.fetched ++ pending io.dev) = total) ∨
    io.ucount = 0 ∧ pending io.dev = [] ∧ Emptying q io.codecChain total results out

structure Reading (q : Tail) (pending : d.State → Str) (total : Str) (results : List Str)
    (got : Str) (io : Io d) : Prop where
  ok : io.ReadOk
  phase : Phase q pending total results (got ++ io.readable) io

variable {q : Tail} {total : Str} {results : List Str} {got inp : Str} {io : Io d}

theorem Phase.begins {out : Str} (h : Phase q pending total results out io) :
    out <+: results.getLastD total := by
  rcases h with ⟨inp, hf, rfl⟩ | ⟨-, -, he⟩
  · exact hf.begins
  · exact he.begins

theorem Phase.of_eq {out out' : Str} {io' : Io d} (h : Phase q pending total results out io)
    (hc : io'.codecChain = io.codecChain) (hd : io'.dev = io.dev) (hu : io'.ucount = io.ucount)
    (hf : io'.fetched = io.fetched) (ho : out' = out) : Phase q pending total results out' io' := by
  unfold Phase
  rw [hc, hd, hu, hf, ho]
  exact h

theorem Reading.begins (h : Reading q pending total results got io) :
    got <+: results.getLastD total :=
  (List.prefix_append _ _).trans h.phase.begins

/-! ## The read buffers -/

theorem Io.ReadOk.readable_length (h : io.ReadOk) : io.readable.length = io.rcount := by
  cases hr : io.rbuf with
  | none =>
    unfold Io.readable
    rw [(h.null hr).1, window_zero]
    rfl
  | some mem =>
    apply length_window
    rw [hr, Option.getD_some, (h.size mem hr).1]
    exact h.rfits

theorem Io.ReadOk.fetched_length (h : io.ReadOk) (hr : io.rbuf ≠ none) :
    io.fetched.length = io.ucount := by
  obtain ⟨mem, hmem⟩ := Option.ne_none_iff_exists'.mp hr
  apply length_window
  rw [(h.size mem hmem).2]
  exact h.ufits

theorem Io.readable_nil (hz : io.rcount = 0) : io.readable = [] := by
  unfold Io.readable
  rw [hz, window_zero]

theorem Io.fetched_nil (hz : io.ucount = 0) : io.fetched = [] := by
  unfold Io.fetched
  rw [hz, window_zero]

theorem Io.refill_rbuf (hr : io.rbuf ≠ none) (out : Str) (count : ℕ) :
    (io.refill out count).rbuf ≠ none := by
  obtain ⟨mem, hmem⟩ := Option.ne_none_iff_exists'.mp hr
  change io.rbuf.map _ ≠ none
  rw [hmem]
  exact Option.some_ne_none _

theorem Io.ReadOk.refill (h : io.ReadOk) (hr : io.rbuf ≠ none) {out : Str}
    (hout : out.length ≤ IO_RD_BUFSZ) {n : ℕ} (hn : n ≤ out.length) :
    (io.refill out n).ReadOk ∧ (io.refill out n).readable = out.take n := by
  obtain ⟨mem, hmem⟩ := Option.ne_none_iff_exists'.mp hr
  obtain ⟨hsize, hubuf⟩ := h.size mem hmem
  have hrbuf : (io.refill out n).rbuf = some (blit mem 0 out) := by
    change io.rbuf.map _ = _
    rw [hmem]
    rfl
  refine ⟨⟨?_, ?_, ?_, h.ufits, h.uempty⟩, ?_⟩
  · intro mem' hm
    obtain rfl := Option.some.inj (hrbuf.symm.trans hm)
    exact ⟨by rw [length_blit (by omega), hsize], hubuf⟩
  · intro he
    rw [hrbuf] at he
    cases he
  · change 0 + n ≤ IO_RD_BUFSZ
    omega
  · unfold Io.readable
    rw [hrbuf, Option.getD_some]
    have hb : window (blit mem (0 + 0) out) 0 (0 + n) = window mem 0 0 ++ out.take n :=
      window_blit (by omega) hn
    rw [Nat.zero_add, Nat.zero_add, window_zero, List.nil_append] at hb
    exact hb

theorem Io.ReadOk.useFetched (h : io.ReadOk) {c : ℕ} (hc : c ≤ io.ucount) (hr : io.rbuf ≠ none) :
    (io.useFetched c).ReadOk ∧ (io.useFetched c).fetched = io.fetched.drop c := by
  have hf := h.ufits
  have hu : (io.useFetched c).uoff = if io.ucount - c = 0 then 0 else io.uoff + c := rfl
  refine ⟨⟨h.size, fun hn => absurd hn hr, h.rfits, ?_, ?_⟩, ?_⟩
  · rw [hu]
    change _ + (io.ucount - c) ≤ IO_RD_BUFSZ
    split <;> omega
  · intro hz
    have hz' : io.ucount - c = 0 := hz
    rw [hu, if_pos hz']
  · change window io.ubuf (io.useFetched c).uoff (io.ucount - c) = _
    rw [hu]
    split
    · next hz =>
      have hd : io.fetched.drop c = [] := by
        apply List.drop_eq_nil_of_le
        rw [h.fetched_length hr]
        omega
      rw [hz, window_zero, hd]
    · exact window_drop _ _ _ _

theorem ioRbufAlloc_reading (h : Reading q pending total results got io) (hr : io.rbuf = none) :
    Reading q pending total results got (ioRbufAlloc io) := by
  obtain ⟨hrc, huc⟩ := h.ok.null hr
  have hread : (ioRbufAlloc io).readable = [] := Io.readable_nil hrc
  have hfetched : (ioRbufAlloc io).fetched = [] := Io.fetched_nil huc
  refine ⟨⟨?_, fun _ => ⟨hrc, huc⟩, ?_, h.ok.ufits, h.ok.uempty⟩, ?_⟩
  · intro mem hm
    obtain rfl := Option.some.inj hm
    exact ⟨List.length_replicate, List.length_replicate⟩
  · change 0 + io.rcount ≤ IO_RD_BUFSZ
    rw [hrc]
    exact Nat.zero_le _
  · apply h.phase.of_eq
    · rfl
    · rfl
    · rfl
    · rw [hfetched, Io.fetched_nil huc]
    · rw [hread, Io.readable_nil hrc]

/-! ## `io_underflow` -/

/-- Fetched bytes go through the chain: there is something to read, or they become fewer. -/
theorem underflowTransfer_moves (hok : io.ReadOk) (hr : io.rbuf ≠ none) (hz : io.rcount = 0)
    (hu : io.ucount ≠ 0) (hf : Feeding q io.codecChain total results inp got)
    (ht : inp ++ (io.fetched ++ pending io.dev) = total) :
    ∃ io', Ends (fun n => underflowTransfer n io) (.again io') ∧
    Reading q pending total results got io' ∧
      io'.rbuf ≠ none ∧ io'.eof = io.eof ∧ io'.dev = io.dev ∧
      (io'.rcount ≠ 0 ∨ io'.ucount < io.ucount) := by
  have hne : io.fetched ≠ [] := by
    intro he
    have hl := hok.fetched_length hr
    rw [he] at hl
    exact hu hl.symm
  have hroom : 0 < IO_RD_BUFSZ - io.rcount := by
    rw [hz]
    decide
  have htotal : inp ++ io.fetched <+: total := by
    rw [← ht, ← List.append_assoc]
    exact List.prefix_append _ _
  obtain ⟨t, k, hends, hm⟩ := ioTransfer_moves hroom (Nat.sub_le _ _) hne htotal hf
  have hk : k ≤ io.ucount := by
    rw [← hok.fetched_length hr]
    exact hm.taken
  have hlen : t.out.length ≤ IO_RD_BUFSZ := le_trans hm.stored (Nat.sub_le _ _)
  have hok₁ : (io.setChain t.links).ReadOk :=
    ⟨hok.size, hok.null, hok.rfits, hok.ufits, hok.uempty⟩
  obtain ⟨hok₂, hfetched⟩ := hok₁.useFetched hk hr
  obtain ⟨hok₃, hread⟩ := hok₂.refill hr hlen (le_refl _)
  rw [List.take_length] at hread
  have hnone := not_idle hm.progress
  refine ⟨((io.setChain t.links).useFetched k).refill t.out t.out.length, ?_, ⟨hok₃, ?_⟩,
    Io.refill_rbuf hr t.out t.out.length, rfl, rfl, ?_⟩
  · have hmap := hends.map (underflowTransferred io)
    unfold underflowTransferred at hmap
    simp only [hm.ret, if_neg hnone] at hmap
    exact hmap
  · refine Or.inl ⟨inp ++ io.fetched.take k, ?_, ?_⟩
    · rw [hread]
      exact hm.feeding
    · change _ ++ (Io.fetched ((io.setChain t.links).useFetched k) ++ pending io.dev) = total
      rw [hfetched, ← ht]
      change _ ++ (io.fetched.drop k ++ _) = _
      rw [List.append_assoc, ← List.append_assoc (io.fetched.take k), List.take_append_drop]
  · rcases hm.progress with hpos | hne
    · refine Or.inr ?_
      change io.ucount - k < io.ucount
      omega
    · refine Or.inl ?_
      change t.out.length ≠ 0
      exact fun he => hne (List.length_eq_zero_iff.mp he)

/-- After the last byte of the device there is something to read, or all has been read. -/
theorem underflowEof_ends (hquiet : q.quiet) (hok : io.ReadOk) (hr : io.rbuf ≠ none)
    (hz : io.rcount = 0) (hu : io.ucount = 0) (hp : pending io.dev = [])
    (he : Emptying q io.codecChain total results got) :
    ∃ io' c, Ends (fun n => underflowEof n io) (.leave (io', some c)) ∧ c = io'.rcount ∧
      Reading q pending total results got io' ∧
      (c ≠ 0 ∧ io'.eof = io.eof ∨ c = 0 ∧ got = results.getLastD total) := by
  have hchain : ¬ io.codecChain.isEmpty = true := by
    intro hn
    rw [List.isEmpty_iff.mp hn] at he
    cases he
  obtain ⟨r, hends, hdone⟩ := ioChainFlushChunk_ends (by decide : 0 < IO_RD_BUFSZ) le_rfl he
  have hok₁ : (io.setChain r.links).ReadOk :=
    ⟨hok.size, hok.null, hok.rfits, hok.ufits, hok.uempty⟩
  have hmap := hends.map (underflowFlushed io)
  unfold underflowEof
  simp only [if_neg hchain]
  rcases hdone with ⟨hret, hall, hq, hlen, he'⟩ | ⟨hret, hcount, hne, hlen, he'⟩
  · have hval : underflowFlushed io r = .leave ({ (io.setChain r.links).refill r.out 0 with
      eof := io.eof + 1 }, some 0) := by
      unfold underflowFlushed
      dsimp only
      rw [hret, hz, hq hquiet]
    rw [hval] at hmap
    obtain ⟨hok₂, hread⟩ := hok₁.refill hr hlen (Nat.zero_le _)
    refine ⟨_, 0, hmap, rfl,
      ⟨⟨hok₂.size, hok₂.null, hok₂.rfits, hok₂.ufits, hok₂.uempty⟩, Or.inr ⟨hu, hp, ?_⟩⟩,
      Or.inr ⟨rfl, hall⟩⟩
    have hnil : ({ (io.setChain r.links).refill r.out 0 with eof := io.eof + 1 } : Io d).readable =
        [] := Io.readable_nil rfl
    rw [hnil, List.append_nil]
    exact he'
  · have hval : underflowFlushed io r =
        .leave ((io.setChain r.links).refill r.out r.out.length, some r.out.length) := by
      unfold underflowFlushed
      dsimp only
      rw [hret, hz, hcount, Nat.zero_add]
    rw [hval] at hmap
    obtain ⟨hok₂, hread⟩ := hok₁.refill hr hlen (le_refl _)
    refine ⟨_, r.out.length, hmap, rfl, ⟨hok₂, Or.inr ⟨hu, hp, ?_⟩⟩, Or.inl ⟨?_, rfl⟩⟩
    · rw [hread, List.take_length]
      exact he'
    · exact fun hn => hne (List.length_eq_zero_iff.mp hn)

def fetchesLeft (pending : d.State → Str) (io : Io d) : ℕ :=
  if io.rcount = 0 then io.ucount + (pending io.dev).length + 1 else 0

def Underflown (q : Tail) (pending : d.State → Str) (total : Str) (results : List Str) (got : Str)
    (r : Io d × Option ℕ) : Prop :=
  r.2 = some r.1.rcount ∧ Reading q pending total results got r.1 ∧
    (r.1.rcount ≠ 0 ∧ r.1.eof = 0 ∨ r.1.rcount = 0 ∧ got = results.getLastD total)

structure Refilling (q : Tail) (pending : d.State → Str) (total : Str) (results : List Str)
    (got : Str) (io : Io d) : Prop where
  reading : Reading q pending total results got io
  rbuf : io.rbuf ≠ none
  eof : io.eof = 0

theorem underflowTransfer_refills (hok : io.ReadOk) (hr : io.rbuf ≠ none) (hz : io.rcount = 0)
    (hu : io.ucount ≠ 0) (heof : io.eof = 0) (hf : Feeding q io.codecChain total results inp got)
    (ht : inp ++ (io.fetched ++ pending io.dev) = total) :
    ∃ io', Ends (fun n => underflowTransfer n io) (.again io') ∧
    Refilling q pending total results got io' ∧
      fetchesLeft pending io' < io.ucount + (pending io.dev).length + 1 := by
  obtain ⟨io', hends, hread, hr', heof', hdev, hprog⟩ := underflowTransfer_moves hok hr hz hu hf ht
  refine ⟨io', hends, ⟨hread, hr', heof'.trans heof⟩, ?_⟩
  unfold fetchesLeft
  rw [hdev]
  rcases hprog with hne | hlt
  · rw [if_neg hne]
    omega
  · split <;> omega

theorem Io.ReadOk.fetch (h : io.ReadOk) (hr : io.rbuf ≠ none) (hu : io.ucount = 0) {bs : Str}
    (hbs : bs.length ≤ IO_RD_BUFSZ) : (io.fetch bs).ReadOk ∧ (io.fetch bs).fetched = bs := by
  obtain ⟨mem, hmem⟩ := Option.ne_none_iff_exists'.mp hr
  obtain ⟨hsize, hubuf⟩ := h.size mem hmem
  have hoff := h.uempty hu
  refine ⟨⟨?_, fun hn => absurd hn hr, h.rfits, ?_, fun _ => hoff⟩, ?_⟩
  · intro mem' hm
    refine ⟨(h.size mem' hm).1, ?_⟩
    change (blit io.ubuf 0 bs).length = IO_RD_BUFSZ
    rw [length_blit (by omega), hubuf]
  · change io.uoff + (io.ucount + bs.length) ≤ IO_RD_BUFSZ
    omega
  · change window (blit io.ubuf 0 bs) io.uoff (io.ucount + bs.length) = bs
    rw [hoff, hu, Nat.zero_add]
    apply window_blit_start
    omega

theorem Phase.emptying (hphase : Phase q pending total results got io) (hu : io.ucount = 0)
    (hp : pending io.dev = []) :
    Emptying q io.codecChain total results got := by
  rcases hphase with ⟨inp, hf, ht⟩ | ⟨-, -, he⟩
  · rw [Io.fetched_nil hu, hp, List.append_nil, List.append_nil] at ht
    rw [ht] at hf
    exact hf.emptying
  · exact he

/-- The device has delivered more. -/
theorem underflowFetch_refills {dev' : d.State} {bs inp : Str} (hok : io.ReadOk)
    (hr : io.rbuf ≠ none) (hz : io.rcount = 0) (hu : io.ucount = 0) (heof : io.eof = 0)
    (hbs : bs ≠ []) (hlen : bs.length ≤ IO_RD_BUFSZ)
    (hf : Feeding q io.codecChain total results inp got)
    (htotal : inp ++ (bs ++ pending dev') = total) :
    ∃ io', Ends (fun n => underflowTransfer n ((io.setDev dev').fetch bs)) (.again io') ∧
      Refilling q pending total results got io' ∧
      fetchesLeft pending io' < (bs ++ pending dev').length + 1 := by
  have hok₁ : (io.setDev dev').ReadOk := ⟨hok.size, hok.null, hok.rfits, hok.ufits, hok.uempty⟩
  obtain ⟨hok₂, hfetch⟩ := hok₁.fetch hr hu hlen
  have hcount : ((io.setDev dev').fetch bs).ucount = bs.length := by
    change io.ucount + _ = _
    rw [hu, Nat.zero_add]
  have hu₂ : ((io.setDev dev').fetch bs).ucount ≠ 0 := by
    rw [hcount]
    exact fun hn => hbs (List.length_eq_zero_iff.mp hn)
  have htotal₂ : inp ++ (((io.setDev dev').fetch bs).fetched ++ pending dev') = total := by
    rw [hfetch]
    exact htotal
  obtain ⟨io', hends, hrefill, hleft⟩ := underflowTransfer_refills hok₂ hr hz hu₂ heof hf htotal₂
  rw [hcount] at hleft
  rw [List.length_append]
  exact ⟨io', hends, hrefill, hleft⟩

/-- The device is asked for more. -/
theorem underflowFetch_ends (hquiet : q.quiet) (hd : Delivers d pending) (hok : io.ReadOk)
    (hr : io.rbuf ≠ none) (hz : io.rcount = 0) (hu : io.ucount = 0) (heof : io.eof = 0)
    (hphase : Phase q pending total results got io) :
    (∃ io', Ends (fun n => underflowBody n io) (.again io') ∧
      Refilling q pending total results got io' ∧
        fetchesLeft pending io' < (pending io.dev).length + 1) ∨
      ∃ r, Ends (fun n => underflowBody n io) (.leave r) ∧
      Underflown q pending total results got r := by
  obtain ⟨k, hret, hpend, hk, hpos⟩ := hd io.dev IO_RD_BUFSZ (by decide)
  unfold underflowBody
  simp only [if_neg (not_not_intro hz), if_neg (not_not_intro hu), hret]
  by_cases hp : pending io.dev = []
  · rw [hp, List.take_nil]
    rw [hp, List.drop_nil] at hpend
    have hok₁ : (io.setDev (d.read io.dev IO_RD_BUFSZ).1).ReadOk :=
      ⟨hok.size, hok.null, hok.rfits, hok.ufits, hok.uempty⟩
    obtain ⟨io', c, hends, rfl, hread, hlast⟩ :=
      underflowEof_ends hquiet hok₁ hr hz hu hpend (hphase.emptying hu hp)
    refine Or.inr ⟨_, hends, rfl, hread, ?_⟩
    rcases hlast with ⟨hne, he⟩ | hdone
    · exact Or.inl ⟨hne, he.trans heof⟩
    · exact Or.inr hdone
  · obtain ⟨inp, hf, ht⟩ := hphase.resolve_right fun hn => hp hn.2.1
    have hne : (pending io.dev).take k ≠ [] := by
      intro hn
      rcases List.take_eq_nil_iff.mp hn with h0 | h0
      · exact absurd h0 (Nat.pos_iff_ne_zero.mp (hpos hp))
      · exact hp h0
    have hall : (pending io.dev).take k ++ pending (d.read io.dev IO_RD_BUFSZ).1 =
        pending io.dev := by
      rw [hpend, List.take_append_drop]
    have htotal : inp ++ ((pending io.dev).take k ++ pending (d.read io.dev IO_RD_BUFSZ).1) =
        total := by
      rw [hall, ← ht, Io.fetched_nil hu, List.nil_append]
    obtain ⟨io', hends, hrefill, hleft⟩ := underflowFetch_refills hok hr hz hu heof hne
      (le_trans (List.length_take_le _ _) hk) hf htotal
    rw [hall] at hleft
    refine Or.inl ⟨io', ?_, hrefill, hleft⟩
    obtain ⟨a, bs, hbs⟩ := List.exists_cons_of_ne_nil hne
    rw [hbs] at hends ⊢
    exact hends

theorem underflowBody_moves (hquiet : q.quiet) (hd : Delivers d pending)
    (h : Refilling q pending total results got io) :
    (∃ io', Ends (fun n => underflowBody n io) (.again io') ∧
      Refilling q pending total results got io' ∧
        fetchesLeft pending io' < fetchesLeft pending io) ∨
      ∃ r, Ends (fun n => underflowBody n io) (.leave r) ∧
      Underflown q pending total results got r := by
  by_cases hz : io.rcount = 0
  · have hleft : fetchesLeft pending io = io.ucount + (pending io.dev).length + 1 := if_pos hz
    have hphase := h.reading.phase
    rw [Io.readable_nil hz, List.append_nil] at hphase
    rw [hleft]
    by_cases hu : io.ucount = 0
    · rw [hu, Nat.zero_add]
      exact underflowFetch_ends hquiet hd h.reading.ok h.rbuf hz hu h.eof hphase
    · obtain ⟨inp, hf, ht⟩ := hphase.resolve_right fun hn => hu hn.1
      refine Or.inl ?_
      unfold underflowBody
      simp only [if_neg (not_not_intro hz), if_pos hu]
      exact underflowTransfer_refills h.reading.ok h.rbuf hz hu h.eof hf ht
  · refine Or.inr ⟨(io, some io.rcount), ?_, rfl, h.reading, Or.inl ⟨hz, h.eof⟩⟩
    unfold underflowBody
    simp only [if_pos hz]
    exact Ends.const _

/-- The read buffer is there after the first lines of `io_underflow`. -/
theorem refilling_alloc (h : Reading q pending total results got io) (heof : io.eof = 0) :
    Refilling q pending total results got (if io.rbuf = none then ioRbufAlloc io else io) := by
  by_cases hr : io.rbuf = none
  · rw [if_pos hr]
    exact ⟨ioRbufAlloc_reading h hr, Option.some_ne_none _, heof⟩
  · rw [if_neg hr]
    exact ⟨h, hr, heof⟩

theorem ioUnderflow_ends (hquiet : q.quiet) (hd : Delivers d pending)
    (h : Reading q pending total results got io) (heof : io.eof = 0) :
    ∃ r, Underflown q pending total results got r ∧ Ends (fun n => ioUnderflow n io) r :=
  ends_run (fun n => underflowBody n)
    (I := fun m s => Refilling q pending total results got s ∧ fetchesLeft pending s ≤ m)
    (fun m s => by
      rintro ⟨hs, hm⟩
      rcases underflowBody_moves hquiet hd hs with ⟨io', hends, hs', hlt⟩ | ⟨r, hends, hq⟩
      · exact Or.inl ⟨io', _, hends, lt_of_lt_of_le hlt hm, hs', le_refl _⟩
      · exact Or.inr ⟨r, hends, hq⟩)
    ⟨refilling_alloc h heof, le_refl _⟩

/-! ## `io_read` -/

/-- Nothing more is read after the end has been reported. -/
def EofDone (total : Str) (results : List Str) (got : Str) (io : Io d) : Prop :=
  io.eof ≠ 0 → got = results.getLastD total

theorem readStep_moves {s : Reader d} (h : Reading q pending total results (got ++ s.out) s.io) :
    Reading q pending total results (got ++ (readStep s).out) (readStep s).io ∧
      (readStep s).out.length = s.out.length + min s.io.rcount s.size := by
  have hlen := h.ok.readable_length
  have htake : window (s.io.rbuf.getD []) s.io.roff (min s.io.rcount s.size) =
      s.io.readable.take (min s.io.rcount s.size) := window_take _ _ (Nat.min_le_left _ _)
  have hout : (readStep s).out = s.out ++ s.io.readable.take (min s.io.rcount s.size) := by
    rw [← htake]
    rfl
  have hread : (readStep s).io.readable = s.io.readable.drop (min s.io.rcount s.size) :=
    window_drop _ _ _ _
  refine ⟨⟨⟨h.ok.size, ?_, ?_, h.ok.ufits, h.ok.uempty⟩, ?_⟩, ?_⟩
  · intro hn
    obtain ⟨hrc, huc⟩ := h.ok.null hn
    refine ⟨?_, huc⟩
    change s.io.rcount - _ = 0
    omega
  · have hfits := h.ok.rfits
    change s.io.roff + min s.io.rcount s.size + (s.io.rcount - min s.io.rcount s.size) ≤ IO_RD_BUFSZ
    omega
  · apply h.phase.of_eq
    · rfl
    · rfl
    · rfl
    · rfl
    · rw [hout, hread, ← List.append_assoc, List.append_assoc (got ++ s.out), List.take_append_drop]
  · rw [hout, List.length_append, List.length_take, hlen]
    omega

def ReadDone (q : Tail) (pending : d.State → Str) (total : Str) (results : List Str) (got : Str)
    (size : ℕ) (r : Io d × Option Str) : Prop :=
  ∃ out, r.2 = some out ∧ Reading q pending total results (got ++ out) r.1 ∧
    EofDone total results (got ++ out) r.1 ∧
    (out.length = size ∨ out.length ≤ size ∧ got ++ out = results.getLastD total)

theorem readBody_moves (hquiet : q.quiet) (hd : Delivers d pending) {s : Reader d} {size : ℕ}
    (h : Reading q pending total results (got ++ s.out) s.io) (heof : s.io.eof = 0)
    (hsize : s.out.length + s.size = size) :
    (∃ s', Ends (fun n => readBody n s) (.again s') ∧
      Reading q pending total results (got ++ s'.out) s'.io ∧
        s'.io.eof = 0 ∧ s'.out.length + s'.size = size ∧ s'.size < s.size) ∨
      ∃ r, Ends (fun n => readBody n s) (.leave r) ∧
      ReadDone q pending total results got size r := by
  have hstep : ∀ s' : Reader d, Reading q pending total results (got ++ s'.out) s'.io →
    s'.io.rcount ≠ 0 →
      s'.io.eof = 0 → s'.out.length + s'.size = size → s'.size = s.size → s.size ≠ 0 →
      Reading q pending total results (got ++ (readStep s').out) (readStep s').io ∧
      (readStep s').io.eof = 0 ∧
        (readStep s').out.length + (readStep s').size = size ∧ (readStep s').size < s.size := by
    intro s' hr hne he hs hsz hz
    obtain ⟨hr', hlen⟩ := readStep_moves hr
    have hsz' : (readStep s').size = s'.size - min s'.io.rcount s'.size := rfl
    refine ⟨hr', he, ?_, ?_⟩
    · rw [hlen, hsz']
      omega
    · rw [hsz', ← hsz]
      omega
  unfold readBody
  by_cases hz : s.size = 0
  · simp only [if_pos hz]
    refine Or.inr ⟨_, Ends.const _, s.out, rfl, h, fun hn => absurd heof hn, Or.inl ?_⟩
    omega
  · simp only [if_neg hz]
    by_cases hrc : s.io.rcount ≠ 0
    · simp only [if_pos hrc]
      exact Or.inl ⟨readStep s, Ends.const _, hstep s h hrc heof hsize rfl hz⟩
    · simp only [if_neg hrc]
      obtain ⟨⟨io', c⟩, ⟨hc, hread, hlast⟩, hends⟩ := ioUnderflow_ends hquiet hd h heof
      dsimp only at hc hread hlast
      subst hc
      have hmap := hends.map (readUnderflown s)
      rcases hlast with ⟨hne, he⟩ | ⟨h0, hall⟩
      · have hval : readUnderflown s (io', some io'.rcount) = .again (readStep { s with
          io := io' }) := by
          obtain ⟨c, hc⟩ := Nat.exists_eq_succ_of_ne_zero hne
          unfold readUnderflown
          dsimp only
          rw [hc]
        rw [hval] at hmap
        exact Or.inl ⟨_, hmap, hstep { s with io := io' } hread hne he hsize rfl hz⟩
      · have hval : readUnderflown s (io', some io'.rcount) = .leave (io', some s.out) := by
          unfold readUnderflown
          dsimp only
          rw [h0]
        rw [hval] at hmap
        exact Or.inr ⟨_, hmap, s.out, rfl, hread, fun _ => hall, Or.inr ⟨by omega, hall⟩⟩

theorem ioRead_ends (hquiet : q.quiet) (hd : Delivers d pending)
    (h : Reading q pending total results got io) (heof : EofDone total results got io) (size : ℕ) :
    ∃ r, ReadDone q pending total results got size r ∧ Ends (fun n => ioRead n io size) r := by
  unfold ioRead
  by_cases he : io.eof = 0
  · simp only [if_neg (not_not_intro he)]
    apply ends_run (fun n => readBody n)
      (I := fun m s => Reading q pending total results (got ++ s.out) s.io ∧ s.io.eof = 0 ∧
        s.out.length + s.size = size ∧ s.size ≤ m)
      (fun m s => by
        rintro ⟨hr, he, hs, hm⟩
        rcases readBody_moves hquiet hd hr he hs with ⟨s', hends, hr', he', hs', hlt⟩ |
          ⟨r, hends, hq⟩
        · exact Or.inl ⟨s', _, hends, lt_of_lt_of_le hlt hm, hr', he', hs', le_refl _⟩
        · exact Or.inr ⟨r, hends, hq⟩)
      (m := size)
    refine ⟨?_, he, Nat.zero_add _, le_refl _⟩
    rw [List.append_nil]
    exact h
  · simp only [if_pos he]
    refine ⟨(io, some []), ⟨[], rfl, ?_, ?_, Or.inr ⟨Nat.zero_le _, ?_⟩⟩, Ends.const _⟩
    · rw [List.append_nil]
      exact h
    · rw [List.append_nil]
      exact heof
    · rw [List.append_nil]
      exact heof he

/-! ## Sessions -/

/-- Calls of `io_read` one after the other, with the bytes that they return. -/
def readAll (n : ℕ) : List ℕ → Io d → Option (Io d × Option Str)
  | [], io => some (io, some [])
  | size :: sizes, io =>
    (ioRead n io size).bind fun r =>
      match r.2 with
      | none => some (r.1, none)
      | some out => (readAll n sizes r.1).map fun t => (t.1, t.2.map (out ++ ·))

/-- The calls return the output of the chain up to the number of bytes asked for. -/
theorem readAll_ends (hquiet : q.quiet) (hd : Delivers d pending)
    (h : Reading q pending total results got io) (heof : EofDone total results got io)
    (sizes : List ℕ) :
    ∃ io', Ends (fun n => readAll n sizes io)
      (io', some (((results.getLastD total).drop got.length).take sizes.sum)) := by
  induction sizes generalizing got io with
  | nil =>
    refine ⟨io, ?_⟩
    rw [List.sum_nil, List.take_zero]
    exact Ends.const _
  | cons size sizes ih =>
    obtain ⟨⟨io₁, res⟩, ⟨out, hres, hread, heof₁, hlen⟩, hends⟩ := ioRead_ends hquiet hd h heof size
    obtain ⟨io', hrest⟩ := ih hread heof₁
    dsimp only at hres
    subst hres
    refine ⟨io', ?_⟩
    obtain ⟨w, hw⟩ := hread.begins
    have hbind := hends.bind (g := fun n r => match r.2 with
      | none => some (r.1, none)
      | some out => (readAll n sizes r.1).map fun t => (t.1, t.2.map (out ++ ·)))
      (hrest.map fun t => (t.1, t.2.map (out ++ ·)))
    have hval : ((results.getLastD total).drop got.length).take (size :: sizes).sum =
        out ++ ((results.getLastD total).drop (got ++ out).length).take sizes.sum := by
      rw [← hw, List.drop_left, List.append_assoc, List.drop_left, List.sum_cons, List.take_append]
      rcases hlen with hlen | ⟨hle, hall⟩
      · rw [List.take_of_length_le (by omega)]
        congr 2
        omega
      · have hnil : w = [] := by
          have hl := congrArg List.length (hw.trans hall.symm)
          rw [List.length_append] at hl
          exact List.length_eq_zero_iff.mp (by omega)
        rw [List.take_of_length_le (by omega), hnil, List.take_nil, List.take_nil]
    rw [hval]
    exact hbind

end Klone.Chain
