import Klone.Io.Stream

/-! # A chain of codecs is again a codec

If every codec of a chain keeps the contract, then so does the chain, for the
composition of the functions: the bytes in the buffer of a codec are those that it
has stored and the next one has not taken yet.
-/
namespace Klone.Chain
open Loop

/-! ## The buffer of a codec -/

/-- The buffers of a stream and of its chain are small. -/
theorem sized_small {wide : Prop} {n : ℕ} (h : n ≤ CODEC_BUFSZ) : Sized wide n :=
  Or.inr (h.trans_lt (by decide))

theorem Link.sized_cavail {wide : Prop} (l : Link) : Sized wide l.cavail :=
  sized_small ((Nat.sub_le _ _).trans (Nat.sub_le _ _))

structure Link.Wf (l : Link) : Prop where
  size : l.cbuf.length = CODEC_BUFSZ
  fits : l.coff + l.ccount ≤ CODEC_BUFSZ
  empty : l.ccount = 0 → l.coff = 0

variable {l : Link}

theorem Link.Wf.pending_length (h : l.Wf) : l.pending.length = l.ccount := by
  apply length_window
  rw [h.size]
  exact h.fits

theorem Link.Wf.cavail_add (h : l.Wf) : l.coff + l.ccount + l.cavail = CODEC_BUFSZ := by
  have hf := h.fits
  unfold Link.cavail
  omega

theorem Link.Wf.cavail_pos (h : l.Wf) (hz : l.ccount = 0) : 0 < l.cavail := by
  have ha := h.cavail_add
  rw [hz, h.empty hz] at ha
  unfold CODEC_BUFSZ at ha
  omega

theorem Link.Wf.take_zero (h : l.Wf) (hz : l.ccount = 0) : l.take 0 = l := by
  obtain ⟨codec, state, cbuf, ccount, coff⟩ := l
  obtain rfl : ccount = 0 := hz
  obtain rfl : coff = 0 := h.empty rfl
  rfl

theorem Link.Wf.take (h : l.Wf) {ct : ℕ} (hct : ct ≤ l.ccount) : (l.take ct).Wf := by
  have hf := h.fits
  refine ⟨h.size, ?_, ?_⟩
  · unfold Link.take
    dsimp only
    split <;> omega
  · intro hz
    change (if 0 < l.ccount - ct then l.coff + ct else 0) = 0
    have hz' : l.ccount - ct = 0 := hz
    rw [if_neg (by omega)]

theorem Link.Wf.pending_take (h : l.Wf) (ct : ℕ) : (l.take ct).pending = l.pending.drop ct := by
  change window l.cbuf (if 0 < l.ccount - ct then l.coff + ct else 0) (l.ccount - ct) = _
  split
  · exact window_drop _ _ _ _
  · next hc =>
    have hz : l.ccount - ct = 0 := by omega
    have hd : l.pending.drop ct = [] := by
      apply List.drop_eq_nil_of_le
      rw [h.pending_length]
      omega
    rw [hz, hd]
    rfl

theorem Link.Wf.fill (h : l.Wf) (s : l.codec.State) {out : Str} (hout : out.length ≤ l.cavail)
    {n : ℕ} (hn : n ≤ out.length) : (l.fill s out n).Wf := by
  have ha := h.cavail_add
  have hs := h.size
  refine ⟨?_, ?_, ?_⟩
  · change (blit l.cbuf (l.coff + l.ccount) out).length = CODEC_BUFSZ
    rw [length_blit (by omega), hs]
  · change l.coff + (l.ccount + n) ≤ CODEC_BUFSZ
    omega
  · intro hz
    have hz' : l.ccount + n = 0 := hz
    exact h.empty (by omega)

theorem Link.Wf.pending_fill (h : l.Wf) (s : l.codec.State) {out : Str}
    (hout : out.length ≤ l.cavail) {n : ℕ} (hn : n ≤ out.length) :
    (l.fill s out n).pending = l.pending ++ out.take n := by
  have ha := h.cavail_add
  have hs := h.size
  exact window_blit (by omega) hn

/-! ## Histories of a chain -/

/-- Given no more than a full buffer, the codec takes all of it or stores something. -/
def Codec.Greedy (c : Codec) : Prop :=
  ∀ {s room src k}, 0 < room → src ≠ [] → src.length ≤ CODEC_BUFSZ →
    (c.transform s room src).ret = some k →
    (c.transform s room src).out = [] → k = src.length

structure Tail where
  strict : Prop
  quiet : Prop
  greedy : Prop

structure Tail.Fits (q : Tail) (c : Codec) (total result : Str) : Prop where
  computes : c.Computes q.strict False total result
  quiet : q.quiet → c.Quiet q.strict False total
  greedy : q.greedy → c.Greedy

/-- A codec with a buffer that turns `total` into `result`: `mid` is what the next
codec has taken of its output. -/
structure Head (s : Prop) (hist : (c : Codec) → c.State → Str → Prop) (total result mid : Str)
    (l : Link) : Prop where
  computes : l.codec.Computes s False total result
  quiet : l.codec.Quiet s False total
  wf : l.Wf
  hist : hist l.codec l.state (mid ++ l.pending)

def fed (total inp : Str) (c : Codec) (s : c.State) (out : Str) : Prop :=
  c.Open False total s inp out

def drained (strict : Prop) (total : Str) (c : Codec) (s : c.State) (out : Str) : Prop :=
  c.Draining strict False total s out

/-- A codec that is not strict has to stand before a greedy last one: its buffer is then
empty whenever it is flushed. -/
def Allowed (q : Tail) (s : Prop) (results : List Str) : Prop := s ∨ q.greedy ∧ results.length = 1

/-- A chain that has been given `inp` of `total` and has stored `out`; the results of
the codecs are listed. The last codec is never flushed without room. -/
inductive Feeding (q : Tail) : List Link → Str → List Str → Str → Str → Prop
  | last {l : Link} {total result inp out : Str} (hc : q.Fits l.codec total result)
      (ho : l.codec.Open False total l.state inp out) : Feeding q [l] total [result] inp out
  | link {s : Prop} {l : Link} {rest : List Link} {total result : Str} {results : List Str}
    {inp mid out : Str}
      (ha : Allowed q s results) (hh : Head s (fed total inp) total result mid l)
      (hr : Feeding q rest result results mid out) :
        Feeding q (l :: rest) total (result :: results) inp out

inductive Emptying (q : Tail) : List Link → Str → List Str → Str → Prop
  | last {l : Link} {total result out : Str} (hc : q.Fits l.codec total result)
      (ho : l.codec.Draining q.strict False total l.state out) : Emptying q [l] total [result] out
  | first {s : Prop} {l : Link} {rest : List Link} {total result : Str} {results : List Str}
    {mid out : Str}
      (ha : Allowed q s results) (hh : Head s (drained s total) total result mid l)
      (hr : Feeding q rest result results mid out) :
        Emptying q (l :: rest) total (result :: results) out
  | later {s : Prop} {l : Link} {rest : List Link} {total result : Str}
    {results : List Str} {out : Str}
      (hh : Head s (drained s total) total result result l) (hz : l.ccount = 0)
      (hr : Emptying q rest result results out) :
        Emptying q (l :: rest) total (result :: results) out

variable {q : Tail} {strict : Prop} {links rest : List Link} {total result : Str}
    {results : List Str} {inp mid out : Str}

theorem Head.drain (h : Head strict (fed total total) total result mid l) :
    Head strict (drained strict total) total result mid l :=
  ⟨h.computes, h.quiet, h.wf, .start h.hist⟩

theorem Feeding.emptying (h : Feeding q links total results total out) :
    Emptying q links total results out := by
  cases h with
  | last hc ho => exact .last hc (.start ho)
  | link ha hh hr => exact .first ha hh.drain hr

/-- What a chain has stored is a beginning of the last result. -/
theorem Feeding.begins (h : Feeding q links total results inp out) :
    out <+: results.getLastD total := by
  induction h with
  | last hc ho => exact hc.computes.open_begins ho
  | link ha hh hr ih =>
    rw [List.getLastD_cons]
    exact ih

/-- The results of a chain with more than one codec. -/
theorem Feeding.not_single (h : Feeding q rest result results mid out) {p : Prop} :
    q.greedy → (result :: results).length = 1 → p := by
  intro _ hone
  cases h with
  | last => cases hone
  | link => cases hone

theorem Emptying.begins (h : Emptying q links total results out) :
    out <+: results.getLastD total := by
  induction h with
  | last hc ho => exact hc.computes.drain_begins ho
  | first ha hh hr =>
    rw [List.getLastD_cons]
    exact hr.begins
  | later hh hz hr ih =>
    rw [List.getLastD_cons]
    exact ih

/-! ## Transformation -/

structure Moved (q : Tail) (total : Str) (results : List Str) (inp out : Str) (room : ℕ) (src : Str)
    (t : TransformRes) (k : ℕ) : Prop where
  ret : t.ret = some k
  taken : k ≤ src.length
  stored : t.out.length ≤ room
  progress : 0 < k ∨ t.out ≠ []
  greedy : q.greedy → results.length = 1 → src.length ≤ CODEC_BUFSZ → t.out = [] → k = src.length
  feeding : Feeding q t.links total results (inp ++ src.take k) (out ++ t.out)

/-- The caller does not take progress for an error. -/
theorem not_idle {k : ℕ} {o : Str} (h : 0 < k ∨ o ≠ []) : ¬ (k = 0 ∧ o = []) := by
  rintro ⟨rfl, ho⟩
  rcases h with hlt | hne
  · exact absurd hlt (Nat.lt_irrefl 0)
  · exact hne ho

/-- A bound on the rounds that a codec with buffer can make without new input. -/
def roundsLeft (result mid : Str) (l : Link) : ℕ :=
  2 * (result.length - (mid.length + l.ccount)) + l.ccount

theorem pushPending_moves {next : ℕ → List Link → ℕ → Str → Option TransformRes} {room : ℕ}
    (hw : l.Wf) (hb : mid ++ l.pending <+: result)
    (hnext : ∀ src, src ≠ [] → mid ++ src <+: result → ∃ t k,
      Ends (fun n => next n rest room src) t ∧ Moved q result results mid out room src t k)
    (hf : Feeding q rest result results mid out) :
    ∃ ct rest' o, Ends (fun n => pushPending (next n) l rest room) ⟨l.take ct, rest', some o⟩ ∧
      ct ≤ l.ccount ∧ o.length ≤ room ∧ (l.ccount = 0 ∨ 0 < ct ∨ o ≠ []) ∧
      (q.greedy → results.length = 1 → o = [] → ct = l.ccount) ∧
      Feeding q rest' result results (mid ++ l.pending.take ct) (out ++ o) := by
  unfold pushPending
  by_cases hz : l.ccount = 0
  · refine ⟨0, rest, [], ?_, Nat.zero_le _, Nat.zero_le _, Or.inl hz, fun _ _ _ => hz.symm, ?_⟩
    · simp only [if_pos hz, hw.take_zero hz]
      exact Ends.const _
    · simpa using hf
  · have hne : l.pending ≠ [] := by
      intro he
      have hl := hw.pending_length
      rw [he] at hl
      exact hz hl.symm
    obtain ⟨t, k, ht, hm⟩ := hnext l.pending hne hb
    refine ⟨k, t.links, t.out, ?_, ?_, hm.stored, Or.inr hm.progress, ?_, hm.feeding⟩
    · simp only [if_neg hz]
      apply ht.map_eq
      simp only [hm.ret]
    · rw [← hw.pending_length]
      exact hm.taken
    · intro hg hone ho
      rw [← hw.pending_length]
      apply hm.greedy hg hone _ ho
      have hfits := hw.fits
      rw [hw.pending_length]
      omega

/-- Bytes that move on from the buffer leave the history of the codec as it is. -/
theorem Head.take {hist : (c : Codec) → c.State → Str → Prop}
    (h : Head strict hist total result mid l) {ct : ℕ} (hct : ct ≤ l.ccount) :
    Head strict hist total result (mid ++ l.pending.take ct) (l.take ct) := by
  refine ⟨h.computes, h.quiet, h.wf.take hct, ?_⟩
  rw [h.wf.pending_take, List.append_assoc, List.take_append_drop]
  exact h.hist

theorem Head.roundsLeft_take {hist : (c : Codec) → c.State → Str → Prop}
    (h : Head strict hist total result mid l) {ct : ℕ} (hct : ct ≤ l.ccount) :
    roundsLeft result (mid ++ l.pending.take ct) (l.take ct) + ct = roundsLeft result mid l := by
  have hl : (l.pending.take ct).length = ct := by
    rw [List.length_take, h.wf.pending_length]
    omega
  have hc : (l.take ct).ccount = l.ccount - ct := rfl
  unfold roundsLeft
  rw [List.length_append, hl, hc]
  have he : mid.length + ct + (l.ccount - ct) = mid.length + l.ccount := by omega
  rw [he]
  omega

/-- The codec has stored bytes behind its buffer and counted `n` of them. -/
theorem Head.fill {hist hist' : (c : Codec) → c.State → Str → Prop}
    (h : Head strict hist total result mid l) {s : l.codec.State} {out' : Str}
    (hout : out'.length ≤ l.cavail) {n : ℕ} (hn : n ≤ out'.length)
    (hs : hist' l.codec s (mid ++ l.pending ++ out'.take n)) :
    Head strict hist' total result mid (l.fill s out' n) := by
  refine ⟨h.computes, h.quiet, h.wf.fill s hout hn, ?_⟩
  rw [h.wf.pending_fill s hout hn, ← List.append_assoc]
  exact hs

/-- All that it has stored. -/
theorem Head.fill_all {hist hist' : (c : Codec) → c.State → Str → Prop}
    (h : Head strict hist total result mid l) {s : l.codec.State} {out' : Str}
    (hout : out'.length ≤ l.cavail) (hs : hist' l.codec s (mid ++ l.pending ++ out')) :
    Head strict hist' total result mid (l.fill s out' out'.length) := by
  apply h.fill hout (le_refl _)
  rw [List.take_length]
  exact hs

theorem Head.roundsLeft_fill {hist : (c : Codec) → c.State → Str → Prop}
    (h : Head strict hist total result mid l) (s : l.codec.State) {out' : Str}
    (hb : mid ++ l.pending ++ out' <+: result) :
    roundsLeft result mid (l.fill s out' out'.length) + out'.length = roundsLeft result mid l := by
  have hlen := hb.length_le
  rw [List.length_append, List.length_append, h.wf.pending_length] at hlen
  have hc : (l.fill s out' out'.length).ccount = l.ccount + out'.length := rfl
  unfold roundsLeft
  rw [hc]
  omega

/-- New input for a codec with buffer: the round is the last one unless nothing has
been taken, and then one round less is left. -/
theorem transformInput_moves {room : ℕ} {src o : Str} (hsrc : src ≠ [])
    (htotal : inp ++ src <+: total) (hstored : o.length ≤ room) (ha : Allowed q strict results)
    (hh : Head strict (fed total inp) total result mid l)
    (hr : Feeding q rest result results mid (out ++ o)) {m : ℕ}
    (hm : roundsLeft result mid l < m ∨ o ≠ [] ∨ l.ccount = 0 ∧ roundsLeft result mid l ≤ m) :
    (∃ l', transformInput src l rest o = .again (l', rest) ∧ o = [] ∧
      Head strict (fed total inp) total result mid l' ∧
        roundsLeft result mid l' < m) ∨
      ∃ t k, transformInput src l rest o = .leave t ∧
      Moved q total (result :: results) inp out room src t k := by
  unfold transformInput
  by_cases hroom : 0 < l.cavail
  · obtain ⟨k, hret, hk, hlen, hprog⟩ :=
      hh.computes.transform_ret hh.hist hroom l.sized_cavail hsrc htotal
    have hopen := Codec.Open.transform hh.hist hroom l.sized_cavail hsrc htotal hret
    have hfill : Head strict (fed total (inp ++ src.take k)) total result mid _ :=
      hh.fill_all hlen hopen
    rw [if_pos ⟨hsrc, hroom⟩]
    dsimp only
    rw [hret]
    dsimp only
    rw [if_neg (not_idle hprog)]
    by_cases hstay : k = 0 ∧ o = []
    · obtain ⟨rfl, rfl⟩ := hstay
      rw [if_pos ⟨rfl, rfl⟩]
      rw [List.take_zero, List.append_nil] at hfill hopen
      have hbegins := hh.computes.open_begins hopen
      have hleft := hh.roundsLeft_fill (l.codec.transform l.state l.cavail src).state hbegins
      have hpos := List.length_pos_iff.mpr fun he => not_idle hprog ⟨rfl, he⟩
      refine Or.inl ⟨_, rfl, rfl, hfill, ?_⟩
      rcases hm with hm | hm | ⟨-, hm⟩
      · omega
      · exact absurd rfl hm
      · omega
    · rw [if_neg hstay]
      refine Or.inr ⟨_, k, rfl, rfl, hk, hstored, ?_, hr.not_single, .link ha hfill hr⟩
      by_cases hk0 : k = 0
      · exact Or.inr fun he => hstay ⟨hk0, he⟩
      · exact Or.inl (Nat.pos_of_ne_zero hk0)
  · rw [if_neg fun hc => hroom hc.2]
    by_cases ho : o = []
    · rw [if_pos ⟨ho, Or.inr hsrc⟩]
      refine Or.inl ⟨l, rfl, ho, hh, ?_⟩
      rcases hm with hm | hm | ⟨hz, -⟩
      · exact hm
      · exact absurd ho hm
      · exact absurd (hh.wf.cavail_pos hz) hroom
    · rw [if_neg fun hc => ho hc.1]
      refine Or.inr ⟨_, 0, rfl, rfl, Nat.zero_le _, hstored, Or.inr ho, hr.not_single,
        .link ha ?_ hr⟩
      rw [List.take_zero, List.append_nil]
      exact hh

theorem transformBody_moves {next : ℕ → List Link → ℕ → Str → Option TransformRes} {room : ℕ}
    {src : Str} (hsrc : src ≠ []) (htotal : inp ++ src <+: total)
    (hnext : ∀ rest mid out, Feeding q rest result results mid out → ∀ src, src ≠ [] →
      mid ++ src <+: result → ∃ t k, Ends (fun n => next n rest room src) t ∧
      Moved q result results mid out room src t k)
    (ha : Allowed q strict results) (hh : Head strict (fed total inp) total result mid l)
    (hr : Feeding q rest result results mid out) :
    (∃ l' rest' mid', Ends (fun n => transformBody (next n) room src (l, rest))
      (.again (l', rest')) ∧
        Head strict (fed total inp) total result mid' l' ∧ Feeding q rest' result results mid' out ∧
        roundsLeft result mid' l' < roundsLeft result mid l) ∨
      ∃ t, Ends (fun n => transformBody (next n) room src (l, rest)) (.leave t) ∧
        ∃ k, Moved q total (result :: results) inp out room src t k := by
  obtain ⟨ct, rest', o, hends, hct, hstored, hprog, -, hr'⟩ := pushPending_moves hh.wf
    (hh.computes.open_begins hh.hist) (hnext rest mid out hr) hr
  have hleft := hh.roundsLeft_take hct
  have hm : roundsLeft result (mid ++ l.pending.take ct) (l.take ct) < roundsLeft result mid l ∨
    o ≠ [] ∨
      (l.take ct).ccount = 0 ∧
        roundsLeft result (mid ++ l.pending.take ct) (l.take ct) ≤ roundsLeft result mid l := by
    rcases hprog with hz | hpos | hne
    · refine Or.inr (Or.inr ⟨?_, by omega⟩)
      change l.ccount - ct = 0
      omega
    · exact Or.inl (by omega)
    · exact Or.inr (Or.inl hne)
  rcases transformInput_moves hsrc htotal hstored ha (hh.take hct) hr' hm with
    ⟨l', he, rfl, hh', hlt⟩ | ⟨t, k, he, hmoved⟩
  · rw [List.append_nil] at hr'
    exact Or.inl ⟨l', rest', _, hends.map_eq he, hh', hr', hlt⟩
  · exact Or.inr ⟨t, hends.map_eq he, k, hmoved⟩

theorem ioTransform_moves {room : ℕ} {src : Str} (hroom : 0 < room) (hfits : room ≤ CODEC_BUFSZ)
    (hsrc : src ≠ []) (htotal : inp ++ src <+: total) (h : Feeding q links total results inp out) :
    ∃ t k, Ends (fun n => ioTransform n links room src) t ∧
    Moved q total results inp out room src t k := by
  induction results generalizing links total inp out src with
  | nil => cases h
  | cons result results ih =>
    cases h with
    | @last l _ _ _ _ hc ho =>
      obtain ⟨k, hret, hk, hlen, hprog⟩ :=
        hc.computes.transform_ret ho hroom (sized_small hfits) hsrc htotal
      have hnone : ¬ ((l.codec.transform l.state room src).ret = some 0 ∧
          (l.codec.transform l.state room src).out = []) := by
        rintro ⟨hz, he⟩
        exact not_idle hprog ⟨Option.some.inj (hret.symm.trans hz), he⟩
      refine ⟨_, k, Ends.succ (Ends.const _) fun n => rfl, ?_⟩
      refine ⟨(if_neg hnone).trans hret, hk, hlen, hprog, ?_, .last hc ?_⟩
      · exact fun hg _ hle hnil => hc.greedy hg hroom hsrc hle hret hnil
      exact Codec.Open.transform ho hroom (sized_small hfits) hsrc htotal hret
    | @link strict l rest _ _ _ _ mid _ ha hh hr =>
      have hnext : ∀ rest mid out, Feeding q rest result results mid out → ∀ src, src ≠ [] →
          mid ++ src <+: result → ∃ t k, Ends (fun n => ioTransform n rest room src) t ∧
          Moved q result results mid out room src t k :=
        fun rest mid out hf src hsrc htotal => ih hsrc htotal hf
      have hrun := ends_run (fun n => transformBody (ioTransform n) room src)
        (I := fun m s => ∃ mid, Head strict (fed total inp) total result mid s.1 ∧
          Feeding q s.2 result results mid out ∧
          roundsLeft result mid s.1 ≤ m)
        (Q := fun t => ∃ k, Moved q total (result :: results) inp out room src t k)
        (fun m s => by
          obtain ⟨l, rest⟩ := s
          rintro ⟨mid, hh, hr, hm⟩
          rcases transformBody_moves hsrc htotal hnext ha hh hr with
            ⟨l', rest', mid', he, hh', hr', hlt⟩ | ⟨t, he, hq⟩
          · exact Or.inl ⟨(l', rest'), _, he, lt_of_lt_of_le hlt hm, mid', hh', hr', le_refl _⟩
          · exact Or.inr ⟨t, he, hq⟩)
        (s := (l, rest)) ⟨mid, hh, hr, le_refl _⟩
      obtain ⟨t, ⟨k, hmoved⟩, hends⟩ := hrun
      refine ⟨t, k, Ends.succ hends fun n => ?_, hmoved⟩
      cases hr with
      | last => rfl
      | link => rfl

/-! ## Flush -/

/-- A codec that has nothing left stays as it is: the flush goes on to the next one
when its buffer is empty. -/
theorem flushLink_complete (rest : List Link)
    (hh : Head strict (drained strict total) total result mid l) (hroom : strict ∨ 0 < l.cavail)
    (hret : (l.codec.flush l.state l.cavail).ret = .complete)
    (hcount : (l.codec.flush l.state l.cavail).dcount = 0) :
    ∃ l', flushLink l rest = (if l.ccount = 0 then .leave ⟨l', rest, none⟩ else .again (l', rest)) ∧
      Head strict (drained strict total) total result mid l' ∧ l'.ccount = l.ccount := by
  have hlen : (l.codec.flush l.state l.cavail).out.length ≤ l.cavail :=
    (hh.computes.flush_ret hh.hist hroom l.sized_cavail).1
  have hdrain : drained strict total l.codec (l.codec.flush l.state l.cavail).state
      (mid ++ l.pending ++ (l.codec.flush l.state l.cavail).out.take 0) := by
    rw [List.take_zero, List.append_nil]
    exact Codec.Draining.complete hh.hist hroom l.sized_cavail hret
  refine ⟨_, ?_, hh.fill hlen (Nat.zero_le _) hdrain, rfl⟩
  unfold flushLink
  dsimp only
  rw [hret, hcount]
  rfl

/-- One codec of the chain is flushed into its buffer: it is complete and its buffer
is empty, or one round less is left. -/
theorem flushLink_moves (rest : List Link) {m : ℕ}
    (hh : Head strict (drained strict total) total result mid l) (hroom : strict ∨ 0 < l.cavail)
    (hm : roundsLeft result mid l < m ∨ l.ccount = 0 ∧ roundsLeft result mid l ≤ m) :
    (∃ l', flushLink l rest = .again (l', rest) ∧
      Head strict (drained strict total) total result mid l' ∧
        roundsLeft result mid l' < m) ∨
      ∃ l', flushLink l rest = .leave ⟨l', rest, none⟩ ∧
      Head strict (drained strict total) total result mid l' ∧
        l'.ccount = 0 ∧ mid = result := by
  obtain ⟨hlen, hret⟩ := hh.computes.flush_ret hh.hist hroom l.sized_cavail
  rcases hret with ⟨hc, hall, -⟩ | ⟨hc, hd, hne⟩
  · obtain ⟨l', he, hh', hcount⟩ :=
      flushLink_complete rest hh hroom hc (hh.quiet hh.hist hroom l.sized_cavail hc)
    by_cases hz : l.ccount = 0
    · have hp : l.pending = [] := by
        rw [Link.pending, hz, window_zero]
      rw [hp, List.append_nil] at hall
      exact Or.inr ⟨l', he.trans (if_pos hz), hh', hcount.trans hz, hall⟩
    · refine Or.inl ⟨l', he.trans (if_neg hz), hh', ?_⟩
      have hlt := hm.resolve_right fun h => hz h.1
      unfold roundsLeft at hlt ⊢
      rw [hcount]
      exact hlt
  · have hdrain := Codec.Draining.chunk hh.hist hroom l.sized_cavail hc
    have hfill : Head strict (drained strict total) total result mid _ := hh.fill_all hlen hdrain
    have hleft := hh.roundsLeft_fill (l.codec.flush l.state l.cavail).state
      (hh.computes.drain_begins hdrain)
    refine Or.inl ⟨_, ?_, hfill, ?_⟩
    · unfold flushLink
      dsimp only
      rw [hc, hd]
    · rcases hm with hm | ⟨hz, hm⟩
      · omega
      · have hpos : 0 < (l.codec.flush l.state l.cavail).out.length := by
          rcases hne with hne | hne
          · exact List.length_pos_iff.mpr hne
          · exact absurd hne (Nat.pos_iff_ne_zero.mp (hh.wf.cavail_pos hz))
        omega

def LinkDone (q : Tail) (total result : Str) (results : List Str) (out : Str) (room : ℕ)
    (b : LinkFlushed) :
    Prop :=
  (∃ o, b.ret = some (.chunk, o) ∧ o ≠ [] ∧ o.length ≤ room ∧
      Emptying q (b.link :: b.rest) total (result :: results) (out ++ o)) ∨
    b.ret = none ∧ (∃ strict, Head strict (drained strict total) total result result b.link) ∧
    b.link.ccount = 0 ∧
      Emptying q b.rest result results out

theorem flushBody_moves {room : ℕ} (hroom : 0 < room) (hfits : room ≤ CODEC_BUFSZ)
    (ha : Allowed q strict results) (hh : Head strict (drained strict total) total result mid l)
    (hr : Feeding q rest result results mid out) :
    (∃ l' rest' mid', Ends (fun n => flushBody (ioTransform n) room (l, rest))
      (.again (l', rest')) ∧
        Head strict (drained strict total) total result mid' l' ∧
        Feeding q rest' result results mid' out ∧
        roundsLeft result mid' l' < roundsLeft result mid l) ∨
      ∃ b, Ends (fun n => flushBody (ioTransform n) room (l, rest)) (.leave b) ∧
        LinkDone q total result results out room b := by
  obtain ⟨ct, rest', o, hends, hct, hstored, hprog, hall, hr'⟩ := pushPending_moves hh.wf
    (hh.computes.drain_begins hh.hist)
      (fun src hsrc htotal => ioTransform_moves hroom hfits hsrc htotal hr) hr
  have hh' := hh.take hct
  have hleft := hh.roundsLeft_take hct
  cases o with
  | cons a o =>
    refine Or.inr ⟨_, hends.map_eq rfl,
      Or.inl ⟨a :: o, rfl, List.cons_ne_nil _ _, hstored, .first ha hh' hr'⟩⟩
  | nil =>
    rw [List.append_nil] at hr'
    have hm : roundsLeft result (mid ++ l.pending.take ct) (l.take ct) < roundsLeft result mid l ∨
        (l.take ct).ccount = 0 ∧
          roundsLeft result (mid ++ l.pending.take ct) (l.take ct) ≤ roundsLeft result mid l := by
      rcases hprog with hz | hpos | hne
      · refine Or.inr ⟨?_, by omega⟩
        change l.ccount - ct = 0
        omega
      · exact Or.inl (by omega)
      · exact absurd rfl hne
    have hfree : strict ∨ 0 < (l.take ct).cavail := by
      refine ha.imp_right fun hg => hh'.wf.cavail_pos ?_
      change l.ccount - ct = 0
      rw [hall hg.1 hg.2 rfl, Nat.sub_self]
    rcases flushLink_moves rest' hh' hfree hm with ⟨l', he, hl', hlt⟩ | ⟨l', he, hl', hz, hmid⟩
    · exact Or.inl ⟨l', rest', _, hends.map_eq he, hl', hr', hlt⟩
    · refine Or.inr ⟨⟨l', rest', none⟩, hends.map_eq he, Or.inr ⟨rfl, ?_, hz, ?_⟩⟩
      · rw [hmid] at hl'
        exact ⟨strict, hl'⟩
      · rw [hmid] at hr'
        exact hr'.emptying

theorem flushFirst_ends {room : ℕ} (hroom : 0 < room) (hfits : room ≤ CODEC_BUFSZ)
    (ha : Allowed q strict results) (hh : Head strict (drained strict total) total result mid l)
    (hr : Feeding q rest result results mid out) :
    ∃ b, LinkDone q total result results out room b ∧
    Ends (fun n => run (flushBody (ioTransform n) room) n (l, rest)) b :=
  ends_run (fun n => flushBody (ioTransform n) room)
    (I := fun m s => ∃ mid, Head strict (drained strict total) total result mid s.1 ∧
      Feeding q s.2 result results mid out ∧
      roundsLeft result mid s.1 ≤ m)
    (fun m s => by
      obtain ⟨l, rest⟩ := s
      rintro ⟨mid, hh, hr, hm⟩
      rcases flushBody_moves hroom hfits ha hh hr with
        ⟨l', rest', mid', he, hh', hr', hlt⟩ | ⟨b, he, hb⟩
      · exact Or.inl ⟨(l', rest'), _, he, lt_of_lt_of_le hlt hm, mid', hh', hr', le_refl _⟩
      · exact Or.inr ⟨b, he, hb⟩)
    (s := (l, rest)) ⟨mid, hh, hr, le_refl _⟩

/-- A codec that is complete stays so when the flush of the chain comes again. -/
theorem flushLater_ends {room : ℕ} (hh : Head strict (drained strict total) total result result l)
    (hz : l.ccount = 0) (hr : Emptying q rest result results out) :
    ∃ b, LinkDone q total result results out room b ∧
    Ends (fun n => run (flushBody (ioTransform n) room) n (l, rest)) b := by
  have hleft : roundsLeft result result l = 0 := by
    unfold roundsLeft
    omega
  have hbody : ∀ n, flushBody (ioTransform n) room (l, rest) = some (flushLink l rest) := by
    intro n
    unfold flushBody pushPending
    dsimp only
    rw [if_pos hz]
    rfl
  rcases flushLink_moves rest (m := 0) hh (Or.inr (hh.wf.cavail_pos hz))
    (Or.inr ⟨hz, by omega⟩) with ⟨l', -, -, hlt⟩ | ⟨l', he, hl', hz', -⟩
  · exact absurd hlt (Nat.not_lt_zero _)
  · refine ⟨⟨l', rest, none⟩, Or.inr ⟨rfl, ⟨strict, hl'⟩, hz', hr⟩, ?_⟩
    apply Ends.succ (Ends.const _)
    intro n
    apply run_leave
    rw [hbody, he]

def ChunkDone (q : Tail) (total : Str) (results : List Str) (out : Str) (room : ℕ) (r : ChunkRes) :
    Prop :=
  (r.ret = .complete ∧ out = results.getLastD total ∧ (q.quiet → r.dcount = 0) ∧
    r.out.length ≤ room ∧
      Emptying q r.links total results out) ∨
    r.ret = .chunk ∧ r.dcount = r.out.length ∧ r.out ≠ [] ∧ r.out.length ≤ room ∧
      Emptying q r.links total results (out ++ r.out)

theorem ioChainFlushChunk_cons {room : ℕ}
    (hrest : ∀ {links out}, Emptying q links result results out →
      ∃ r, Ends (fun n => ioChainFlushChunk n links room) r ∧ ChunkDone q result results out room r)
    (hne : rest ≠ []) {b : LinkFlushed} (hdone : LinkDone q total result results out room b)
    (hends : Ends (fun n => run (flushBody (ioTransform n) room) n (l, rest)) b) :
    ∃ r, Ends (fun n => ioChainFlushChunk n (l :: rest) room) r ∧
    ChunkDone q total (result :: results) out room r := by
  obtain ⟨l₂, rest₂, rfl⟩ := List.exists_cons_of_ne_nil hne
  have hstep : ∀ {r}, Ends (fun n => chunkAfter (fun rest => ioChainFlushChunk n rest room) b) r →
      Ends (fun n => ioChainFlushChunk n (l :: l₂ :: rest₂) room) r :=
    fun hr => Ends.succ (hends.bind hr) fun n => rfl
  unfold chunkAfter at hstep
  rcases hdone with ⟨o, hret, ho, hlen, he⟩ | ⟨hret, ⟨strict, hh⟩, hz, he⟩
  · rw [hret] at hstep
    exact ⟨_, hstep (Ends.const _), Or.inr ⟨rfl, rfl, ho, hlen, he⟩⟩
  · rw [hret] at hstep
    obtain ⟨r, hr, hd⟩ := hrest he
    refine ⟨_, hstep (hr.map _), ?_⟩
    rcases hd with ⟨hret, hall, hq, hlen, he⟩ | ⟨hret, hd, hne, hlen, he⟩
    · have hlast : out = (result :: results).getLastD total := by
        rw [List.getLastD_cons]
        exact hall
      exact Or.inl ⟨hret, hlast, hq, hlen, .later hh hz he⟩
    · exact Or.inr ⟨hret, hd, hne, hlen, .later hh hz he⟩

theorem ioChainFlushChunk_ends {room : ℕ} (hroom : 0 < room) (hfits : room ≤ CODEC_BUFSZ)
    (h : Emptying q links total results out) :
    ∃ r, Ends (fun n => ioChainFlushChunk n links room) r ∧
    ChunkDone q total results out room r := by
  induction results generalizing links total out with
  | nil => cases h
  | cons result results ih =>
    cases h with
    | @last l _ _ _ hc ho =>
      obtain ⟨hlen, hret⟩ := hc.computes.flush_ret ho (Or.inr hroom) (sized_small hfits)
      refine ⟨_, Ends.succ (Ends.const _) fun n => rfl, ?_⟩
      rcases hret with ⟨hr, hall, -⟩ | ⟨hr, hd, hne⟩
      · exact Or.inl ⟨hr, hall, fun hq => hc.quiet hq ho (Or.inr hroom) (sized_small hfits) hr,
          hlen, .last hc (.complete ho (Or.inr hroom) (sized_small hfits) hr)⟩
      · have hout := hne.resolve_right (Nat.pos_iff_ne_zero.mp hroom)
        exact Or.inr ⟨hr, hd, hout, hlen,
          .last hc (.chunk ho (Or.inr hroom) (sized_small hfits) hr)⟩
    | first ha hh hr =>
      obtain ⟨b, hdone, hends⟩ := flushFirst_ends hroom hfits ha hh hr
      apply ioChainFlushChunk_cons ih _ hdone hends
      rintro rfl
      cases hr
    | later hh hz hr =>
      obtain ⟨b, hdone, hends⟩ := flushLater_ends hh hz hr
      apply ioChainFlushChunk_cons ih _ hdone hends
      rintro rfl
      cases hr

theorem ioTransfer_moves {d : Device} {io : Io d} {out src : Str} {room : ℕ} (hroom : 0 < room)
    (hfits : room ≤ CODEC_BUFSZ) (hsrc : src ≠ []) (htotal : inp ++ src <+: total)
    (h : Feeding q io.codecChain total results inp out) :
    ∃ t k, Ends (fun n => ioTransfer n io room src) t ∧
    Moved q total results inp out room src t k := by
  have ht := ioTransform_moves hroom hfits hsrc htotal h
  unfold ioTransfer
  cases hc : io.codecChain with
  | nil =>
    rw [hc] at h
    cases h
  | cons l rest =>
    rw [hc] at ht
    exact ht

end Klone.Chain
