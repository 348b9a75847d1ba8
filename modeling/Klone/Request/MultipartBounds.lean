import Klone.Request.Multipart

/-! # The stack buffer of the multipart parser

Each `read_until` call of a part starts where the previous one stopped. The places
where calls start are described on the body alone, and the buffer is overrun
exactly when one of these places begins an overrunning stretch of the body.
-/
namespace Klone.Multipart
open Loop Matcher

/-- The first `k` bytes fill the buffer without a delimiter: `k` is the first place
with no room for a delimiter where none has begun. -/
def ChunkEnds (stopAt : Str) (size : ℕ) (s : List Byte) (k : ℕ) : Prop :=
  0 < k ∧ k ≤ s.length ∧ ¬ stopAt <:+: s.take k ∧ size ≤ k + stopAt.length ∧
    ¬ Partial stopAt (s.take k) ∧ ∀ j, j < k → size ≤ j + stopAt.length → Partial stopAt (s.take j)

inductive CallAt (stopAt : Str) (size : ℕ) (accepts : ℕ → Bool) (s : List Byte) : ℕ → Prop
  | first : CallAt stopAt size accepts s 0
  | next {q k : ℕ} (hq : CallAt stopAt size accepts s q) (hk : ChunkEnds stopAt size (s.drop q) k)
      (ha : accepts (q + k) = true) : CallAt stopAt size accepts s (q + k)

def PartFits (stopAt : Str) (size : ℕ) (accepts : ℕ → Bool) (s : List Byte) : Prop :=
  ∀ q, CallAt stopAt size accepts s q → ¬ Overruns stopAt size (s.drop q)

theorem not_infix_of_visits {a : Byte} {d : Str} (ha : a ∉ d) {src : Source} {size k : ℕ}
    (hv : Visits (a :: d) src size k)
    (hfull : state (a :: d) (src.bytes.take k) < (a :: d).length) :
    ¬ (a :: d) <:+: src.bytes.take k := by
  refine (not_infix_iff ha).mpr fun j hj => ?_
  rw [List.length_take] at hj
  rw [List.take_take, Nat.min_eq_left (by omega)]
  rcases Nat.lt_or_ge j k with hlt | hge
  · exact hv.state_lt ha j hlt
  · have he : j = k := by omega
    rw [he]
    exact hfull

theorem state_take_pos_iff {a : Byte} {d : Str} (ha : a ∉ d) {s : List Byte} {k : ℕ}
    (h : ∀ j, j < k → state (a :: d) (s.take j) < (a :: d).length) :
    0 < state (a :: d) (s.take k) ↔ Partial (a :: d) (s.take k) := by
  refine state_pos_iff ha fun j hj => ?_
  rw [List.length_take] at hj
  rw [List.take_take, Nat.min_eq_left (by omega)]
  exact h j (by omega)

theorem partial_of_visits {a : Byte} {d : Str} (ha : a ∉ d) {src : Source} {size k : ℕ}
    (hv : Visits (a :: d) src size k) :
    0 < state (a :: d) (src.bytes.take k) ↔ Partial (a :: d) (src.bytes.take k) :=
  state_take_pos_iff ha (hv.state_lt ha)

theorem Visits.pred {stopAt : Str} {src : Source} {size k j : ℕ} (hv : Visits stopAt src size k)
    (hj : j ≤ k) : Visits stopAt src size j :=
  ⟨hj.trans hv.1, fun i hi => hv.2 i (lt_of_lt_of_le hi hj)⟩

/-- A call that fits returns a chunk without delimiter only at a chunk end or at
the end of the stream. -/
theorem chunkEnds_of_readUntil {a : Byte} {d : Str} (ha : a ∉ d) {src : Source} {size n : ℕ}
    (hsize : (a :: d).length ≤ size) (hs : size < sizeMod)
    (hfit : ¬ Overruns (a :: d) size src.bytes) (hrc : (readUntil src (a :: d) size).1 = some n)
    (hn : 0 < n) (hf : (readUntil src (a :: d) size).2.found = false) :
    (readUntil src (a :: d) size).2.src = src.skip n ∧ n ≤ src.bytes.length ∧
      (readUntil src (a :: d) size).2.dst = src.bytes.take n ∧
      (ChunkEnds (a :: d) size src.bytes n ∨ n = src.bytes.length) := by
  have hle := (readUntil_length_le_iff ha src hsize hs).mpr hfit
  obtain ⟨k, hv, hr⟩ := readUntil_spec ha src hsize
  have hdst : (scanAt (a :: d) src size k).dst.length = k := by
    simp only [scanAt, List.length_take, Nat.min_eq_left hv.1]
  rcases hr with ⟨hr, hstop⟩ | ⟨hr, _, hlen⟩
  · rw [hr] at hrc hf hle ⊢
    obtain rfl : k = n := Option.some.inj hrc
    refine ⟨rfl, hv.1, rfl, Or.inl ?_⟩
    have hk : k ≤ size := by rw [← hdst]; exact hle
    have hnf : ¬ (0 < k ∧ state (a :: d) (src.bytes.take k) = (a :: d).length) := by
      simpa only [scanAt, decide_eq_false_iff_not] using hf
    rw [stops_scanAt_iff hk hs] at hstop
    obtain ⟨hzero, hroom⟩ := hstop.resolve_left hnf
    have hlt : state (a :: d) (src.bytes.take k) < (a :: d).length := by
      rw [hzero, List.length_cons]
      exact Nat.succ_pos _
    refine ⟨hn, hv.1, not_infix_of_visits ha hv hlt, hroom, ?_, ?_⟩
    · rw [← partial_of_visits ha hv]
      omega
    · intro j hj hroomj
      have hns := hv.2 j hj
      rw [stops_scanAt_iff (by omega) hs, not_or] at hns
      have hz : state (a :: d) (src.bytes.take j) ≠ 0 := fun h => hns.2 ⟨h, hroomj⟩
      exact (partial_of_visits ha (hv.pred hj.le)).mp (by omega)
  · rw [hr] at hrc hf hle ⊢
    have hkn : k = n := by
      cases hfail : src.fails with
      | true => simp [hfail] at hrc
      | false => simpa [hfail] using hrc
    subst hkn
    exact ⟨rfl, hv.1, rfl, Or.inr hlen⟩

/-- The loop leaves at the first head that stops it. -/
theorem readUntil_of_visits {a : Byte} {d : Str} (ha : a ∉ d) {src : Source} {size k : ℕ}
    (hsize : (a :: d).length ≤ size) (hv : Visits (a :: d) src size k)
    (hstop : (scanAt (a :: d) src size k).Stops (a :: d)) :
    readUntil src (a :: d) size = (some k, scanAt (a :: d) src size k) := by
  obtain ⟨i, hi, hr⟩ := readUntil_spec ha src hsize
  have hik : i = k := by
    rcases Nat.lt_trichotomy i k with hlt | rfl | hgt
    · rcases hr with ⟨_, hs⟩ | ⟨_, _, hlen⟩
      · exact absurd hs (hv.2 i hlt)
      · exact absurd hv.1 (by omega)
    · rfl
    · exact absurd hstop (hi.2 k hgt)
  subst hik
  rcases hr with ⟨hr, _⟩ | ⟨_, hns, _⟩
  · exact hr
  · exact absurd hstop hns

theorem ChunkEnds.le_size {stopAt : Str} {size k : ℕ} {s : List Byte}
    (hfit : ¬ Overruns stopAt size s) (hk : ChunkEnds stopAt size s k) : k ≤ size := by
  obtain ⟨-, hkl, hno, -, -, hbefore⟩ := hk
  by_contra hgt
  refine hfit ⟨by omega, ?_, fun j hj hroom => hbefore j (by omega) hroom⟩
  intro hinf
  have he : s.take size = (s.take k).take size := by
    rw [List.take_take, Nat.min_eq_left (by omega)]
  rw [he] at hinf
  exact hno (hinf.trans (List.take_prefix _ _).isInfix)

theorem ChunkEnds.state_lt {a : Byte} {d : Str} (ha : a ∉ d) {size k : ℕ} {s : List Byte}
    (hk : ChunkEnds (a :: d) size s k) {j : ℕ} (hj : j ≤ k) :
    state (a :: d) (s.take j) < (a :: d).length := by
  have h := (not_infix_iff ha).mp hk.2.2.1 j (by rw [List.length_take]; have := hk.2.1; omega)
  rwa [List.take_take, Nat.min_eq_left hj] at h

/-- Conversely a call at a chunk end returns that chunk. -/
theorem readUntil_of_chunkEnds {a : Byte} {d : Str} (ha : a ∉ d) {src : Source} {size k : ℕ}
    (hsize : (a :: d).length ≤ size) (hs : size < sizeMod)
    (hfit : ¬ Overruns (a :: d) size src.bytes) (hk : ChunkEnds (a :: d) size src.bytes k) :
    readUntil src (a :: d) size = (some k, scanAt (a :: d) src size k) ∧
      (scanAt (a :: d) src size k).found = false := by
  have hksize := hk.le_size hfit
  have hlt : ∀ j, j ≤ k → state (a :: d) (src.bytes.take j) < (a :: d).length :=
    fun j hj => hk.state_lt ha hj
  have hpart : ∀ j, j ≤ k →
      (0 < state (a :: d) (src.bytes.take j) ↔ Partial (a :: d) (src.bytes.take j)) :=
    fun j hj => state_take_pos_iff ha fun i hi => hlt i (by omega)
  obtain ⟨-, hkl, -, hroom, hnp, hbefore⟩ := hk
  have hzero : state (a :: d) (src.bytes.take k) = 0 := by
    have hnpos := (hpart k le_rfl).not.mpr hnp
    omega
  have hvisits : Visits (a :: d) src size k := by
    refine ⟨hkl, fun j hj => ?_⟩
    rw [stops_scanAt_iff (by omega) hs]
    rintro (⟨_, hfull⟩ | ⟨hz, hroomj⟩)
    · exact absurd hfull (hlt j hj.le).ne
    · exact absurd hz ((hpart j hj.le).mpr (hbefore j hj hroomj)).ne'
  have hstop : (scanAt (a :: d) src size k).Stops (a :: d) :=
    (stops_scanAt_iff hksize hs).mpr (Or.inr ⟨hzero, hroom⟩)
  refine ⟨readUntil_of_visits ha hsize hvisits hstop, ?_⟩
  simp only [scanAt, decide_eq_false_iff_not, hzero]
  rintro ⟨_, h⟩
  simp at h

/-! ## The part loop -/

/-- The buffer after one body evaluation, whichever way it goes. -/
theorem partBody_buf (boundary : Str) (size : ℕ) (zeroTerm : Bool) (accepts : ℕ → Bool)
    (s : PartState) :
    ∃ t : PartState, t.buf.length = max s.buf.length (readUntil s.src boundary size).2.dst.length ∧
      (partBody boundary size zeroTerm accepts s = some (.again t) ∨
        ∃ b, partBody boundary size zeroTerm accepts s = some (.leave (b, t))) := by
  unfold partBody
  dsimp only
  cases hrc : (partRead s.src boundary size).rc with
  | none => exact ⟨_, by rw [store_length]; rfl, Or.inr ⟨_, rfl⟩⟩
  | some rc =>
    dsimp only
    have hlen : (if ((partRead s.src boundary size).found && zeroTerm) = true
        then (store s.buf (partRead s.src boundary size).dst).set rc 0
        else store s.buf (partRead s.src boundary size).dst).length =
          max s.buf.length (readUntil s.src boundary size).2.dst.length := by
      split
      · rw [List.length_set, store_length]
        rfl
      · rw [store_length]
        rfl
    split
    · exact ⟨_, hlen, Or.inr ⟨_, rfl⟩⟩
    · split
      · exact ⟨_, hlen, Or.inr ⟨_, rfl⟩⟩
      · exact ⟨_, hlen, Or.inl rfl⟩

theorem partBody_again_buf {boundary : Str} {size : ℕ} {zeroTerm : Bool} {accepts : ℕ → Bool}
    {s t : PartState} (h : partBody boundary size zeroTerm accepts s = some (.again t)) :
    t.buf.length = max s.buf.length (readUntil s.src boundary size).2.dst.length := by
  obtain ⟨u, hu, hb | ⟨b, hb⟩⟩ := partBody_buf boundary size zeroTerm accepts s
  · rw [h] at hb
    cases hb
    exact hu
  · rw [h] at hb
    cases hb

theorem partBody_leave_buf {boundary : Str} {size : ℕ} {zeroTerm : Bool} {accepts : ℕ → Bool}
    {s : PartState} {r : Bool × PartState}
    (h : partBody boundary size zeroTerm accepts s = some (.leave r)) :
    r.2.buf.length = max s.buf.length (readUntil s.src boundary size).2.dst.length := by
  obtain ⟨u, hu, hb | ⟨b, hb⟩⟩ := partBody_buf boundary size zeroTerm accepts s
  · rw [h] at hb
    cases hb
  · rw [h] at hb
    cases hb
    exact hu

/-- The loop goes round only on a non-empty chunk without delimiter. -/
theorem partBody_again {boundary : Str} {size : ℕ} {zeroTerm : Bool} {accepts : ℕ → Bool}
    {s t : PartState} (h : partBody boundary size zeroTerm accepts s = some (.again t)) :
    ∃ n, (readUntil s.src boundary size).1 = some n ∧ 0 < n ∧
      (readUntil s.src boundary size).2.found = false ∧ accepts (s.data.length + n) = true ∧
      t.src = (readUntil s.src boundary size).2.src ∧
      t.data = s.data ++ (readUntil s.src boundary size).2.dst.take n := by
  unfold partBody partRead at h
  dsimp only at h
  cases hf : (readUntil s.src boundary size).2.found with
  | true =>
    simp only [hf, if_true] at h
    split at h
    · cases h
    · split at h <;> cases h
  | false =>
    cases hr : (readUntil s.src boundary size).1 with
    | none => simp only [hr] at h; cases h
    | some n =>
      cases n with
      | zero => simp only [hr] at h; cases h
      | succ n =>
        simp only [hr, hf, Bool.false_and, Bool.false_eq_true, if_false] at h
        by_cases hacc : accepts (s.data.length + (n + 1)) = false
        · rw [if_pos hacc] at h
          cases h
        · rw [if_neg hacc] at h
          cases h
          exact ⟨n + 1, rfl, Nat.succ_pos n, rfl, by simpa using hacc, rfl, rfl⟩

theorem partBody_chunk {boundary : Str} {size n : ℕ} {zeroTerm : Bool} {accepts : ℕ → Bool}
    {s : PartState} {sc : Scan} (hr : readUntil s.src boundary size = (some n, sc)) (hn : 0 < n)
    (hf : sc.found = false) (hacc : accepts (s.data.length + n) = true) :
    partBody boundary size zeroTerm accepts s =
      some (.again ⟨sc.src, store s.buf sc.dst, s.data ++ sc.dst.take n, true⟩) := by
  obtain ⟨n, rfl⟩ : ∃ k, n = k + 1 := ⟨n - 1, by omega⟩
  simp [partBody, partRead, hr, hf, hacc]

/-- Every chunk takes bytes off the stream, so a part loop ends. -/
theorem partLoop_leaves {a : Byte} {d : Str} (ha : a ∉ d) {size : ℕ}
    (hsize : (a :: d).length ≤ size) (zeroTerm : Bool) (accepts : ℕ → Bool) (src : Source)
    (buf : List Byte) :
    ∃ t, Reaches (partBody (a :: d) size zeroTerm accepts) ⟨src, buf, [], false⟩ t ∧
      partBody (a :: d) size zeroTerm accepts t =
        some (.leave (partLoop (a :: d) size zeroTerm accepts src buf)) := by
  have hbody : ∀ s : PartState, True →
      (∃ t, partBody (a :: d) size zeroTerm accepts s = some (.again t) ∧ True ∧
        t.src.bytes.length < s.src.bytes.length) ∨
      ∃ r, partBody (a :: d) size zeroTerm accepts s = some (.leave r) := by
    intro s _
    obtain ⟨u, _, hb | ⟨b, hb⟩⟩ := partBody_buf (a :: d) size zeroTerm accepts s
    · refine Or.inl ⟨u, hb, trivial, ?_⟩
      obtain ⟨n, hrc, hn, _, _, hsrc, _⟩ := partBody_again hb
      obtain ⟨k, hv, hr⟩ := readUntil_spec ha s.src hsize
      have hk : (readUntil s.src (a :: d) size).2 = scanAt (a :: d) s.src size k ∧ k = n := by
        rcases hr with ⟨hr, _⟩ | ⟨hr, _⟩
        · rw [hr] at hrc ⊢
          exact ⟨rfl, Option.some.inj hrc⟩
        · rw [hr] at hrc ⊢
          refine ⟨rfl, ?_⟩
          cases hfail : s.src.fails with
          | true => simp [hfail] at hrc
          | false => simpa [hfail] using hrc
      have hkl := hv.1
      rw [hsrc, hk.1]
      simp only [scanAt, Source.skip, List.length_drop]
      omega
    · exact Or.inr ⟨_, hb⟩
  obtain ⟨r, hr⟩ := run_total (fun s : PartState => s.src.bytes.length) hbody
    (s := ⟨src, buf, [], false⟩) trivial (Nat.lt_succ_self _)
  have hv : partLoop (a :: d) size zeroTerm accepts src buf = r := by
    rw [partLoop, hr]
    rfl
  rw [hv]
  exact run_reaches hr

/-- Where a part loop stands: at a call place of the body, or at its end. -/
def AtCall (stopAt : Str) (size : ℕ) (accepts : ℕ → Bool) (body : List Byte) (s : PartState) :
    Prop :=
  s.src.bytes = [] ∨
    ∃ q, CallAt stopAt size accepts body q ∧ s.src.bytes = body.drop q ∧ s.data.length = q

theorem AtCall.fits {stopAt : Str} {size : ℕ} {accepts : ℕ → Bool} {body : List Byte}
    {s : PartState} (h : AtCall stopAt size accepts body s)
    (hfit : PartFits stopAt size accepts body) :
    ¬ Overruns stopAt size s.src.bytes := by
  rcases h with hnil | ⟨q, hq, hb, _⟩
  · rw [hnil]
    rintro ⟨hlt, _⟩
    simp at hlt
  · rw [hb]
    exact hfit q hq

theorem AtCall.again {a : Byte} {d : Str} (ha : a ∉ d) {size : ℕ} (hsize : (a :: d).length ≤ size)
    (hs : size < sizeMod) {zeroTerm : Bool} {accepts : ℕ → Bool} {body : List Byte}
    {s t : PartState} (h : AtCall (a :: d) size accepts body s)
    (hfit : ¬ Overruns (a :: d) size s.src.bytes)
    (he : partBody (a :: d) size zeroTerm accepts s = some (.again t)) :
    AtCall (a :: d) size accepts body t := by
  obtain ⟨n, hrc, hn, hf, hacc, hsrc, hdata⟩ := partBody_again he
  obtain ⟨hskip, hnl, hdst, hend⟩ := chunkEnds_of_readUntil ha hsize hs hfit hrc hn hf
  have hbytes : t.src.bytes = s.src.bytes.drop n := by rw [hsrc, hskip]; rfl
  rcases hend with hend | hend
  · rcases h with hnil | ⟨q, hq, hb, hlen⟩
    · rw [hnil] at hnl
      simp at hnl
      omega
    · right
      rw [hb] at hend
      rw [hlen] at hacc
      refine ⟨q + n, hq.next hend hacc, ?_, ?_⟩
      · rw [hbytes, hb, List.drop_drop]
      · rw [hdata, hdst, List.length_append, List.length_take, List.length_take, hlen]
        omega
  · left
    rw [hbytes, hend, List.drop_length]

/-- An overrun at any call place of the body shows in the final buffer. -/
theorem overrun_shows {a : Byte} {d : Str} (ha : a ∉ d) {size : ℕ} (hsize : (a :: d).length ≤ size)
    (hs : size < sizeMod) {zeroTerm : Bool} {accepts : ℕ → Bool} {s0 s t : PartState}
    {r : Bool × PartState} (hreach : Reaches (partBody (a :: d) size zeroTerm accepts) s0 s)
    (ht : Reaches (partBody (a :: d) size zeroTerm accepts) s0 t)
    (hl : partBody (a :: d) size zeroTerm accepts t = some (.leave r))
    (hover : Overruns (a :: d) size s.src.bytes) : size < r.2.buf.length := by
  have hgt : size < (readUntil s.src (a :: d) size).2.dst.length := by
    by_contra hn
    exact (readUntil_length_le_iff ha s.src hsize hs).mp (by omega) hover
  rcases Relation.ReflTransGen.cases_head (hreach.to_leave ht hl) with rfl | ⟨u, hu, hut⟩
  · have := partBody_leave_buf hl
    omega
  · have hmono : size < t.buf.length := by
      refine Reaches.invariant (I := fun v : PartState => size < v.buf.length) ?_ hut ?_
      · intro v w hv he
        have := partBody_again_buf he
        omega
      · have := partBody_again_buf hu
        omega
    have := partBody_leave_buf hl
    omega

/-- Every call place is reached unless an earlier call has already overrun. -/
theorem reaches_callAt {a : Byte} {d : Str} (ha : a ∉ d) {size : ℕ} (hsize : (a :: d).length ≤ size)
    (hs : size < sizeMod) (zeroTerm : Bool) {accepts : ℕ → Bool} {src : Source} (buf : List Byte)
    {q : ℕ} (hq : CallAt (a :: d) size accepts src.bytes q) :
    ∃ s, Reaches (partBody (a :: d) size zeroTerm accepts) ⟨src, buf, [], false⟩ s ∧
      (Overruns (a :: d) size s.src.bytes ∨ s.src.bytes = src.bytes.drop q ∧
        s.data.length = q) := by
  induction hq with
  | first => exact ⟨_, Relation.ReflTransGen.refl, Or.inr ⟨rfl, rfl⟩⟩
  | @next q k _ hk hacc ih =>
    obtain ⟨s, hreach, hover | ⟨hb, hlen⟩⟩ := ih
    · exact ⟨s, hreach, Or.inl hover⟩
    by_cases hover : Overruns (a :: d) size s.src.bytes
    · exact ⟨s, hreach, Or.inl hover⟩
    rw [← hb] at hk
    obtain ⟨hr, hf⟩ := readUntil_of_chunkEnds ha hsize hs hover hk
    rw [← hlen] at hacc
    refine ⟨_, hreach.tail (partBody_chunk hr hk.1 hf hacc), Or.inr ⟨?_, ?_⟩⟩
    · change s.src.bytes.drop k = _
      rw [hb, List.drop_drop]
    · change (s.data ++ (s.src.bytes.take k).take k).length = _
      have hkl := hk.2.1
      simp only [List.length_append, List.length_take, hlen]
      omega

/-- A part loop leaves its buffer at the size it had exactly when the body fits. -/
theorem partLoop_buf_iff {a : Byte} {d : Str} (ha : a ∉ d) {size : ℕ}
    (hsize : (a :: d).length ≤ size) (hs : size < sizeMod) (zeroTerm : Bool) (accepts : ℕ → Bool)
    (src : Source) {buf : List Byte} (hbuf : buf.length = size) :
    (partLoop (a :: d) size zeroTerm accepts src buf).2.buf.length = size ↔
      PartFits (a :: d) size accepts src.bytes := by
  obtain ⟨t, ht, hl⟩ := partLoop_leaves ha hsize zeroTerm accepts src buf
  constructor
  · intro hlen q hq hover
    obtain ⟨s, hreach, hs'⟩ := reaches_callAt ha hsize hs zeroTerm buf hq
    have hover' : Overruns (a :: d) size s.src.bytes := by
      rcases hs' with h | ⟨hb, _⟩
      · exact h
      · rw [hb]; exact hover
    have := overrun_shows ha hsize hs hreach ht hl hover'
    omega
  · intro hfit
    have hinv : ∀ s u : PartState,
        (s.buf.length = size ∧ AtCall (a :: d) size accepts src.bytes s) →
        partBody (a :: d) size zeroTerm accepts s = some (.again u) →
        u.buf.length = size ∧ AtCall (a :: d) size accepts src.bytes u := by
      rintro s u ⟨hb, hat⟩ he
      have hfs := hat.fits hfit
      have hle := (readUntil_length_le_iff ha s.src hsize hs).mpr hfs
      have hlen := partBody_again_buf he
      exact ⟨by omega, hat.again ha hsize hs hfs he⟩
    obtain ⟨htb, htat⟩ := ht.invariant hinv ⟨hbuf, Or.inr ⟨0, .first, rfl, rfl⟩⟩
    have hle := (readUntil_length_le_iff ha t.src hsize hs).mpr (htat.fits hfit)
    have hlen := partBody_leave_buf hl
    omega

/-! ## The whole chunk parser -/

theorem ioRead_data_length (src : Source) (n : ℕ) : (ioRead src n).data.length ≤ n := by
  unfold ioRead
  split
  · simp
  · split <;> · simp only; omega

theorem store_length_of_le {buf new : List Byte} (h : new.length ≤ buf.length) :
    (store buf new).length = buf.length := by
  rw [store_length]
  omega

theorem epilogue_buf_length (rall : ℕ) (src : Source) {buf : List Byte} (h : BUFSZ ≤ buf.length) :
    (epilogue rall src buf).2.length = buf.length := by
  unfold epilogue
  cases hr : run (epilogueBody rall) (src.bytes.length + 1) (src, buf) with
  | none => rfl
  | some r =>
    obtain ⟨t, ht, hl⟩ := run_reaches hr
    have hstore : ∀ s : Source × List Byte, s.2.length = buf.length →
        (store s.2 (ioRead s.1 (min (rall - s.1.rtot) BUFSZ)).data).length = buf.length := by
      intro s hs
      have hd := ioRead_data_length s.1 (min (rall - s.1.rtot) BUFSZ)
      rw [store_length_of_le (by omega), hs]
    have hinv : ∀ s u : Source × List Byte, s.2.length = buf.length →
        epilogueBody rall s = some (.again u) → u.2.length = buf.length := by
      intro s u hs he
      unfold epilogueBody at he
      split at he
      · dsimp only at he
        split at he <;> cases he
        exact hstore s hs
      · cases he
    have htb := ht.invariant hinv rfl
    unfold epilogueBody at hl
    split at hl
    · dsimp only at hl
      split at hl <;> cases hl
      · exact hstore t htb
      · exact hstore t htb
    · cases hl
      exact htb

theorem afterPart_buf_length (rq : Request) (src : Source) {buf : List Byte}
    (h : BUFSZ ≤ buf.length) :
    (afterPart rq src buf).buf.length = buf.length := by
  have hd := ioRead_data_length src 2
  have h2 : (2 : ℕ) ≤ BUFSZ := by decide
  have hst : (store buf (ioRead src 2).data).length = buf.length := store_length_of_le (by omega)
  unfold afterPart
  dsimp only
  split
  · exact hst
  · exact hst
  · split
    · dsimp only
      rw [epilogue_buf_length _ _ (by omega), hst]
    · exact hst

theorem partLoop_buf_ge (boundary : Str) (size : ℕ) (zeroTerm : Bool) (accepts : ℕ → Bool)
    (src : Source) (buf : List Byte) :
    buf.length ≤ (partLoop boundary size zeroTerm accepts src buf).2.buf.length := by
  unfold partLoop
  cases hr : run (partBody boundary size zeroTerm accepts) (src.bytes.length + 1)
    ⟨src, buf, [], false⟩ with
  | none => exact le_rfl
  | some r =>
    obtain ⟨t, ht, hl⟩ := run_reaches hr
    have hinv : ∀ s u : PartState, buf.length ≤ s.buf.length →
        partBody boundary size zeroTerm accepts s = some (.again u) →
        buf.length ≤ u.buf.length := by
      intro s u hs he
      have := partBody_again_buf he
      omega
    have htb := ht.invariant hinv le_rfl
    have hlen := partBody_leave_buf hl
    change buf.length ≤ r.2.buf.length
    omega

theorem uploadPart_buf_length (rq : Request) (h : Header) (name filename tmpName : Str)
    (tmp : TmpFile) (src : Source) (boundary : Str) {buf : List Byte} (hbuf : buf.length = BUFSZ) :
    (uploadPart rq h name filename tmpName tmp src boundary buf).buf.length =
      (partLoop boundary BUFSZ false tmp.accepts src buf).2.buf.length := by
  have hge := partLoop_buf_ge boundary BUFSZ false tmp.accepts src buf
  have hname : (ioNameGet tmpName BUFSZ).length ≤ BUFSZ := by
    have hpos : 0 < BUFSZ := by decide
    simp only [ioNameGet, List.length_append, List.length_take, List.length_singleton]
    omega
  have hst : (store (partLoop boundary BUFSZ false tmp.accepts src buf).2.buf
    (ioNameGet tmpName BUFSZ)).length =
      (partLoop boundary BUFSZ false tmp.accepts src buf).2.buf.length :=
        store_length_of_le (by omega)
  unfold uploadPart
  dsimp only
  split
  · exact hst
  · split
    · exact hst
    · rw [afterPart_buf_length _ _ (by omega), hst]

theorem fieldPart_buf_length (rq : Request) (name : Str) (src : Source) (boundary : Str)
    {buf : List Byte} (hbuf : buf.length = BUFSZ) :
    (fieldPart rq name src boundary buf).buf.length =
      (requestReadUntilBoundary rq src boundary BUFSZ buf).buf.length := by
  have hge := partLoop_buf_ge boundary BUFSZ true (fun trb => decide (trb ≤ rq.postMaxsize)) src buf
  unfold fieldPart
  dsimp only
  split
  · rfl
  · exact afterPart_buf_length _ _ (hbuf ▸ hge)

/-- The part loop that the header of a chunk selects, and the body it works on. -/
def chunkPart (rq : Request) (src : Source) (boundary : Str) (tmp : TmpFile) :
    Option ((ℕ → Bool) × List Byte) :=
  match headerLoad src with
  | (none, _) => none
  | (some h, rest) =>
    if isMultipartMixed h || isEncoded h then none
    else match parseContentDisposition h with
      | none => none
      | some (_, filename) =>
        if filename = [] then some (fun trb => decide (trb ≤ rq.postMaxsize), rest.bytes)
        else if BUFSZ ≤ boundary.length ∨ tmp.name = none then none
        else some (tmp.accepts, rest.bytes)

def ChunkFits (rq : Request) (src : Source) (boundary : Str) (tmp : TmpFile) : Prop :=
  ∀ p ∈ chunkPart rq src boundary tmp, PartFits boundary BUFSZ p.1 p.2

theorem requestReadUntilBoundary_buf_iff {a : Byte} {d : Str} (ha : a ∉ d) {size : ℕ}
    (hsize : (a :: d).length ≤ size) (hs : size < sizeMod) (rq : Request) (src : Source)
    {buf : List Byte} (hbuf : buf.length = size) :
    (requestReadUntilBoundary rq src (a :: d) size buf).buf.length = size ↔
      PartFits (a :: d) size (fun trb => decide (trb ≤ rq.postMaxsize)) src.bytes :=
  partLoop_buf_iff ha hsize hs true _ src hbuf

theorem requestParseMultipartChunk_buf_iff {a : Byte} {d : Str} (ha : a ∉ d)
    (hsize : (a :: d).length ≤ BUFSZ) (rq : Request) (src : Source) (tmp : TmpFile)
    {buf : List Byte} (hbuf : buf.length = BUFSZ) :
    (requestParseMultipartChunk rq src (a :: d) tmp buf).buf.length = BUFSZ ↔
      ChunkFits rq src (a :: d) tmp := by
  have hs : BUFSZ < sizeMod := by decide
  unfold requestParseMultipartChunk ChunkFits chunkPart
  rcases headerLoad src with ⟨_ | h, rest⟩
  · simp [hbuf]
  dsimp only
  by_cases hmixed : isMultipartMixed h = true
  · simp [hmixed, hbuf]
  by_cases henc : isEncoded h = true
  · simp [hmixed, henc, hbuf]
  rw [if_neg hmixed, if_neg henc, if_neg (by simp [hmixed, henc])]
  rcases parseContentDisposition h with _ | ⟨name, filename⟩
  · simp [hbuf]
  dsimp only
  by_cases hfn : filename = []
  · rw [if_neg (not_not.mpr hfn), if_pos hfn, fieldPart_buf_length _ _ _ _ hbuf]
    rw [requestReadUntilBoundary_buf_iff ha hsize hs rq rest hbuf]
    simp
  rw [if_pos hfn, if_neg hfn]
  by_cases hbl : BUFSZ ≤ (a :: d).length
  · rw [if_pos hbl, if_pos (Or.inl hbl)]
    simp [hbuf]
  rw [if_neg hbl]
  rcases htn : tmp.name with _ | tmpName
  · simp [hbuf]
  rw [if_neg (by simpa using hbl)]
  dsimp only
  rw [uploadPart_buf_length _ _ _ _ _ _ _ _ hbuf, partLoop_buf_iff ha hsize hs false _ rest hbuf]
  simp

/-! ## The bound on the stack buffer -/

def nlBoundary (b : Str) : Str := bytes "\r\n--" ++ b

theorem nlBoundary_eq (b : Str) : nlBoundary b = 13 :: ([10, 45, 45] ++ b) := rfl

theorem nlBoundary_unique {b : Str} (hb : (13 : Byte) ∉ b) : (13 : Byte) ∉ ([10, 45, 45] ++ b) := by
  simp [hb]

/-- One call stays inside: at every loop head the stored bytes and the counter add
up to the size given, and neither the bytes stored nor the value returned exceed it. -/
def CallBounded (src : Source) (stopAt : Str) (size : ℕ) : Prop :=
  InBounds stopAt src size ∧ (readUntil src stopAt size).2.dst.length ≤ size ∧
    ∀ n, (readUntil src stopAt size).1 = some n → n ≤ size

theorem callBounded_iff {a : Byte} {d : Str} (ha : a ∉ d) (src : Source) {size : ℕ}
    (hsize : (a :: d).length ≤ size) (hs : size < sizeMod) :
    CallBounded src (a :: d) size ↔ ¬ Overruns (a :: d) size src.bytes := by
  constructor
  · intro h
    exact (readUntil_length_le_iff ha src hsize hs).mp h.2.1
  · intro h
    have hle := (readUntil_length_le_iff ha src hsize hs).mpr h
    refine ⟨(inBounds_iff ha hs).mpr h, hle, fun n hn => ?_⟩
    obtain ⟨k, hv, hr⟩ := readUntil_spec ha src hsize
    have hdst : (scanAt (a :: d) src size k).dst.length = k := by
      simp only [scanAt, List.length_take, Nat.min_eq_left hv.1]
    rcases hr with ⟨hr, _⟩ | ⟨hr, _⟩
    · rw [hr] at hle hn
      obtain rfl := Option.some.inj hn
      exact hdst ▸ hle
    · rw [hr] at hle hn
      cases hf : src.fails with
      | true => simp [hf] at hn
      | false =>
        have : k = n := by simpa [hf] using hn
        exact this ▸ hdst ▸ hle

/-- A single call, a form field and a whole chunk stay within the buffer exactly
when the bytes they work on contain no overrunning stretch at a call place. -/
theorem multipart_bounded_iff {b : Str} (hb : (13 : Byte) ∉ b) {size : ℕ}
    (hsize : (nlBoundary b).length ≤ size) (hs : size < sizeMod) :
    (∀ src, CallBounded src (nlBoundary b) size ↔ ¬ Overruns (nlBoundary b) size src.bytes) ∧
    (∀ rq src buf, buf.length = size →
      ((requestReadUntilBoundary rq src (nlBoundary b) size buf).buf.length = size ↔
        PartFits (nlBoundary b) size (fun trb => decide (trb ≤ rq.postMaxsize)) src.bytes)) ∧
    (∀ rq src tmp buf, (nlBoundary b).length ≤ BUFSZ → buf.length = BUFSZ →
      ((requestParseMultipartChunk rq src (nlBoundary b) tmp buf).buf.length = BUFSZ ↔
        ChunkFits rq src (nlBoundary b) tmp)) := by
  rw [nlBoundary_eq] at *
  have ha := nlBoundary_unique hb
  exact ⟨fun src => callBounded_iff ha src hsize hs,
    fun rq src buf hbuf => requestReadUntilBoundary_buf_iff ha hsize hs rq src hbuf,
    fun rq src tmp buf hlen hbuf => requestParseMultipartChunk_buf_iff ha hlen rq src tmp hbuf⟩

/-- A run of carriage returns longer than the buffer overruns it. -/
theorem overruns_replicate (b : Str) {size n : ℕ} (hsize : (nlBoundary b).length < size)
    (hn : size < n) :
    Overruns (nlBoundary b) size (List.replicate n 13) := by
  refine ⟨by simpa using hn, ?_, fun k hk hroom => ?_⟩
  · intro hinf
    have hmem : (10 : Byte) ∈ (List.replicate n (13 : Byte)).take size :=
      hinf.subset (by rw [nlBoundary_eq]; simp)
    exact absurd (List.eq_of_mem_replicate (List.mem_of_mem_take hmem)) (by decide)
  · refine ⟨[13], by simp, ⟨[10, 45, 45] ++ b, rfl⟩, ?_⟩
    rw [List.take_replicate, Nat.min_eq_left (by omega)]
    exact ⟨List.replicate (k - 1) 13, by
      rw [← List.replicate_succ', Nat.sub_add_cancel (by omega)]⟩

/-- Of the last places where the loop could stop only the very last does not end half-way
through the delimiter. -/
theorem multipart_bounded_short :
    CallBounded ⟨bytes "\r\r\r\r\r\r\ra\r\n--b", false, 0⟩ (nlBoundary (bytes "b")) 8 := by
  refine ((multipart_bounded_iff (by decide : (13 : Byte) ∉ bytes "b")
    (by decide : (nlBoundary (bytes "b")).length ≤ 8) (by decide)).1 _).mpr ?_
  rintro ⟨-, -, hmatch⟩
  obtain ⟨j, hpos, hle, hsuffix⟩ := (partial_iff _ _).mp (hmatch 8 le_rfl (by decide))
  have hnone : ∀ j ≤ 5, 0 < j →
      ¬ (nlBoundary (bytes "b")).take j <:+ (bytes "\r\r\r\r\r\r\ra\r\n--b").take 8 := by decide
  exact hnone j hle hpos hsuffix

def dispositionLine : Str := bytes "Content-Disposition: form-data; name=\"a\"\r"

theorem headerLoad_disposition (rest : List Byte) :
    headerLoad ⟨dispositionLine ++ 10 :: ([13] ++ 10 :: rest), false, 0⟩ =
      (some [⟨bytes "Content-Disposition", bytes "form-data; name=\"a\""⟩], ⟨rest, false, 44⟩) := by
  have h1 : (10 : Byte) ∉ dispositionLine := by decide
  have h2 : (10 : Byte) ∉ ([13] : List Byte) := by decide
  rw [headerLoad, headerMaxFieldCount, headerLoop, uGetline_line h1 _ _ _ (by decide)]
  have hs : stripNl dispositionLine =
      67 :: (bytes "ontent-Disposition: form-data; name=\"a\"") := by
    decide
  simp only [hs, Bool.true_eq_false, if_false]
  rw [if_neg (by decide), headerLoop, uGetline_line h2 _ _ _ (by decide)]
  have hs2 : stripNl [13] = [] := by decide
  simp only [hs2, Bool.true_eq_false, if_false]
  have hp : headerProcessLine (headerProcessLine [] [])
      (67 :: bytes "ontent-Disposition: form-data; name=\"a\"") =
      [⟨bytes "Content-Disposition", bytes "form-data; name=\"a\""⟩] := by decide
  rw [hp]
  rfl

/-- A text field that is nothing but carriage returns runs over the 4096 bytes. -/
theorem multipart_overrun :
    ¬ CallBounded ⟨List.replicate 7 13, false, 0⟩ (nlBoundary (bytes "b")) 6 ∧
    (requestReadUntilBoundary { Request.zero with postMaxsize := 5120000 }
      ⟨List.replicate 4097 13, false, 0⟩ (nlBoundary (bytes "b")) BUFSZ
        (List.replicate BUFSZ 0)).buf.length ≠
        BUFSZ ∧
    (requestParseMultipartChunk { Request.zero with postMaxsize := 5120000 }
      ⟨dispositionLine ++ 10 :: ([13] ++ 10 :: List.replicate 4097 13), false, 0⟩
        (nlBoundary (bytes "b"))
      ⟨none, fun _ => true, true⟩ (List.replicate BUFSZ 0)).buf.length ≠ BUFSZ := by
  have hu : (13 : Byte) ∉ ([10, 45, 45] ++ bytes "b") := by decide
  have hover : Overruns (nlBoundary (bytes "b")) BUFSZ (List.replicate 4097 13) :=
    overruns_replicate _ (by decide) (by decide)
  have hbuf : (List.replicate BUFSZ (0 : Byte)).length = BUFSZ := List.length_replicate
  refine ⟨?_, ?_, ?_⟩
  · intro h
    refine (callBounded_iff hu _ (by decide) (by decide)).mp h ?_
    exact overruns_replicate (bytes "b") (by decide) (by decide)
  · intro h
    exact (requestReadUntilBoundary_buf_iff hu (by decide) (by decide) _ _ hbuf).mp h 0 .first hover
  · intro h
    have hf := (requestParseMultipartChunk_buf_iff hu (by decide) _ _ _ hbuf).mp h
    refine hf (fun trb => decide (trb ≤ 5120000), List.replicate 4097 13) ?_ 0 .first hover
    have hcd : parseContentDisposition
        [⟨bytes "Content-Disposition", bytes "form-data; name=\"a\""⟩] = some (bytes "a", []) := by
      decide +kernel
    rw [chunkPart, headerLoad_disposition]
    dsimp only
    rw [if_neg (by decide), hcd]
    rfl

end Klone.Multipart
