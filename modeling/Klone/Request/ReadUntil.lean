import Klone.Lib.Loop
import Klone.Lib.Matcher
import Klone.Io.Source

/-! # Reading up to a multipart delimiter

`read_until` stores the stream byte by byte and matches the delimiter on the fly.
Room for a whole delimiter is checked only while the matcher is in its initial
state, so a body that never lets the matcher fall back keeps the loop going past
the end of the buffer. The bodies that do so are characterised on the bytes alone.
-/
namespace Klone.Multipart
open Loop Matcher

/-- The locals of `read_until`: `ptr - stop_at`, the bytes stored from `obuf` on,
the remaining `size`, `*found`, and the stream. -/
structure Scan where
  ptr : ℕ
  dst : List Byte
  size : ℕ
  found : Bool
  src : Source
  deriving DecidableEq, Repr

def Scan.next (stopAt : Str) (s : Scan) (c : Byte) (src : Source) : Scan :=
  let ptr := if stopAt[s.ptr]? = some c then s.ptr else 0
  { ptr := if stopAt[ptr]? = some c then ptr + 1 else ptr
    dst := s.dst ++ [c]
    size := sizeDec s.size
    found := decide (stopAt[ptr]? = some c ∧ ptr + 1 = stopAt.length)
    src := src }

def scanBody (stopAt : Str) (s : Scan) : Option (Iter Scan (Option ℕ × Scan)) :=
  if s.found then some (.leave (some s.dst.length, s))
  else if s.ptr = 0 ∧ s.size < stopAt.length + 1 then some (.leave (some s.dst.length, s))
  else
    let r := ioRead s.src 1
    match r.rc, r.data with
    | none, _ => some (.leave (none, { s with src := r.src }))
    | some _, c :: _ => some (.again (s.next stopAt c r.src))
    | some _, [] => some (.leave (some s.dst.length, { s with src := r.src }))

def scanStart (src : Source) (size : ℕ) : Scan := ⟨0, [], size, false, src⟩

/-- The return value (`none` for `-1`) and the locals at the return. -/
def readUntil (src : Source) (stopAt : Str) (size : ℕ) : Option ℕ × Scan :=
  if size < stopAt.length then (none, scanStart src size)
  else (run (scanBody stopAt) (src.bytes.length + 1) (scanStart src size)).getD
    (none, scanStart src size)

/-- The locals after `k` bytes of the stream, if the loop gets that far. -/
def scanAt (stopAt : Str) (src : Source) (size k : ℕ) : Scan :=
  { ptr := state stopAt (src.bytes.take k)
    dst := src.bytes.take k
    size := sizeDec^[k] size
    found := decide (0 < k ∧ state stopAt (src.bytes.take k) = stopAt.length)
    src := src.skip k }

theorem scanAt_zero (stopAt : Str) (src : Source) (size : ℕ) :
    scanAt stopAt src size 0 = scanStart src size := by
  simp [scanAt, scanStart, Source.skip]

theorem advance_full {stopAt : Str} {p : ℕ} {c : Byte} (hp : p < stopAt.length) :
    advance stopAt p c = stopAt.length ↔
      stopAt[if stopAt[p]? = some c then p else 0]? = some c ∧
        (if stopAt[p]? = some c then p else 0) + 1 = stopAt.length := by
  unfold advance
  dsimp only
  by_cases h : stopAt[if stopAt[p]? = some c then p else 0]? = some c
  · rw [if_pos h]
    exact ⟨fun he => ⟨h, he⟩, fun he => he.2⟩
  · rw [if_neg h]
    constructor
    · intro he
      split at he <;> omega
    · intro he
      exact absurd he.1 h

theorem scanAt_next {stopAt : Str} {src : Source} {size k : ℕ} (hk : k < src.bytes.length)
    (hp : state stopAt (src.bytes.take k) < stopAt.length) :
    (scanAt stopAt src size k).next stopAt (src.bytes.get ⟨k, hk⟩) ((src.skip k).skip 1) =
      scanAt stopAt src size (k + 1) := by
  have ht : src.bytes.take (k + 1) = src.bytes.take k ++ [src.bytes.get ⟨k, hk⟩] := by
    rw [List.take_add_one, List.getElem?_eq_getElem hk]
    rfl
  have hsrc : (src.skip k).skip 1 = src.skip (k + 1) := by
    simp only [Source.skip, List.drop_drop, Nat.add_assoc]
  have hfound := advance_full (c := src.bytes.get ⟨k, hk⟩) hp
  rw [scanAt, scanAt, Scan.next, ht, state_snoc, Function.iterate_succ_apply', hsrc]
  simp only [Nat.succ_pos, true_and, Scan.mk.injEq, and_true]
  exact ⟨rfl, by rw [decide_eq_decide]; exact hfound.symm⟩

def Scan.Stops (stopAt : Str) (s : Scan) : Prop :=
  s.found = true ∨ (s.ptr = 0 ∧ s.size < stopAt.length + 1)

theorem scanBody_stop {stopAt : Str} {s : Scan} (h : s.Stops stopAt) :
    scanBody stopAt s = some (.leave (some s.dst.length, s)) := by
  unfold scanBody
  by_cases hf : s.found = true
  · rw [if_pos hf]
  · rw [if_neg hf, if_pos (h.resolve_left hf)]

theorem scanBody_byte {stopAt : Str} {s : Scan} (h : ¬ s.Stops stopAt) {c : Byte} {rest : List Byte}
    (hb : s.src.bytes = c :: rest) :
    scanBody stopAt s = some (.again (s.next stopAt c (s.src.skip 1))) := by
  obtain ⟨hf, hz⟩ := not_or.mp h
  rw [scanBody, if_neg hf, if_neg hz, ioRead_one_cons hb]

theorem scanBody_eof {stopAt : Str} {s : Scan} (h : ¬ s.Stops stopAt) (hb : s.src.bytes = []) :
    scanBody stopAt s = some (.leave (if s.src.fails then none else some s.dst.length, s)) := by
  obtain ⟨hf, hz⟩ := not_or.mp h
  rw [scanBody, if_neg hf, if_neg hz, ioRead_one_nil hb]
  cases s.src.fails <;> rfl

def Visits (stopAt : Str) (src : Source) (size k : ℕ) : Prop :=
  k ≤ src.bytes.length ∧ ∀ i, i < k → ¬ (scanAt stopAt src size i).Stops stopAt

theorem Visits.succ {stopAt : Str} {src : Source} {size k : ℕ} (h : Visits stopAt src size k)
    (hs : ¬ (scanAt stopAt src size k).Stops stopAt) (hk : k < src.bytes.length) :
    Visits stopAt src size (k + 1) := by
  refine ⟨hk, fun i hi => ?_⟩
  rcases Nat.lt_succ_iff_lt_or_eq.mp hi with hi | rfl
  · exact h.2 i hi
  · exact hs

/-- Before a stop the delimiter is incomplete. -/
theorem Visits.state_lt {a : Byte} {d : Str} (ha : a ∉ d) {src : Source} {size k : ℕ}
    (h : Visits (a :: d) src size k) (i : ℕ) (hi : i < k) :
    state (a :: d) (src.bytes.take i) < (a :: d).length := by
  induction i using Nat.strong_induction_on with
  | _ i ih =>
    have hbefore := state_take_lt fun j hj => ih j hj (by omega)
    have hle := (tracks_state ha _ hbefore).1
    have hne : state (a :: d) (src.bytes.take i) ≠ (a :: d).length := by
      intro he
      have hpos : 0 < i := by
        rcases Nat.eq_zero_or_pos i with rfl | hpos
        · simp only [List.take_zero, state_nil, List.length_cons] at he
          omega
        · exact hpos
      exact h.2 i hi (Or.inl (decide_eq_true ⟨hpos, he⟩))
    omega

/-- What the body does at the `k`-th head: go on, stop there, or find the stream empty. -/
theorem Visits.body {a : Byte} {d : Str} (ha : a ∉ d) {src : Source} {size k : ℕ}
    (h : Visits (a :: d) src size k) :
    (scanBody (a :: d) (scanAt (a :: d) src size k) =
        some (.again (scanAt (a :: d) src size (k + 1))) ∧ Visits (a :: d) src size (k + 1)) ∨
      (scanBody (a :: d) (scanAt (a :: d) src size k) =
          some (.leave (some k, scanAt (a :: d) src size k)) ∧
        (scanAt (a :: d) src size k).Stops (a :: d)) ∨
      (scanBody (a :: d) (scanAt (a :: d) src size k) =
          some (.leave (if src.fails then none else some k, scanAt (a :: d) src size k)) ∧
        ¬ (scanAt (a :: d) src size k).Stops (a :: d) ∧ k = src.bytes.length) := by
  have hlen : (scanAt (a :: d) src size k).dst.length = k := by
    simp only [scanAt, List.length_take, Nat.min_eq_left h.1]
  by_cases hs : (scanAt (a :: d) src size k).Stops (a :: d)
  · refine Or.inr (Or.inl ⟨?_, hs⟩)
    rw [scanBody_stop hs, hlen]
  rcases Nat.lt_or_ge k src.bytes.length with hlt | hge
  · have hnext := h.succ hs hlt
    have hb : (scanAt (a :: d) src size k).src.bytes =
        src.bytes.get ⟨k, hlt⟩ :: src.bytes.drop (k + 1) :=
      List.drop_eq_getElem_cons hlt
    refine Or.inl ⟨?_, hnext⟩
    rw [scanBody_byte hs hb]
    exact congrArg (fun t => some (Iter.again t))
      (scanAt_next hlt (hnext.state_lt ha k (Nat.lt_succ_self k)))
  · have hb : (scanAt (a :: d) src size k).src.bytes = [] := List.drop_eq_nil_of_le hge
    refine Or.inr (Or.inr ⟨?_, hs, le_antisymm h.1 hge⟩)
    rw [scanBody_eof hs hb, hlen]
    rfl

theorem visits_zero (stopAt : Str) (src : Source) (size : ℕ) : Visits stopAt src size 0 :=
  ⟨Nat.zero_le _, fun _ hi => absurd hi (Nat.not_lt_zero _)⟩

/-- The loop heads of a run are exactly the visited `scanAt`. -/
theorem reaches_iff {a : Byte} {d : Str} (ha : a ∉ d) {src : Source} {size : ℕ} {t : Scan} :
    Reaches (scanBody (a :: d)) (scanStart src size) t ↔
      ∃ k, t = scanAt (a :: d) src size k ∧ Visits (a :: d) src size k := by
  constructor
  · intro h
    have hinv : ∀ s u, (∃ k, s = scanAt (a :: d) src size k ∧ Visits (a :: d) src size k) →
        scanBody (a :: d) s = some (.again u) →
        ∃ k, u = scanAt (a :: d) src size k ∧ Visits (a :: d) src size k := by
      rintro _ u ⟨k, rfl, hv⟩ he
      rcases hv.body ha with ⟨hb, hv'⟩ | ⟨hb, _⟩ | ⟨hb, _⟩
      · rw [hb] at he
        cases he
        exact ⟨k + 1, rfl, hv'⟩
      · rw [hb] at he
        cases he
      · rw [hb] at he
        cases he
    exact h.invariant hinv ⟨0, (scanAt_zero _ _ _).symm, visits_zero _ _ _⟩
  · rintro ⟨k, rfl, hv⟩
    induction k with
    | zero => rw [scanAt_zero]; exact Relation.ReflTransGen.refl
    | succ k ih =>
      have hk : Visits (a :: d) src size k :=
        ⟨by have := hv.1; omega, fun i hi => hv.2 i (by omega)⟩
      rcases hk.body ha with ⟨hb, _⟩ | ⟨_, hs⟩ | ⟨_, _, hlen⟩
      · exact (ih hk).tail hb
      · exact absurd hs (hv.2 k (Nat.lt_succ_self k))
      · exact absurd hv.1 (by omega)

/-- The loop ends within the bytes of the stream: at a head where it stops, or at
the end of the stream. The value returned is the number of bytes stored. -/
theorem readUntil_spec {a : Byte} {d : Str} (ha : a ∉ d) (src : Source) {size : ℕ}
    (hsize : (a :: d).length ≤ size) :
    ∃ k, Visits (a :: d) src size k ∧
      ((readUntil src (a :: d) size = (some k, scanAt (a :: d) src size k) ∧
          (scanAt (a :: d) src size k).Stops (a :: d)) ∨
        (readUntil src (a :: d) size =
            (if src.fails then none else some k, scanAt (a :: d) src size k) ∧
          ¬ (scanAt (a :: d) src size k).Stops (a :: d) ∧ k = src.bytes.length)) := by
  have htotal : ∃ r, run (scanBody (a :: d)) (src.bytes.length + 1) (scanStart src size) =
      some r := by
    have hbody : ∀ s, (∃ k, s = scanAt (a :: d) src size k ∧ Visits (a :: d) src size k) →
        (∃ t, scanBody (a :: d) s = some (.again t) ∧
          (∃ k, t = scanAt (a :: d) src size k ∧ Visits (a :: d) src size k) ∧
          t.src.bytes.length < s.src.bytes.length) ∨ ∃ r,
            scanBody (a :: d) s = some (.leave r) := by
      rintro _ ⟨k, rfl, hv⟩
      rcases hv.body ha with ⟨hb, hv'⟩ | ⟨hb, _⟩ | ⟨hb, _⟩
      · refine Or.inl ⟨_, hb, ⟨k + 1, rfl, hv'⟩, ?_⟩
        have hk := hv'.1
        simp only [scanAt, Source.skip, List.length_drop]
        omega
      · exact Or.inr ⟨_, hb⟩
      · exact Or.inr ⟨_, hb⟩
    exact run_total (fun s => s.src.bytes.length) hbody
      ⟨0, (scanAt_zero _ _ _).symm, visits_zero _ _ _⟩ (Nat.lt_succ_self _)
  obtain ⟨r, hr⟩ := htotal
  have hv : readUntil src (a :: d) size = r := by
    rw [readUntil, if_neg (Nat.not_lt.mpr hsize), hr]
    rfl
  obtain ⟨t, ht, hl⟩ := run_reaches hr
  obtain ⟨k, rfl, hvis⟩ := (reaches_iff ha).mp ht
  refine ⟨k, hvis, ?_⟩
  rw [hv]
  rcases hvis.body ha with ⟨hb, _⟩ | ⟨hb, hs⟩ | ⟨hb, hs, hlen⟩
  · rw [hb] at hl
    cases hl
  · rw [hb] at hl
    cases hl
    exact Or.inl ⟨rfl, hs⟩
  · rw [hb] at hl
    cases hl
    exact Or.inr ⟨rfl, hs, hlen⟩

/-! ## The bodies that run over the buffer -/

/-- More than `size` bytes, no delimiter among the first `size`, and at each of the
last places where the loop could stop for lack of room the bytes read so far end
half-way through a delimiter. -/
def Overruns (stopAt : Str) (size : ℕ) (s : List Byte) : Prop :=
  size < s.length ∧ ¬ stopAt <:+: s.take size ∧
    ∀ k, k ≤ size → size ≤ k + stopAt.length → Partial stopAt (s.take k)

theorem iterate_sizeDec {size k : ℕ} (hk : k ≤ size) (hs : size < sizeMod) :
    sizeDec^[k] size = size - k := by
  induction k with
  | zero => rfl
  | succ k ih =>
    rw [Function.iterate_succ_apply', ih (by omega), sizeDec_pos (by omega) (by omega)]
    omega

/-- Within the buffer the stops are those that the bytes determine. -/
theorem stops_scanAt_iff {stopAt : Str} {src : Source} {size k : ℕ} (hk : k ≤ size)
    (hs : size < sizeMod) :
    (scanAt stopAt src size k).Stops stopAt ↔
      (0 < k ∧ state stopAt (src.bytes.take k) = stopAt.length) ∨
        (state stopAt (src.bytes.take k) = 0 ∧ size ≤ k + stopAt.length) := by
  unfold Scan.Stops scanAt
  simp only [decide_eq_true_eq, iterate_sizeDec hk hs]
  constructor
  · rintro (h | ⟨h, hle⟩)
    · exact Or.inl h
    · exact Or.inr ⟨h, by omega⟩
  · rintro (h | ⟨h, hle⟩)
    · exact Or.inl h
    · exact Or.inr ⟨h, by omega⟩

/-- Going past the end of the buffer is a property of the bytes. -/
theorem visits_past_iff {a : Byte} {d : Str} (ha : a ∉ d) {src : Source} {size : ℕ}
    (hs : size < sizeMod) :
    Visits (a :: d) src size (size + 1) ↔ Overruns (a :: d) size src.bytes := by
  have htake : ∀ k, k ≤ size → (src.bytes.take size).take k = src.bytes.take k := by
    intro k hk
    rw [List.take_take, Nat.min_eq_left hk]
  constructor
  · intro hv
    have hlt := fun i hi => hv.state_lt ha i hi
    have hlen : size < src.bytes.length := hv.1
    refine ⟨hlen, (not_infix_iff ha).mpr ?_, ?_⟩
    · intro k hk
      rw [List.length_take] at hk
      rw [htake k (by omega)]
      exact hlt k (by omega)
    · intro k hk hroom
      have hns := hv.2 k (by omega)
      rw [stops_scanAt_iff hk hs, not_or] at hns
      refine (state_pos_iff ha ?_).mp ?_
      · intro j hj
        rw [List.length_take] at hj
        rw [List.take_take, Nat.min_eq_left (by omega)]
        exact hlt j (by omega)
      · have hz : state (a :: d) (src.bytes.take k) ≠ 0 := fun h => hns.2 ⟨h, hroom⟩
        omega
  · rintro ⟨hlen, hno, hpart⟩
    have hlt : ∀ k, k ≤ size → state (a :: d) (src.bytes.take k) < (a :: d).length := by
      intro k hk
      have h := (not_infix_iff ha).mp hno k (by rw [List.length_take]; omega)
      rwa [htake k hk] at h
    refine ⟨hlen, fun k hk => ?_⟩
    have hk : k ≤ size := by omega
    rw [stops_scanAt_iff hk hs]
    rintro (⟨_, hfull⟩ | ⟨hzero, hroom⟩)
    · have := hlt k hk
      omega
    · have hpos := (state_pos_iff ha (fun j hj => by
        rw [List.length_take] at hj
        rw [List.take_take, Nat.min_eq_left (by omega)]
        exact hlt j (by omega))).mpr (hpart k hk hroom)
      omega

/-- At every loop head the bytes stored and the counter add up to the buffer size:
nothing has been stored outside and no decrement has wrapped. -/
def InBounds (stopAt : Str) (src : Source) (size : ℕ) : Prop :=
  ∀ t, Reaches (scanBody stopAt) (scanStart src size) t → t.dst.length + t.size = size

theorem inBounds_iff {a : Byte} {d : Str} (ha : a ∉ d) {src : Source} {size : ℕ}
    (hs : size < sizeMod) :
    InBounds (a :: d) src size ↔ ¬ Overruns (a :: d) size src.bytes := by
  rw [← visits_past_iff ha hs]
  constructor
  · intro hb hv
    have h := hb _ ((reaches_iff ha).mpr ⟨size + 1, rfl, hv⟩)
    have hlen := hv.1
    simp only [scanAt, List.length_take] at h
    omega
  · intro hn t ht
    obtain ⟨k, rfl, hv⟩ := (reaches_iff ha).mp ht
    have hk : k ≤ size := by
      by_contra hgt
      exact hn ⟨by have := hv.1; omega, fun i hi => hv.2 i (by omega)⟩
    have hlen := hv.1
    simp only [scanAt, List.length_take, iterate_sizeDec hk hs]
    omega

/-- The bytes stored by a whole call stay within the buffer exactly when no head
lies past it. -/
theorem readUntil_length_le_iff {a : Byte} {d : Str} (ha : a ∉ d) (src : Source) {size : ℕ}
    (hsize : (a :: d).length ≤ size) (hs : size < sizeMod) :
    (readUntil src (a :: d) size).2.dst.length ≤ size ↔ ¬ Overruns (a :: d) size src.bytes := by
  obtain ⟨k, hv, hr⟩ := readUntil_spec ha src hsize
  have hdst : (readUntil src (a :: d) size).2.dst.length = k := by
    have hlen : (scanAt (a :: d) src size k).dst.length = k := by
      simp only [scanAt, List.length_take, Nat.min_eq_left hv.1]
    rcases hr with ⟨hr, _⟩ | ⟨hr, _⟩ <;> rw [hr] <;> exact hlen
  rw [hdst, ← visits_past_iff ha hs]
  constructor
  · intro hk hpast
    rcases hr with ⟨_, hstop⟩ | ⟨_, _, hlen⟩
    · exact hpast.2 k (by omega) hstop
    · exact absurd hpast.1 (by omega)
  · intro hn
    by_contra hgt
    exact hn ⟨by have := hv.1; omega, fun i hi => hv.2 i (by omega)⟩

end Klone.Multipart
