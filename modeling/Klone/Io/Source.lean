import Klone.Lib.CString

/-! # An input stream as its readers see it

Behind `io_read` and `io_gets` a stream without codecs is the bytes that the
device will still deliver, whether it then reports an error or the end of the
file, and the total delivered so far.
-/
namespace Klone

structure Source where
  bytes : List Byte
  fails : Bool
  rtot : ℕ
  deriving DecidableEq, Repr

/-- What a read function reports: `none` for `-1`, the bytes stored in the
caller's buffer, and the stream afterwards. -/
structure ReadResult where
  rc : Option ℕ
  data : List Byte
  src : Source
  deriving DecidableEq, Repr

def Source.skip (s : Source) (n : ℕ) : Source :=
  { s with bytes := s.bytes.drop n, rtot := s.rtot + n }

/-- `io_read` asks the device again until `size` bytes are there; an error of the
device discards what this call had already copied. -/
def ioRead (s : Source) (size : ℕ) : ReadResult :=
  if size ≤ s.bytes.length then ⟨some size, s.bytes.take size, s.skip size⟩
  else if s.fails then ⟨none, s.bytes, s.skip s.bytes.length⟩
  else ⟨some s.bytes.length, s.bytes, s.skip s.bytes.length⟩

/-- The shortest beginning that ends in `stop`, limited to `n` bytes. -/
def takeThrough (stop : Byte) : ℕ → List Byte → List Byte
  | 0, _ => []
  | _ + 1, [] => []
  | n + 1, c :: rest => if c = stop then [c] else c :: takeThrough stop n rest

/-- `io_get_until`; the buffer is refilled, and an error noticed, when the bytes
run out before `stop_at` is seen. -/
def ioGetUntil (s : Source) (stop : Byte) (size : ℕ) : ReadResult :=
  if size < 2 then ⟨none, [], s⟩
  else
    let line := takeThrough stop (size - 1) s.bytes
    if line.length = s.bytes.length ∧ line.getLast? ≠ some stop ∧ s.fails then
      ⟨none, line, s.skip line.length⟩
    else ⟨some line.length, line, s.skip line.length⟩

def ioGets (s : Source) (size : ℕ) : ReadResult := ioGetUntil s 10 size

/-- Reading a single byte, the only way `read_until` reads. -/
theorem ioRead_one_cons {s : Source} {c : Byte} {rest : List Byte} (h : s.bytes = c :: rest) :
    ioRead s 1 = ⟨some 1, [c], s.skip 1⟩ := by
  simp [ioRead, h]

theorem ioRead_one_nil {s : Source} (h : s.bytes = []) :
    ioRead s 1 = ⟨if s.fails then none else some 0, [], s⟩ := by
  have hs : s.skip 0 = s := by simp [Source.skip]
  cases hf : s.fails <;> simp [ioRead, h, hf, hs]

theorem takeThrough_line {stop : Byte} {line : List Byte} (h : stop ∉ line) (rest : List Byte)
    {n : ℕ} (hn : line.length < n) :
    takeThrough stop n (line ++ stop :: rest) = line ++ [stop] := by
  induction line generalizing n with
  | nil =>
    obtain ⟨n, rfl⟩ : ∃ k, n = k + 1 := ⟨n - 1, by simp at hn; omega⟩
    simp [takeThrough]
  | cons c line ih =>
    rw [List.length_cons] at hn
    obtain ⟨n, rfl⟩ : ∃ k, n = k + 1 := ⟨n - 1, by omega⟩
    obtain ⟨hc, hl⟩ : ¬ stop = c ∧ stop ∉ line := not_or.mp (fun hm => h (List.mem_cons.mpr hm))
    rw [List.cons_append, takeThrough, if_neg (Ne.symm hc), ih hl (by omega)]
    rfl

theorem takeThrough_found {stop : Byte} {r : Str} {i : ℕ} (h : r.findIdx? (· == stop) = some i)
    (more : Str) (n : ℕ) :
    takeThrough stop n (r ++ more) = r.take (min (i + 1) n) := by
  induction r generalizing i n with
  | nil => cases h
  | cons c r ih =>
    cases n with
    | zero => simp [takeThrough]
    | succ n =>
      rw [List.findIdx?_cons] at h
      by_cases hc : c = stop
      · simp [hc] at h
        simp [takeThrough, hc, ← h]
      · simp only [beq_iff_eq, hc, if_false, Option.map_eq_some_iff] at h
        obtain ⟨j, hj, rfl⟩ := h
        have hmin : min (j + 1 + 1) (n + 1) = min (j + 1) n + 1 := by omega
        simp [takeThrough, hc, ih hj, hmin]

theorem takeThrough_passes {stop : Byte} {r : Str} (h : r.findIdx? (· == stop) = none) (more : Str)
    {n : ℕ} (hn : r.length ≤ n) :
    takeThrough stop n (r ++ more) = r ++ takeThrough stop (n - r.length) more := by
  induction r generalizing n with
  | nil => simp
  | cons c r ih =>
    rw [List.length_cons] at hn
    obtain ⟨n, rfl⟩ : ∃ k, n = k + 1 := ⟨n - 1, by omega⟩
    rw [List.findIdx?_cons] at h
    by_cases hc : c = stop
    · simp [hc] at h
    · simp only [beq_iff_eq, hc, if_false, Option.map_eq_none_iff] at h
      simp [takeThrough, hc, ih h (by omega : r.length ≤ n)]

theorem takeThrough_cut {stop : Byte} {r : Str} (h : r.findIdx? (· == stop) = none) (more : Str)
    {n : ℕ} (hn : n ≤ r.length) : takeThrough stop n (r ++ more) = r.take n := by
  induction r generalizing n with
  | nil =>
    obtain rfl : n = 0 := Nat.le_zero.mp hn
    rfl
  | cons c r ih =>
    cases n with
    | zero => rfl
    | succ n =>
      rw [List.findIdx?_cons] at h
      by_cases hc : c = stop
      · simp [hc] at h
      · simp only [beq_iff_eq, hc, if_false, Option.map_eq_none_iff] at h
        simp [takeThrough, hc, ih h (Nat.le_of_succ_le_succ hn)]

theorem takeThrough_nil (stop : Byte) (n : ℕ) : takeThrough stop n [] = [] := by cases n <;> rfl

/-- A short line is returned whole, with its newline. -/
theorem ioGets_line {line : List Byte} (h : (10 : Byte) ∉ line) (rest : List Byte) (fails : Bool)
    (rtot : ℕ) {size : ℕ} (hsize : line.length + 2 ≤ size) :
    ioGets ⟨line ++ 10 :: rest, fails, rtot⟩ size =
      ⟨some (line.length + 1), line ++ [10], ⟨rest, fails, rtot + (line.length + 1)⟩⟩ := by
  have ht := takeThrough_line h rest (n := size - 1) (by omega)
  have hlast : (line ++ [10]).getLast? = some (10 : Byte) := by simp
  have hdrop : (line ++ 10 :: rest).drop (line.length + 1) = rest := by
    rw [← List.singleton_append, ← List.append_assoc]
    exact List.drop_left' (by simp)
  rw [ioGets, ioGetUntil, if_neg (by omega)]
  dsimp only
  rw [ht, if_neg (by rintro ⟨_, hne, _⟩; exact hne hlast)]
  simp only [List.length_append, List.length_singleton, Source.skip, hdrop]

end Klone
