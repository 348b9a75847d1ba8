import Klone.Io.Input
import Klone.Session.TextRoundTrip

/-! # Lines on a stream

`u_getline` over the buffers of a stream, whatever pieces the device delivers. It is the
function on the bytes that are still to be read, so what becomes of a line is a matter of
its length alone.
-/
namespace Klone.Chain
open Loop

variable {d : Device} {pending : d.State → Str}

/-- A piece of a line: its last byte decides whether the line goes on, and is dropped. -/
def getlinePiece (ln : Str) (r : Io d × Option Str) : Iter (Io d × Str) (Io d × Bool × Str) :=
  match r.2 with
  | none => .leave (r.1, false, ln)
  | some buf =>
    match buf.length with
    | 0 => .leave (r.1, false, ln)
    | len + 1 =>
      if isnl (buf.getD len 0) then .leave (r.1, true, ln ++ buf.take len)
      else .again (r.1, ln ++ buf.take len)

def getlineBody (n : ℕ) (s : Io d × Str) : Option (Iter (Io d × Str) (Io d × Bool × Str)) :=
  (ioGets n s.1 1024).map (getlinePiece s.2)

/-- `u_getline`: whether it succeeds, and the line. -/
def uGetline (n : ℕ) (io : Io d) : Option (Io d × Bool × Str) := run (getlineBody n) n (io, [])

/-- Successive calls; `none` for a call that fails. -/
def getlines (n : ℕ) : ℕ → Io d → Option (Io d × List (Option Str))
  | 0, io => some (io, [])
  | k + 1, io => (uGetline n io).bind fun r =>
    (getlines n k r.1).map fun t => (t.1, (if r.2.1 then some r.2.2 else none) :: t.2)

/-! ## One call -/

variable {rest : Str} {io : Io d}

/-- One piece of a line comes from the stream as from the bytes that are left. -/
theorem ioGets_source (hd : Delivers d pending) (h : Input pending rest io) (rtot : ℕ) :
    ∃ io', Ends (fun n => ioGets n io 1024)
    (io', some (Klone.ioGets ⟨rest, false, rtot⟩ 1024).data) ∧
      Input pending (Klone.ioGets ⟨rest, false, rtot⟩ 1024).src.bytes io' := by
  obtain ⟨io', hends, hdel⟩ := ioGetUntil_input hd h 10 (by decide : 2 ≤ 1024)
  have hdata : takeThrough 10 1023 rest = (Klone.ioGets ⟨rest, false, rtot⟩ 1024).data := by
    simp [Klone.ioGets, Klone.ioGetUntil]
  refine ⟨io', hdata ▸ hends, ?_⟩
  have hsrc : (Klone.ioGets ⟨rest, false, rtot⟩ 1024).src.bytes =
      rest.drop (takeThrough 10 1023 rest).length := by
    simp [Klone.ioGets, Klone.ioGetUntil, Source.skip]
  rw [hsrc]
  exact hdel.input

theorem ioGets_data (rest : Str) (rtot : ℕ) : Klone.ioGets ⟨rest, false, rtot⟩ 1024 =
    ⟨some (takeThrough 10 1023 rest).length, takeThrough 10 1023 rest,
      ⟨rest.drop (takeThrough 10 1023 rest).length, false,
        rtot + (takeThrough 10 1023 rest).length⟩⟩ := by
  simp [Klone.ioGets, Klone.ioGetUntil, Source.skip]

/-- The loop on the stream ends as the loop on the bytes does. -/
def Agrees (pending : d.State → Str) (r : LineResult) (t : Io d × Bool × Str) : Prop :=
  Input pending r.src.bytes t.1 ∧ r.src.fails = false ∧ t.2 = (r.ok, r.line)

theorem getline_agrees (hd : Delivers d pending) (h : Input pending rest io) (rtot : ℕ) :
    ∃ t, Agrees pending (Klone.uGetline ⟨rest, false, rtot⟩) t ∧
    Ends (fun n => uGetline n io) t := by
  refine ends_run getlineBody (m := rest.length) (s := (io, []))
    (I := fun m s => ∃ bytes fuel rtot', Input pending bytes s.1 ∧ bytes.length = m ∧ m < fuel ∧
      getlineLoop fuel ⟨bytes, false, rtot'⟩ s.2 = Klone.uGetline ⟨rest, false, rtot⟩) ?_
    ⟨rest, rest.length + 1, rtot, h, rfl, Nat.lt_succ_self _, rfl⟩
  rintro m ⟨io, ln⟩ ⟨bytes, fuel, rtot', hin, rfl, hfuel, hloop⟩
  obtain ⟨fuel, rfl⟩ : ∃ k, fuel = k + 1 := ⟨fuel - 1, by omega⟩
  obtain ⟨io', hends, hin'⟩ := ioGets_source hd hin rtot'
  rw [ioGets_data] at hends hin'
  rw [getlineLoop, ioGets_data] at hloop
  have hle : (takeThrough 10 1023 bytes).length ≤ bytes.length :=
    (takeThrough_shortest 10 1023 bytes).begins.length_le
  cases hlen : (takeThrough 10 1023 bytes).length with
  | zero =>
    simp only [hlen, List.drop_zero] at hloop hin'
    refine Or.inr ⟨(io', false, ln), hends.map_eq ?_, ?_⟩
    · simp [getlinePiece, hlen]
    · rw [← hloop]
      exact ⟨hin', rfl, rfl⟩
  | succ len =>
    simp only [hlen] at hloop hin'
    cases hnl : isnl ((takeThrough 10 1023 bytes).getD len 0) with
    | true =>
      rw [if_pos hnl] at hloop
      refine Or.inr ⟨(io', true, ln ++ (takeThrough 10 1023 bytes).take len), hends.map_eq ?_, ?_⟩
      · simp only [getlinePiece, hlen, hnl, if_true]
      · rw [← hloop]
        exact ⟨hin', rfl, rfl⟩
    | false =>
      rw [if_neg (Bool.eq_false_iff.mp hnl)] at hloop
      refine Or.inl ⟨(io', ln ++ (takeThrough 10 1023 bytes).take len), bytes.length - (len + 1),
        hends.map_eq ?_, ?_, ?_⟩
      · simp only [getlinePiece, hlen, hnl, Bool.false_eq_true, if_false]
      · omega
      · exact ⟨_, fuel, _, hin', List.length_drop, by omega, hloop⟩

/-! ## Successive calls -/

/-- A line loses the last byte of each of its full pieces. -/
theorem getline_line (hd : Delivers d pending) {line : Str} (h₁₀ : (10 : Byte) ∉ line)
    (h₁₃ : (13 : Byte) ∉ line) (h : Input pending (line ++ 10 :: rest) io) :
    ∃ io', Ends (fun n => uGetline n io) (io', true, Session.squeeze line) ∧
    Input pending rest io' := by
  obtain ⟨⟨io', ok, ln⟩, ⟨hin, -, heq⟩, hends⟩ := getline_agrees hd h 0
  rw [Session.uGetline_squeeze h₁₀ h₁₃] at hin heq
  obtain ⟨rfl, rfl⟩ := Prod.mk.inj heq
  exact ⟨io', hends, hin⟩

theorem getline_fails (hd : Delivers d pending) (h : Input pending [] io) :
    ∃ io' ln, Ends (fun n => uGetline n io) (io', false, ln) ∧ Input pending [] io' := by
  obtain ⟨⟨io', ok, ln⟩, ⟨hin, -, heq⟩, hends⟩ := getline_agrees hd h 0
  rw [Session.uGetline_end] at hin heq
  obtain ⟨rfl, rfl⟩ := Prod.mk.inj heq
  exact ⟨io', _, hends, hin⟩

theorem getlines_end (hd : Delivers d pending) (h : Input pending [] io) (k : ℕ) :
    ∃ io', Ends (fun n => getlines n k io) (io', List.replicate k none) := by
  induction k generalizing io with
  | zero => exact ⟨io, Ends.const _⟩
  | succ k ih =>
    obtain ⟨io₁, ln, hends, hin⟩ := getline_fails hd h
    obtain ⟨io', hends'⟩ := ih hin
    exact ⟨io', hends.bind (hends'.map_eq rfl)⟩

theorem getlines_squeezed (hd : Delivers d pending) {lines : List Str}
    (hlines : ∀ line ∈ lines, (10 : Byte) ∉ line ∧ (13 : Byte) ∉ line)
    (h : Input pending (lines.flatMap (· ++ [10])) io) (k : ℕ) :
    ∃ io', Ends (fun n => getlines n (lines.length + k) io)
      (io', (lines.map Session.squeeze).map some ++ List.replicate k none) := by
  induction lines generalizing io with
  | nil =>
    rw [List.length_nil, Nat.zero_add]
    exact getlines_end hd h k
  | cons line lines ih =>
    rw [List.flatMap_cons, List.append_assoc, List.singleton_append] at h
    obtain ⟨h₁₀, h₁₃⟩ := hlines line List.mem_cons_self
    obtain ⟨io₁, hends, hin⟩ := getline_line hd h₁₀ h₁₃ h
    obtain ⟨io', hends'⟩ := ih (fun l hl => hlines l (List.mem_cons_of_mem _ hl)) hin
    have hcount : (line :: lines).length + k = lines.length + k + 1 := by
      rw [List.length_cons]
      omega
    rw [hcount]
    exact ⟨io', hends.bind (hends'.map_eq rfl)⟩

def ReturnsLines (io : Io d) (lines : List Str) : Prop :=
  ∀ k, ∃ io', Ends (fun n => getlines n (lines.length + k) io)
    (io', lines.map some ++ List.replicate k none)

theorem squeeze_eq_iff {line : Str} : Session.squeeze line = line ↔ line.length ≤ 1022 := by
  constructor
  · intro h
    by_contra hlong
    have hlt := Session.squeeze_length_lt (Nat.lt_of_not_le hlong)
    rw [h] at hlt
    exact absurd hlt (lt_irrefl _)
  · exact Session.squeeze_short

theorem map_squeeze_eq_iff {lines : List Str} :
    lines.map Session.squeeze = lines ↔ ∀ line ∈ lines, line.length ≤ 1022 := by
  induction lines with
  | nil => simp
  | cons line lines ih => simp [squeeze_eq_iff, ih]

theorem returnsLines_iff_squeeze (hd : Delivers d pending) {lines : List Str}
    (hlines : ∀ line ∈ lines, (10 : Byte) ∉ line ∧ (13 : Byte) ∉ line)
    (h : Input pending (lines.flatMap (· ++ [10])) io) :
    ReturnsLines io lines ↔ lines.map Session.squeeze = lines := by
  constructor
  · intro hret
    obtain ⟨io₁, h₁⟩ := hret 0
    obtain ⟨io₂, h₂⟩ := getlines_squeezed hd hlines h 0
    have heq := congrArg Prod.snd (h₂.unique h₁)
    simp only [List.replicate_zero, List.append_nil] at heq
    exact List.map_injective_iff.mpr (Option.some_injective _) heq
  · intro heq k
    have hsq := getlines_squeezed hd hlines h k
    rwa [heq] at hsq

/-- The lines of a stream come back exactly when none of them is longer than what a piece
holds besides its newline and the terminating NUL. -/
theorem getlines_iff (hd : Delivers d pending) {lines : List Str}
    (hlines : ∀ line ∈ lines, (10 : Byte) ∉ line ∧ (13 : Byte) ∉ line)
    (h : Input pending (lines.flatMap (· ++ [10])) io) :
    ReturnsLines io lines ↔ ∀ line ∈ lines, line.length ≤ 1022 :=
  (returnsLines_iff_squeeze hd hlines h).trans map_squeeze_eq_iff

theorem getlines_fifo :
    ReturnsLines (d := fifo) (ioCreate (bytes "ab\n\nc\n") []) [bytes "ab", [], bytes "c"] := by
  have hin : Input (d := fifo) id ([bytes "ab", [], bytes "c"].flatMap (· ++ [10]))
      (ioCreate (bytes "ab\n\nc\n") []) :=
    ioCreate_input (d := fifo) id (bytes "ab\n\nc\n")
  exact (getlines_iff fifo_delivers (by decide) hin).mpr (by decide)

/-- A line of 1023 bytes loses its last byte. -/
theorem getlines_long : ¬ ReturnsLines (d := fifo) (ioCreate (List.replicate 1023 97 ++ [10]) [])
    [List.replicate 1023 97] := by
  intro h
  have hbytes : ∀ line ∈ [List.replicate 1023 (97 : Byte)], (10 : Byte) ∉ line ∧
      (13 : Byte) ∉ line := by
    intro line hline
    rw [List.mem_singleton.mp hline]
    exact ⟨fun hm => absurd (List.eq_of_mem_replicate hm) (by decide),
      fun hm => absurd (List.eq_of_mem_replicate hm) (by decide)⟩
  have hin : Input (d := fifo) id ([List.replicate 1023 (97 : Byte)].flatMap (· ++ [10]))
      (ioCreate (List.replicate 1023 97 ++ [10]) []) := by
    rw [List.flatMap_singleton]
    exact ioCreate_input (d := fifo) id _
  have hall := map_squeeze_eq_iff.mp ((returnsLines_iff_squeeze fifo_delivers hbytes hin).mp h) _
    (List.mem_singleton_self _)
  rw [List.length_replicate] at hall
  exact absurd hall (by decide)

end Klone.Chain
