import Klone.Request.HeaderLoad
import Klone.Session.Lines

/-! # Headers read from a stream

A header is read from the buffers of a stream without codecs. As long as the device reports
no error, what is read is what the same function reads from the bytes that are still to come,
however the device cuts them.
-/
namespace Klone.Chain
open Loop

variable {d : Device} {pending : d.State → Str}

/-- A header that is being loaded: the counter of the loop, and the line that is kept back. -/
structure Loader (d : Device) where
  c : ℕ
  h : HeaderT
  io : Io d
  unfolded : Str

def headerLined (mode : LoadMode) (s : Loader d) (r : Io d × (Bool × Str)) :
    Iter (Loader d) (Io d × (Bool × HeaderT)) :=
  if r.2.1 = false then .leave (r.1, true, headerProcessLineEx mode s.h s.unfolded)
  else match s.c with
    | 0 => .leave (r.1, false, s.h)
    | c + 1 =>
      match stripNl r.2.2 with
      | [] => .leave (r.1, true, headerProcessLineEx mode s.h s.unfolded)
      | b :: line =>
        if isblank b then .again ⟨c, s.h, r.1, s.unfolded ++ b :: line⟩
        else .again ⟨c, headerProcessLineEx mode s.h s.unfolded, r.1, b :: line⟩

def headerBody (mode : LoadMode) (n : ℕ) (s : Loader d) :
    Option (Iter (Loader d) (Io d × (Bool × HeaderT))) :=
  (uGetline n s.io).map (headerLined mode s)

def headerLoadEx (n : ℕ) (mode : LoadMode) (h : HeaderT) (io : Io d) :
    Option (Io d × (Bool × HeaderT)) :=
  run (headerBody mode n) n ⟨headerMaxFieldCount, h, io, []⟩

/-! ## The bytes to come -/

structure Mirrors (pending : d.State → Str) (src : Source) (io : Io d) : Prop where
  input : Input pending src.bytes io
  sound : src.fails = false

variable {src : Source} {io : Io d}

theorem Mirrors.getline (hd : Delivers d pending) (h : Mirrors pending src io) :
    ∃ io', Ends (fun n => uGetline n io) (io', (Klone.uGetline src).ok, (Klone.uGetline src).line) ∧
      Mirrors pending (Klone.uGetline src).src io' := by
  obtain ⟨bytes, fails, rtot⟩ := src
  obtain ⟨hin, rfl⟩ := h
  obtain ⟨⟨io', ok, ln⟩, ⟨hin', hsound, heq⟩, hends⟩ := getline_agrees hd hin rtot
  obtain ⟨rfl, rfl⟩ := Prod.mk.inj heq
  exact ⟨io', hends, hin', hsound⟩

structure Loading (mode : LoadMode) (pending : d.State → Str) (result : LoadResult) (m : ℕ)
    (s : Loader d) : Prop where
  count : m = s.c
  rest : ∃ src, Mirrors pending src s.io ∧ headerLoopEx mode s.c s.h src s.unfolded = result

theorem headerBody_mirrors (hd : Delivers d pending) {mode : LoadMode} {result : LoadResult} {c : ℕ}
    {s : Loader d} (h : Loading mode pending result c s) :
    (∃ t k, Ends (fun n => headerBody mode n s) (.again t) ∧ k < c ∧
      Loading mode pending result k t) ∨
      ∃ r, Ends (fun n => headerBody mode n s) (.leave r) ∧ r.2 = (result.ok, result.header) ∧
        Mirrors pending result.src r.1 := by
  obtain ⟨_, hdr, io, unfolded⟩ := s
  obtain ⟨rfl, src, hm, hresult⟩ := h
  obtain ⟨io', hends, hm'⟩ := hm.getline hd
  dsimp only at hm hresult hends ⊢
  rw [headerLoopEx.eq_def] at hresult
  unfold headerBody
  cases hok : (Klone.uGetline src).ok with
  | false =>
    simp only [hok, if_true] at hresult
    rw [hok] at hends
    subst hresult
    exact Or.inr ⟨(io', true, headerProcessLineEx mode hdr unfolded), hends.map_eq rfl, rfl, hm'⟩
  | true =>
    simp only [hok, Bool.true_eq_false, if_false] at hresult
    rw [hok] at hends
    cases c with
    | zero =>
      subst hresult
      exact Or.inr ⟨(io', false, hdr), hends.map_eq rfl, rfl, hm'⟩
    | succ c =>
      dsimp only at hresult
      cases hstrip : stripNl (Klone.uGetline src).line with
      | nil =>
        rw [hstrip] at hresult
        subst hresult
        exact Or.inr ⟨(io', true, headerProcessLineEx mode hdr unfolded),
          hends.map_eq (by simp [headerLined, hstrip]), rfl, hm'⟩
      | cons b line =>
        rw [hstrip] at hresult
        cases hb : isblank b with
        | true =>
          simp only [hb, if_true] at hresult
          exact Or.inl ⟨⟨c, hdr, io', unfolded ++ b :: line⟩, c,
            hends.map_eq (by simp [headerLined, hstrip, hb]),
            Nat.lt_succ_self c, rfl, _, hm', hresult⟩
        | false =>
          simp only [hb, Bool.false_eq_true, if_false] at hresult
          exact Or.inl ⟨⟨c, headerProcessLineEx mode hdr unfolded, io', b :: line⟩, c,
            hends.map_eq (by simp [headerLined, hstrip, hb]), Nat.lt_succ_self c, rfl, _,
              hm', hresult⟩

/-- A header is loaded from a stream as from its bytes. -/
theorem Mirrors.header (hd : Delivers d pending) (h : Mirrors pending src io) (mode : LoadMode)
    (hdr : HeaderT) :
    ∃ io', Ends (fun n => headerLoadEx n mode hdr io)
        (io', (Klone.headerLoadEx mode hdr src).ok, (Klone.headerLoadEx mode hdr src).header) ∧
      Mirrors pending (Klone.headerLoadEx mode hdr src).src io' := by
  have hrun := ends_run (headerBody mode)
    (I := Loading mode pending (Klone.headerLoadEx mode hdr src))
    (Q := fun r => r.2 = ((Klone.headerLoadEx mode hdr src).ok,
      (Klone.headerLoadEx mode hdr src).header) ∧
      Mirrors pending (Klone.headerLoadEx mode hdr src).src r.1)
    (m := headerMaxFieldCount) (s := ⟨headerMaxFieldCount, hdr, io, []⟩)
      (fun m s => headerBody_mirrors hd)
    ⟨rfl, src, h, rfl⟩
  obtain ⟨⟨io', ret⟩, ⟨rfl, hm⟩, hends⟩ := hrun
  exact ⟨io', hends, hm⟩

end Klone.Chain
