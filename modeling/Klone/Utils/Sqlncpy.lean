import Klone.Utils.UrlncpyLoop

/-! # SQL escaping

The encoder of `u_sqlncpy` doubles quotes. Its counter `slen` goes down for the second
quote too, so that it counts what is written and not what is read. The decoder remembers
the last byte.
-/
namespace Klone

inductive SqlFlag where
  | encode
  | decode

/-- The loop of the encoder over the memory from `s` on. -/
def sqlEncodeLoop : List Byte → ℕ → List Byte → ℕ → Copied
  | _, 0, d, wr => .done (d ++ [0]) wr
  | [], _ + 1, d, _ => .outside d
  | c :: s, slen + 1, d, wr =>
    if c = 39 then
      if slen + 1 < 2 then .failed (d ++ [39])
      else sqlEncodeLoop s (slen - 1) (d ++ [39, 39]) (wr + 2)
    else sqlEncodeLoop s slen (d ++ [c]) (wr + 1)

def sqlDecodeLoop : List Byte → ℕ → Byte → List Byte → ℕ → Copied
  | _, 0, _, d, wr => .done (d ++ [0]) wr
  | [], _ + 1, _, d, _ => .outside d
  | c :: s, slen + 1, last, d, wr =>
    if c = 39 ∧ last = c then sqlDecodeLoop s slen 0 d wr
    else sqlDecodeLoop s slen c (d ++ [c]) (wr + 1)

def uSqlncpy (mem : List Byte) (slen : ℕ) : SqlFlag → Copied
  | .encode => sqlEncodeLoop mem slen [] 0
  | .decode => sqlDecodeLoop mem slen 0 [] 0

def doubled (s : List Byte) : List Byte := s.flatMap fun c => if c = 39 then [39, 39] else [c]

def EvenQuotes (e : List Byte) : Prop :=
  ∀ pre k post, e = pre ++ List.replicate k 39 ++ post → pre.getLast? ≠ some 39 →
    post.head? ≠ some 39 → Even k

def SqlRoundTrip (s : List Byte) : Prop :=
  ∃ e : List Byte, (∀ rest, uSqlncpy (s ++ rest) s.length .encode = .done (e ++ [0]) e.length) ∧
    EvenQuotes e ∧
    e.filter (· ≠ 39) = s.filter (· ≠ 39) ∧
    ∀ rest, uSqlncpy (e ++ rest) e.length .decode = .done (s ++ [0]) s.length

section
variable {s t p d : List Byte} {slen wr ret : ℕ} {last : Byte} {out : List Byte}

theorem doubled_cons (c : Byte) (s : List Byte) :
    doubled (c :: s) = (if c = 39 then [39, 39] else [c]) ++ doubled s := rfl

theorem doubled_of_not_mem (h : (39 : Byte) ∉ s) : doubled s = s := by
  induction s with
  | nil => rfl
  | cons c s ih =>
    simp only [List.mem_cons, not_or] at h
    rw [doubled_cons, if_neg (Ne.symm h.1), ih h.2]
    rfl

/-- The encoder writes a beginning of the string with its quotes doubled. The beginning is
shorter than the string by its quotes. -/
theorem sqlEncodeLoop_done (h : sqlEncodeLoop s slen d wr = .done out ret) :
    ∃ p, p <+: s ∧ p.length + p.count 39 = slen ∧ out = d ++ doubled p ++ [0] ∧
    ret = wr + (doubled p).length := by
  induction s generalizing slen d wr with
  | nil =>
    cases slen with
    | zero =>
      cases h
      exact ⟨[], List.prefix_refl _, rfl, by simp [doubled], rfl⟩
    | succ slen => cases h
  | cons c s ih =>
    cases slen with
    | zero =>
      cases h
      exact ⟨[], List.nil_prefix, rfl, by simp [doubled], rfl⟩
    | succ slen =>
      rw [sqlEncodeLoop] at h
      by_cases hc : c = 39
      · rw [if_pos hc] at h
        split at h
        · cases h
        · next hlen =>
          obtain ⟨p, hp, hcount, hout, hret⟩ := ih h
          refine ⟨c :: p, List.cons_prefix_cons.mpr ⟨rfl, hp⟩, ?_, ?_, ?_⟩
          · rw [hc, List.count_cons_self, List.length_cons]
            omega
          · rw [hout, doubled_cons, if_pos hc]
            simp
          · rw [hret, doubled_cons, if_pos hc, List.length_append]
            simp only [List.length_cons, List.length_nil]
            omega
      · rw [if_neg hc] at h
        obtain ⟨p, hp, hcount, hout, hret⟩ := ih h
        refine ⟨c :: p, List.cons_prefix_cons.mpr ⟨rfl, hp⟩, ?_, ?_, ?_⟩
        · rw [List.count_cons_of_ne hc, List.length_cons]
          omega
        · rw [hout, doubled_cons, if_neg hc]
          simp
        · rw [hret, doubled_cons, if_neg hc, List.length_append]
          simp only [List.length_cons, List.length_nil]
          omega

theorem sqlEncodeLoop_plain (h : (39 : Byte) ∉ s) (rest : List Byte) :
    sqlEncodeLoop (s ++ rest) s.length d wr = .done (d ++ s ++ [0]) (wr + s.length) := by
  induction s generalizing d wr with
  | nil => cases rest <;> simp [sqlEncodeLoop]
  | cons c s ih =>
    simp only [List.mem_cons, not_or] at h
    rw [List.cons_append, List.length_cons, sqlEncodeLoop, if_neg (Ne.symm h.1), ih h.2,
      Copied.done.injEq]
    refine ⟨by simp, by omega⟩

/-- The decoder undoes doubling. Before each byte of the string the last byte is no quote
that is still open. -/
theorem sqlDecodeLoop_doubled (p rest : List Byte) (hlast : last ≠ 39) :
    sqlDecodeLoop (doubled p ++ rest) (doubled p).length last d wr =
    .done (d ++ p ++ [0]) (wr + p.length) := by
  induction p generalizing last d wr with
  | nil => cases rest <;> simp [doubled, sqlDecodeLoop]
  | cons c p ih =>
    by_cases hc : c = 39
    · have hzero : (0 : Byte) ≠ 39 := by decide
      have hfirst : ¬ ((39 : Byte) = 39 ∧ last = 39) := fun h => hlast h.2
      subst hc
      change sqlDecodeLoop (39 :: 39 :: (doubled p ++ rest))
        ((doubled p).length + 1 + 1) last d wr = _
      rw [sqlDecodeLoop, if_neg hfirst, sqlDecodeLoop, if_pos ⟨rfl, rfl⟩, ih hzero,
        Copied.done.injEq, List.length_cons]
      refine ⟨by simp, by omega⟩
    · have hother : ¬ (c = 39 ∧ last = c) := fun h => hc h.1
      rw [doubled_cons, if_neg hc]
      change sqlDecodeLoop (c :: (doubled p ++ rest)) ((doubled p).length + 1) last d wr = _
      rw [sqlDecodeLoop, if_neg hother, ih hc, Copied.done.injEq, List.length_cons]
      refine ⟨by simp, by omega⟩

/-- A string comes through exactly when there is no quote in it: for every quote the
encoder leaves out a byte at the end, or fails. -/
theorem sql_round_trip_iff (s : List Byte) : SqlRoundTrip s ↔ (39 : Byte) ∉ s := by
  constructor
  · rintro ⟨e, hencode, -, -, hdecode⟩
    obtain ⟨p, hp, hcount, hout, -⟩ := sqlEncodeLoop_done (hencode [])
    rw [List.append_nil] at hp
    have he : e = doubled p := List.append_cancel_right (hout.trans (by simp))
    have hback := hdecode []
    rw [he, uSqlncpy, sqlDecodeLoop_doubled p [] (by decide), Copied.done.injEq] at hback
    have hps : p = s := List.append_cancel_right hback.1
    subst hps
    exact List.count_eq_zero.mp (Nat.left_eq_add.mp hcount.symm)
  · intro h
    refine ⟨s, fun rest => ?_, ?_, rfl, fun rest => ?_⟩
    · rw [uSqlncpy, sqlEncodeLoop_plain h rest]
      simp
    · intro pre k post hsplit _ _
      cases k with
      | zero => exact Even.zero
      | succ k =>
        rw [hsplit, List.replicate_succ] at h
        simp at h
    · have hdecode := @sqlDecodeLoop_doubled [] 0 0 s rest (by decide)
      rw [doubled_of_not_mem h] at hdecode
      rw [uSqlncpy, hdecode]
      simp

end

/-- The byte after the quote is lost. -/
theorem sql_byte_lost :
    uSqlncpy (bytes "a'b") 3 .encode = .done (bytes "a''" ++ [0]) 3 ∧ ¬ ∀ s, SqlRoundTrip s := by
  refine ⟨by decide, fun h => ?_⟩
  obtain ⟨e, hencode, -, hother, -⟩ := h (bytes "a'b")
  have hcode : uSqlncpy (bytes "a'b" ++ []) 3 .encode = .done (bytes "a''" ++ [0]) 3 := by decide
  have hsame := (hencode []).symm.trans hcode
  rw [Copied.done.injEq] at hsame
  have he : e = bytes "a''" := List.append_cancel_right hsame.1
  subst he
  revert hother
  decide

end Klone
