import Klone.Lib.PrefixCode
import Klone.Utils.Htmlncpy

/-! # What the HTML encoder writes

The loop of `u_htmlncpy_encode` with its table and its counters. What it writes has no
markup in it, and can be told apart from what it writes for any other string.
-/
namespace Klone

/-- `map`: the entity of a byte, where there is one. -/
def htmlMap (c : Byte) : Option Str := (entities.find? fun p => p.sChar == c).map HtmlEntity.entity

/-- The loop; `s` has at least `slen` bytes. -/
def htmlEncodeLoop : List Byte → ℕ → Str → ℕ → Str × ℕ
  | _, 0, d, wr => (d, wr)
  | [], _ + 1, d, wr => (d, wr)
  | c :: s, slen + 1, d, wr =>
    match htmlMap c with
    | none => htmlEncodeLoop s slen (d ++ [c]) (wr + 1)
    | some entity => htmlEncodeLoop s slen (d ++ entity) (wr + entity.length)

/-- `u_htmlncpy_encode`: what is in `d` before the NUL, and `wr`. -/
def htmlncpyEncode (s : List Byte) (slen : ℕ) : Str × ℕ := htmlEncodeLoop s slen [] 0

theorem htmlMap_escape (c : Byte) : htmlEscape c = (htmlMap c).getD [c] := by
  unfold htmlEscape htmlMap
  cases entities.find? fun p => p.sChar == c <;> rfl

theorem htmlEncodeLoop_eq (s : List Byte) (slen : ℕ) (d : Str) (wr : ℕ) :
    htmlEncodeLoop s slen d wr =
      (d ++ (s.take slen).flatMap htmlEscape, wr + ((s.take slen).flatMap htmlEscape).length) := by
  induction s generalizing slen d wr with
  | nil => cases slen <;> simp [htmlEncodeLoop]
  | cons c s ih =>
    cases slen with
    | zero => simp [htmlEncodeLoop]
    | succ slen =>
      rw [htmlEncodeLoop, List.take_succ_cons, List.flatMap_cons, htmlMap_escape]
      cases htmlMap c with
      | none => simp [ih, Nat.add_assoc, Nat.add_comm]
      | some entity => simp [ih, Nat.add_assoc]

/-- The loop writes what the encoder is said to write. -/
theorem htmlncpyEncode_eq (s rest : List Byte) :
    htmlncpyEncode (s ++ rest) s.length = uHtmlncpyEncode s s.length := by
  simp [htmlncpyEncode, htmlEncodeLoop_eq, uHtmlncpyEncode]

/-! ## Inertness -/

def markup : List Byte := [60, 62, 34, 39]

/-- A byte without an entity stands for itself. -/
theorem htmlEscape_cases (c : Byte) :
    (htmlEscape c = [c] ∧ ∀ p ∈ entities, p.sChar ≠ c) ∨ ∃ p ∈ entities, p.sChar = c ∧
    htmlEscape c = p.entity := by
  unfold htmlEscape
  cases hf : entities.find? fun p => p.sChar == c with
  | none =>
    refine Or.inl ⟨rfl, fun p hp => ?_⟩
    simpa using List.find?_eq_none.mp hf p hp
  | some p =>
    have hchar := List.find?_some hf
    exact Or.inr ⟨p, List.mem_of_find?_eq_some hf, by simpa using hchar, rfl⟩

theorem not_ampersand {c : Byte} (h : ∀ p ∈ entities, p.sChar ≠ c) : c ≠ 38 :=
  (h ⟨38, bytes "&amp;"⟩ List.mem_cons_self).symm

theorem htmlEscape_inert {c e : Byte} (he : e ∈ htmlEscape c) : e ∉ markup := by
  have hentity : ∀ p ∈ entities, ∀ e ∈ p.entity, e ∉ markup := by decide +kernel
  have hmarkup : ∀ e ∈ markup, ∃ p ∈ entities, p.sChar = e := by decide +kernel
  rcases htmlEscape_cases c with ⟨h, hno⟩ | ⟨p, hp, -, h⟩
  · rw [h, List.mem_singleton] at he
    rintro hm
    obtain ⟨p, hp, hc⟩ := hmarkup e hm
    exact hno p hp (hc.trans he)
  · exact hentity p hp e (h ▸ he)

/-- An ampersand in the output is the first byte of an entity. -/
theorem ampersand_entity {s : List Byte} {pre post : Str}
    (h : s.flatMap htmlEscape = pre ++ 38 :: post) :
    ∃ p ∈ entities, p.entity <+: 38 :: post := by
  induction s generalizing pre with
  | nil => simp at h
  | cons c s ih =>
    rw [List.flatMap_cons] at h
    rcases List.append_eq_append_iff.mp h with ⟨pre', -, hrest⟩ | ⟨mid, hpiece, hrest⟩
    · exact ih hrest
    · cases mid with
      | nil => exact @ih [] hrest.symm
      | cons x mid =>
        obtain ⟨rfl, hpost⟩ := List.cons.inj hrest
        rcases htmlEscape_cases c with ⟨hplain, hno⟩ | ⟨p, hp, -, hent⟩
        · -- a byte that stands for itself is no ampersand
          have hmem : (38 : Byte) ∈ htmlEscape c := by
            rw [hpiece]
            simp
          rw [hplain, List.mem_singleton] at hmem
          exact absurd hmem.symm (not_ampersand hno)
        · obtain ⟨rest, hmark, hfree⟩ := (entities_wellformed p hp).mark
          rw [hent, hmark] at hpiece
          cases pre with
          | nil =>
            refine ⟨p, hp, ?_⟩
            rw [hmark, hpiece, hpost]
            exact List.prefix_append _ _
          | cons y pre =>
            obtain ⟨-, htail⟩ := List.cons.inj hpiece
            exact absurd (by rw [htail]; simp) hfree

theorem htmlEscape_prefixCode : PrefixCode htmlEscape where
  nonempty c := by
    rcases htmlEscape_cases c with ⟨h, -⟩ | ⟨p, hp, -, h⟩
    · rw [h]
      exact List.cons_ne_nil _ _
    · obtain ⟨rest, hmark, -⟩ := (entities_wellformed p hp).mark
      rw [h, hmark]
      exact List.cons_ne_nil _ _
  apart a b hab := by
    rcases htmlEscape_cases a with ⟨ha, hna⟩ | ⟨p, hp, rfl, ha⟩
    · rcases htmlEscape_cases b with ⟨hb, -⟩ | ⟨q, hq, -, hb⟩
      · rw [ha, hb] at hab
        simpa using hab
      · obtain ⟨rest, hmark, -⟩ := (entities_wellformed q hq).mark
        rw [ha, hb, hmark, List.cons_prefix_cons] at hab
        exact absurd hab.1 (not_ampersand hna)
    · obtain ⟨rest, hmark, -⟩ := (entities_wellformed p hp).mark
      rcases htmlEscape_cases b with ⟨hb, hnb⟩ | ⟨q, hq, rfl, hb⟩
      · rw [ha, hb, hmark, List.cons_prefix_cons] at hab
        exact absurd hab.1.symm (not_ampersand hnb)
      · rw [ha, hb] at hab
        rw [entities_apart p hp q hq hab]

/-- What is written has no markup, every ampersand of it begins an entity, its length is
returned, and it determines the string. -/
theorem html_inert_injective :
    (∀ s rest : List Byte,
      (∀ e ∈ (htmlncpyEncode (s ++ rest) s.length).1, e ∉ markup) ∧
      (∀ pre post, (htmlncpyEncode (s ++ rest) s.length).1 = pre ++ 38 :: post → ∃ p ∈ entities,
        p.entity <+: 38 :: post) ∧
      (htmlncpyEncode (s ++ rest) s.length).2 = (htmlncpyEncode (s ++ rest) s.length).1.length) ∧
    ∀ s rest t rest' : List Byte,
      (htmlncpyEncode (s ++ rest) s.length).1 = (htmlncpyEncode (t ++ rest') t.length).1 →
      s = t := by
  simp only [htmlncpyEncode_eq, uHtmlncpyEncode, List.take_length]
  refine ⟨fun s rest => ⟨?_, fun pre post h => ampersand_entity h, trivial⟩,
    fun s rest t rest' h => ?_⟩
  · intro e he
    obtain ⟨c, -, hc⟩ := List.mem_flatMap.mp he
    exact htmlEscape_inert hc
  · exact htmlEscape_prefixCode.flatMap_injective h

end Klone
