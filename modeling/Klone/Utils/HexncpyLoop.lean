import Klone.Lib.Loop
import Klone.Utils.Hexncpy

/-! # Hexadecimal encoding in memory

The loops of `u_hexncpy` with their two indices. A `char` is signed, and the digits are
computed as values of type `int` and `size_t`.
-/
namespace Klone
open Http Loop

/-- The memory with a text written from its beginning on. -/
def overlay (e : List Byte) (d : ℕ → Byte) : ℕ → Byte := fun j => (e[j]?).getD (d j)

/-- A `char` that is converted to a wider type. -/
def charBits (w : ℕ) (c : Byte) : BitVec w := c.toBitVec.signExtend w

def tochex (n : BitVec 32) : Byte :=
  UInt8.ofBitVec ((if (15#32).slt n then 63#32 else if n.slt 10#32 then n + 48#32
    else n - 10#32 + 97#32).setWidth 8)

def hex2ch (c : Byte) : BitVec 32 :=
  let c := charBits 32 c
  if (97#32).sle c ∧ c.sle 122#32 then c - 97#32 + 10#32
  else if (65#32).sle c ∧ c.sle 90#32 then c - 65#32 + 10#32
  else if (48#32).sle c ∧ c.sle 57#32 then c - 48#32
  else -1#32

structure HexState where
  d : ℕ → Byte
  i : ℕ
  t : ℕ

def readAt (s : List Byte) (i : ℕ) : Byte := (s[i]?).getD 0

def hexEncodeBody (s : List Byte) (slen : ℕ) (st : HexState) : Option (Iter HexState HexState) :=
  if st.i < slen then
    let c := charBits 64 (readAt s st.i)
    let d := Function.update st.d st.t (tochex (((c >>> 4) &&& 15#64).setWidth 32))
    let d := Function.update d (st.t + 1) (tochex ((c &&& 15#64).setWidth 32))
    some (.again ⟨d, st.i + 1, st.t + 2⟩)
  else some (.leave { st with d := Function.update st.d st.t 0 })

def hexDecodeBody (s : List Byte) (slen : ℕ) (st : HexState) : Option (Iter HexState HexState) :=
  if st.i < slen then
    let v := hex2ch (readAt s st.i) <<< 4 ||| hex2ch (readAt s (st.i + 1))
    some (.again ⟨Function.update st.d st.t (UInt8.ofBitVec (v.setWidth 8)), st.i + 2, st.t + 1⟩)
  else some (.leave { st with d := Function.update st.d st.t 0 })

inductive HexFlag where
  | encode
  | decode

/-- `u_hexncpy`: the memory of `d`, and the value that is returned. -/
def uHexncpy (d : ℕ → Byte) (s : List Byte) (slen : ℕ) : HexFlag → Option ((ℕ → Byte) × ℤ)
  | .encode => (run (hexEncodeBody s slen) (slen + 1) ⟨d, 0, 0⟩).map fun st => (st.d, st.t)
  | .decode =>
    if slen % 2 ≠ 0 then some (d, -1)
    else (run (hexDecodeBody s slen) (slen + 1) ⟨d, 0, 0⟩).map fun st => (st.d, st.t)

/-! ## The digits -/

theorem tochex_high : ∀ c : Byte,
    tochex (((charBits 64 c >>> 4) &&& 15#64).setWidth 32) = uTochex ((c >>> 4) &&& 15) := by
  decide +kernel

theorem tochex_low :
    ∀ c : Byte, tochex ((charBits 64 c &&& 15#64).setWidth 32) = uTochex (c &&& 15) := by
  decide +kernel

theorem hex2ch_low : ∀ c : Byte, (hex2ch c).setWidth 8 = (uHex2ch c).toBitVec := by decide +kernel

theorem setWidth_shiftLeft (x : BitVec 32) : (x <<< 4).setWidth 8 = x.setWidth 8 <<< 4 := by
  apply BitVec.eq_of_getLsbD_eq
  intro i hi
  simp [BitVec.getLsbD_setWidth, BitVec.getLsbD_shiftLeft]

/-- The byte that is stored depends on the low bits of both digits only. -/
theorem hex2ch_byte (a b : Byte) :
    UInt8.ofBitVec ((hex2ch a <<< 4 ||| hex2ch b).setWidth 8) = uHex2ch a <<< 4 ||| uHex2ch b := by
  apply UInt8.toBitVec_inj.mp
  rw [UInt8.toBitVec_or, UInt8.toBitVec_shiftLeft, ← hex2ch_low, ← hex2ch_low, BitVec.setWidth_or,
    setWidth_shiftLeft]
  rfl

theorem hexByte_lower {c e : Byte} (h : e ∈ hexByte c) : tolower e = e := by
  have hlower : ∀ n : Byte, n ≤ 15 → tolower (uTochex n) = uTochex n := by decide +kernel
  obtain ⟨h₁, h₂, -⟩ := nibbles c
  simp only [hexByte, List.mem_cons, List.not_mem_nil, or_false] at h
  rcases h with rfl | rfl
  · exact hlower _ h₁
  · exact hlower _ h₂

/-- Digits are the lower-case digits of the byte that they stand for. -/
theorem hexByte_digits {a b : Byte} (ha : isxdigit a = true) (hb : isxdigit b = true) :
    hexByte (uHex2ch a <<< 4 ||| uHex2ch b) = [tolower a, tolower b] := by
  have hdigit : ∀ c : Byte, isxdigit c = true → uHex2ch c ≤ 15 ∧
    uTochex (uHex2ch c) = tolower c := by decide +kernel
  have hhalves : ∀ x : Byte, x ≤ 15 → ∀ y : Byte, y ≤ 15 →
      ((x <<< 4 ||| y) >>> 4) &&& 15 = x ∧ (x <<< 4 ||| y) &&& 15 = y := by decide +kernel
  obtain ⟨hx, hax⟩ := hdigit a ha
  obtain ⟨hy, hby⟩ := hdigit b hb
  obtain ⟨h₁, h₂⟩ := hhalves _ hx _ hy
  rw [hexByte, h₁, h₂, hax, hby]

/-! ## Memory -/

theorem update_overlay (e : List Byte) (d : ℕ → Byte) (b : Byte) {n : ℕ} (hn : n = e.length) :
    Function.update (overlay e d) n b = overlay (e ++ [b]) d := by
  subst hn
  funext j
  unfold overlay
  rcases Nat.lt_trichotomy j e.length with h | rfl | h
  · rw [Function.update_of_ne (Nat.ne_of_lt h), List.getElem?_append_left h]
  · simp
  · rw [Function.update_of_ne (Nat.ne_of_gt h), List.getElem?_eq_none (Nat.le_of_lt h),
      List.getElem?_eq_none]
    rw [List.length_append]
    exact h

theorem readAt_append {s : List Byte} {i : ℕ} (h : i < s.length) (rest : List Byte) :
    readAt (s ++ rest) i = readAt s i := by
  rw [readAt, readAt, List.getElem?_append_left h]

/-! ## The encoder -/

section
variable {s h : List Byte} {slen i j : ℕ} {d : ℕ → Byte} {st : HexState}

theorem take_readAt (hi : i < s.length) : s.take (i + 1) = s.take i ++ [readAt s i] := by
  rw [List.take_add_one, readAt, List.getElem?_eq_getElem hi]
  rfl

theorem hexEncode_reaches (rest : List Byte) (d : ℕ → Byte) (hi : i ≤ s.length) :
    Reaches (hexEncodeBody (s ++ rest) s.length) ⟨d, 0, 0⟩
    ⟨overlay (uHexncpyEncode (s.take i)) d, i, 2 * i⟩ := by
  induction i with
  | zero =>
    rw [List.take_zero]
    exact Relation.ReflTransGen.refl
  | succ i ih =>
    apply (ih (Nat.le_of_succ_le hi)).tail
    have hlen : (uHexncpyEncode (s.take i)).length = 2 * i := by
      rw [uHexncpyEncode_length, List.length_take, Nat.min_eq_left (Nat.le_of_succ_le hi)]
    have hdigits : uHexncpyEncode (s.take (i + 1)) =
        uHexncpyEncode (s.take i) ++ hexByte (readAt s i) := by
      rw [take_readAt hi, uHexncpyEncode, List.flatMap_append]
      simp [uHexncpyEncode]
    simp only [hexEncodeBody, if_pos (Nat.lt_of_succ_le hi), readAt_append (Nat.lt_of_succ_le hi),
      tochex_high, tochex_low]
    rw [update_overlay _ _ _ hlen.symm, update_overlay _ _ _ (by simp [hlen]),
      List.append_assoc, hdigits]
    rfl

theorem hexEncode_ends (s : List Byte) (slen : ℕ) (d : ℕ → Byte) :
    ∃ st, run (hexEncodeBody s slen) (slen + 1) ⟨d, 0, 0⟩ = some st := by
  refine run_total (fun st => slen - st.i) (I := fun _ => True) ?_ trivial (Nat.lt_succ_self _)
  intro st _
  unfold hexEncodeBody
  by_cases hi : st.i < slen
  · rw [if_pos hi]
    refine Or.inl ⟨_, rfl, trivial, ?_⟩
    change slen - (st.i + 1) < slen - st.i
    omega
  · exact Or.inr ⟨_, if_neg hi⟩

theorem uHexncpy_encode (s rest : List Byte) (d : ℕ → Byte) :
    uHexncpy d (s ++ rest) s.length .encode =
    some (overlay (uHexncpyEncode s ++ [0]) d, ((2 * s.length : ℕ) : ℤ)) := by
  obtain ⟨st, hst⟩ := hexEncode_ends (s ++ rest) s.length d
  have hreach := hexEncode_reaches rest d (Nat.le_refl s.length)
  have hleave : hexEncodeBody (s ++ rest) s.length ⟨overlay (uHexncpyEncode (s.take s.length)) d,
    s.length, 2 * s.length⟩ =
      some (.leave ⟨overlay (uHexncpyEncode s ++ [0]) d, s.length, 2 * s.length⟩) := by
    have hno : ¬ s.length < s.length := Nat.lt_irrefl _
    rw [List.take_length]
    simp only [hexEncodeBody, if_neg hno]
    rw [update_overlay _ _ _ (uHexncpyEncode_length s).symm]
  have hres := run_unique hst hreach hleave
  simp only [uHexncpy, hst, hres, Option.map_some]

/-! ## The decoder -/

/-- What the decoder makes of a text of even length. -/
theorem uHexncpyDecode_even {h : List Byte} (heven : h.length % 2 = 0) :
    ∃ w, uHexncpyDecode h = some w ∧ 2 * w.length = h.length ∧
      ∀ j < w.length, w[j]? = some
        (uHex2ch (readAt h (2 * j)) <<< 4 ||| uHex2ch (readAt h (2 * j + 1))) := by
  induction h using uHexncpyDecode.induct with
  | case1 => exact ⟨[], rfl, rfl, by simp⟩
  | case2 a => simp at heven
  | case3 a b rest ih =>
    have hrest : rest.length % 2 = 0 := by
      simp only [List.length_cons] at heven
      omega
    obtain ⟨w, hw, hlen, hget⟩ := ih hrest
    refine ⟨(uHex2ch a <<< 4 ||| uHex2ch b) ::
      w, by rw [uHexncpyDecode, hw, Option.map_some], ?_, ?_⟩
    · simp only [List.length_cons]
      omega
    · intro j hj
      cases j with
      | zero => rfl
      | succ j => exact hget j (Nat.lt_of_succ_lt_succ hj)

theorem hexDecode_reaches {w : List Byte} (rest : List Byte) (d : ℕ → Byte)
    (hlen : 2 * w.length = h.length)
    (hget : ∀ j < w.length, w[j]? =
      some (uHex2ch (readAt h (2 * j)) <<< 4 ||| uHex2ch (readAt h (2 * j + 1))))
    (hj : j ≤ w.length) :
    Reaches (hexDecodeBody (h ++ rest) h.length) ⟨d, 0, 0⟩ ⟨overlay (w.take j) d, 2 * j, j⟩ := by
  induction j with
  | zero =>
    rw [List.take_zero]
    exact Relation.ReflTransGen.refl
  | succ j ih =>
    apply (ih (Nat.le_of_succ_le hj)).tail
    have hi : 2 * j < h.length := by omega
    have hi' : 2 * j + 1 < h.length := by omega
    have htake : w.take (j + 1) =
        w.take j ++ [uHex2ch (readAt h (2 * j)) <<< 4 ||| uHex2ch (readAt h (2 * j + 1))] := by
      rw [List.take_add_one, hget j hj]
      rfl
    have hpos : j = (w.take j).length := by
      rw [List.length_take, Nat.min_eq_left (Nat.le_of_succ_le hj)]
    simp only [hexDecodeBody, if_pos hi, readAt_append hi, readAt_append hi', hex2ch_byte]
    rw [update_overlay _ _ _ hpos, htake]
    rfl

theorem hexDecode_ends (s : List Byte) (slen : ℕ) (d : ℕ → Byte) :
    ∃ st, run (hexDecodeBody s slen) (slen + 1) ⟨d, 0, 0⟩ = some st := by
  refine run_total (fun st => slen - st.i) (I := fun _ => True) ?_ trivial (Nat.lt_succ_self _)
  intro st _
  unfold hexDecodeBody
  by_cases hi : st.i < slen
  · rw [if_pos hi]
    refine Or.inl ⟨_, rfl, trivial, ?_⟩
    change slen - (st.i + 2) < slen - st.i
    omega
  · exact Or.inr ⟨_, if_neg hi⟩

theorem uHexncpy_decode_odd (hodd : h.length % 2 ≠ 0) (rest : List Byte) (d : ℕ → Byte) :
    uHexncpy d (h ++ rest) h.length .decode = some (d, -1) := by
  exact if_pos hodd

theorem uHexncpy_decode_even (heven : h.length % 2 = 0) : ∃ w, uHexncpyDecode h = some w ∧ ∀ rest d,
    uHexncpy d (h ++ rest) h.length .decode = some (overlay (w ++ [0]) d, (w.length : ℤ)) := by
  obtain ⟨w, hw, hlen, hget⟩ := uHexncpyDecode_even heven
  refine ⟨w, hw, fun rest d => ?_⟩
  obtain ⟨st, hst⟩ := hexDecode_ends (h ++ rest) h.length d
  have hreach := hexDecode_reaches rest d hlen hget (Nat.le_refl w.length)
  have hleave : hexDecodeBody (h ++ rest) h.length
    ⟨overlay (w.take w.length) d, 2 * w.length, w.length⟩ =
      some (.leave ⟨overlay (w ++ [0]) d, 2 * w.length, w.length⟩) := by
    have hno : ¬ 2 * w.length < h.length := by omega
    rw [List.take_length]
    simp only [hexDecodeBody, if_neg hno]
    rw [update_overlay _ _ _ rfl]
  have hres := run_unique hst hreach hleave
  simp only [uHexncpy, if_neg (not_not.mpr heven), hst, hres, Option.map_some]

/-- Bytes are written as lower-case digits, two for each, and read back. -/
theorem hex_round_trip (s : List Byte) : ∃ e : Str, e.length = 2 * s.length ∧
    (∀ c ∈ e, isxdigit c = true ∧ tolower c = c) ∧
    (∀ d rest, uHexncpy d (s ++ rest) s.length .encode =
      some (overlay (e ++ [0]) d, (e.length : ℤ))) ∧
    ∀ d rest, uHexncpy d (e ++ rest) e.length .decode =
    some (overlay (s ++ [0]) d, (s.length : ℤ)) := by
  refine ⟨uHexncpyEncode s, uHexncpyEncode_length s, ?_, fun d rest => ?_, fun d rest => ?_⟩
  · intro c hc
    obtain ⟨b, -, hb⟩ := List.mem_flatMap.mp hc
    exact ⟨hexByte_isxdigit hb, hexByte_lower hb⟩
  · rw [uHexncpyEncode_length]
    exact uHexncpy_encode s rest d
  · have heven : (uHexncpyEncode s).length % 2 = 0 := by
      rw [uHexncpyEncode_length]
      omega
    obtain ⟨w, hw, hdecode⟩ := uHexncpy_decode_even heven
    obtain rfl := Option.some.inj ((uHexncpyDecode_encode s).symm.trans hw)
    exact hdecode rest d

/-! ## What the decoder accepts -/

def HexText (h : Str) : Prop := h.length % 2 = 0 ∧ ∀ c ∈ h, isxdigit c = true

/-- The decoder accepts the text exactly if it is made of digits, and what it has decoded
is encoded as the same text in lower case. -/
def DecodesExactly (h : Str) : Prop := ∀ d rest,
  (HexText h ∧ ∃ w, uHexncpy d (h ++ rest) h.length .decode =
    some (overlay (w ++ [0]) d, (w.length : ℤ)) ∧
    ∀ d' rest', uHexncpy d' (w ++ rest') w.length .encode =
      some (overlay (h.map tolower ++ [0]) d', (h.length : ℤ))) ∨
  (¬ HexText h ∧ ∃ d', uHexncpy d (h ++ rest) h.length .decode = some (d', -1))

theorem uHexncpyEncode_decode {w : List Byte} (hdigits : ∀ c ∈ h, isxdigit c = true)
    (hw : uHexncpyDecode h = some w) :
    uHexncpyEncode w = h.map tolower := by
  induction h using uHexncpyDecode.induct generalizing w with
  | case1 =>
    obtain rfl := Option.some.inj hw
    rfl
  | case2 a => cases hw
  | case3 a b rest ih =>
    obtain ⟨w', hw', rfl⟩ := Option.map_eq_some_iff.mp hw
    simp only [List.forall_mem_cons] at hdigits
    change hexByte (uHex2ch a <<< 4 ||| uHex2ch b) ++ uHexncpyEncode w' = _
    rw [hexByte_digits hdigits.1 hdigits.2.1, ih hdigits.2.2 hw']
    rfl

/-- The decoder only refuses texts of odd length. -/
theorem hex_decode_exact_iff (h : Str) :
    DecodesExactly h ↔ h.length % 2 = 1 ∨ ∀ c ∈ h, isxdigit c = true := by
  rcases Nat.mod_two_eq_zero_or_one h.length with heven | hodd
  · obtain ⟨w, hw, hdecode⟩ := uHexncpy_decode_even heven
    constructor
    · intro hexact
      rcases hexact (fun _ => 0) [] with ⟨htext, -⟩ | ⟨-, d', hfail⟩
      · exact Or.inr htext.2
      · have hret := (hdecode [] fun _ => 0).symm.trans hfail
        simp only [Option.some.injEq, Prod.mk.injEq] at hret
        omega
    · intro hcond d rest
      have hdigits := hcond.resolve_left (by omega)
      refine Or.inl ⟨⟨heven, hdigits⟩, w, hdecode rest d, fun d' rest' => ?_⟩
      have hlen := congrArg List.length (uHexncpyEncode_decode hdigits hw)
      rw [uHexncpyEncode_length, List.length_map] at hlen
      rw [uHexncpy_encode, uHexncpyEncode_decode hdigits hw, hlen]
  · have hno : ¬ HexText h := fun htext => by
      have heven := htext.1
      omega
    constructor
    · exact fun _ => Or.inl hodd
    · exact fun _ d rest => Or.inr ⟨hno, d, uHexncpy_decode_odd (by omega) rest d⟩

end

/-- Two letters that are no digits are decoded. -/
theorem hex_decode_letters :
    uHexncpyDecode (bytes "zz") = some [0x33] ∧ ¬ ∀ h, DecodesExactly h := by
  refine ⟨by decide, fun hall => ?_⟩
  obtain ⟨w, -, hdecode⟩ := uHexncpy_decode_even (h := bytes "zz") (by decide)
  rcases hall (bytes "zz") (fun _ => 0) [] with ⟨htext, -⟩ | ⟨-, d', hfail⟩
  · exact absurd (htext.2 122 (by decide)) (by decide)
  · have hret := (hdecode [] fun _ => 0).symm.trans hfail
    simp only [Option.some.injEq, Prod.mk.injEq] at hret
    omega

end Klone
