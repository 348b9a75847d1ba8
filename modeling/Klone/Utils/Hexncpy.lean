import Klone.Utils.Urlncpy

/-! # Hexadecimal encoding

`u_hexncpy`. The decoder takes all letters for digits and the other bytes for `-1`; it
only refuses an odd number of them.
-/
namespace Klone
open Http

def uTochex (n : Byte) : Byte := if 15 < n then 63 else if n < 10 then n + 48 else n - 10 + 97

def uHex2ch (c : Byte) : Byte :=
  if 97 ≤ c ∧ c ≤ 122 then c - 97 + 10
  else if 65 ≤ c ∧ c ≤ 90 then c - 65 + 10
  else if 48 ≤ c ∧ c ≤ 57 then c - 48
  else 255

def hexByte (c : Byte) : Str := [uTochex ((c >>> 4) &&& 15), uTochex (c &&& 15)]

def uHexncpyEncode (s : List Byte) : Str := s.flatMap hexByte

def uHexncpyDecode : Str → Option (List Byte)
  | [] => some []
  | [_] => none
  | a :: b :: rest => (uHexncpyDecode rest).map ((uHex2ch a <<< 4 ||| uHex2ch b) :: ·)

theorem uTochex_back :
    ∀ n : Byte, n ≤ 15 → isxdigit (uTochex n) = true ∧ uHex2ch (uTochex n) = n := by
  decide +kernel

theorem uHex2ch_uTochex (c : Byte) :
    uHex2ch (uTochex ((c >>> 4) &&& 15)) <<< 4 ||| uHex2ch (uTochex (c &&& 15)) = c := by
  obtain ⟨h₁, h₂, h⟩ := nibbles c
  rw [(uTochex_back _ h₁).2, (uTochex_back _ h₂).2, h]

theorem hexByte_isxdigit {c e : Byte} (h : e ∈ hexByte c) : isxdigit e = true := by
  obtain ⟨h₁, h₂, -⟩ := nibbles c
  simp only [hexByte, List.mem_cons, List.not_mem_nil, or_false] at h
  rcases h with rfl | rfl
  · exact (uTochex_back _ h₁).1
  · exact (uTochex_back _ h₂).1

@[simp] theorem uHexncpyEncode_length (s : List Byte) :
    (uHexncpyEncode s).length = 2 * s.length := by
  induction s with
  | nil => rfl
  | cons c s ih =>
    rw [uHexncpyEncode, List.flatMap_cons, List.length_append, ← uHexncpyEncode, ih,
      List.length_cons]
    change 2 + 2 * s.length = 2 * (s.length + 1)
    omega

theorem mem_uHexncpyEncode {s : List Byte} {e : Byte} (h : e ∈ uHexncpyEncode s) :
    isxdigit e = true := by
  obtain ⟨c, -, he⟩ := List.mem_flatMap.mp h
  exact hexByte_isxdigit he

/-- Decoding undoes encoding. -/
theorem uHexncpyDecode_encode (s : List Byte) : uHexncpyDecode (uHexncpyEncode s) = some s := by
  induction s with
  | nil => rfl
  | cons c s ih =>
    change (uHexncpyDecode (uHexncpyEncode s)).map _ = _
    rw [ih, Option.map_some, uHex2ch_uTochex]

theorem uHexncpyEncode_safe (s : List Byte) : ∀ c ∈ uHexncpyEncode s, urlSafe c = true :=
  fun _ hc => urlSafe_of_isxdigit (mem_uHexncpyEncode hc)

theorem uHexncpyEncode_ne_nil {s : List Byte} (h : s ≠ []) : uHexncpyEncode s ≠ [] := by
  intro he
  have hlen := uHexncpyEncode_length s
  rw [he] at hlen
  have hpos := List.length_pos_iff.mpr h
  simp only [List.length_nil] at hlen
  omega

end Klone
