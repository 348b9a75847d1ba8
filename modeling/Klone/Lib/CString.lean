import Mathlib

/-! # Bytes and C strings

A C string is the list of its bytes before the terminating NUL. The functions of
the C library follow their documented behaviour in the C locale; a character
class is a Boolean predicate on bytes.
-/
namespace Klone

abbrev Byte := UInt8
abbrev Str := List Byte

def bytes (s : String) : Str := s.toList.map (fun c => UInt8.ofNat c.toNat)

def sizeMod : ℕ := 2 ^ 64

theorem one_lt_sizeMod : 1 < sizeMod := by decide

/-- `size--` on a `size_t`. -/
def sizeDec (n : ℕ) : ℕ := (n + (sizeMod - 1)) % sizeMod

theorem sizeDec_pos {n : ℕ} (h : 0 < n) (hn : n < sizeMod) : sizeDec n = n - 1 := by
  unfold sizeDec
  have he : n + (sizeMod - 1) = (n - 1) + sizeMod := by unfold sizeMod at hn ⊢; omega
  rw [he, Nat.add_mod_right]
  exact Nat.mod_eq_of_lt (by omega)

theorem all_ne_iff {s : List Byte} {d : Byte} : (∀ c ∈ s, decide (c ≠ d) = true) ↔ d ∉ s := by
  constructor
  · intro h hd
    simpa using h d hd
  · intro h c hc
    apply decide_eq_true
    rintro rfl
    exact h hc

theorem eq_false_of_any {s : List Byte} {p : Byte → Bool} (h : s.any p = false) :
    ∀ c ∈ s, p c = false := by
  intro c hc
  simpa using List.any_eq_false.mp h c hc

/-- Nothing is left behind the delimiter where it does not occur. -/
theorem dropWhile_ne_eq_nil {s : List Byte} {d : Byte} :
    s.dropWhile (fun c => decide (c ≠ d)) = [] ↔ d ∉ s :=
  List.dropWhile_eq_nil_iff.trans all_ne_iff

/-- The part of a byte block that a C string function sees. -/
def cstr (s : List Byte) : Str := s.takeWhile (· ≠ 0)

theorem cstr_of_not_mem {s : List Byte} (h : (0 : Byte) ∉ s) : cstr s = s :=
  List.takeWhile_eq_self_iff.mpr (all_ne_iff.mpr h)

def isblank (c : Byte) : Bool := c == 32 || c == 9
def isnl (c : Byte) : Bool := c == 10 || c == 13
def isspace (c : Byte) : Bool := c == 32 || (9 ≤ c && c ≤ 13)

def tolower (c : Byte) : Byte := if 65 ≤ c ∧ c ≤ 90 then c + 32 else c

def strcasecmpEq (s t : Str) : Bool := s.map tolower == t.map tolower

theorem strcasecmpEq_self (s : Str) : strcasecmpEq s s = true := beq_self_eq_true _

/-- `strncasecmp(s, t, strlen(t)) == 0`. -/
def startsWithCase (s t : Str) : Bool := (t.map tolower).isPrefixOf (s.map tolower)

/-- All the tokens that repeated calls of `strtok_r` deliver. -/
def strtok (delim : Byte → Bool) (s : Str) : List Str := (s.splitOnP delim).filter (· ≠ [])

theorem strtok_nil (p : Byte → Bool) : strtok p [] = [] := by simp [strtok]

theorem strtok_delim {p : Byte → Bool} {b : Byte} (hb : p b = true) (s : Str) :
    strtok p (b :: s) = strtok p s := by
  simp [strtok, List.splitOnP_cons_eq_if_modifyHead, hb]

theorem strtok_token {p : Byte → Bool} {c : Str} (hne : c ≠ []) (h : ∀ b ∈ c, p b = false) :
    strtok p c = [c] := by
  rw [strtok, List.splitOnP_eq_singleton h]
  simp [hne]

theorem strtok_append {p : Byte → Bool} {c : Str} (hne : c ≠ []) (h : ∀ b ∈ c, p b = false)
    {b : Byte} (hb : p b = true) (s : Str) : strtok p (c ++ b :: s) = c :: strtok p s := by
  rw [strtok, List.splitOnP_append_cons_of_forall_mem h b hb]
  simp [strtok, hne]

theorem strtok_delims {p : Byte → Bool} {ds : Str} (h : ∀ b ∈ ds, p b = true) (s : Str) :
    strtok p (ds ++ s) = strtok p s := by
  induction ds with
  | nil => rfl
  | cons d ds ih =>
    rw [List.cons_append, strtok_delim (h d List.mem_cons_self)]
    exact ih fun b hb => h b (List.mem_cons_of_mem d hb)

theorem strtok_split {p : Byte → Bool} (s t : Str) {d : Byte} (hd : p d = true) :
    strtok p (s ++ d :: t) = strtok p s ++ strtok p t := by
  rw [strtok, List.splitOnP_append_cons s t hd, List.filter_append]
  rfl

/-- `u_strlcpy` into a buffer of `size` bytes: whether it had to truncate, and the copy. -/
def strlcpy (s : Str) (size : ℕ) : Bool × Str := (decide (size ≤ s.length), s.take (size - 1))

/-- Bytes stored at the start of a block of memory; a store that does not fit
makes the block longer, which is how a write past its end shows. -/
def store (mem new : List Byte) : List Byte := new ++ mem.drop new.length

@[simp] theorem store_length (mem new : List Byte) :
    (store mem new).length = max mem.length new.length := by
  simp only [store, List.length_append, List.length_drop]
  omega

end Klone
