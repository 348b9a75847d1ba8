import Klone.Lib.CString

/-! # Scanning by a format

The conversions of `sscanf` without a width: a format is a list of directives, and the
result is the list of the fields stored before the first directive that does not match.
-/
namespace Klone.Scanf

/-- White space, a byte that must come next, `%s`, `%u`, `%[^c]` and `%c`. -/
inductive Directive
  | skip
  | exactly (c : Byte)
  | word
  | unsigned
  | upTo (c : Byte)
  | byte

inductive Field
  | text (s : Str)
  | number (n : ℕ)
  | byte (c : Byte)
  deriving DecidableEq, Repr

def isdigit (c : Byte) : Bool := 48 ≤ c && c ≤ 57

def digitsValue (digits : Str) : ℕ := digits.foldl (fun n c => 10 * n + (c.toNat - 48)) 0

/-- What `strtoul` returns for the digits, as an `unsigned int`. -/
def unsignedOf (negative : Bool) (digits : Str) : ℕ :=
  let n := digitsValue digits
  (if 2 ^ 64 ≤ n then 2 ^ 64 - 1 else if negative then 2 ^ 64 - n else n) % 2 ^ 32

def scanDigits (negative : Bool) (s : Str) : Option (List Field × Str) :=
  if s.takeWhile isdigit = [] then none
  else some ([.number (unsignedOf negative (s.takeWhile isdigit))], s.dropWhile isdigit)

def scanUnsigned : Str → Option (List Field × Str)
  | 45 :: s => scanDigits true s
  | 43 :: s => scanDigits false s
  | s => scanDigits false s

/-- The bytes for as long as they are in a class; there must be one. -/
def scanWhile (p : Byte → Bool) (s : Str) : Option (List Field × Str) :=
  if s.takeWhile p = [] then none else some ([.text (s.takeWhile p)], s.dropWhile p)

def Directive.scan : Directive → Str → Option (List Field × Str)
  | .skip, s => some ([], s.dropWhile isspace)
  | .exactly c, s => if s.head? = some c then some ([], s.tail) else none
  | .word, s => scanWhile (fun c => !isspace c) (s.dropWhile isspace)
  | .unsigned, s => scanUnsigned (s.dropWhile isspace)
  | .upTo c, s => scanWhile (fun x => decide (x ≠ c)) s
  | .byte, s => s.head?.map fun c => ([.byte c], s.tail)

def sscanf : List Directive → Str → List Field
  | [], _ => []
  | d :: format, s =>
    match d.scan s with
    | none => []
    | some (fields, rest) => fields ++ sscanf format rest

/-! ## Words and numerals -/

structure Word (w : Str) : Prop where
  nonempty : w ≠ []
  solid : ∀ c ∈ w, isspace c = false

structure Numeral (w : Str) (n : ℕ) : Prop where
  nonempty : w ≠ []
  digits : ∀ c ∈ w, isdigit c = true
  value : digitsValue w = n
  small : n < 2 ^ 32

theorem isspace_of_isdigit {c : Byte} (h : isdigit c = true) : isspace c = false := by
  simp only [isdigit, Bool.and_eq_true, decide_eq_true_eq, UInt8.le_iff_toNat_le] at h
  have hlow : (48 : ℕ) ≤ c.toNat := h.1
  simp only [isspace, Bool.or_eq_false_iff, Bool.and_eq_false_imp, beq_eq_false_iff_ne,
    decide_eq_true_eq,
    decide_eq_false_iff_not, UInt8.le_iff_toNat_le, ne_eq]
  constructor
  · rintro rfl
    exact absurd hlow (by decide)
  · intro _ hhigh
    have : c.toNat ≤ 13 := hhigh
    omega

section
variable {w rest : Str} {n : ℕ} {c : Byte} {format : List Directive}

theorem Numeral.word (h : Numeral w n) : Word w :=
  ⟨h.nonempty, fun c hc => isspace_of_isdigit (h.digits c hc)⟩

/-- Another zero in front. -/
theorem Numeral.zero (h : Numeral w n) : Numeral (48 :: w) n := by
  refine ⟨List.cons_ne_nil _ _, ?_, ?_, h.small⟩
  · intro c hc
    rcases List.mem_cons.mp hc with rfl | hc
    · decide
    · exact h.digits c hc
  · exact h.value

theorem Word.dropWhile (h : Word w) : (w ++ rest).dropWhile isspace = w ++ rest := by
  obtain ⟨c, w, rfl⟩ := List.exists_cons_of_ne_nil h.nonempty
  simp [h.solid c List.mem_cons_self]

/-- A run of bytes of a class, ended by one that is not in it. -/
theorem takeWhile_run {p : Byte → Bool} (hw : ∀ c ∈ w, p c = true)
    (hrest : ∀ c ∈ rest.head?, p c = false) :
    (w ++ rest).takeWhile p = w ∧ (w ++ rest).dropWhile p = rest := by
  rw [List.takeWhile_append_of_pos hw, List.dropWhile_append_of_pos hw]
  cases rest with
  | nil => simp
  | cons c rest => simp [hrest c rfl]

theorem scanWhile_run {p : Byte → Bool} (hne : w ≠ []) (hw : ∀ c ∈ w, p c = true)
    (hrest : ∀ c ∈ rest.head?, p c = false) : scanWhile p (w ++ rest) = some ([.text w], rest) := by
  obtain ⟨htake, hdrop⟩ := takeWhile_run hw hrest
  unfold scanWhile
  rw [htake, hdrop, if_neg hne]

theorem Numeral.scan (h : Numeral w n) (hrest : ∀ c ∈ rest.head?, isdigit c = false) :
    scanUnsigned (w ++ rest) = some ([.number n], rest) := by
  obtain ⟨htake, hdrop⟩ := takeWhile_run h.digits hrest
  have hvalue : unsignedOf false w = n := by
    have hsmall := h.small
    unfold unsignedOf
    simp only [h.value]
    rw [if_neg (by omega), if_neg Bool.false_ne_true, Nat.mod_eq_of_lt hsmall]
  -- a digit is not a sign
  have hdigits : scanUnsigned (w ++ rest) = scanDigits false (w ++ rest) := by
    obtain ⟨c, w, rfl⟩ := List.exists_cons_of_ne_nil h.nonempty
    have hc := h.digits c List.mem_cons_self
    unfold scanUnsigned
    split
    · next heq =>
      cases List.cons.inj heq |>.1
      exact absurd hc (by decide)
    · next heq =>
      cases List.cons.inj heq |>.1
      exact absurd hc (by decide)
    · rfl
  rw [hdigits]
  unfold scanDigits
  rw [htake, hdrop, if_neg h.nonempty, hvalue]

/-! ## The directives one after the other -/

theorem sscanf_nil (s : Str) : sscanf [] s = [] := rfl

theorem sscanf_skip_space (hc : isspace c = true) :
    sscanf (.skip :: format) (c :: rest) = sscanf (.skip :: format) rest := by
  simp [sscanf, Directive.scan, hc]

theorem sscanf_skip_spaces (hw : ∀ c ∈ w, isspace c = true) :
    sscanf (.skip :: format) (w ++ rest) = sscanf (.skip :: format) rest := by
  induction w with
  | nil => rfl
  | cons c w ih =>
    rw [List.cons_append, sscanf_skip_space (hw c List.mem_cons_self)]
    exact ih fun x hx => hw x (List.mem_cons_of_mem c hx)

theorem Word.sscanf_skip (h : Word w) :
    sscanf (.skip :: format) (w ++ rest) = sscanf format (w ++ rest) := by
  simp [sscanf, Directive.scan, h.dropWhile]

theorem sscanf_exactly : sscanf (.exactly c :: format) (c :: rest) = sscanf format rest := by
  simp [sscanf, Directive.scan]

theorem sscanf_byte : sscanf (.byte :: format) (c :: rest) = .byte c :: sscanf format rest := by
  simp [sscanf, Directive.scan]

theorem Word.sscanf_word (h : Word w) (hrest : ∀ c ∈ rest.head?, isspace c = true) :
    sscanf (.word :: format) (w ++ rest) = .text w :: sscanf format rest := by
  have hscan : Directive.scan .word (w ++ rest) = some ([.text w], rest) := by
    simp only [Directive.scan]
    rw [h.dropWhile]
    apply scanWhile_run h.nonempty
    · intro c hc
      simp [h.solid c hc]
    · intro c hc
      simp [hrest c hc]
  simp [sscanf, hscan]

theorem Numeral.sscanf_unsigned (h : Numeral w n) (hrest : ∀ c ∈ rest.head?, isdigit c = false) :
    sscanf (.unsigned :: format) (w ++ rest) = .number n :: sscanf format rest := by
  have hscan : Directive.scan .unsigned (w ++ rest) = some ([.number n], rest) := by
    simp only [Directive.scan]
    rw [h.word.dropWhile, h.scan hrest]
  simp [sscanf, hscan]

theorem sscanf_upTo (hne : w ≠ []) (hw : c ∉ w) :
    sscanf (.upTo c :: format) (w ++ c :: rest) = .text w :: sscanf format (c :: rest) := by
  have hscan : Directive.scan (.upTo c) (w ++ c :: rest) = some ([.text w], c :: rest) := by
    unfold Directive.scan
    apply scanWhile_run hne (all_ne_iff.mpr hw)
    simp
  simp [sscanf, hscan]

end

end Klone.Scanf
