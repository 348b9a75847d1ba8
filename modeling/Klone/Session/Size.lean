import Klone.Io.Memory
import Klone.Session.Text

/-! # The estimate of the size of a session

`session_prv_save_to_buf` allocates a block with an estimate of the size of the text
and writes the text to it. The estimate counts a value up to its first NUL, the text
has all of its bytes; the bytes that need no escape make up for the difference, or do
not.
-/
namespace Klone.Session
open Chain Loop

def CODEC_CIPHER_BLOCK_LEN : ℕ := 32

def nameAndValueSize (v : Var) : ℕ :=
  3 * v.name.length + 3 + (if v.value = [] then 0 else 3 * (cstr v.value).length + 1)

/-- `session_prv_calc_maxsize`, which adds a variable to the estimate. -/
def sessionPrvCalcMaxsize (ssl : Bool) (sz : ℕ) (v : Var) : ℕ :=
  (if ssl && sz == 0 then CODEC_CIPHER_BLOCK_LEN * 2 else sz) + nameAndValueSize v

def sessionMaxsize (ssl : Option KeyCipher) (vars : List Var) : ℕ :=
  vars.foldl (sessionPrvCalcMaxsize ssl.isSome) 0

/-- `io_tell` of a stream in memory. -/
def ioTell (n : ℕ) (io : Io ioMem) : Option (Io ioMem × Option ℕ) :=
  (ioFlush n io).map fun r => (r.1, if r.2 then some (Mem.off r.1.dev) else none)

/-- `session_prv_save_to_buf`: the bytes of the block up to the position. -/
def sessionPrvSaveToBuf (n : ℕ) (ssl : Option KeyCipher) (vars : List Var) : Option (Option Str) :=
  (sessionPrvSaveToIo n ssl vars
    (ioCreate (d := ioMem) (ioMemCreate (sessionMaxsize ssl vars)) [])).bind fun io =>
    (ioTell n io).map fun r => r.2.map fun sz => (Mem.buf r.1.dev).take sz

/-! ## Truncation -/

theorem writeLines_filling {size : ℕ} {total : Str} (lines : List Str) {io : Io ioMem}
    (h : Filling size total io) :
    ∃ io', Ends (fun n => writeLines n lines io) io' ∧
    Filling size (total ++ lines.flatten) io' := by
  induction lines generalizing io total with
  | nil =>
    refine ⟨io, Ends.const _, ?_⟩
    rw [List.flatten_nil, List.append_nil]
    exact h
  | cons line lines ih =>
    obtain ⟨io₁, ok, hends, h₁, hfull, -⟩ := ioWrite_filling h line
    rw [List.flatten_cons, ← List.append_assoc]
    cases ok with
    | false => exact ⟨io₁, hends.bind (Ends.const _), h₁.weaken (hfull rfl)⟩
    | true =>
      obtain ⟨io', hends', h'⟩ := ih h₁
      exact ⟨io', hends.bind hends', h'⟩

/-- The block gets the part of the text that the estimate has room for. -/
theorem sessionPrvSaveToBuf_truncates (ssl : Option KeyCipher) (vars : List Var) :
    Ends (fun n => sessionPrvSaveToBuf n ssl vars)
    (some ((sessionText ssl vars).take (sessionMaxsize ssl vars))) := by
  obtain ⟨io, hends, h⟩ :=
    writeLines_filling (savedLines ssl vars) (ioMemCreate_filling (sessionMaxsize ssl vars))
  obtain ⟨io', hflush, hwritten⟩ := h.flushed
  refine hends.bind ((hflush.map _).map_eq ?_)
  exact congrArg some hwritten

/-! ## The exact sizes -/

/-- The value that is written for a variable: of the key, its encryption. -/
def writtenValue (ssl : Option KeyCipher) (v : Var) : List Byte :=
  if v.value = [] then [] else ((protectKey ssl v).getD v).value

/-- A variable with a name, whose value, if it has one, is not a key that cannot be
encrypted. -/
def savable (ssl : Option KeyCipher) (v : Var) : Bool :=
  v.name ≠ [] && (v.value = [] || (protectKey ssl v).any fun w => w.value ≠ [])

theorem sessionPrvSaveVar_line (ssl : Option KeyCipher) (v : Var) :
    (sessionPrvSaveVar ssl v).1 = if savable ssl v then
      some (uUrlncpyEncode v.name ++ 61 :: uUrlncpyEncode (writtenValue ssl v) ++ [10])
        else none := by
  unfold sessionPrvSaveVar savable writtenValue
  by_cases hname : v.name = []
  · simp [hname]
  by_cases hvalue : v.value = []
  · simp [hname, hvalue]
  cases hp : protectKey ssl v with
  | none => simp [hname, hvalue]
  | some w =>
    by_cases hw : w.value = []
    · simp [hname, hvalue, hw]
    · simp [hname, hvalue, hw]

/-- What the estimate has for a variable beyond three bytes for each byte of its value. -/
def spare (ssl : Option KeyCipher) (v : Var) : ℕ :=
  1 + 2 * plainCount v.name + 2 * plainCount (writtenValue ssl v) +
    (if v.value = [] then 0 else 3 * (cstr v.value).length + 1)

theorem line_and_spare (ssl : Option KeyCipher) (v : Var) :
    (uUrlncpyEncode v.name ++ 61 :: uUrlncpyEncode (writtenValue ssl v) ++ [10]).length +
    spare ssl v =
      nameAndValueSize v + 3 * (writtenValue ssl v).length := by
  have hn := uUrlncpyEncode_length v.name
  have hv := uUrlncpyEncode_length (writtenValue ssl v)
  simp only [List.length_append, List.length_cons, List.length_nil, spare, nameAndValueSize]
  omega

/-- The variables that are saved, and those behind the first that cannot be. -/
def savedVars (ssl : Option KeyCipher) (vars : List Var) : List Var := vars.takeWhile (savable ssl)

def unsavedVars (ssl : Option KeyCipher) (vars : List Var) : List Var :=
  vars.dropWhile (savable ssl)

theorem text_and_spare (ssl : Option KeyCipher) (vars : List Var) :
    (sessionText ssl vars).length + ((savedVars ssl vars).map (spare ssl)).sum +
        ((unsavedVars ssl vars).map nameAndValueSize).sum =
      (vars.map nameAndValueSize).sum + 3 *
        ((savedVars ssl vars).map fun v => (writtenValue ssl v).length).sum := by
  unfold savedVars unsavedVars
  induction vars with
  | nil => rfl
  | cons v vars ih =>
    unfold sessionText at ih ⊢
    cases hs : savable ssl v with
    | false => simp [savedLines, sessionPrvSaveVar_line, hs]
    | true =>
      have hline := line_and_spare ssl v
      simp only [savedLines, sessionPrvSaveVar_line, hs, if_true, List.takeWhile_cons_of_pos,
        List.dropWhile_cons_of_pos, List.flatten_cons, List.map_cons, List.sum_cons]
      rw [List.length_append]
      omega

theorem foldl_calcMaxsize (ssl : Bool) (vars : List Var) {sz : ℕ} (hsz : sz ≠ 0) :
    vars.foldl (sessionPrvCalcMaxsize ssl) sz = sz + (vars.map nameAndValueSize).sum := by
  induction vars generalizing sz with
  | nil => rfl
  | cons v vars ih =>
    have hstep : sessionPrvCalcMaxsize ssl sz v = sz + nameAndValueSize v := by
      simp [sessionPrvCalcMaxsize, hsz]
    rw [List.foldl_cons, hstep, ih (by omega), List.map_cons, List.sum_cons, Nat.add_assoc]

def keySpare (ssl : Option KeyCipher) (vars : List Var) : ℕ :=
  if ssl.isSome ∧ vars ≠ [] then CODEC_CIPHER_BLOCK_LEN * 2 else 0

theorem sessionMaxsize_eq (ssl : Option KeyCipher) (vars : List Var) :
    sessionMaxsize ssl vars = keySpare ssl vars + (vars.map nameAndValueSize).sum := by
  unfold sessionMaxsize keySpare
  cases vars with
  | nil => simp
  | cons v vars =>
    have hpos : nameAndValueSize v ≠ 0 := by
      unfold nameAndValueSize
      omega
    have hstep : sessionPrvCalcMaxsize ssl.isSome 0 v =
        (if ssl.isSome then CODEC_CIPHER_BLOCK_LEN * 2 else 0) + nameAndValueSize v := by
      cases ssl.isSome <;> simp [sessionPrvCalcMaxsize]
    rw [List.foldl_cons, hstep, foldl_calcMaxsize _ _ (by omega), List.map_cons, List.sum_cons,
      Nat.add_assoc]
    simp

/-- The estimate covers the text, and the text is saved whole, exactly when three bytes
for each byte of the saved values are not more than what the estimate has for them:
three for each byte before the first NUL, two for each byte of a name or a value that is
not escaped, one for the line and one for a value, besides what it has for the variables
that are not saved and for the key. -/
theorem session_size_covered_iff (ssl : Option KeyCipher) (vars : List Var) :
    ((sessionText ssl vars).length ≤ sessionMaxsize ssl vars ∧
      Ends (fun n => sessionPrvSaveToBuf n ssl vars) (some (sessionText ssl vars))) ↔
    3 * ((savedVars ssl vars).map fun v => (writtenValue ssl v).length).sum ≤
      ((savedVars ssl vars).map (spare ssl)).sum +
        ((unsavedVars ssl vars).map nameAndValueSize).sum +
        keySpare ssl vars := by
  have hsum := text_and_spare ssl vars
  have hmax := sessionMaxsize_eq ssl vars
  constructor
  · rintro ⟨hle, -⟩
    omega
  · intro h
    have hle : (sessionText ssl vars).length ≤ sessionMaxsize ssl vars := by omega
    have hends := sessionPrvSaveToBuf_truncates ssl vars
    rw [List.take_of_length_le hle] at hends
    exact ⟨hle, hends⟩

/-- A name and a text of one byte each that are escaped need one byte more than the
estimate has. -/
theorem session_size_not_covered :
    ¬ ∀ (ssl : Option KeyCipher) (vars : List Var),
    (sessionText ssl vars).length ≤ sessionMaxsize ssl vars := by
  intro h
  have hle := h none [varCreate (bytes "%") (bytes "%")]
  exact absurd hle (by decide)

end Klone.Session
