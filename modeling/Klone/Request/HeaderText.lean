import Klone.Request.HeaderMerge
import Klone.Response.Header

/-! # Headers as text

A header that is printed field by field is read back as it was, and what comes after it is
left to be read.
-/
namespace Klone
open Page

/-- The fields as `response_print_field` prints them, and the empty line. -/
def headerText (fs : Header) : Str := fs.flatMap responsePrintField ++ bytes "\r\n"

def fieldText (f : Field) : Str := f.name ++ bytes ": " ++ f.value

/-- A field that is one line: the name is a name, and the value has no blanks in front. -/
structure Field.Line (f : Field) : Prop where
  name : f.name ≠ []
  start : f.name.head?.all (fun c => !isblank c)
  colon : (58 : Byte) ∉ f.name
  clean : ∀ c ∈ f.name ++ f.value, isnl c = false ∧ c ≠ 0
  value : f.value.head?.all (fun c => !isblank c)
  short : (fieldText f).length ≤ 1021

def lineChar (c : Byte) : Bool := !isnl c && c != 0

theorem lineChar_iff {c : Byte} : lineChar c = true ↔ isnl c = false ∧ c ≠ 0 := by
  simp [lineChar]

theorem clean_of_all {s : Str} (h : s.all lineChar = true) : ∀ c ∈ s, isnl c = false ∧ c ≠ 0 :=
  fun c hc => lineChar_iff.mp (List.all_eq_true.mp h c hc)

def Field.isLine (f : Field) : Bool :=
  f.name != [] && f.name.head?.all (fun c => !isblank c) && !f.name.contains 58 &&
    (f.name ++ f.value).all lineChar &&
    f.value.head?.all (fun c => !isblank c) && decide ((fieldText f).length ≤ 1021)

theorem Field.isLine_iff (f : Field) : f.isLine = true ↔ f.Line := by
  simp only [Field.isLine, Bool.and_eq_true, bne_iff_ne, Bool.not_eq_true', List.contains_eq_mem,
    decide_eq_false_iff_not,
    decide_eq_true_eq, List.all_eq_true, lineChar_iff]
  exact ⟨fun ⟨⟨⟨⟨⟨h₁, h₂⟩, h₃⟩, h₄⟩, h₅⟩, h₆⟩ => ⟨h₁, h₂, h₃, h₄, h₅, h₆⟩,
    fun h => ⟨⟨⟨⟨⟨h.name, h.start⟩, h.colon⟩, h.clean⟩, h.value⟩, h.short⟩⟩

instance (f : Field) : Decidable f.Line := decidable_of_iff (f.isLine = true) f.isLine_iff

variable {f : Field} {fs : Header} {content : Str}

theorem responsePrintField_eq (f : Field) : responsePrintField f = fieldText f ++ [13] ++ [10] := by
  simp [responsePrintField, fieldText, bytes]

theorem headerText_cons (f : Field) (fs : Header) :
    headerText (f :: fs) = fieldText f ++ [13] ++ 10 :: headerText fs := by
  rw [headerText, List.flatMap_cons, responsePrintField_eq, headerText]
  simp

theorem Field.Line.clean_text (h : f.Line) : ∀ c ∈ fieldText f, isnl c = false ∧ c ≠ 0 := by
  have hsep : ∀ c ∈ ([58, 32] : Str), isnl c = false ∧ c ≠ 0 := by
    simp [isnl]
  intro c hc
  unfold fieldText at hc
  rcases List.mem_append.mp hc with hc | hc
  · rcases List.mem_append.mp hc with hc | hc
    · exact h.clean c (List.mem_append_left _ hc)
    · exact hsep c hc
  · exact h.clean c (List.mem_append_right _ hc)

theorem isnl_newline : isnl 10 = true := by decide

theorem Field.Line.not_mem_newline (h : f.Line) : (10 : Byte) ∉ fieldText f ++ [13] := by
  intro hm
  rcases List.mem_append.mp hm with hm | hm
  · exact absurd isnl_newline (Bool.eq_false_iff.mp (h.clean_text 10 hm).1)
  · exact absurd hm (by decide)

/-- A line is read without its end. -/
theorem Field.Line.getline (h : f.Line) (rest : Str) (fails : Bool) (rtot : ℕ) :
    uGetline ⟨fieldText f ++ [13] ++ 10 :: rest, fails, rtot⟩ =
      ⟨true, fieldText f ++ [13], ⟨rest, fails, rtot + ((fieldText f).length + 2)⟩⟩ := by
  have hshort := h.short
  rw [uGetline_line h.not_mem_newline rest fails rtot
    (by rw [List.length_append, List.length_singleton]; omega),
    List.length_append, List.length_singleton]

theorem Field.Line.strip (h : f.Line) : stripNl (fieldText f ++ [13]) = fieldText f := by
  have hne : fieldText f ≠ [] := by simp [fieldText, bytes]
  rw [stripNl, List.rdropWhile_concat_pos _ _ _ (by decide), List.rdropWhile_eq_self_iff]
  intro hne
  exact Bool.eq_false_iff.mp (h.clean_text _ (List.getLast_mem hne)).1

theorem Field.Line.set (h : f.Line) : fieldSetFromLine (fieldText f) = some f := by
  have hnul : (0 : Byte) ∉ fieldText f := fun hm => (h.clean_text 0 hm).2 rfl
  have hname : ∀ c ∈ f.name, decide (c ≠ 58) = true :=
    fun c hc => decide_eq_true fun he => h.colon (he ▸ hc)
  have htext : fieldText f = f.name ++ 58 :: 32 :: f.value := by simp [fieldText, bytes]
  have hvalue : (32 :: f.value).dropWhile isblank = f.value := by
    have hstart := h.value
    rw [List.dropWhile_cons_of_pos (by decide)]
    cases hv : f.value with
    | nil => rfl
    | cons c value =>
      rw [hv] at hstart
      exact List.dropWhile_cons_of_neg (by simpa using hstart)
  rw [fieldSetFromLine, cstr_of_not_mem hnul, htext, List.span_eq_takeWhile_dropWhile,
    List.takeWhile_append_of_pos hname, List.dropWhile_append_of_pos hname]
  simp [hvalue]

theorem Field.Line.process (h : f.Line) (mode : LoadMode) (hdr : HeaderT) :
    headerProcessLineEx mode hdr (fieldText f) = headerTake mode hdr f := by
  rw [headerProcessLineEx_eq, h.set]

theorem uGetline_blank (content : Str) (fails : Bool) (rtot : ℕ) :
    uGetline ⟨bytes "\r\n" ++ content, fails, rtot⟩ = ⟨true, [13], ⟨content, fails, rtot + 2⟩⟩ :=
  uGetline_line (show (10 : Byte) ∉ [13] by decide) content fails rtot (by decide)

/-- The step: a line is kept back and the one before it is processed. -/
theorem headerLoopEx_line (h : f.Line) (mode : LoadMode) (c : ℕ) (hdr : HeaderT) (rest : Str)
    (fails : Bool) (rtot : ℕ) (unfolded : Str) :
    headerLoopEx mode (c + 1) hdr ⟨fieldText f ++ [13] ++ 10 :: rest, fails, rtot⟩ unfolded =
      headerLoopEx mode c (headerProcessLineEx mode hdr unfolded)
        ⟨rest, fails, rtot + ((fieldText f).length + 2)⟩
        (fieldText f) := by
  obtain ⟨b, text, htext⟩ : ∃ b text, fieldText f = b :: text :=
    List.exists_cons_of_ne_nil (by simp [fieldText, bytes])
  have hb : isblank b = false := by
    have hstart := h.start
    obtain ⟨b', name, hname⟩ := List.exists_cons_of_ne_nil h.name
    rw [hname] at hstart
    rw [fieldText, hname] at htext
    obtain rfl : b' = b := (List.cons.inj htext).1
    simpa using hstart
  conv_lhs => rw [headerLoopEx.eq_def]
  dsimp only
  rw [h.getline]
  simp only [Bool.true_eq_false, if_false, h.strip]
  rw [htext]
  simp only [hb, Bool.false_eq_true, if_false]

/-- The run: all fields are taken in their order. -/
theorem headerLoopEx_text (hfs : ∀ f ∈ fs, f.Line) (mode : LoadMode) {c : ℕ} (hc : fs.length < c)
    (hdr : HeaderT) (fails : Bool) (rtot : ℕ) (unfolded : Str) :
    headerLoopEx mode c hdr ⟨headerText fs ++ content, fails, rtot⟩ unfolded =
      ⟨true, fs.foldl (headerTake mode) (headerProcessLineEx mode hdr unfolded),
        ⟨content, fails, rtot + (headerText fs).length⟩⟩ := by
  obtain ⟨c, rfl⟩ : ∃ k, c = k + 1 := ⟨c - 1, by omega⟩
  induction fs generalizing c hdr rtot unfolded with
  | nil =>
    have htext : headerText [] = bytes "\r\n" := rfl
    rw [headerLoopEx.eq_def, htext]
    dsimp only
    rw [uGetline_blank]
    rfl
  | cons f fs ih =>
    have hf := hfs f List.mem_cons_self
    rw [List.length_cons] at hc
    obtain ⟨c, rfl⟩ : ∃ k, c = k + 1 := ⟨c - 1, by omega⟩
    have hsplit : headerText (f :: fs) ++ content =
        fieldText f ++ [13] ++ 10 :: (headerText fs ++ content) := by
      rw [headerText_cons, List.append_assoc, List.cons_append]
    rw [hsplit, headerLoopEx_line hf,
      ih (fun g hg => hfs g (List.mem_cons_of_mem f hg)) _ _ _ _ (by omega),
      hf.process, List.foldl_cons, headerText_cons]
    simp only [List.length_append, List.length_cons, List.length_nil]
    congr 2
    omega

/-- A block of up to 255 fields is loaded as it was printed, and nothing of what follows it. -/
theorem headerLoadEx_text (hfs : ∀ f ∈ fs, f.Line) (hcount : fs.length ≤ 255) (mode : LoadMode)
    (hdr : HeaderT) (content : Str) (fails : Bool) (rtot : ℕ) :
    headerLoadEx mode hdr ⟨headerText fs ++ content, fails, rtot⟩ =
      ⟨true, fs.foldl (headerTake mode) hdr, ⟨content, fails, rtot + (headerText fs).length⟩⟩ := by
  exact headerLoopEx_text hfs mode (Nat.lt_succ_of_le hcount) hdr fails rtot []

/-- What `response_print_header` prints behind the status line is loaded as the same header. -/
theorem headerLoad_text (hfs : ∀ f ∈ fs, f.Line) (hcount : fs.length ≤ 255) (content : Str)
    (fails : Bool) (rtot : ℕ) :
    headerLoad ⟨headerText fs ++ content, fails, rtot⟩ =
    (some fs, ⟨content, fails, rtot + (headerText fs).length⟩) := by
  rw [headerLoad_eq, headerLoadEx_text hfs hcount]
  simp [foldl_take_add]

end Klone
