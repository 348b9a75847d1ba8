import Klone.Request.Vars
import Klone.Request.Header

/-! # Loading a header

A header with its counter, and the three ways in which a field that is read meets one that
is there already. The lines are those that `u_getline` delivers; a line is processed when
the one after it is known not to continue it.
-/
namespace Klone

structure HeaderT where
  fields : Header
  nfields : ℕ
  deriving DecidableEq, Repr

inductive LoadMode where
  | override
  | keep
  | add
  deriving DecidableEq, Repr

def headerAddField (h : HeaderT) (f : Field) : HeaderT := ⟨h.fields ++ [f], h.nfields + 1⟩

/-- `header_del_field` of the field at a place in the list. -/
def headerDelField (h : HeaderT) (i : ℕ) : HeaderT := ⟨h.fields.eraseIdx i, h.nfields - 1⟩

/-- The place of the field that `header_get_field` finds. -/
def headerFind (h : HeaderT) (name : Str) : Option ℕ :=
  h.fields.findIdx? fun f => strcasecmpEq f.name name

def headerTake (mode : LoadMode) (h : HeaderT) (f : Field) : HeaderT :=
  match mode with
  | .add => headerAddField h f
  | .override =>
    match headerFind h f.name with
    | none => headerAddField h f
    | some i => headerAddField (headerDelField h i) f
  | .keep =>
    match headerFind h f.name with
    | none => headerAddField h f
    | some _ => h

/-- `header_process_line`; its errors are not looked at. -/
def headerProcessLineEx (mode : LoadMode) (h : HeaderT) (line : Str) : HeaderT :=
  if line = [] then h
  else match fieldSetFromLine line with
    | none => h
    | some f => headerTake mode h f

structure LoadResult where
  ok : Bool
  header : HeaderT
  src : Source
  deriving DecidableEq, Repr

def headerLoopEx (mode : LoadMode) : ℕ → HeaderT → Source → Str → LoadResult
  | c, h, src, unfolded =>
    let r := uGetline src
    if r.ok = false then ⟨true, headerProcessLineEx mode h unfolded, r.src⟩
    else match c with
      | 0 => ⟨false, h, r.src⟩
      | c + 1 =>
        match stripNl r.line with
        | [] => ⟨true, headerProcessLineEx mode h unfolded, r.src⟩
        | b :: line =>
          if isblank b then headerLoopEx mode c h r.src (unfolded ++ b :: line)
          else headerLoopEx mode c (headerProcessLineEx mode h unfolded) r.src (b :: line)

def headerLoadEx (mode : LoadMode) (h : HeaderT) (src : Source) : LoadResult :=
  headerLoopEx mode headerMaxFieldCount h src []

/-! ## The lines that are delivered -/

inductive Gives : Source → List Str → Prop
  | ends {src : Source} : (uGetline src).ok = false → Gives src []
  | line {src : Source} {lines : List Str} : (uGetline src).ok = true →
    Gives (uGetline src).src lines →
    Gives src ((uGetline src).line :: lines)

theorem takeThrough_length_le (stop : Byte) (n : ℕ) (s : List Byte) :
    (takeThrough stop n s).length ≤ s.length := by
  induction n generalizing s with
  | zero => exact Nat.zero_le _
  | succ n ih =>
    cases s with
    | nil => exact Nat.zero_le _
    | cons c s =>
      rw [takeThrough]
      split
      · simp
      · exact Nat.succ_le_succ (ih s)

theorem ioGets_le (src : Source) : (ioGets src 1024).data.length ≤ src.bytes.length := by
  have hle := takeThrough_length_le 10 1023 src.bytes
  unfold ioGets ioGetUntil
  split
  · exact Nat.zero_le _
  · dsimp only
    split <;> exact hle

theorem ioGets_shrinks (src : Source) :
    (ioGets src 1024).src.bytes.length = src.bytes.length - (ioGets src 1024).data.length := by
  unfold ioGets ioGetUntil
  split
  · simp
  · dsimp only
    split <;> simp [Source.skip]

theorem ioGets_rc (src : Source) {n : ℕ} (h : (ioGets src 1024).rc = some n) :
    n = (ioGets src 1024).data.length := by
  unfold ioGets ioGetUntil at h ⊢
  split at h
  · cases h
  · dsimp only at h ⊢
    split at h
    · cases h
    · next hno =>
      rw [if_neg hno]
      exact (Option.some.inj h).symm

/-- Nothing comes after a call that fails. -/
theorem ioGets_stops (src : Source)
    (h : (ioGets src 1024).rc = none ∨ (ioGets src 1024).rc = some 0) :
    (ioGets src 1024).src.bytes = [] := by
  unfold ioGets ioGetUntil at h ⊢
  rw [if_neg (by decide)] at h ⊢
  dsimp only at h ⊢
  split at h
  · next hall =>
    rw [if_pos hall]
    simp [Source.skip, hall.1]
  · next hno =>
    rw [if_neg hno]
    rcases h with h | h
    · cases h
    · have hnil : takeThrough 10 1023 src.bytes = [] :=
        List.length_eq_zero_iff.mp (Option.some.inj h)
      have hb : src.bytes = [] := by
        cases hs : src.bytes with
        | nil => rfl
        | cons c rest =>
          rw [hs, takeThrough] at hnil
          split at hnil <;> cases hnil
      simp [Source.skip, hb]

theorem getlineLoop_shrinks {fuel : ℕ} {src : Source} (hfuel : src.bytes.length < fuel) (ln : Str) :
    ((getlineLoop fuel src ln).ok = true →
      (getlineLoop fuel src ln).src.bytes.length < src.bytes.length) ∧
      ((getlineLoop fuel src ln).ok = false → (getlineLoop fuel src ln).src.bytes = []) := by
  induction fuel generalizing src ln with
  | zero => omega
  | succ fuel ih =>
    have hless := ioGets_shrinks src
    have hstop := ioGets_stops src
    have hrc := @ioGets_rc src
    have hle := ioGets_le src
    rw [getlineLoop]
    split
    · next h => exact ⟨fun h' => absurd h' Bool.false_ne_true, fun _ => hstop (Or.inl h)⟩
    · next h => exact ⟨fun h' => absurd h' Bool.false_ne_true, fun _ => hstop (Or.inr h)⟩
    · next len h =>
      have hlen := hrc h
      have hlt : (ioGets src 1024).src.bytes.length < src.bytes.length := by omega
      split
      · exact ⟨fun _ => hlt, fun h' => absurd h'.symm Bool.false_ne_true⟩
      · have hfuel' : (ioGets src 1024).src.bytes.length < fuel := by omega
        obtain ⟨h₁, h₂⟩ := ih hfuel' (ln ++ (ioGets src 1024).data.take len)
        exact ⟨fun h' => (h₁ h').trans hlt, h₂⟩

theorem uGetline_shrinks {src : Source} (h : (uGetline src).ok = true) :
    (uGetline src).src.bytes.length < src.bytes.length :=
  (getlineLoop_shrinks (Nat.lt_succ_self _) []).1 h

theorem gives_nil {src : Source} (h : src.bytes = []) : Gives src [] := by
  refine .ends ?_
  by_contra hok
  have hlt := uGetline_shrinks (Bool.eq_true_of_not_eq_false hok)
  rw [h] at hlt
  exact absurd hlt (Nat.not_lt_zero _)

theorem gives_after_end {src : Source} (h : (uGetline src).ok = false) :
    Gives (uGetline src).src [] :=
  gives_nil ((getlineLoop_shrinks (Nat.lt_succ_self _) []).2 h)

/-- Every stream delivers some sequence of lines. -/
theorem exists_gives (src : Source) : ∃ lines, Gives src lines := by
  obtain ⟨n, hn⟩ : ∃ n, src.bytes.length = n := ⟨_, rfl⟩
  induction n using Nat.strong_induction_on generalizing src with
  | h n ih =>
    cases hok : (uGetline src).ok with
    | false => exact ⟨[], .ends hok⟩
    | true =>
      have hlt := uGetline_shrinks hok
      obtain ⟨lines, hlines⟩ := ih _ (hn ▸ hlt) (uGetline src).src rfl
      exact ⟨_, .line hok hlines⟩

/-! ## Logical lines -/

/-- The lines up to the first one that is empty without its newlines, which is the last. -/
def consumed : List Str → List Str
  | [] => []
  | l :: lines => if stripNl l = [] then [l] else l :: consumed lines

def folded (line : Str) : Bool := line.head?.any isblank

/-- A line and those after it that begin with a blank, joined. -/
def logicalLines : List Str → List Str
  | [] => []
  | l :: lines => (l ++ (lines.takeWhile folded).flatten) :: logicalLines (lines.dropWhile folded)
termination_by lines => lines.length
decreasing_by exact Nat.lt_succ_of_le (List.length_dropWhile_le folded lines)

def headLines (lines : List Str) : List Str := ((consumed lines).map stripNl).filter (· ≠ [])

/-- The text before the first colon, and what comes after it without its leading blanks. -/
def fieldOf (line : Str) : Option Field :=
  if 58 ∈ line then some ⟨line.takeWhile (· ≠ 58),
    ((line.dropWhile (· ≠ 58)).drop 1).dropWhile isblank⟩ else none

/-- What becomes of the text that is kept back when more lines come. -/
def logicalFrom (unfolded : Str) (lines : List Str) : List Str :=
  (unfolded ++ (lines.takeWhile folded).flatten) :: logicalLines (lines.dropWhile folded)

theorem logicalFrom_folded {l : Str} (h : folded l = true) (unfolded : Str) (lines : List Str) :
    logicalFrom unfolded (l :: lines) = logicalFrom (unfolded ++ l) lines := by
  simp [logicalFrom, h]

theorem logicalFrom_fresh {l : Str} (h : folded l = false) (unfolded : Str) (lines : List Str) :
    logicalFrom unfolded (l :: lines) = unfolded :: logicalFrom l lines := by
  simp [logicalFrom, h, logicalLines]

theorem headLines_last {l : Str} (h : stripNl l = []) (lines : List Str) :
    headLines (l :: lines) = [] := by
  simp [headLines, consumed, h]

theorem headLines_cons {l : Str} (h : stripNl l ≠ []) (lines : List Str) :
    headLines (l :: lines) = stripNl l :: headLines lines := by
  simp [headLines, consumed, h]

/-- The lines that are processed when `c` more can be read: if there are too many, not the
one that is kept back. -/
def processedFrom (c : ℕ) (unfolded : Str) (lines : List Str) : List Str :=
  if (consumed lines).length ≤ c then logicalFrom unfolded (headLines lines)
  else (logicalFrom unfolded ((headLines lines).take c)).dropLast

theorem processedFrom_folded {l : Str} (hne : stripNl l ≠ []) (h : folded (stripNl l) = true)
    (c : ℕ) (unfolded : Str) (lines : List Str) : processedFrom (c + 1) unfolded (l :: lines) =
    processedFrom c (unfolded ++ stripNl l) lines := by
  simp only [processedFrom, consumed, if_neg hne, List.length_cons, Nat.add_le_add_iff_right,
    headLines_cons hne,
    List.take_succ_cons, logicalFrom_folded h]

theorem processedFrom_fresh {l : Str} (hne : stripNl l ≠ []) (h : folded (stripNl l) = false)
    (c : ℕ) (unfolded : Str) (lines : List Str) :
    processedFrom (c + 1) unfolded (l :: lines) =
    unfolded :: processedFrom c (stripNl l) lines := by
  simp only [processedFrom, consumed, if_neg hne, List.length_cons, Nat.add_le_add_iff_right,
    headLines_cons hne,
    List.take_succ_cons, logicalFrom_fresh h]
  split
  · rfl
  · rfl

/-- What a load gives: an error exactly when more than `c` lines would be consumed, the
header after the lines that have been processed, and the lines that are left. -/
structure Loaded (mode : LoadMode) (c : ℕ) (h : HeaderT) (unfolded : Str) (lines : List Str)
    (r : LoadResult) : Prop where
  ok : r.ok = decide ((consumed lines).length ≤ c)
  header : r.header = (processedFrom c unfolded lines).foldl (headerProcessLineEx mode) h
  rest : Gives r.src (lines.drop (min (c + 1) (consumed lines).length))

theorem headerLoopEx_loaded (mode : LoadMode) {lines : List Str} {src : Source}
    (hg : Gives src lines) (c : ℕ) (h : HeaderT) (unfolded : Str) :
    Loaded mode c h unfolded lines (headerLoopEx mode c h src unfolded) := by
  induction hg generalizing c h unfolded with
  | ends hok =>
    rw [headerLoopEx.eq_def]
    simp only [hok, if_true]
    refine ⟨by simp [consumed], ?_, ?_⟩
    · simp [processedFrom, consumed, headLines, logicalFrom, logicalLines]
    · simpa [consumed] using gives_after_end hok
  | line hok hg ih =>
    rename_i src lines
    rw [headerLoopEx.eq_def]
    simp only [hok, Bool.true_eq_false, if_false]
    cases c with
    | zero =>
      have hlong : 1 ≤ (consumed ((uGetline src).line :: lines)).length := by
        rw [consumed]
        split <;> simp
      refine ⟨?_, ?_, ?_⟩
      · simp only [decide_eq_false
          (show ¬ (consumed ((uGetline src).line :: lines)).length ≤ 0 by omega)]
      · simp only [processedFrom,
          if_neg (show ¬ (consumed ((uGetline src).line :: lines)).length ≤ 0 by omega)]
        simp [logicalFrom, logicalLines]
      · rw [Nat.zero_add, Nat.min_eq_left hlong]
        exact hg
    | succ c =>
      dsimp only
      split
      · next hnil =>
        refine ⟨by simp [consumed, hnil], ?_, ?_⟩
        · simp [processedFrom, consumed, hnil, headLines_last, logicalFrom, logicalLines]
        · simpa [consumed, hnil] using hg
      · next b rest hstrip =>
        have hne : stripNl (uGetline src).line ≠ [] := by
          rw [hstrip]
          exact List.cons_ne_nil _ _
        have hcount : (consumed ((uGetline src).line :: lines)).length =
            (consumed lines).length + 1 := by
          rw [consumed, if_neg hne, List.length_cons]
        have hdrop : ((uGetline src).line :: lines).drop
          (min (c + 1 + 1) ((consumed lines).length + 1)) =
            lines.drop (min (c + 1) (consumed lines).length) := by
          rw [Nat.add_min_add_right, List.drop_succ_cons]
        split
        · next hb =>
          have hfold : folded (stripNl (uGetline src).line) = true := by
            simpa [folded, hstrip] using hb
          obtain ⟨hok', hheader, hrest⟩ := ih c h (unfolded ++ b :: rest)
          refine ⟨?_, ?_, ?_⟩
          · simp [hok', hcount]
          · rw [hheader, processedFrom_folded hne hfold, hstrip]
          · rw [hcount, hdrop]
            exact hrest
        · next hb =>
          have hfold : folded (stripNl (uGetline src).line) = false := by
            simpa [folded, hstrip] using hb
          obtain ⟨hok', hheader, hrest⟩ := ih c (headerProcessLineEx mode h unfolded) (b :: rest)
          refine ⟨?_, ?_, ?_⟩
          · simp [hok', hcount]
          · rw [hheader, processedFrom_fresh hne hfold, hstrip]
            rfl
          · rw [hcount, hdrop]
            exact hrest

/-! ## Appending the fields -/

theorem mem_of_logicalLines {lines : List Str} {l : Str} (h : l ∈ logicalLines lines) :
    ∀ c ∈ l, ∃ l' ∈ lines, c ∈ l' := by
  induction lines using logicalLines.induct with
  | case1 => simp [logicalLines] at h
  | case2 l₀ lines ih =>
    rw [logicalLines] at h
    intro c hc
    rcases List.mem_cons.mp h with rfl | h
    · rcases List.mem_append.mp hc with hc | hc
      · exact ⟨l₀, List.mem_cons_self, hc⟩
      · obtain ⟨l', hl', hc'⟩ := List.mem_flatten.mp hc
        exact ⟨l', List.mem_cons_of_mem _ ((List.takeWhile_sublist _).subset hl'), hc'⟩
    · obtain ⟨l', hl', hc'⟩ := ih h c hc
      exact ⟨l', List.mem_cons_of_mem _ ((List.dropWhile_sublist _).subset hl'), hc'⟩

theorem mem_of_headLines {lines : List Str} {l : Str} (h : l ∈ headLines lines) :
    ∀ c ∈ l, ∃ l' ∈ lines, c ∈ l' := by
  induction lines with
  | nil => simp [headLines, consumed] at h
  | cons l₀ lines ih =>
    by_cases hne : stripNl l₀ = []
    · rw [headLines_last hne] at h
      cases h
    · rw [headLines_cons hne] at h
      intro c hc
      rcases List.mem_cons.mp h with rfl | h
      · exact ⟨l₀, List.mem_cons_self, (List.rdropWhile_prefix isnl l₀).subset hc⟩
      · obtain ⟨l', hl', hc'⟩ := ih h c hc
        exact ⟨l', List.mem_cons_of_mem _ hl', hc'⟩

/-- The logical lines of the header are C strings. -/
theorem logicalLines_noNul {lines : List Str} (h : ∀ l ∈ lines, (0 : Byte) ∉ l) :
    ∀ l ∈ logicalLines (headLines lines), (0 : Byte) ∉ l := by
  intro l hl h0
  obtain ⟨l₁, hl₁, h₁⟩ := mem_of_logicalLines hl 0 h0
  obtain ⟨l₂, hl₂, h₂⟩ := mem_of_headLines hl₁ 0 h₁
  exact h l₂ hl₂ h₂

theorem fieldSetFromLine_eq {line : Str} (h : (0 : Byte) ∉ line) :
    fieldSetFromLine line = fieldOf line := by
  rw [fieldSetFromLine, cstr_of_not_mem h, List.span_eq_takeWhile_dropWhile, fieldOf]
  cases hd : line.dropWhile (· ≠ 58) with
  | nil =>
    have hno : (58 : Byte) ∉ line := dropWhile_ne_eq_nil.mp hd
    rw [if_neg hno]
  | cons c rest =>
    have hm : (58 : Byte) ∈ line := by
      by_contra hno
      rw [dropWhile_ne_eq_nil.mpr hno] at hd
      cases hd
    rw [if_pos hm]
    rfl

theorem headerProcessLineEx_add (h : HeaderT) {line : Str} (hnul : (0 : Byte) ∉ line) :
    headerProcessLineEx .add h line = match fieldOf line with
      | none => h
      | some f => headerAddField h f := by
  unfold headerProcessLineEx
  rw [fieldSetFromLine_eq hnul]
  split
  · next hnil =>
    subst hnil
    rfl
  · rfl

theorem foldl_add (lines : List Str) (h : HeaderT) (hnul : ∀ l ∈ lines, (0 : Byte) ∉ l) :
    (lines.foldl (headerProcessLineEx .add) h).fields = h.fields ++ lines.filterMap fieldOf := by
  induction lines generalizing h with
  | nil => simp
  | cons l lines ih =>
    have hrest := fun l' hl' => hnul l' (List.mem_cons_of_mem l hl')
    rw [List.foldl_cons, ih _ hrest, headerProcessLineEx_add h (hnul l List.mem_cons_self),
      List.filterMap_cons]
    cases fieldOf l with
    | none => rfl
    | some f => simp [headerAddField]

/-- The loop hands an empty line over first, unless the first line begins with a blank. -/
theorem logicalFrom_start (lines : List Str) : logicalFrom [] lines = logicalLines lines ∨
    logicalFrom [] lines = [] :: logicalLines lines := by
  cases lines with
  | nil => exact Or.inr (by simp [logicalFrom, logicalLines])
  | cons l lines =>
    cases hf : folded l with
    | true => exact Or.inl (by rw [logicalFrom_folded hf, List.nil_append, logicalFrom,
      logicalLines])
    | false => exact Or.inr (by simp [logicalFrom, hf])

theorem filterMap_logicalFrom (lines : List Str) :
    (logicalFrom [] lines).filterMap fieldOf = (logicalLines lines).filterMap fieldOf := by
  rcases logicalFrom_start lines with h | h
  · rw [h]
  · rw [h]
    simp [fieldOf]

theorem logicalFrom_noNul {lines : List Str} (h : ∀ l ∈ logicalLines lines, (0 : Byte) ∉ l) :
    ∀ l ∈ logicalFrom [] lines, (0 : Byte) ∉ l := by
  rcases logicalFrom_start lines with hs | hs
  · rw [hs]
    exact h
  · rw [hs]
    exact List.forall_mem_cons.mpr ⟨List.not_mem_nil, h⟩

/-- Loading appends one field for each logical line with a colon, consumes the lines of the
header, and fails exactly when there are more of them than it counts. -/
theorem header_load_appends (h : HeaderT) {src : Source} {lines : List Str} (hg : Gives src lines)
    (hnul : ∀ l ∈ lines, (0 : Byte) ∉ l) :
    let r := headerLoadEx .add h src
    (r.ok = false ↔ 257 ≤ (consumed lines).length) ∧
    Gives r.src (lines.drop (min 257 (consumed lines).length)) ∧
      (r.ok = true → r.header.fields =
        h.fields ++ (logicalLines (headLines lines)).filterMap fieldOf) := by
  obtain ⟨hok, hheader, hrest⟩ := headerLoopEx_loaded .add hg headerMaxFieldCount h []
  dsimp only
  unfold headerLoadEx
  refine ⟨?_, hrest, ?_⟩
  · rw [hok, decide_eq_false_iff_not, headerMaxFieldCount]
    omega
  · intro htrue
    rw [hok, decide_eq_true_eq] at htrue
    rw [hheader, processedFrom, if_pos htrue,
      foldl_add _ _ (logicalFrom_noNul (logicalLines_noNul hnul)),
      filterMap_logicalFrom]

/-- A folded field, a line without a colon, and a line behind the header. -/
theorem header_load_appends_folded :
    let r := headerLoadEx .add ⟨[⟨bytes "B", bytes "1"⟩], 1⟩ ⟨bytes "A: x\n y\nno\n\nz\n", false, 0⟩
    (r.ok = false ↔ 257 ≤ (consumed [bytes "A: x", bytes " y", bytes "no", [], bytes "z"]).length) ∧
      Gives r.src ([bytes "A: x", bytes " y", bytes "no", [], bytes "z"].drop
        (min 257 (consumed [bytes "A: x", bytes " y", bytes "no", [], bytes "z"]).length)) ∧
      (r.ok = true → r.header.fields = [⟨bytes "B", bytes "1"⟩] ++
        (logicalLines (headLines [bytes "A: x", bytes " y", bytes "no", [], bytes "z"])).filterMap
          fieldOf) := by
  have hg : Gives ⟨bytes "A: x\n y\nno\n\nz\n", false, 0⟩
      [bytes "A: x", bytes " y", bytes "no", [], bytes "z"] :=
    .line (by decide) (.line (by decide)
      (.line (by decide) (.line (by decide) (.line (by decide) (.ends (by decide))))))
  exact header_load_appends ⟨[⟨bytes "B", bytes "1"⟩], 1⟩ hg (by decide)

theorem headerProcessLine_fields (h : HeaderT) (line : Str) :
    (headerProcessLineEx .add h line).fields = headerProcessLine h.fields line := by
  unfold headerProcessLineEx headerProcessLine
  split
  · rfl
  · cases fieldSetFromLine line <;> rfl

/-- `header_load` is the mode that adds. -/
theorem headerLoop_eq (c : ℕ) (h : HeaderT) (src : Source) (unfolded : Str) :
    let r := headerLoopEx .add c h src unfolded
    headerLoop c h.fields src unfolded = (if r.ok then some r.header.fields else none, r.src) := by
  induction c generalizing h src unfolded with
  | zero =>
    rw [headerLoopEx.eq_def, headerLoop.eq_def]
    dsimp only
    split
    · simp [headerProcessLine_fields]
    · simp
  | succ c ih =>
    rw [headerLoopEx.eq_def, headerLoop.eq_def]
    dsimp only
    split
    · simp [headerProcessLine_fields]
    · cases stripNl (uGetline src).line with
      | nil => simp [headerProcessLine_fields]
      | cons b line =>
        dsimp only
        split
        · exact ih h _ _
        · rw [← headerProcessLine_fields]
          exact ih _ _ _

theorem headerLoad_eq (src : Source) :
    let r := headerLoadEx .add ⟨[], 0⟩ src
    headerLoad src = (if r.ok then some r.header.fields else none, r.src) :=
  headerLoop_eq headerMaxFieldCount ⟨[], 0⟩ src []

end Klone
