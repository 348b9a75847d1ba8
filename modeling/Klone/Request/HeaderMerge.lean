import Klone.Lib.Keyed
import Klone.Request.HeaderLoad
import Klone.Response.Fields

/-! # Merging headers

A header that has no name twice, in whatever case, keeps this under all its operations but
the loads that add. What a load makes of the fields is that of the list with keys, where the
key of a field is its name in lower case.
-/
namespace Klone
open Keyed

def headerSetFieldEx (h : HeaderT) (name value : Str) : HeaderT :=
  match headerFind h name with
  | none => headerAddField h ⟨name, value⟩
  | some i => { h with fields := h.fields.set i ⟨name, value⟩ }

def headerGetFieldn (h : HeaderT) (idx : ℕ) : Option Field :=
  if h.nfields ≤ idx then none else h.fields[idx]?

/-- `header_clear`: the first field is deleted until there is none. -/
def headerClear (h : HeaderT) : HeaderT := (fun h => headerDelField h 0)^[h.fields.length] h

inductive HeaderOp where
  | set (name value : Str)
  | del (idx : ℕ)
  | clear
  | load (mode : LoadMode) (src : Source)

/-- A call; a field is deleted by the pointer that `header_get_fieldn` returns. -/
def headerStep (h : HeaderT) : HeaderOp → HeaderT
  | .set name value => headerSetFieldEx h name value
  | .del idx => if (headerGetFieldn h idx).isSome then headerDelField h idx else h
  | .clear => headerClear h
  | .load mode src => (headerLoadEx mode h src).header

def HeaderOp.Merges : HeaderOp → Prop
  | .load mode _ => mode ≠ .add
  | _ => True

def NamesDistinct (h : Header) : Prop := h.Pairwise fun f g => strcasecmpEq f.name g.name = false

structure HeaderT.Ok (h : HeaderT) : Prop where
  distinct : NamesDistinct h.fields
  count : h.nfields = h.fields.length

/-! ## Names as keys -/

def nameKey (f : Field) : Str := f.name.map tolower

theorem strcasecmpEq_eq (f : Field) (name : Str) :
    strcasecmpEq f.name name = decide (nameKey f = name.map tolower) := by
  rw [strcasecmpEq, nameKey, beq_eq_decide]

theorem namesDistinct_iff {h : Header} : NamesDistinct h ↔ Keyed.Unique nameKey h := by
  unfold NamesDistinct Keyed.Unique
  rw [List.Nodup, List.pairwise_map]
  refine List.Pairwise.iff fun f g => ?_
  rw [strcasecmpEq_eq, decide_eq_false_iff_not]
  rfl

theorem headerGetFieldValue_eq (h : Header) (name : Str) :
    headerGetFieldValue h name = (lookup nameKey (name.map tolower) h).map (·.value) := by
  simp only [headerGetFieldValue, headerGetField, lookup, strcasecmpEq_eq]

theorem headerFind_eq (h : HeaderT) (f : Field) :
    headerFind h f.name = h.fields.findIdx? fun g => decide (nameKey g = nameKey f) := by
  simp only [headerFind, strcasecmpEq_eq]
  rfl

theorem headerFind_lt {h : HeaderT} {name : Str} {i : ℕ} (hi : headerFind h name = some i) :
    ∃ hlt : i < h.fields.length, nameKey h.fields[i] = name.map tolower := by
  obtain ⟨hlt, hp, -⟩ := List.findIdx?_eq_some_iff_getElem.mp hi
  rw [strcasecmpEq_eq, decide_eq_true_eq] at hp
  exact ⟨hlt, hp⟩

/-! ## Operations -/

theorem headerTake_override (h : HeaderT) (f : Field) :
    (headerTake .override h f).fields = supersede nameKey h.fields f := by
  have hmode : headerTake .override h f = match headerFind h f.name with
    | none => headerAddField h f
    | some i => headerAddField (headerDelField h i) f := rfl
  rw [hmode, supersede, List.eraseP_eq_eraseIdx, ← headerFind_eq]
  cases headerFind h f.name <;> rfl

theorem headerTake_keep (h : HeaderT) (f : Field) :
    (headerTake .keep h f).fields = addNew nameKey h.fields f := by
  have hmode : headerTake .keep h f = match headerFind h f.name with
    | none => headerAddField h f
    | some _ => h := rfl
  have hsome : (lookup nameKey (nameKey f) h.fields).isSome = (headerFind h f.name).isSome := by
    rw [headerFind_eq, List.findIdx?_isSome, lookup, List.isSome_find?]
  rw [hmode, addNew, hsome]
  cases headerFind h f.name <;> rfl

theorem headerAddField_count {h : HeaderT} (hn : h.nfields = h.fields.length) (f : Field) :
    (headerAddField h f).nfields = (headerAddField h f).fields.length := by
  simp [headerAddField, hn]

theorem headerDelField_count {h : HeaderT} (hn : h.nfields = h.fields.length) {i : ℕ}
    (hi : i < h.fields.length) :
    (headerDelField h i).nfields = (headerDelField h i).fields.length := by
  simp [headerDelField, hn, List.length_eraseIdx_of_lt hi]

theorem headerTake_count {h : HeaderT} (hn : h.nfields = h.fields.length) (mode : LoadMode)
    (f : Field) :
    (headerTake mode h f).nfields = (headerTake mode h f).fields.length := by
  cases mode with
  | add => exact headerAddField_count hn f
  | override =>
    unfold headerTake
    dsimp only
    split
    · exact headerAddField_count hn f
    · next i hi =>
      obtain ⟨hlt, -⟩ := headerFind_lt hi
      exact headerAddField_count (headerDelField_count hn hlt) f
  | keep =>
    unfold headerTake
    dsimp only
    split
    · exact headerAddField_count hn f
    · exact hn

theorem headerTake_ok {h : HeaderT} (hok : h.Ok) {mode : LoadMode} (hm : mode ≠ .add) (f : Field) :
    (headerTake mode h f).Ok := by
  have hu := namesDistinct_iff.mp hok.distinct
  refine ⟨namesDistinct_iff.mpr ?_, headerTake_count hok.count mode f⟩
  cases mode with
  | add => exact absurd rfl hm
  | override =>
    rw [headerTake_override]
    exact hu.supersede f
  | keep =>
    rw [headerTake_keep]
    exact hu.addNew f

theorem headerSetFieldEx_ok {h : HeaderT} (hok : h.Ok) (name value : Str) :
    (headerSetFieldEx h name value).Ok := by
  have hu := namesDistinct_iff.mp hok.distinct
  unfold headerSetFieldEx
  split
  · next hnone =>
    refine ⟨namesDistinct_iff.mpr (hu.concat ?_), headerAddField_count hok.count _⟩
    intro g hg
    have hno := List.findIdx?_eq_none_iff.mp hnone g hg
    rw [strcasecmpEq_eq, decide_eq_false_iff_not] at hno
    exact hno
  · next i hi =>
    obtain ⟨hlt, hkey⟩ := headerFind_lt hi
    have hmap : (h.fields.set i ⟨name, value⟩).map nameKey = h.fields.map nameKey := by
      rw [List.map_set]
      have hlt' : i < (h.fields.map nameKey).length := by rwa [List.length_map]
      have hself : nameKey ⟨name, value⟩ = (h.fields.map nameKey)[i] := by
        rw [List.getElem_map, hkey]
        rfl
      rw [hself, List.set_getElem_self]
    refine ⟨namesDistinct_iff.mpr ?_, ?_⟩
    · unfold Keyed.Unique
      rw [hmap]
      exact hu
    · rw [List.length_set]
      exact hok.count

/-- The fields are set as those of a response are. -/
theorem headerSetFieldEx_fields (h : HeaderT) (name value : Str) :
    (headerSetFieldEx h name value).fields = Page.headerSetField h.fields name value := by
  obtain ⟨fields, n⟩ := h
  unfold headerSetFieldEx headerFind
  induction fields with
  | nil => rfl
  | cons f fields ih =>
    rw [List.findIdx?_cons, Page.headerSetField]
    cases hf : strcasecmpEq f.name name with
    | true => rfl
    | false =>
      simp only [Bool.false_eq_true, if_false, ← ih]
      cases fields.findIdx? fun f => strcasecmpEq f.name name <;> rfl

theorem headerDelField_ok {h : HeaderT} (hok : h.Ok) {i : ℕ} (hi : i < h.fields.length) :
    (headerDelField h i).Ok :=
  ⟨hok.distinct.sublist (List.eraseIdx_sublist _ _), headerDelField_count hok.count hi⟩

theorem headerClear_eq {h : HeaderT} (hok : h.Ok) : headerClear h = ⟨[], 0⟩ := by
  obtain ⟨fields, n⟩ := h
  obtain rfl : n = fields.length := hok.count
  clear hok
  unfold headerClear
  dsimp only
  induction fields with
  | nil => rfl
  | cons f fields ih =>
    rw [List.length_cons, Function.iterate_succ_apply]
    exact ih

/-! ## Loads -/

/-- The fields of the lines that a load processes: all of the block when it succeeds, those
before the line that is kept back when it fails. -/
def loadedFields (lines : List Str) : List Field :=
  (if (consumed lines).length ≤ headerMaxFieldCount then logicalLines (headLines lines)
    else (logicalLines ((headLines lines).take headerMaxFieldCount)).dropLast).filterMap
      fieldSetFromLine

theorem headerProcessLineEx_eq (mode : LoadMode) (h : HeaderT) (line : Str) :
    headerProcessLineEx mode h line = match fieldSetFromLine line with
      | none => h
      | some f => headerTake mode h f := by
  unfold headerProcessLineEx
  split
  · next hnil =>
    subst hnil
    rfl
  · rfl

theorem foldl_process (mode : LoadMode) (lines : List Str) (h : HeaderT) :
    lines.foldl (headerProcessLineEx mode) h =
    (lines.filterMap fieldSetFromLine).foldl (headerTake mode) h := by
  induction lines generalizing h with
  | nil => rfl
  | cons l lines ih =>
    rw [List.foldl_cons, headerProcessLineEx_eq, List.filterMap_cons]
    cases fieldSetFromLine l with
    | none => exact ih h
    | some f => exact ih (headerTake mode h f)

theorem filterMap_processed (lines : List Str) :
    (processedFrom headerMaxFieldCount [] lines).filterMap fieldSetFromLine =
    loadedFields lines := by
  unfold processedFrom loadedFields
  split
  · rcases logicalFrom_start (headLines lines) with h | h
    · rw [h]
    · rw [h]
      rfl
  · rcases logicalFrom_start ((headLines lines).take headerMaxFieldCount) with h | h
    · rw [h]
    · rw [h]
      cases logicalLines ((headLines lines).take headerMaxFieldCount) <;> rfl

theorem headerLoadEx_header (mode : LoadMode) (h : HeaderT) {src : Source} {lines : List Str}
    (hg : Gives src lines) :
    (headerLoadEx mode h src).header = (loadedFields lines).foldl (headerTake mode) h := by
  have hload := (headerLoopEx_loaded mode hg headerMaxFieldCount h []).header
  rw [foldl_process, filterMap_processed] at hload
  exact hload

theorem foldl_take_override (fs : List Field) (h : HeaderT) :
    (fs.foldl (headerTake .override) h).fields = fs.foldl (supersede nameKey) h.fields := by
  induction fs generalizing h with
  | nil => rfl
  | cons f fs ih => rw [List.foldl_cons, ih, headerTake_override, List.foldl_cons]

theorem foldl_take_keep (fs : List Field) (h : HeaderT) :
    (fs.foldl (headerTake .keep) h).fields = fs.foldl (addNew nameKey) h.fields := by
  induction fs generalizing h with
  | nil => rfl
  | cons f fs ih => rw [List.foldl_cons, ih, headerTake_keep, List.foldl_cons]

theorem foldl_take_ok {mode : LoadMode} (hm : mode ≠ .add) (fs : List Field) {h : HeaderT}
    (hok : h.Ok) :
    (fs.foldl (headerTake mode) h).Ok := by
  induction fs generalizing h with
  | nil => exact hok
  | cons f fs ih => exact ih (headerTake_ok hok hm f)

/-! ## Runs -/

theorem headerStep_ok {h : HeaderT} (hok : h.Ok) {op : HeaderOp} (hop : op.Merges) :
    (headerStep h op).Ok := by
  cases op with
  | set name value => exact headerSetFieldEx_ok hok name value
  | del idx =>
    unfold headerStep
    dsimp only
    split
    · next hsome =>
      refine headerDelField_ok hok ?_
      unfold headerGetFieldn at hsome
      split at hsome
      · cases hsome
      · obtain ⟨f, hf⟩ := Option.isSome_iff_exists.mp hsome
        exact (List.getElem?_eq_some_iff.mp hf).1
    · exact hok
  | clear =>
    change (headerClear h).Ok
    rw [headerClear_eq hok]
    exact ⟨List.Pairwise.nil, rfl⟩
  | load mode src =>
    obtain ⟨lines, hg⟩ := exists_gives src
    change (headerLoadEx mode h src).header.Ok
    rw [headerLoadEx_header mode h hg]
    exact foldl_take_ok hop _ hok

theorem headerRun_ok {h : HeaderT} (hok : h.Ok) {ops : List HeaderOp}
    (hops : ∀ op ∈ ops, op.Merges) :
    (ops.foldl headerStep h).Ok := by
  induction ops generalizing h with
  | nil => exact hok
  | cons op ops ih =>
    exact ih (headerStep_ok hok (hops op List.mem_cons_self))
      (fun o ho => hops o (List.mem_cons_of_mem op ho))

def unnamed (fs : List Field) (f : Field) : Bool := fs.all fun g => !strcasecmpEq g.name f.name

theorem unnamed_false {fs : List Field} {f : Field} (hf : f ∈ fs) (g : Field)
    (h : nameKey g = nameKey f) : unnamed fs g = false := by
  rw [unnamed, List.all_eq_false]
  refine ⟨f, hf, ?_⟩
  rw [strcasecmpEq_eq, ← nameKey, h]
  simp

structure Merged (mode : LoadMode) (h : HeaderT) (fs : List Field) (r : HeaderT) : Prop where
  value : ∀ name, headerGetFieldValue r.fields name = match mode with
    | .override => (headerGetFieldValue fs.reverse name).or (headerGetFieldValue h.fields name)
    | .keep => (headerGetFieldValue h.fields name).or (headerGetFieldValue fs name)
    | .add => headerGetFieldValue (h.fields ++ fs) name
  others : r.fields.filter (unnamed fs) = h.fields.filter (unnamed fs)

theorem foldl_take_add (fs : List Field) (h : HeaderT) :
    (fs.foldl (headerTake .add) h).fields = h.fields ++ fs := by
  induction fs generalizing h with
  | nil => simp
  | cons f fs ih => simp [ih, headerTake, headerAddField]

theorem foldl_take_merged {h : HeaderT} (hok : h.Ok) (mode : LoadMode) (fs : List Field) :
    Merged mode h fs (fs.foldl (headerTake mode) h) := by
  cases mode with
  | add =>
    refine ⟨?_, ?_⟩
    · intro name
      rw [foldl_take_add]
    · have hnamed : fs.filter (unnamed fs) = [] := by
        rw [List.filter_eq_nil_iff]
        intro f hf
        rw [unnamed_false hf f rfl]
        exact Bool.false_ne_true
      rw [foldl_take_add, List.filter_append, hnamed, List.append_nil]
  | override =>
    refine ⟨?_, ?_⟩
    · intro name
      rw [foldl_take_override]
      dsimp only
      rw [headerGetFieldValue_eq, lookup_foldl_supersede (namesDistinct_iff.mp hok.distinct),
        headerGetFieldValue_eq,
        headerGetFieldValue_eq, Option.map_or]
    · rw [foldl_take_override]
      exact filter_foldl_supersede fun f hf g hg => unnamed_false hf g hg
  | keep =>
    refine ⟨?_, ?_⟩
    · intro name
      rw [foldl_take_keep]
      dsimp only
      rw [headerGetFieldValue_eq, lookup_foldl_addNew, headerGetFieldValue_eq,
        headerGetFieldValue_eq, Option.map_or]
    · rw [foldl_take_keep]
      exact filter_foldl_addNew fun f hf => unnamed_false hf f rfl

/-- Any sequence of calls keeps the names distinct and the counter right; after any of them a
load gives every name the value of its last line, or lets the value that is there stand, and
leaves the fields that are not named in the block as they are. -/
theorem header_merge {h : HeaderT} (hd : NamesDistinct h.fields) (hn : h.nfields = h.fields.length)
    (ops : List HeaderOp) (hops : ∀ op ∈ ops, op.Merges) :
    let s := ops.foldl headerStep h
    NamesDistinct s.fields ∧ s.nfields = s.fields.length ∧
      ∀ mode src lines, Gives src lines →
        Merged mode s (loadedFields lines) (headerLoadEx mode s src).header ∧
          ((headerLoadEx mode s src).ok = true →
            loadedFields lines = (logicalLines (headLines lines)).filterMap fieldSetFromLine) := by
  have hok := headerRun_ok (h := h) ⟨hd, hn⟩ hops
  refine ⟨hok.distinct, hok.count, ?_⟩
  intro mode src lines hg
  refine ⟨?_, ?_⟩
  · rw [headerLoadEx_header mode _ hg]
    exact foldl_take_merged hok mode _
  · intro hsucc
    rw [headerLoadEx, (headerLoopEx_loaded mode hg headerMaxFieldCount _ []).ok,
      decide_eq_true_eq] at hsucc
    rw [loadedFields, if_pos hsucc]

theorem header_merge_cgi :
    let s := [HeaderOp.set (bytes "status") (bytes "200"),
      .load .override ⟨bytes "STATUS: 404\nX: 1\n\n", false, 0⟩,
      .load .keep ⟨bytes "x: 2\n\n", false, 0⟩, .del 0].foldl headerStep
        ⟨[⟨bytes "Server", bytes "k"⟩], 1⟩
    NamesDistinct s.fields ∧ s.nfields = s.fields.length ∧
      ∀ mode src lines, Gives src lines →
        Merged mode s (loadedFields lines) (headerLoadEx mode s src).header ∧
          ((headerLoadEx mode s src).ok = true →
            loadedFields lines = (logicalLines (headLines lines)).filterMap fieldSetFromLine) :=
  header_merge (h := ⟨[⟨bytes "Server", bytes "k"⟩], 1⟩) (List.pairwise_singleton _ _) rfl _
    (by simp [HeaderOp.Merges])

end Klone
