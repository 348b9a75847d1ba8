import Klone.Http.CgiEnv
import Klone.Request.HeaderMerge

/-! # A header in the environment

A CGI program that is a klone page itself reads the header of its request back from the
variables. The name and the value of a field have to fit one buffer there.
-/
namespace Klone.Cgi
open Keyed

/-- The variables that a program sees: those before the first null pointer. An array that is
full of them has none; what stands behind it in the memory is not read here. -/
def environ (e : CgiEnv) : List Str := (e.env.takeWhile Option.isSome).reduceOption

/-- The field of a variable; what does not fit the buffer is cut off. -/
def headerOfVar (e : Str) : Option Field :=
  if 5 < e.length ∧ (bytes "HTTP_").isPrefixOf e = true then
    match (strlcpy (e.drop 5) 256).2.span (· ≠ 61) with
    | (_, []) => none
    | (name, _ :: value) => some ⟨name.map fun c => if c = 95 then 45 else c, value⟩
  else none

def headerLoadFromCgienv (h : HeaderT) (environ : List Str) : HeaderT :=
  environ.foldl (fun h e => match headerOfVar e with
    | none => h
    | some f => headerSetFieldEx h f.name f.value) h

def isNameByte (c : Byte) : Bool :=
  (48 ≤ c && c ≤ 57) || (65 ≤ c && c ≤ 90) || (97 ≤ c && c ≤ 122) || c == 45

/-- Through the environment of a program the header has the same values under all names. -/
structure RoundTrip (version : Str) (systemroot : Option Str) (r : CgiRequest) : Prop where
  exported : (cgiMakeenv version systemroot r).1 = true
  value : ∀ name,
    headerGetFieldValue (headerLoadFromCgienv ⟨[], 0⟩
      (environ (cgiMakeenv version systemroot r).2)).fields name =
      headerGetFieldValue r.rq.header name

/-! ## Export -/

variable {f : Field} {h : Header} {name value : Str}

def varByte (c : Byte) : Byte := if c = 45 then 95 else toupper c

theorem varByte_name :
    ∀ c, isNameByte c = true → varByte c ≠ 61 ∧
    (if varByte c = 95 then 45 else varByte c) = toupper c := by
  decide +kernel

theorem tolower_toupper : ∀ c, tolower (toupper c) = tolower c := by decide +kernel

theorem headerVarName_eq (hname : ∀ c ∈ name, isNameByte c = true) :
    headerVarName name = if name.length < 1019 then some (bytes "HTTP_" ++ name.map varByte)
    else none := by
  have hcolon : ∀ c ∈ bytes "HTTP_" ++ name, decide (c ≠ 58) = true := by
    rw [all_ne_iff, List.mem_append]
    rintro (h | h)
    · revert h
      decide
    · exact absurd (hname 58 h) (by decide)
  have hlength : (bytes "HTTP_" ++ name).length = name.length + 5 := by
    rw [List.length_append, Nat.add_comm]
    rfl
  have hprefix : (bytes "HTTP_").map varByte = bytes "HTTP_" := by decide
  unfold headerVarName
  dsimp only
  rw [hlength]
  by_cases hfits : name.length < 1019
  · rw [if_neg (by omega), if_pos hfits, List.takeWhile_eq_self_iff.mpr hcolon,
      List.dropWhile_eq_nil_iff.mpr hcolon,
      List.append_nil, ← hprefix, ← List.map_append, hprefix]
    rfl
  · rw [if_pos (by omega), if_neg hfits]

def exported (f : Field) : Str × Str := (bytes "HTTP_" ++ f.name.map varByte, f.value)

/-- All fields are exported, in their order, unless a name does not fit. -/
theorem headerCalls_eq (hnames : ∀ f ∈ h, ∀ c ∈ f.name, isNameByte c = true) :
    ((headerCalls h).1 = true ↔ ∀ f ∈ h, f.name.length < 1019) ∧
      ((headerCalls h).1 = true → (headerCalls h).2 = h.map exported) := by
  induction h with
  | nil => simp [headerCalls]
  | cons f h ih =>
    obtain ⟨hok, hcalls⟩ := ih fun g hg => hnames g (List.mem_cons_of_mem f hg)
    have hname := headerVarName_eq (hnames f List.mem_cons_self)
    unfold headerCalls
    rw [hname]
    by_cases hfits : f.name.length < 1019
    · rw [if_pos hfits]
      dsimp only
      rw [List.forall_mem_cons, hok]
      refine ⟨⟨fun h => ⟨hfits, h⟩, And.right⟩, fun h => ?_⟩
      rw [hcalls (hok.mpr h)]
      rfl
    · rw [if_neg hfits]
      simp [hfits]

/-! ## The other variables -/

def Plain (vars : List (Str × Str)) : Prop :=
  ∀ var ∈ vars, 5 ≤ var.1.length ∧ (bytes "HTTP_").isPrefixOf var.1 = false

variable {vars vars' : List (Str × Str)}

theorem plain_append : Plain (vars ++ vars') ↔ Plain vars ∧ Plain vars' := List.forall_mem_append

theorem plain_optVar {name : String}
    (hname : 5 ≤ (bytes name).length ∧ (bytes "HTTP_").isPrefixOf (bytes name) = false)
    (value : Option Str) : Plain (optVar name value) := by
  intro var hvar
  cases value with
  | none => cases hvar
  | some v =>
    obtain rfl := List.mem_singleton.mp hvar
    exact hname

theorem plain_nil : Plain [] := List.forall_mem_nil _

theorem plain_fixedCalls (version : Str) (systemroot : Option Str) (r : CgiRequest) :
    Plain (fixedCalls version systemroot r) := by
  have hsingle : ∀ {name : String} (value : Str),
      (5 ≤ (bytes name).length ∧ (bytes "HTTP_").isPrefixOf (bytes name) = false) →
      Plain [(bytes name, value)] :=
    fun value hname => plain_optVar hname (some value)
  unfold fixedCalls
  simp only [plain_append, and_assoc]
  refine ⟨?_, ?_, ?_, hsingle _ (by decide), ?_, plain_optVar (by decide) _,
    plain_optVar (by decide) _,
    plain_optVar (by decide) _, ?_, plain_optVar (by decide) _, plain_optVar (by decide) _,
      plain_optVar (by decide) _, plain_optVar (by decide) _,
    plain_optVar (by decide) _⟩
  · simp only [Plain, List.forall_mem_cons]
    decide
  · cases r.addr with
    | none => exact plain_nil
    | some addr =>
      have hsaddr : Plain (cgiSetenvAddr addr "SERVER_ADDR" "SERVER_PORT") :=
        plain_append.mpr ⟨plain_optVar (by decide) _, plain_optVar (by decide) _⟩
      exact plain_append.mpr ⟨hsaddr, plain_optVar (by decide) _⟩
  · cases r.peerAddr with
    | none => exact plain_nil
    | some addr => exact plain_append.mpr ⟨plain_optVar (by decide) _, plain_optVar (by decide) _⟩
  · split
    · exact hsingle _ (by decide)
    · exact plain_nil
  · unfold cgiSetenvClen
    dsimp only
    split
    · exact hsingle _ (by decide)
    · exact plain_nil

theorem headerOfVar_plain {var : Str × Str} (hlen : 5 ≤ var.1.length)
    (hpre : (bytes "HTTP_").isPrefixOf var.1 = false) :
    headerOfVar (keyval var) = none := by
  unfold headerOfVar
  rw [if_neg]
  rintro ⟨-, h⟩
  rw [List.isPrefixOf_iff_prefix, keyval] at h
  have hvar := List.prefix_of_prefix_length_le h (List.prefix_append _ _) hlen
  rw [← List.isPrefixOf_iff_prefix, hpre] at hvar
  cases hvar

/-! ## Import -/

def imported (f : Field) : Option Field :=
  if f.name.length < 255 then some ⟨f.name.map toupper, f.value.take (254 - f.name.length)⟩
  else none

theorem headerOfVar_exported (hname : ∀ c ∈ f.name, isNameByte c = true) :
    headerOfVar (keyval (exported f)) = imported f := by
  have hvar : keyval (exported f) = bytes "HTTP_" ++ (f.name.map varByte ++ 61 :: f.value) := by
    simp [keyval, exported]
  have hlength : (bytes "HTTP_").length = 5 := rfl
  have hsep : ∀ c ∈ f.name.map varByte, decide (c ≠ 61) = true := by
    intro c hc
    obtain ⟨d, hd, rfl⟩ := List.mem_map.mp hc
    exact decide_eq_true (varByte_name d (hname d hd)).1
  have hback : (f.name.map varByte).map (fun c => if c = 95 then 45 else c) =
      f.name.map toupper := by
    rw [List.map_map]
    exact List.map_congr_left fun c hc => (varByte_name c (hname c hc)).2
  unfold headerOfVar imported
  rw [hvar, if_pos ⟨by simp [hlength],
    by rw [List.isPrefixOf_iff_prefix]; exact List.prefix_append _ _⟩, ← hlength,
    List.drop_left, List.span_eq_takeWhile_dropWhile]
  by_cases hfits : f.name.length < 255
  · have hbuf : (strlcpy (f.name.map varByte ++ 61 :: f.value) 256).2 =
        f.name.map varByte ++ 61 :: f.value.take (254 - f.name.length) := by
      rw [strlcpy, List.take_append, List.length_map,
        List.take_of_length_le (by rw [List.length_map]; omega),
        show 256 - 1 - f.name.length = 254 - f.name.length + 1 by omega, List.take_succ_cons]
    rw [hbuf, List.takeWhile_append_of_pos hsep, List.dropWhile_append_of_pos hsep]
    simp [hfits, ← hback]
  · have hbuf : (strlcpy (f.name.map varByte ++ 61 :: f.value) 256).2 =
      (f.name.map varByte).take 255 := by
      rw [strlcpy, List.take_append_of_le_length (by rw [List.length_map]; omega)]
    rw [hbuf, List.dropWhile_eq_nil_iff.mpr fun c hc => hsep c (List.mem_of_mem_take hc),
      if_neg hfits]

/-- The fields of the variables are set one after the other. -/
theorem headerLoadFromCgienv_fields (env : List Str) (h : HeaderT) :
    (headerLoadFromCgienv h env).fields =
      (env.filterMap headerOfVar).foldl
        (fun h f => Page.headerSetField h f.name f.value) h.fields := by
  induction env generalizing h with
  | nil => rfl
  | cons e env ih =>
    unfold headerLoadFromCgienv at ih ⊢
    rw [List.foldl_cons, ih, List.filterMap_cons]
    cases headerOfVar e with
    | none => rfl
    | some f => rw [List.foldl_cons, headerSetFieldEx_fields]

theorem headerSetField_new (hnew : ∀ g ∈ h, nameKey g ≠ nameKey f) :
    Page.headerSetField h f.name f.value = h ++ [f] := by
  induction h with
  | nil => rfl
  | cons g h ih =>
    have hother : strcasecmpEq g.name f.name = false := by
      rw [strcasecmpEq_eq]
      exact decide_eq_false (hnew g List.mem_cons_self)
    unfold Page.headerSetField
    rw [hother, ih fun g hg => hnew g (List.mem_cons_of_mem _ hg)]
    rfl

theorem foldl_set_unique {fs : List Field} (hu : Keyed.Unique nameKey (h ++ fs)) :
    fs.foldl (fun h f => Page.headerSetField h f.name f.value) h = h ++ fs := by
  induction fs generalizing h with
  | nil => simp
  | cons f fs ih =>
    have hnew : ∀ g ∈ h, nameKey g ≠ nameKey f := by
      intro g hg heq
      unfold Keyed.Unique at hu
      rw [List.map_append, List.nodup_append] at hu
      exact hu.2.2 _ (List.mem_map_of_mem hg) _ (List.mem_map_of_mem List.mem_cons_self) heq
    rw [List.foldl_cons, headerSetField_new hnew, ih (by rwa [List.append_assoc]),
      List.append_assoc]
    rfl

/-! ## Both -/

theorem Holds.environ {e : CgiEnv} (h : Holds e vars) : environ e = vars.map keyval := by
  have hvars : ∀ (vars : List (Str × Str)) n,
      ((vars.map fun var => some (keyval var)) ++ List.replicate n none).takeWhile Option.isSome =
        vars.map fun var => some (keyval var) := by
    intro vars n
    induction vars with
    | nil => cases n <;> rfl
    | cons var vars ih => simpa using ih
  unfold Cgi.environ
  rw [h.env, hvars, List.reduceOption, List.filterMap_map]
  exact congrFun List.filterMap_eq_map vars

theorem nameKey_imported {g : Field} (hf : imported f = some g) : nameKey g = nameKey f := by
  unfold imported at hf
  split at hf
  · cases hf
    unfold nameKey
    rw [List.map_map]
    exact List.map_congr_left fun c _ => tolower_toupper c
  · cases hf

theorem unique_imported (hu : Keyed.Unique nameKey h) :
    Keyed.Unique nameKey (h.filterMap imported) := by
  induction h with
  | nil => exact hu
  | cons f h ih =>
    obtain ⟨hnew, hu⟩ := unique_cons.mp hu
    rw [List.filterMap_cons]
    cases hf : imported f with
    | none => exact ih hu
    | some g =>
      refine unique_cons.mpr ⟨?_, ih hu⟩
      intro g' hg'
      obtain ⟨f', hmem, hf'⟩ := List.mem_filterMap.mp hg'
      rw [nameKey_imported hf, nameKey_imported hf']
      exact hnew f' hmem

theorem lookup_imported (hu : Keyed.Unique nameKey h) (k : Str) :
    lookup nameKey k (h.filterMap imported) = (lookup nameKey k h).bind imported := by
  induction h with
  | nil => rfl
  | cons f h ih =>
    obtain ⟨hnew, hu⟩ := unique_cons.mp hu
    rw [List.filterMap_cons, lookup_cons]
    by_cases hk : nameKey f = k
    · subst hk
      rw [if_pos rfl, Option.bind_some]
      cases hf : imported f with
      | none =>
        rw [ih hu, lookup_eq_none.mpr hnew]
        rfl
      | some g => rw [lookup_cons, if_pos (nameKey_imported hf)]
    · rw [if_neg hk, ← ih hu]
      cases hf : imported f with
      | none => rfl
      | some g => rw [lookup_cons, if_neg (by rwa [nameKey_imported hf])]

theorem imported_value_iff :
    (imported f).map (·.value) = some f.value ↔ f.name.length + 1 + f.value.length < 256 := by
  unfold imported
  split
  · rw [Option.map_some, Option.some_inj, List.take_eq_self_iff]
    omega
  · simp only [Option.map_none, reduceCtorEq, false_iff]
    omega

/-- The header that is read back, when it has been exported. -/
theorem load_makeenv {version : Str} {systemroot : Option Str} {r : CgiRequest}
    (hd : NamesDistinct r.rq.header) (hnames : ∀ f ∈ r.rq.header, ∀ c ∈ f.name, isNameByte c = true)
    (hok : (headerCalls r.rq.header).1 = true) :
    (headerLoadFromCgienv ⟨[], 0⟩ (environ (cgiMakeenv version systemroot r).2)).fields =
    r.rq.header.filterMap imported := by
  have hcalls : makeenvCalls version systemroot r =
      fixedCalls version systemroot r ++ r.rq.header.map exported := by
    rw [makeenvCalls, (headerCalls_eq hnames).2 hok]
  have hplain := plain_fixedCalls version systemroot r
  have hstored : stored (makeenvCalls version systemroot r) =
      makeenvCalls version systemroot r := by
    rw [hcalls]
    refine List.filter_eq_self.mpr fun var hvar => decide_eq_true ?_
    rcases List.mem_append.mp hvar with hfixed | hfield
    · exact List.ne_nil_of_length_pos (Nat.lt_of_lt_of_le (by decide) (hplain var hfixed).1)
    · obtain ⟨f, -, rfl⟩ := List.mem_map.mp hfield
      exact List.append_ne_nil_of_left_ne_nil (by decide) _
  have hfixed : (fixedCalls version systemroot r).filterMap (headerOfVar ∘ keyval) = [] :=
    List.filterMap_eq_nil_iff.mpr fun var hvar =>
      headerOfVar_plain (hplain var hvar).1 (hplain var hvar).2
  have hfields : (r.rq.header.map exported).filterMap (headerOfVar ∘ keyval) =
      r.rq.header.filterMap imported := by
    rw [List.filterMap_map]
    exact List.filterMap_congr fun f hf => headerOfVar_exported (hnames f hf)
  have henv : environ (cgiMakeenv version systemroot r).2 =
      (makeenvCalls version systemroot r).map keyval := by
    rw [cgiMakeenv, (holds_setenvs _).environ, hstored]
  rw [headerLoadFromCgienv_fields, henv, List.filterMap_map, hcalls, List.filterMap_append, hfixed,
    hfields, List.nil_append,
    foldl_set_unique (by simpa using unique_imported (namesDistinct_iff.mp hd)), List.nil_append]

/-- A header comes back from the environment exactly when each of its fields, with the sign
between name and value, is shorter than the buffer. -/
theorem cgienv_round_trip_iff (version : Str) (systemroot : Option Str) (r : CgiRequest)
    (hd : NamesDistinct r.rq.header)
    (hnames : ∀ f ∈ r.rq.header, ∀ c ∈ f.name, isNameByte c = true) :
    RoundTrip version systemroot r ↔
    ∀ f ∈ r.rq.header, f.name.length + 1 + f.value.length < 256 := by
  have hu := namesDistinct_iff.mp hd
  have hok := (headerCalls_eq hnames).1
  constructor
  · rintro ⟨hexported, hvalue⟩ f hf
    have hsame := hvalue f.name
    rw [load_makeenv hd hnames hexported, headerGetFieldValue_eq, headerGetFieldValue_eq,
      lookup_imported hu, ← nameKey,
      hu.lookup_of_mem hf] at hsame
    exact imported_value_iff.mp hsame
  · intro hfits
    have hexported : (headerCalls r.rq.header).1 = true := by
      rw [hok]
      intro f hf
      have := hfits f hf
      omega
    refine ⟨hexported, fun name => ?_⟩
    rw [load_makeenv hd hnames hexported, headerGetFieldValue_eq, headerGetFieldValue_eq,
      lookup_imported hu]
    cases hf : lookup nameKey (name.map tolower) r.rq.header with
    | none => rfl
    | some f => exact imported_value_iff.mpr (hfits f (List.mem_of_find?_eq_some hf))

theorem cgienv_round_trip_host :
    let r : CgiRequest := ⟨{ Request.zero with
      header := [⟨bytes "Host", bytes "a.org"⟩] }, none, none, .get, false⟩
    RoundTrip (bytes "3.1.0") none r ↔
    ∀ f ∈ r.rq.header, f.name.length + 1 + f.value.length < 256 :=
  cgienv_round_trip_iff _ _ _ (List.pairwise_singleton _ _) (by decide +kernel)

/-- A cookie of 300 bytes loses its end. -/
theorem cookie_cut :
    let r : CgiRequest :=
      ⟨{ Request.zero with header := [⟨bytes "Cookie", bytes "a=" ++ List.replicate 298 120⟩] },
        none, none, .get, false⟩
    (cgiMakeenv (bytes "3.1.0") none r).1 = true ∧
      headerGetFieldValue (headerLoadFromCgienv ⟨[], 0⟩
        (environ (cgiMakeenv (bytes "3.1.0") none r).2)).fields (bytes "Cookie") =
        some (bytes "a=" ++ List.replicate 246 120) ∧
      ¬ RoundTrip (bytes "3.1.0") none r := by
  refine ⟨by decide +kernel, by decide +kernel, fun h => absurd (h.value (bytes "Cookie")) ?_⟩
  decide +kernel

end Klone.Cgi
