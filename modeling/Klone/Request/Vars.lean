import Klone.Request.Basic
import Klone.Utils.Urlncpy

/-! # Lists of variables

Names are C strings and are compared without regard to case. A value is a sequence
of bytes; one of no bytes is a null pointer.
-/
namespace Klone
open Http

def varBinCreate (name value : List Byte) : Var := ⟨cstr name, value⟩

/-- `var_create`: the value of a text variable has its NUL. -/
def varCreate (name value : Str) : Var := varBinCreate name (value ++ [0])

def varsGet (vs : List Var) (name : Str) : Option Var := vs.find? fun v => strcasecmpEq v.name name

def varsDel (vs : List Var) (name : Str) : List Var := vs.eraseP fun v => strcasecmpEq v.name name

/-- The value of `vars_add_urlvar`; an empty one becomes a single NUL. -/
def urlValue (val : Str) : Option (List Byte) :=
  if val = [] then some [0]
  else match uUrlncpyDecode val with
    | none => none
    | some [] => none
    | some value => some value

/-- The variable with an escaped name and an escaped value. -/
def urlNamed (nam val : Str) : Option Var :=
  match uUrlncpyDecode nam with
  | none => none
  | some [] => none
  | some name => (urlValue val).map (varBinCreate name)

/-- The variable that `vars_add_urlvar` makes of `name=value`. -/
def urlVar (s : List Byte) : Option Var :=
  match (cstr s).span (· ≠ 61) with
  | (_, []) => none
  | (nam, _ :: val) => urlNamed nam val

def varsAddUrlvar (vs : List Var) (s : List Byte) : Option (List Var × Var) :=
  (urlVar s).map fun v => (vs ++ [v], v)

/-! ## Escaped variables -/

theorem span_delim {p : Byte → Bool} {nam : Str} (h : ∀ c ∈ nam, p c = true) {d : Byte}
    (hd : p d = false) (val : Str) :
    (nam ++ d :: val).span p = (nam, d :: val) := by
  rw [List.span_eq_takeWhile_dropWhile]
  simp [List.takeWhile_append_of_pos h, List.dropWhile_append_of_pos h, hd]

/-- The bytes of the encoder are none of those that end strings, lines and names. -/
theorem not_mem_of_urlChar {s : Str} (h : ∀ c ∈ s, urlChar c = true) {b : Byte}
    (hb : urlChar b = false) : b ∉ s := by
  intro hm
  rw [h b hm] at hb
  cases hb

/-- A name and a value on both sides of the delimiter. -/
theorem urlVar_named {nam val : Str} (hzero : (0 : Byte) ∉ nam ++ 61 :: val)
    (hnam : (61 : Byte) ∉ nam) :
    urlVar (nam ++ 61 :: val) = urlNamed nam val := by
  have hspan : (nam ++ 61 :: val).span (fun c => decide (c ≠ 61)) = (nam, 61 :: val) := by
    apply span_delim
    · exact all_ne_iff.mpr hnam
    · simp
  rw [urlVar, cstr_of_not_mem hzero, hspan]

theorem urlVar_split {nam val : Str} (hn : ∀ c ∈ nam, urlChar c = true)
    (hv : ∀ c ∈ val, urlChar c = true) :
    urlVar (nam ++ 61 :: val) = urlNamed nam val := by
  apply urlVar_named
  · have h₁ : (0 : Byte) ∉ nam := not_mem_of_urlChar hn rfl
    have h₂ : (0 : Byte) ∉ val := not_mem_of_urlChar hv rfl
    simp [h₁, h₂]
  · exact not_mem_of_urlChar hn rfl

/-- What is written with `URLCPY_ENCODE` is read back as it was. -/
theorem urlNamed_encode {v : Var} (hname : v.name ≠ []) (hzero : (0 : Byte) ∉ v.name)
    (hvalue : v.value ≠ []) :
    urlNamed (uUrlncpyEncode v.name) (uUrlncpyEncode v.value) = some v := by
  rw [urlNamed, uUrlncpyDecode_encode]
  obtain ⟨name, value⟩ := v
  obtain ⟨c, name, rfl⟩ := List.exists_cons_of_ne_nil hname
  obtain ⟨b, value, rfl⟩ := List.exists_cons_of_ne_nil hvalue
  have hne : uUrlncpyEncode (b :: value) ≠ [] := fun he => hvalue (uUrlncpyEncode_eq_nil.mp he)
  simp only [urlValue, hne, if_false, uUrlncpyDecode_encode, Option.map_some, varBinCreate,
    cstr_of_not_mem hzero]

/-- A variable whose name and value have no special bytes. -/
theorem urlVar_safe {name value : Str} (hn : ∀ c ∈ name, urlSafe c = true)
    (hv : ∀ c ∈ value, urlSafe c = true) (hname : name ≠ []) (hvalue : value ≠ []) :
    urlVar (name ++ 61 :: value) = some ⟨name, value⟩ := by
  have hc : ∀ {s : Str}, (∀ c ∈ s, urlSafe c = true) → ∀ c ∈ s, urlChar c = true := by
    intro s hs c hm
    simp [urlChar, hs c hm]
  have hzero : (0 : Byte) ∉ name := not_mem_of_urlChar (hc hn) rfl
  have hnamed := urlNamed_encode (v := ⟨name, value⟩) hname hzero hvalue
  rw [uUrlncpyEncode_safe hn, uUrlncpyEncode_safe hv] at hnamed
  rw [urlVar_split (hc hn) (hc hv)]
  exact hnamed

theorem encode_length_append (s t : List Byte) :
    (uUrlncpyEncode (s ++ t)).length = (uUrlncpyEncode s).length + (uUrlncpyEncode t).length := by
  simp [uUrlncpyEncode]

theorem cstr_begins (s : List Byte) : cstr s <+: s := List.takeWhile_prefix _

theorem urlValue_some {val : Str} {value : List Byte} (h : urlValue val = some value) :
    val = [] ∧ value = [0] ∨ uUrlncpyDecode val = some value := by
  unfold urlValue at h
  split at h
  · next hnil => exact Or.inl ⟨hnil, (Option.some.inj h).symm⟩
  · split at h
    · cases h
    · cases h
    · next hd =>
      obtain rfl := Option.some.inj h
      exact Or.inr hd

theorem urlNamed_some {nam val : Str} {v : Var} (h : urlNamed nam val = some v) :
    ∃ name, uUrlncpyDecode nam = some name ∧ v.name = cstr name ∧ urlValue val = some v.value := by
  unfold urlNamed at h
  split at h
  · cases h
  · cases h
  · next name _ hd =>
    obtain ⟨value, hvalue, rfl⟩ := Option.map_eq_some_iff.mp h
    exact ⟨name, hd, rfl, hvalue⟩

/-- A text that means a variable has its delimiter. -/
theorem urlVar_some {s : Str} (hs : (0 : Byte) ∉ s) {v : Var} (h : urlVar s = some v) :
    ∃ nam val, s = nam ++ 61 :: val ∧ (61 : Byte) ∉ nam ∧ urlNamed nam val = some v := by
  rw [urlVar, cstr_of_not_mem hs, List.span_eq_takeWhile_dropWhile] at h
  have hsplit := List.takeWhile_append_dropWhile (p := fun c : Byte => decide (c ≠ 61)) (l := s)
  cases hd : s.dropWhile (fun c => decide (c ≠ 61)) with
  | nil =>
    rw [hd] at h
    cases h
  | cons c val =>
    rw [hd] at h hsplit
    have hc : c = 61 := by
      have hhead := List.head?_dropWhile_not (fun c : Byte => decide (c ≠ 61)) s
      rw [hd] at hhead
      simpa using hhead
    subst hc
    refine ⟨_, val, hsplit.symm, ?_, h⟩
    intro hm
    have hp := List.mem_takeWhile_imp hm
    simp at hp

/-- Text that means a variable is at least as long as what the encoder writes for it. -/
theorem encode_le_of_urlNamed {nam val : Str} (hn : ∀ c ∈ nam, urlChar c = true)
    (hv : ∀ c ∈ val, urlChar c = true) {v : Var} (h : urlNamed nam val = some v) (hne : val ≠ []) :
    (uUrlncpyEncode v.name).length ≤ nam.length ∧ (uUrlncpyEncode v.value).length ≤ val.length := by
  obtain ⟨name, hname, hcstr, hvalue⟩ := urlNamed_some h
  refine ⟨?_, ?_⟩
  · obtain ⟨more, hmore⟩ := cstr_begins name
    have hle := encode_le_of_decode hn hname
    rw [← hmore, encode_length_append] at hle
    rw [hcstr]
    omega
  · rcases urlValue_some hvalue with ⟨hnil, -⟩ | hd
    · exact absurd hnil hne
    · exact encode_le_of_decode hv hd

end Klone
