import Klone.Session.Lifecycle
import Klone.Session.MemStore

/-! # The drivers for files and for memory

The text of a session is written to a file of its own, or to an atom of the store in
memory of a server that sets no limits for it.
-/
namespace Klone.Session

/-! ## What is written -/

theorem varLine_ne_nil (ssl : Option KeyCipher) (v : Var) : 0 < (varLine ssl v).length := by
  simp [varLine]

theorem sessionText_eq (ssl : Option KeyCipher) (vars : List Var) :
    sessionText ssl vars = varLines ssl (savedVars ssl vars) := by
  unfold savedVars varLines sessionText
  induction vars with
  | nil => rfl
  | cons v vars ih =>
    cases hs : savable ssl v with
    | false => simp [savedLines, sessionPrvSaveVar_line, hs]
    | true =>
      simp only [savedLines, sessionPrvSaveVar_line, hs, if_true, List.takeWhile_cons_of_pos,
        List.flatten_cons,
        List.flatMap_cons, ih]
      rfl

theorem sessionText_length_le (ssl : Option KeyCipher) (vars : List Var) :
    (sessionText ssl vars).length + (unsavedVars ssl vars).length ≤ (varLines ssl vars).length := by
  have hsplit : vars = savedVars ssl vars ++ unsavedVars ssl vars :=
    (List.takeWhile_append_dropWhile).symm
  have hlen : ∀ vs : List Var, vs.length ≤ (varLines ssl vs).length := by
    intro vs
    induction vs with
    | nil => exact le_rfl
    | cons v vs ih =>
      have hpos := varLine_ne_nil ssl v
      unfold varLines at ih ⊢
      rw [List.flatMap_cons, List.length_append, List.length_cons]
      omega
  have hrest := hlen (unsavedVars ssl vars)
  have happ : varLines ssl vars = varLines ssl (savedVars ssl vars) ++ varLines ssl
      (unsavedVars ssl vars) := by
    conv_lhs => rw [hsplit]
    exact List.flatMap_append
  rw [happ, sessionText_eq, List.length_append]
  omega

/-- All lines are written when all variables can be saved, and only then. -/
theorem sessionText_whole {ssl : Option KeyCipher} {vars : List Var} :
    sessionText ssl vars = varLines ssl vars ↔ vars.all (savable ssl) = true := by
  constructor
  · intro h
    have hle := sessionText_length_le ssl vars
    rw [h] at hle
    have hnil : unsavedVars ssl vars = [] := List.eq_nil_of_length_eq_zero (by omega)
    rw [List.all_eq_true]
    exact List.dropWhile_eq_nil_iff.mp hnil
  · intro h
    rw [sessionText_eq, savedVars, List.takeWhile_eq_self_iff.mpr (List.all_eq_true.mp h)]

/-! ## Files -/

/-- Files by name, with the time of the last change. -/
abbrev Files := Str → Option (ℤ × Str)

/-- `session_file_load` creates the file when there is none. -/
def sessionFileLoad (ssl : Option KeyCipher) (now : ℤ) (fs : Files) (name : Str) :
    Files × Option Int32 × List Var :=
  match fs name with
  | none => (Function.update fs name (some (now, [])), none, [])
  | some f => (fs, none, (sessionPrvLoadFromIo ssl [] ⟨f.2, false, 0⟩).vars)

/-- `session_file_save`; the stream gets the text by `sessionPrvSaveToIo_sends`. -/
def sessionFileSave (ssl : Option KeyCipher) (now : ℤ) (fs : Files) (name : Str) (vars : List Var) :
    Files :=
  let fs := Function.update fs name none
  if vars = [] then fs else Function.update fs name (some (now, sessionText ssl vars))

def sessionFileRemove (fs : Files) (name : Str) : Files := Function.update fs name none

def sessionFileMtime (now : ℤ) (fs : Files) (name : Option Str) : Int32 :=
  match name.bind fs with
  | none => Int32.ofInt now
  | some f => Int32.ofInt f.1

def fileDriver (ssl : Option KeyCipher) : Driver where
  Store := Files
  ssl := ssl
  entry fs name := (fs name).map Prod.snd
  whole vars := vars.all (savable ssl)
  room _ _ _ := True
  mtime := sessionFileMtime
  load := sessionFileLoad ssl
  save := sessionFileSave ssl
  remove := sessionFileRemove
  entry_save now fs name vars hne _ := by
    simp only [sessionFileSave, if_neg hne, Function.update_self, Option.map_some,
      Option.some.injEq]
    exact sessionText_whole
  entry_remove fs name := by simp [sessionFileRemove]
  room_load _ _ _ _ _ _ := trivial

/-! ## Memory -/

def UnlimitedStore := { so : SessionOpt // ∃ xs, Unlimited so xs }

/-- The atom for a session; its data is what `session_prv_save_to_buf` writes by
`sessionPrvSaveToBuf_truncates`. -/
def sessionAtom (ssl : Option KeyCipher) (now : ℤ) (name : Str) (vars : List Var) : Atom :=
  ⟨name, (sessionText ssl vars).take (sessionMaxsize ssl vars), now.toNat⟩

def atomData (so : SessionOpt) (name : Str) : Option Str :=
  (atomsGet so.atoms name).map fun p => (so.atoms.cell p).data

theorem Saved.atomData {so so' : SessionOpt} {xs : List ℕ} {old : Option ℕ} {a : Atom} {p : ℕ}
    (h : Saved so so' xs old a p) : atomData so' a.id = some a.data := by
  rw [Session.atomData, h.get, Option.map_some, h.cell_new]

theorem Keeps.atomData_remove {so : SessionOpt} {xs : List ℕ} (h : Keeps so xs) (name : Str) :
    atomData (soAtomRemove so name) name = none := by
  have hk := h.remove name
  have hcell := (soAtomRemove_fields so name).2.2
  cases hg : atomsGet (soAtomRemove so name).atoms name with
  | none => rw [atomData, hg, Option.map_none]
  | some p =>
    obtain ⟨hp, hid⟩ := hk.linked.get_some hg
    rw [hcell] at hid
    exact absurd hid ((h.oldIs name).fresh_id h.linked.nodup p hp)

def sessionMemLoad (ssl : Option KeyCipher) (s : UnlimitedStore) (name : Str) :
    UnlimitedStore × Option Int32 × List Var :=
  match atomsGet s.1.atoms name with
  | none => (s, none, [])
  | some p =>
    (s, some (Int32.ofNat (s.1.atoms.cell p).arg),
      (sessionPrvLoadFromIo ssl [] ⟨(s.1.atoms.cell p).data, false, 0⟩).vars)

def sessionMemSave (ssl : Option KeyCipher) (now : ℤ) (s : UnlimitedStore) (name : Str)
    (vars : List Var) : UnlimitedStore :=
  ⟨(soAtomAdd .parent s.1 (sessionAtom ssl now name vars) true).so, by
    obtain ⟨xs, h⟩ := s.2
    rcases h.add .parent (sessionAtom ssl now name vars) true with ⟨-, he, -⟩ | ⟨p, -, hs⟩
    · rw [he]
      exact s.2
    · exact ⟨_, hs.keeps, hs.maxCount.trans h.maxCount, hs.memLimit.trans h.memLimit⟩⟩

def sessionMemRemove (s : UnlimitedStore) (name : Str) : UnlimitedStore :=
  ⟨soAtomRemove s.1 name, by
    obtain ⟨xs, h⟩ := s.2
    have hf := soAtomRemove_fields s.1 name
    exact ⟨_, h.toKeeps.remove name, hf.1.trans h.maxCount, hf.2.1.trans h.memLimit⟩⟩

theorem sessionMemSave_data {ssl : Option KeyCipher} (now : ℤ) (s : UnlimitedStore) {name : Str}
    {vars : List Var}
    (hroom : s.1.atoms.heap + (sessionAtom ssl now name vars).footprint < sizeMod) :
    atomData (sessionMemSave ssl now s name vars).1 name =
    some ((sessionText ssl vars).take (sessionMaxsize ssl vars)) := by
  obtain ⟨xs, h⟩ := s.2
  rcases h.add .parent (sessionAtom ssl now name vars) true with ⟨-, -, hfull⟩ | ⟨p, -, hs⟩
  · simp [atomCreate, hroom] at hfull
  · exact hs.atomData

/-- The estimate has room for all lines of variables that can be saved. -/
theorem take_sessionText {ssl : Option KeyCipher} {vars : List Var} :
    (sessionText ssl vars).take (sessionMaxsize ssl vars) = varLines ssl vars ↔
      (vars.all (savable ssl) && decide ((varLines ssl vars).length ≤ sessionMaxsize ssl vars)) =
        true := by
  have hle := sessionText_length_le ssl vars
  rw [Bool.and_eq_true, ← sessionText_whole, decide_eq_true_eq]
  constructor
  · intro h
    have hlen := congrArg List.length h
    rw [List.length_take] at hlen
    refine ⟨?_, by omega⟩
    rwa [List.take_of_length_le (by omega)] at h
  · rintro ⟨h, hsize⟩
    rw [h, List.take_of_length_le hsize]

def memDriver (ssl : Option KeyCipher) : Driver where
  Store := UnlimitedStore
  ssl := ssl
  entry s name := atomData s.1 name
  whole vars := vars.all (savable ssl) && decide
    ((varLines ssl vars).length ≤ sessionMaxsize ssl vars)
  room s name vars := s.1.atoms.heap + (sessionAtom ssl 0 name vars).footprint < sizeMod
  mtime now _ _ := Int32.ofInt now
  load _ := sessionMemLoad ssl
  save := sessionMemSave ssl
  remove := sessionMemRemove
  entry_save now s name vars _ hroom := by
    rw [sessionMemSave_data now s hroom, Option.some.injEq]
    exact take_sessionText
  entry_remove s name := by
    obtain ⟨xs, h⟩ := s.2
    exact h.toKeeps.atomData_remove name
  room_load now s name name' vars h := by
    unfold sessionMemLoad
    split
    · exact h
    · exact h

end Klone.Session
