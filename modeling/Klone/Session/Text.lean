import Klone.Io.Output
import Klone.Request.Header
import Klone.Request.Vars

/-! # The text of a session

A session is stored as lines `name=value`, both escaped. In a server with SSL the
variable that keeps the user's decryption key is stored encrypted under a key of the
server. The options for compression and for encryption of the whole text are off.
-/
namespace Klone.Session
open Chain Loop

def SESSION_KEY_VAR : Str := bytes "KLONE_CIPHER_KEY"
def SESSION_ID_LENGTH : ℕ := 32

def sessionIsGoodId (sid : Str) : Bool := sid.length = SESSION_ID_LENGTH && sid.all Http.isxdigit

/-- The cipher of a server with SSL, with its secret key and initialisation vector. -/
structure KeyCipher where
  keyLen : ℕ
  encrypt : List Byte → Option (List Byte)
  decrypt : List Byte → Option (List Byte)

/-- The value of the key variable is replaced by its encryption. -/
def protectKey (ssl : Option KeyCipher) (v : Var) : Option Var :=
  match ssl with
  | none => some v
  | some c =>
    if v.name = SESSION_KEY_VAR then
      if v.value.length = c.keyLen then (c.encrypt v.value).map fun ekey => { v with
        value := ekey } else none
    else some v

/-- `session_prv_save_var`: the line, if there is one, and the variable afterwards. -/
def sessionPrvSaveVar (ssl : Option KeyCipher) (v : Var) : Option Str × Var :=
  if v.name = [] then (none, v)
  else if v.value = [] then (some (uUrlncpyEncode v.name ++ [61, 10]), v)
  else match protectKey ssl v with
    | none => (none, v)
    | some w =>
      if w.value = [] then (none, w)
      else (some (uUrlncpyEncode v.name ++ 61 :: uUrlncpyEncode w.value ++ [10]), w)

/-- The lines up to the first variable that cannot be saved. -/
def savedLines (ssl : Option KeyCipher) : List Var → List Str
  | [] => []
  | v :: vs =>
    match (sessionPrvSaveVar ssl v).1 with
    | none => []
    | some line => line :: savedLines ssl vs

/-- Lines written one after the other, up to the first error. -/
def writeLines {d : Device} (n : ℕ) : List Str → Io d → Option (Io d)
  | [], io => some io
  | line :: lines, io =>
    (ioWrite n io line).bind fun r => if r.2 = none then some r.1 else writeLines n lines r.1

def sessionPrvSaveToIo {d : Device} (n : ℕ) (ssl : Option KeyCipher) (vars : List Var) (io : Io d) :
    Option (Io d) :=
  writeLines n (savedLines ssl vars) io

/-- The variables after a line has been added: the value of the key variable is
decrypted, or the variable is dropped. -/
def restoreKey (ssl : Option KeyCipher) (vs : List Var) (v : Var) : List Var :=
  match ssl with
  | none => vs ++ [v]
  | some c =>
    if v.name = SESSION_KEY_VAR then
      match c.decrypt v.value with
      | none => varsDel (vs ++ [v]) SESSION_KEY_VAR
      | some key => vs ++ [{ v with value := key }]
    else vs ++ [v]

def loadLine (ssl : Option KeyCipher) (vs : List Var) (line : Str) : Option (List Var) :=
  if line = [] then some vs else (urlVar line).map (restoreKey ssl vs)

structure Loaded where
  ok : Bool
  vars : List Var
  src : Source
  deriving DecidableEq, Repr

/-- The loop of `session_prv_load_from_io`; a line takes at least one byte. -/
def loadLoop (ssl : Option KeyCipher) : ℕ → Source → List Var → Loaded
  | 0, src, vs => ⟨true, vs, src⟩
  | fuel + 1, src, vs =>
    let r := uGetline src
    if r.ok = false then ⟨true, vs, r.src⟩
    else match loadLine ssl vs r.line with
      | none => ⟨false, vs, r.src⟩
      | some vs' => loadLoop ssl fuel r.src vs'

def sessionPrvLoadFromIo (ssl : Option KeyCipher) (vars : List Var) (src : Source) : Loaded :=
  loadLoop ssl (src.bytes.length + 1) src vars

/-! ## Saving -/

def sessionText (ssl : Option KeyCipher) (vars : List Var) : Str := (savedLines ssl vars).flatten

variable {d : Device} {received : d.State → Str}

theorem writeLines_accepted (hd : Accepts d received) (lines : List Str) {io : Io d}
    (h : io.Plain) :
    ∃ io', Ends (fun n => writeLines n lines io) io' ∧ io'.Plain ∧
      io'.sent received = io.sent received ++ lines.flatten := by
  induction lines generalizing io with
  | nil => exact ⟨io, Ends.const _, h, (List.append_nil _).symm⟩
  | cons line lines ih =>
    obtain ⟨io₁, hends, hk⟩ := ioWrite_accepted hd h line
    obtain ⟨io', hends', hp, hsent⟩ := ih hk.plain
    refine ⟨io', hends.bind hends', hp, ?_⟩
    rw [hsent, hk.sent, List.flatten_cons, List.append_assoc]

/-- A stream that takes all it is offered gets the whole text. -/
theorem sessionPrvSaveToIo_sends (hd : Accepts d received) (ssl : Option KeyCipher)
    (vars : List Var) {io : Io d} (h : io.Plain) :
    ∃ io', Ends (fun n => sessionPrvSaveToIo n ssl vars io) io' ∧ io'.Plain ∧
      io'.sent received = io.sent received ++ sessionText ssl vars :=
  writeLines_accepted hd _ h

/-! ## Reading long lines -/

/-- What `u_getline` makes of a line: the last byte of each full piece is lost. -/
def squeeze (line : Str) : Str :=
  if line.length ≤ 1022 then line else line.take 1022 ++ squeeze (line.drop 1023)
termination_by line.length
decreasing_by
  rw [List.length_drop]
  omega

theorem squeeze_short {line : Str} (h : line.length ≤ 1022) : squeeze line = line := by
  rw [squeeze, if_pos h]

theorem squeeze_long {line : Str} (h : 1023 ≤ line.length) :
    squeeze line = line.take 1022 ++ squeeze (line.drop 1023) := by
  rw [squeeze, if_neg (by omega)]

/-- A piece of a long line. -/
theorem ioGets_long {line : Str} (h : (10 : Byte) ∉ line) (hlen : 1023 ≤ line.length) (rest : Str)
    (fails : Bool) (rtot : ℕ) : Klone.ioGets ⟨line ++ 10 :: rest, fails, rtot⟩ 1024 =
      ⟨some 1023, line.take 1023, ⟨line.drop 1023 ++ 10 :: rest, fails, rtot + 1023⟩⟩ := by
  have hnone : line.findIdx? (· == 10) = none := by
    rw [List.findIdx?_eq_none_iff]
    intro c hc
    simp only [beq_eq_false_iff_ne]
    rintro rfl
    exact h hc
  have hcut : takeThrough 10 1023 (line ++ 10 :: rest) = line.take 1023 :=
    takeThrough_cut hnone _ hlen
  have htake : (line.take 1023).length = 1023 := by
    rw [List.length_take]
    omega
  have hshort : ¬ 1023 = (line ++ 10 :: rest).length := by
    rw [List.length_append, List.length_cons]
    omega
  rw [Klone.ioGets, Klone.ioGetUntil, if_neg (by decide)]
  simp only [Nat.add_one_sub_one, hcut, htake, hshort, false_and, if_false, Source.skip,
    List.drop_append_of_le_length hlen]

theorem getlineLoop_squeeze {line : Str} (h₁₀ : (10 : Byte) ∉ line) (h₁₃ : (13 : Byte) ∉ line)
    (rest : Str) (fails : Bool) (rtot : ℕ) {fuel : ℕ} (hfuel : line.length < fuel) (ln : Str) :
    getlineLoop fuel ⟨line ++ 10 :: rest, fails, rtot⟩ ln =
      ⟨true, ln ++ squeeze line, ⟨rest, fails, rtot + (line.length + 1)⟩⟩ := by
  induction fuel generalizing line rtot ln with
  | zero => omega
  | succ fuel ih =>
    by_cases hlen : line.length ≤ 1022
    · have hnl : isnl ((line ++ [10]).getD line.length 0) = true := by
        simp [List.getD_eq_getElem?_getD, isnl]
      rw [getlineLoop, ioGets_line h₁₀ rest fails rtot (by omega), squeeze_short hlen]
      simp only [hnl, if_true, List.take_left]
    · have hlen : 1023 ≤ line.length := by omega
      have hmem : (line.take 1023).getD 1022 0 ∈ line := by
        apply List.mem_of_mem_take (i := 1023)
        rw [List.getD_eq_getElem _ _ (by rw [List.length_take]; omega)]
        exact List.getElem_mem _
      have hnl : isnl ((line.take 1023).getD 1022 0) = false := by
        unfold isnl
        simp only [Bool.or_eq_false_iff, beq_eq_false_iff_ne]
        constructor
        · intro he
          exact h₁₀ (he ▸ hmem)
        · intro he
          exact h₁₃ (he ▸ hmem)
      have hdrop : (line.drop 1023).length = line.length - 1023 := List.length_drop
      have htot : rtot + 1023 + (line.length - 1023 + 1) = rtot + (line.length + 1) := by omega
      rw [getlineLoop, ioGets_long h₁₀ hlen rest fails rtot]
      simp only [hnl, Bool.false_eq_true, if_false, List.take_take]
      rw [ih (fun hm => h₁₀ (List.mem_of_mem_drop hm)) (fun hm => h₁₃ (List.mem_of_mem_drop hm))
        _ (by omega),
        squeeze_long hlen, hdrop, htot]
      simp only [Nat.min_eq_left (by decide : 1022 ≤ 1023), List.append_assoc]

theorem uGetline_squeeze {line : Str} (h₁₀ : (10 : Byte) ∉ line) (h₁₃ : (13 : Byte) ∉ line)
    (rest : Str) (fails : Bool) (rtot : ℕ) : uGetline ⟨line ++ 10 :: rest, fails, rtot⟩ =
      ⟨true, squeeze line, ⟨rest, fails, rtot + (line.length + 1)⟩⟩ := by
  rw [uGetline, getlineLoop_squeeze h₁₀ h₁₃ rest fails rtot, List.nil_append]
  simp only [List.length_append]
  omega

theorem uGetline_end (rtot : ℕ) : uGetline ⟨[], false, rtot⟩ = ⟨false, [], ⟨[], false, rtot⟩⟩ := rfl

def loadLines (ssl : Option KeyCipher) : List Str → List Var → Bool × List Var
  | [], vs => (true, vs)
  | line :: lines, vs =>
    match loadLine ssl vs line with
    | none => (false, vs)
    | some vs' => loadLines ssl lines vs'

theorem loadLoop_lines (ssl : Option KeyCipher) {lines : List Str}
    (h : ∀ line ∈ lines, (10 : Byte) ∉ line ∧ (13 : Byte) ∉ line) (rtot : ℕ) {fuel : ℕ}
    (hfuel : lines.length < fuel) (vs : List Var) :
    let r := loadLoop ssl fuel ⟨lines.flatMap (· ++ [10]), false, rtot⟩ vs
    (r.ok, r.vars) = loadLines ssl (lines.map squeeze) vs := by
  induction lines generalizing rtot fuel vs with
  | nil =>
    obtain ⟨k, rfl⟩ : ∃ k, fuel = k + 1 := ⟨fuel - 1, by omega⟩
    rfl
  | cons line lines ih =>
    rw [List.length_cons] at hfuel
    obtain ⟨k, rfl⟩ : ∃ k, fuel = k + 1 := ⟨fuel - 1, by omega⟩
    obtain ⟨h₁₀, h₁₃⟩ := h line List.mem_cons_self
    dsimp only
    rw [List.flatMap_cons, List.append_assoc, List.singleton_append, loadLoop,
      uGetline_squeeze h₁₀ h₁₃,
      List.map_cons, loadLines]
    simp only [Bool.true_eq_false, if_false]
    cases hl : loadLine ssl vs (squeeze line) with
    | none => rfl
    | some vs' => exact ih (fun l hm => h l (List.mem_cons_of_mem _ hm)) _ (by omega) vs'

end Klone.Session
