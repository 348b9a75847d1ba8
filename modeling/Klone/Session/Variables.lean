import Klone.Lib.Keyed
import Klone.Lib.Loop
import Klone.Session.Drivers

/-! # The variables of a session

A page keeps texts under names in its session, and a name may be spelled in upper or
lower case. The functions are given with what they return; a variable that has been
found is its position in the list, which stands for the pointer to it.
-/
namespace Klone.Session
open Loop

variable {d : Driver}

def varsGeti (name : Str) : List Var → ℕ → Option ℕ
  | [], _ => none
  | v :: vs, i =>
    if strcasecmpEq v.name name then
      if i = 0 then some 0 else (varsGeti name vs (i - 1)).map (· + 1)
    else (varsGeti name vs i).map (· + 1)

def varGetValue (v : Var) : Option Str := if v.value = [] then none else some (cstr v.value)

def varSetValue (value : Str) (v : Var) : Var := { v with value := value ++ [0] }

def sessionGet (ss : Ses d) (name : Str) : Option Str :=
  (varsGeti name ss.vars 0).bind fun t => ss.vars[t]?.bind varGetValue

/-- `session_set`: whether it returns 0, and the session. -/
def sessionSetRc (ss : Ses d) (name value : Str) : Bool × Ses d :=
  if name = [] then (false, ss)
  else match varsGeti name ss.vars 0 with
    | none => (true, { ss with vars := ss.vars ++ [varCreate name value] })
    | some t => (true, { ss with vars := ss.vars.modify t (varSetValue value) })

def sessionDelRc (ss : Ses d) (name : Str) : Bool × Ses d :=
  match varsGeti name ss.vars 0 with
  | none => (false, ss)
  | some t => (true, { ss with vars := ss.vars.eraseIdx t })

def cleanBody (ss : Ses d) : Option (Iter (Ses d) (Ses d)) :=
  match ss.vars[0]? with
  | none => some (.leave ss)
  | some _ => some (.again { ss with vars := ss.vars.eraseIdx 0 })

def sessionCleanRc (n : ℕ) (ss : Ses d) : Option (Bool × Ses d) :=
  (run cleanBody n ss).map fun ss => (true, ss)

def pageCall (n : ℕ) (ss : Ses d) : PageOp → Option (Bool × Ses d)
  | .set name value => some (sessionSetRc ss name value)
  | .del name => some (sessionDelRc ss name)
  | .clean => sessionCleanRc n ss

def PageOp.NoNul : PageOp → Prop
  | .set name value => (0 : Byte) ∉ name ∧ (0 : Byte) ∉ value
  | .del name => (0 : Byte) ∉ name
  | .clean => True

instance : DecidablePred PageOp.NoNul
  | .set name value => inferInstanceAs (Decidable ((0 : Byte) ∉ name ∧ (0 : Byte) ∉ value))
  | .del name => inferInstanceAs (Decidable ((0 : Byte) ∉ name))
  | .clean => inferInstanceAs (Decidable True)

def pageCalls (n : ℕ) : List PageOp → Ses d → Option (Ses d)
  | [], ss => some ss
  | op :: ops, ss => (pageCall n ss op).bind fun r => pageCalls n ops r.2

/-! ## Positions -/

theorem varsGeti_zero (name : Str) (vs : List Var) :
    varsGeti name vs 0 = vs.findIdx? fun v => strcasecmpEq v.name name := by
  induction vs with
  | nil => rfl
  | cons v vs ih =>
    rw [varsGeti, List.findIdx?_cons, if_pos rfl, ih]

theorem varsGeti_eq_none {name : Str} {vs : List Var} :
    varsGeti name vs 0 = none ↔ ∀ v ∈ vs, strcasecmpEq v.name name = false := by
  rw [varsGeti_zero, List.findIdx?_eq_none_iff]

/-- The variable at the position is the one that `vars_get` returns. -/
theorem varsGeti_varsGet (name : Str) (vs : List Var) :
    ((varsGeti name vs 0).bind fun t => vs[t]?) = varsGet vs name := by
  induction vs with
  | nil => rfl
  | cons v vs ih =>
    unfold varsGet at ih ⊢
    by_cases hv : strcasecmpEq v.name name = true
    · simp [varsGeti, hv]
    · simp [varsGeti, hv, ← ih, Option.bind_map]

theorem modify_varsGeti {name : Str} {vs : List Var} {t : ℕ} (h : varsGeti name vs 0 = some t)
    (value : Str) :
    vs.modify t (varSetValue value) = varsSetValue name value vs := by
  induction vs generalizing t with
  | nil => cases h
  | cons v vs ih =>
    by_cases hv : strcasecmpEq v.name name = true
    · rw [varsGeti, if_pos hv, if_pos rfl, Option.some.injEq] at h
      subst h
      rw [varsSetValue, if_pos hv]
      rfl
    · rw [varsGeti, if_neg hv, Option.map_eq_some_iff] at h
      obtain ⟨s, hs, rfl⟩ := h
      rw [varsSetValue, if_neg hv, List.modify_succ_cons, ih hs]

theorem eraseIdx_varsGeti {name : Str} {vs : List Var} {t : ℕ} (h : varsGeti name vs 0 = some t) :
    vs.eraseIdx t = varsDel vs name := by
  rw [varsGeti_zero] at h
  rw [varsDel, List.eraseP_eq_eraseIdx, h]

/-! ## What the functions come to -/

theorem sessionGet_eq (ss : Ses d) (name : Str) :
    sessionGet ss name = (varsGet ss.vars name).bind varGetValue := by
  rw [← varsGeti_varsGet, Option.bind_assoc]
  rfl

theorem varsGet_none_iff {ss : Ses d} {name : Str} :
    varsGeti name ss.vars 0 = none ↔ varsGet ss.vars name = none := by
  rw [varsGeti_eq_none, varsGet, List.find?_eq_none]
  simp

theorem sessionSetRc_eq (ss : Ses d) (name value : Str) :
    sessionSetRc ss name value = (decide (name ≠ []), sessionSet ss name value) := by
  unfold sessionSetRc sessionSet
  by_cases hname : name = []
  · simp [hname]
  · rw [if_neg hname, if_neg hname]
    cases ht : varsGeti name ss.vars 0 with
    | none => simp [varsGet_none_iff.mp ht, hname]
    | some t =>
      obtain ⟨v, hv⟩ : ∃ v, varsGet ss.vars name = some v := by
        rw [← Option.ne_none_iff_exists', ← varsGet_none_iff.ne, ht]
        simp
      simp [hv, hname, modify_varsGeti ht]

theorem sessionDelRc_eq (ss : Ses d) (name : Str) :
    sessionDelRc ss name = (ss.vars.any fun v => strcasecmpEq v.name name, sessionDel ss name) := by
  unfold sessionDelRc sessionDel
  cases ht : varsGeti name ss.vars 0 with
  | none =>
    have habsent := varsGeti_eq_none.mp ht
    have hsame : varsDel ss.vars name = ss.vars :=
      List.eraseP_of_forall_not (by simpa using habsent)
    have hany : (ss.vars.any fun v => strcasecmpEq v.name name) = false := by simpa using habsent
    rw [hsame, hany]
  | some t =>
    have hany : (ss.vars.any fun v => strcasecmpEq v.name name) = true := by
      apply Bool.eq_true_of_not_eq_false
      intro hno
      have hnone : varsGeti name ss.vars 0 = none := varsGeti_eq_none.mpr (by simpa using hno)
      rw [ht] at hnone
      cases hnone
    simp only [eraseIdx_varsGeti ht, hany]

/-- The loop removes one variable a round. -/
theorem sessionCleanRc_ends (ss : Ses d) :
    Ends (fun n => sessionCleanRc n ss) (true, sessionClean ss) := by
  suffices h : ∀ (vs : List Var) (ss : Ses d), ss.vars = vs →
    Ends (fun n => run cleanBody n ss) (sessionClean ss) from
    (h ss.vars ss rfl).map fun ss => (true, ss)
  intro vs
  induction vs with
  | nil =>
    intro ss hvars
    have hclean : sessionClean ss = ss := by rw [sessionClean, ← hvars]
    rw [hclean]
    exact ends_leave (by simp [cleanBody, hvars])
  | cons v vs ih =>
    intro ss hvars
    have hround : cleanBody ss = some (.again { ss with vars := vs }) := by simp [cleanBody, hvars]
    exact (ih { ss with vars := vs } rfl).run_again hround

theorem pageCall_ends (ss : Ses d) (op : PageOp) :
    ∃ ok, Ends (fun n => pageCall n ss op) (ok, pageStep ss op) := by
  cases op with
  | set name value =>
    simp only [pageCall, sessionSetRc_eq]
    exact ⟨_, Ends.const _⟩
  | del name =>
    simp only [pageCall, sessionDelRc_eq]
    exact ⟨_, Ends.const _⟩
  | clean => exact ⟨true, sessionCleanRc_ends ss⟩

theorem pageCalls_ends (ss : Ses d) (ops : List PageOp) :
    Ends (fun n => pageCalls n ops ss) (pageRun ss ops) := by
  induction ops generalizing ss with
  | nil => exact Ends.const ss
  | cons op ops ih =>
    obtain ⟨ok, hcall⟩ := pageCall_ends ss op
    exact hcall.bind (ih (pageStep ss op))

/-! ## The map -/

def varKey (v : Var) : Str := v.name.map tolower

theorem strcasecmpEq_key (v : Var) (name : Str) :
    strcasecmpEq v.name name = decide (varKey v = name.map tolower) := by
  rw [strcasecmpEq, varKey, beq_eq_decide]

def contents (vars : List Var) (k : Str) : Option Str :=
  (Keyed.lookup varKey k vars).bind varGetValue

theorem varsGet_lookup (vars : List Var) (name : Str) :
    varsGet vars name = Keyed.lookup varKey (name.map tolower) vars := by
  unfold varsGet Keyed.lookup
  simp only [strcasecmpEq_key]

theorem sessionGet_contents (ss : Ses d) (name : Str) :
    sessionGet ss name = contents ss.vars (name.map tolower) := by
  rw [sessionGet_eq, varsGet_lookup, contents]

theorem varsSetValue_adjust (name value : Str) (vars : List Var) :
    varsSetValue name value vars =
    Keyed.adjust varKey (name.map tolower) (varSetValue value) vars := by
  induction vars with
  | nil => rfl
  | cons v vs ih =>
    simp only [varsSetValue, Keyed.adjust, strcasecmpEq_key, decide_eq_true_eq, ih]
    rfl

theorem varsDel_erase (vars : List Var) (name : Str) :
    varsDel vars name = vars.eraseP fun v => varKey v = name.map tolower := by
  unfold varsDel
  simp only [strcasecmpEq_key]

theorem varKey_varCreate {name : Str} (h : (0 : Byte) ∉ name) (value : Str) :
    varKey (varCreate name value) = name.map tolower := by
  rw [varCreate, varBinCreate, cstr_of_not_mem h, varKey]

theorem varKey_varSetValue (value : Str) (v : Var) : varKey (varSetValue value v) = varKey v := rfl

/-- A value that has been set is read up to its NUL. -/
theorem varGetValue_set {value : Str} (h : (0 : Byte) ∉ value) (name : Str) :
    varGetValue ⟨name, value ++ [0]⟩ = some value := by
  have hcstr : cstr (value ++ [0]) = value := by
    rw [cstr, List.takeWhile_append_of_pos (all_ne_iff.mpr h)]
    simp
  rw [varGetValue, if_neg (by simp), hcstr]

/-- One step keeps the names distinct. -/
theorem pageStep_unique {ss : Ses d} (h : Keyed.Unique varKey ss.vars) {op : PageOp}
    (hop : op.NoNul) :
    Keyed.Unique varKey (pageStep ss op).vars := by
  cases op with
  | set name value =>
    change Keyed.Unique varKey (sessionSet ss name value).vars
    unfold sessionSet
    split
    · exact h
    · cases hget : varsGet ss.vars name with
      | none =>
        rw [varsGet_lookup, Keyed.lookup_eq_none, ← varKey_varCreate hop.1 value] at hget
        exact h.concat hget
      | some v =>
        simp only [varsSetValue_adjust]
        exact h.adjust (varKey_varSetValue value)
  | del name =>
    change Keyed.Unique varKey (varsDel ss.vars name)
    rw [varsDel_erase]
    exact h.sublist List.eraseP_sublist
  | clean => exact List.nodup_nil

theorem pageRun_unique {ss : Ses d} (h : Keyed.Unique varKey ss.vars) {ops : List PageOp}
    (hops : ∀ op ∈ ops, op.NoNul) :
    Keyed.Unique varKey (pageRun ss ops).vars := by
  induction ops generalizing ss with
  | nil => exact h
  | cons op ops ih =>
    obtain ⟨hop, hops⟩ := List.forall_mem_cons.mp hops
    exact ih (pageStep_unique h hop) hops

theorem contents_set (ss : Ses d) {name value : Str} (hne : name ≠ []) (hname : (0 : Byte) ∉ name)
    (hvalue : (0 : Byte) ∉ value) :
    contents (sessionSet ss name value).vars = Function.update (contents ss.vars) (name.map tolower)
    (some value) := by
  funext k
  unfold sessionSet contents
  rw [if_neg hne, Function.update_apply]
  cases hget : varsGet ss.vars name with
  | none =>
    rw [varsGet_lookup] at hget
    simp only [Keyed.lookup_append, Keyed.lookup_singleton, varKey_varCreate hname]
    by_cases hk : name.map tolower = k
    · subst hk
      rw [hget, if_pos rfl, if_pos rfl]
      exact varGetValue_set hvalue name
    · rw [if_neg hk, if_neg (Ne.symm hk), Option.or_none]
  | some v =>
    rw [varsGet_lookup] at hget
    simp only [varsSetValue_adjust, Keyed.lookup_adjust (varKey_varSetValue value)]
    by_cases hk : name.map tolower = k
    · rw [if_pos hk, if_pos hk.symm, hget]
      exact varGetValue_set hvalue v.name
    · rw [if_neg hk, if_neg (Ne.symm hk)]

theorem contents_del {ss : Ses d} (h : Keyed.Unique varKey ss.vars) (name : Str) :
    contents (sessionDel ss name).vars =
    Function.update (contents ss.vars) (name.map tolower) none := by
  funext k
  unfold sessionDel contents
  rw [varsDel_erase, Keyed.lookup_eraseP h, Function.update_apply]
  by_cases hk : name.map tolower = k
  · rw [if_pos hk, if_pos hk.symm]
    rfl
  · rw [if_neg hk, if_neg (Ne.symm hk)]

structure FiniteMap (ss : Ses d) : Prop where
  distinct : ss.vars.Pairwise fun v w => strcasecmpEq v.name w.name = false
  set : ∀ name value ss', (0 : Byte) ∉ name → (0 : Byte) ∉ value →
    sessionSetRc ss name value = (true, ss') →
    ∀ other, sessionGet ss' other = if strcasecmpEq other name then some value
      else sessionGet ss other
  set_fails : ∀ name value, (sessionSetRc ss name value).1 = false ↔ name = []
  del : ∀ name other, sessionGet (sessionDelRc ss name).2 other = if strcasecmpEq other name then
    none else sessionGet ss other
  del_fails : ∀ name, (sessionDelRc ss name).1 = false ↔
    ∀ v ∈ ss.vars, strcasecmpEq v.name name = false
  clean : Ends (fun n => sessionCleanRc n ss) (true, { ss with vars := [] })

theorem finiteMap_of_unique {ss : Ses d} (h : Keyed.Unique varKey ss.vars) : FiniteMap ss where
  distinct := by
    apply (List.pairwise_map.mp h).imp
    intro v w hne
    rw [strcasecmpEq_key]
    exact decide_eq_false hne
  set := by
    intro name value ss' hname hvalue hset other
    rw [sessionSetRc_eq, Prod.mk.injEq, decide_eq_true_eq] at hset
    obtain ⟨hne, rfl⟩ := hset
    simp only [sessionGet_contents, contents_set ss hne hname hvalue, Function.update_apply,
      strcasecmpEq, beq_iff_eq]
  set_fails := by
    intro name value
    rw [sessionSetRc_eq]
    simp
  del := by
    intro name other
    rw [sessionDelRc_eq]
    simp only [sessionGet_contents, contents_del h, Function.update_apply, strcasecmpEq, beq_iff_eq]
  del_fails := by
    intro name
    rw [sessionDelRc_eq]
    simp
  clean := sessionCleanRc_ends ss

/-- Every sequence of calls on an empty session ends, and the variables are a finite map
then. -/
theorem session_vars_finite_map (ss : Ses d) (h : ss.vars = []) (ops : List PageOp)
    (hops : ∀ op ∈ ops, op.NoNul) :
    ∃ ss', Ends (fun n => pageCalls n ops ss) ss' ∧ FiniteMap ss' := by
  have hempty : Keyed.Unique varKey ss.vars := by
    rw [h]
    exact List.nodup_nil
  exact ⟨pageRun ss ops, pageCalls_ends ss ops, finiteMap_of_unique (pageRun_unique hempty hops)⟩

theorem session_vars_finite_map_fresh :
    let ss : Ses (fileDriver none) := ⟨fun _ => none, [], [], 0, false⟩
    let ops := [.set (bytes "Cart") (bytes "1"), .set (bytes "cart") [], .del (bytes "user"),
      .clean, .set (bytes "a") (bytes "b")]
    ∃ ss', Ends (fun n => pageCalls n ops ss) ss' ∧ FiniteMap ss' :=
  session_vars_finite_map _ rfl _ (by decide)

end Klone.Session
