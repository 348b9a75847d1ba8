import Klone.Session.Size

/-! # The life of a session

A session is opened for a page with `session_create` and saved by `session_free`. It
uses its driver through four functions; what a session relies on is part of a driver.
-/
namespace Klone.Session

def varLine (ssl : Option KeyCipher) (v : Var) : Str :=
  uUrlncpyEncode v.name ++ 61 :: uUrlncpyEncode (writtenValue ssl v) ++ [10]

def varLines (ssl : Option KeyCipher) (vars : List Var) : Str := vars.flatMap (varLine ssl)

/-- A store of texts under names, with the functions of a driver. `whole` says which
variables `save` writes without loss, `room` that the store has the memory for them. -/
structure Driver where
  Store : Type
  ssl : Option KeyCipher
  entry : Store → Str → Option Str
  whole : List Var → Bool
  room : Store → Str → List Var → Prop
  /-- The time of a session that has not been loaded; it may have no name yet. -/
  mtime : ℤ → Store → Option Str → Int32
  /-- The store afterwards, the time if it is set, and the variables. -/
  load : ℤ → Store → Str → Store × Option Int32 × List Var
  save : ℤ → Store → Str → List Var → Store
  remove : Store → Str → Store
  entry_save : ∀ now s name vars, vars ≠ [] → room s name vars →
    (entry (save now s name vars) name = some (varLines ssl vars) ↔ whole vars = true)
  entry_remove : ∀ s name, entry (remove s name) name = none
  room_load : ∀ now s name name' vars, room s name' vars → room (load now s name).1 name' vars

/-- The request, the options and the clock at the calls that read it. `newId` is what
`session_gen_id` comes to, `fileName` the name of a session for the client's address. -/
structure Opening where
  sid : Option Str
  newId : Str
  newIdGood : sessionIsGoodId newId = true
  fileName : Str → Str
  maxAge : Int32
  opened : ℤ
  checked : ℤ
  saved : ℤ

structure Ses (d : Driver) where
  store : d.Store
  id : Str
  vars : List Var
  mtime : Int32
  removed : Bool

variable {d : Driver}

def sessionPrvSetId (o : Opening) (sid : Option Str) : Str :=
  match sid with
  | none => o.newId
  | some sid => if sessionIsGoodId sid then sid else o.newId

def sessionAge (now : ℤ) (ss : Ses d) : Int32 := Int32.ofInt (now - ss.mtime.toInt)

def sessionRemove (o : Opening) (ss : Ses d) : Ses d :=
  { ss with store := d.remove ss.store (o.fileName ss.id), removed := true }

def sessionClean (ss : Ses d) : Ses d := { ss with vars := [] }

/-- The `create` function of a driver: `session_prv_init` and the time. -/
def sessionInit (d : Driver) (o : Opening) (s : d.Store) : Ses d :=
  match o.sid with
  | none => ⟨s, [], [], d.mtime o.opened s none, false⟩
  | some sid =>
    let id := sessionPrvSetId o (some sid)
    ⟨s, id, [], d.mtime o.opened s (some (o.fileName id)), false⟩

def sessionLoad (o : Opening) (ss : Ses d) : Ses d :=
  let r := d.load o.opened ss.store (o.fileName ss.id)
  { ss with store := r.1, mtime := r.2.1.getD ss.mtime, vars := r.2.2 }

def sessionCreate (d : Driver) (o : Opening) (s : d.Store) : Ses d :=
  let ss := sessionInit d o s
  if ss.id = [] then ss
  else
    let ss := sessionLoad o ss
    if o.maxAge < sessionAge o.checked ss then sessionRemove o (sessionClean ss) else ss

def varsSetValue (name value : Str) : List Var → List Var
  | [] => []
  | v :: vs => if strcasecmpEq v.name name then { v with
    value := value ++ [0] } :: vs else v :: varsSetValue name value vs

def sessionSet (ss : Ses d) (name value : Str) : Ses d :=
  if name = [] then ss
  else match varsGet ss.vars name with
    | none => { ss with vars := ss.vars ++ [varCreate name value] }
    | some _ => { ss with vars := varsSetValue name value ss.vars }

def sessionDel (ss : Ses d) (name : Str) : Ses d := { ss with vars := varsDel ss.vars name }

def sessionSave (o : Opening) (ss : Ses d) : Ses d :=
  if ss.vars = [] then if ss.id = [] then ss else sessionRemove o ss
  else
    let id := if ss.id = [] then sessionPrvSetId o none else ss.id
    { ss with id := id, store := d.save o.saved ss.store (o.fileName id) ss.vars }

def sessionFree (o : Opening) (ss : Ses d) : Ses d := if ss.removed then ss else sessionSave o ss

/-! ## Pages -/

/-- What a page does to its session; strings have no NUL. -/
inductive PageOp where
  | set (name value : Str)
  | del (name : Str)
  | clean

def pageStep (ss : Ses d) : PageOp → Ses d
  | .set name value => sessionSet ss name value
  | .del name => sessionDel ss name
  | .clean => sessionClean ss

def pageRun (ss : Ses d) (ops : List PageOp) : Ses d := ops.foldl pageStep ss

structure SameButVars (ss ss' : Ses d) : Prop where
  store : ss'.store = ss.store
  id : ss'.id = ss.id
  mtime : ss'.mtime = ss.mtime
  removed : ss'.removed = ss.removed

theorem SameButVars.refl (ss : Ses d) : SameButVars ss ss := ⟨rfl, rfl, rfl, rfl⟩

theorem SameButVars.trans {ss ss' ss'' : Ses d} (h : SameButVars ss ss')
    (h' : SameButVars ss' ss'') : SameButVars ss ss'' :=
  ⟨h'.store.trans h.store, h'.id.trans h.id, h'.mtime.trans h.mtime, h'.removed.trans h.removed⟩

theorem pageStep_frame (ss : Ses d) (op : PageOp) : SameButVars ss (pageStep ss op) := by
  cases op with
  | set name value =>
    change SameButVars ss (sessionSet ss name value)
    unfold sessionSet
    split
    · exact SameButVars.refl ss
    · split
      · exact ⟨rfl, rfl, rfl, rfl⟩
      · exact ⟨rfl, rfl, rfl, rfl⟩
  | del name => exact ⟨rfl, rfl, rfl, rfl⟩
  | clean => exact ⟨rfl, rfl, rfl, rfl⟩

theorem pageRun_frame (ss : Ses d) (ops : List PageOp) : SameButVars ss (pageRun ss ops) := by
  induction ops generalizing ss with
  | nil => exact SameButVars.refl ss
  | cons op ops ih => exact (pageStep_frame ss op).trans (ih (pageStep ss op))

end Klone.Session
