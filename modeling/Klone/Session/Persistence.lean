import Klone.Session.Drivers

/-! # What is left of a session

A page that opens a session, changes its variables and frees it should leave them in the
store. A session that had expired is removed when it is opened, and from then on counts
as removed: what the page sets in it is never saved.
-/
namespace Klone.Session

variable {d : Driver}

/-- The store has exactly the variables of the session under its name. -/
def Persists (o : Opening) (ss : Ses d) : Prop :=
  if ss.vars = [] then ss.id = [] ∨ d.entry ss.store (o.fileName ss.id) = none
  else ss.id ≠ [] ∧ d.entry ss.store (o.fileName ss.id) = some (varLines d.ssl ss.vars)

def Expired (d : Driver) (o : Opening) (s : d.Store) : Prop :=
  (sessionInit d o s).id ≠ [] ∧ o.maxAge < sessionAge o.checked (sessionLoad o (sessionInit d o s))

def pageSession (d : Driver) (o : Opening) (s : d.Store) (ops : List PageOp) : Ses d :=
  pageRun (sessionCreate d o s) ops

/-- The id under which a session with variables is saved. -/
def savedId (o : Opening) (id : Str) : Str := if id = [] then sessionPrvSetId o none else id

theorem goodId_ne_nil {sid : Str} (h : sessionIsGoodId sid = true) : sid ≠ [] := by
  rintro rfl
  cases h

theorem savedId_ne_nil (o : Opening) (id : Str) : savedId o id ≠ [] := by
  unfold savedId
  split
  · exact goodId_ne_nil o.newIdGood
  · assumption

/-- A session that has expired is removed and empty; any other is loaded, or new. -/
theorem sessionCreate_cases (o : Opening) (s : d.Store) :
    (Expired d o s ∧ sessionCreate d o s =
      sessionRemove o (sessionClean (sessionLoad o (sessionInit d o s)))) ∨
      (¬ Expired d o s ∧ (sessionCreate d o s).removed = false ∧
        (sessionCreate d o s).id = (sessionInit d o s).id ∧
        ∀ name vars, d.room s name vars → d.room (sessionCreate d o s).store name vars) := by
  have hinit : (sessionInit d o s).removed = false ∧ (sessionInit d o s).store = s := by
    unfold sessionInit
    split
    · exact ⟨rfl, rfl⟩
    · exact ⟨rfl, rfl⟩
  unfold sessionCreate Expired
  dsimp only
  by_cases hid : (sessionInit d o s).id = []
  · right
    rw [if_pos hid, hinit.2]
    exact ⟨fun h => h.1 hid, hinit.1, rfl, fun _ _ h => h⟩
  · rw [if_neg hid]
    by_cases hage : o.maxAge < sessionAge o.checked (sessionLoad o (sessionInit d o s))
    · left
      exact ⟨⟨hid, hage⟩, if_pos hage⟩
    · right
      rw [if_neg hage]
      refine ⟨fun h => hage h.2, hinit.1, rfl, ?_⟩
      intro name vars hroom
      apply d.room_load
      rwa [hinit.2]

/-- After a removal, a session persists when it has no variables. -/
theorem persists_removed {o : Opening} {ss : Ses d}
    (hentry : d.entry ss.store (o.fileName ss.id) = none) :
    Persists o ss ↔ ss.vars = [] := by
  unfold Persists
  split
  next h => simp [hentry, h]
  next h => simp [hentry, h]

theorem persists_saved {o : Opening} {ss : Ses d}
    (hroom : d.room ss.store (o.fileName (savedId o ss.id)) ss.vars) :
    Persists o (sessionSave o ss) ↔ ss.vars = [] ∨ d.whole ss.vars = true := by
  by_cases hvars : ss.vars = []
  · by_cases hid : ss.id = []
    · have hsave : sessionSave o ss = ss := by rw [sessionSave, if_pos hvars, if_pos hid]
      rw [hsave, Persists, if_pos hvars]
      simp [hid, hvars]
    · have hsave : sessionSave o ss = sessionRemove o ss := by
        rw [sessionSave, if_pos hvars, if_neg hid]
      rw [hsave, persists_removed (d.entry_remove _ _)]
      simp [sessionRemove, hvars]
  · have hsave : sessionSave o ss =
        { ss with
          id := savedId o ss.id
          store := d.save o.saved ss.store (o.fileName (savedId o ss.id)) ss.vars } := by
      rw [sessionSave, if_neg hvars]
      rfl
    rw [hsave, Persists]
    simp only [if_neg hvars]
    rw [d.entry_save _ _ _ _ hvars hroom]
    simp [savedId_ne_nil, hvars]

/-- The final variables are in the store exactly when there are none, or the session had
not expired when it was opened and the driver can write them. -/
theorem session_persists_iff (d : Driver) (o : Opening) (s : d.Store) (ops : List PageOp)
    (hroom : d.room s (o.fileName (savedId o (sessionInit d o s).id))
      (pageSession d o s ops).vars) :
    Persists o (sessionFree o (pageSession d o s ops)) ↔
      (pageSession d o s ops).vars = [] ∨
      (¬ Expired d o s ∧ d.whole (pageSession d o s ops).vars = true) := by
  have hframe := pageRun_frame (sessionCreate d o s) ops
  have hpage : pageRun (sessionCreate d o s) ops = pageSession d o s ops := rfl
  rw [hpage] at hframe
  rcases sessionCreate_cases o s with ⟨hexp, hcreate⟩ | ⟨hfresh, hremoved, hid, hkeep⟩
  · have hremoved : (pageSession d o s ops).removed = true := by
      rw [hframe.removed, hcreate]
      rfl
    have hentry : d.entry (pageSession d o s ops).store
        (o.fileName (pageSession d o s ops).id) = none := by
      rw [hframe.store, hframe.id, hcreate]
      exact d.entry_remove _ _
    rw [sessionFree, if_pos hremoved, persists_removed hentry]
    simp [hexp]
  · have hkept : (pageSession d o s ops).removed = false := by rw [hframe.removed, hremoved]
    have hroom' : d.room (pageSession d o s ops).store
      (o.fileName (savedId o (pageSession d o s ops).id))
        (pageSession d o s ops).vars := by
      rw [hframe.store, hframe.id, hid]
      exact hkeep _ _ hroom
    rw [sessionFree, hkept, if_neg Bool.false_ne_true, persists_saved hroom']
    simp [hfresh]

def sampleOpening (maxAge : Int32) : Opening where
  sid := some (bytes "0123456789abcdef0123456789abcdef")
  newId := bytes "00000000000000000000000000000000"
  newIdGood := by decide
  fileName id := bytes "/tmp/klone_sess_" ++ id
  maxAge := maxAge
  opened := 1300003600
  checked := 1300003600
  saved := 1300003601

def sampleFiles : Files := fun name =>
  if name = bytes "/tmp/klone_sess_0123456789abcdef0123456789abcdef" then
    some (1300000000, bytes "a=1\n") else none

theorem session_persists_fresh :
    Persists (sampleOpening 7200) (sessionFree (sampleOpening 7200)
      (pageSession (fileDriver none) (sampleOpening 7200) sampleFiles [.set (bytes "b") (bytes "2"),
        .del (bytes "a")])) := by
  refine (session_persists_iff (fileDriver none) _ _ _ trivial).mpr (Or.inr ⟨?_, ?_⟩)
  · rintro ⟨-, hage⟩
    revert hage
    decide +kernel
  · decide +kernel

/-- What a page sets in a session that had expired is lost. -/
theorem session_not_persistent :
    ¬ Persists (sampleOpening 1200) (sessionFree (sampleOpening 1200)
      (pageSession (fileDriver none) (sampleOpening 1200) sampleFiles
        [.set (bytes "b") (bytes "2")])) := by
  intro h
  unfold Persists at h
  revert h
  decide +kernel

end Klone.Session
