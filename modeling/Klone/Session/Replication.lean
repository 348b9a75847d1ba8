import Klone.Session.Messages
import Klone.Session.StoreInvariant

/-! # Replication of sessions

Children that save sessions, each with its own copy of the store and a queue of
messages to the parent, and the parent that takes messages from the queues in any
order. The state also records what each child has saved and what the parent has
applied. A child whose copy is full evicts there and makes the parent evict once
more than its own save does; without such a save the parent's store is the replay
of the saves.
-/
namespace Klone.Session
open Ppc

structure Child where
  so : SessionOpt
  queue : List Msg
  writable : Bool

/-- A save the parent has applied: the child, the session, whether memory was there. -/
structure Applied where
  child : ℕ
  atom : Atom
  granted : Bool

structure Sys where
  parent : SessionOpt
  children : ℕ → Option Child
  pending : ℕ → List Atom
  saves : ℕ → List Atom
  log : List Applied

inductive Event where
  | fork (i : ℕ)
  | add (i : ℕ) (c : AddCall)
  | process (i : ℕ) (m : Frame PPC_MAX_DATA_SIZE) (granted : Bool) (junk : ℕ → Byte)

/-- A new child starts with a copy of the parent's memory. -/
def forkChild (s : Sys) (i : ℕ) : Sys :=
  match s.children i with
  | some _ => s
  | none => { s with children := Function.update s.children i (some ⟨s.parent, [], true⟩) }

def addChild (s : Sys) (i : ℕ) (c : AddCall) : Sys :=
  match s.children i with
  | none => s
  | some ch =>
    let r := sessionMemAdd ch.so ch.writable c
    let child : Child := { ch with so := r.so, queue := ch.queue ++ r.sent }
    let saved := if c.sends && ch.writable then [c.atom] else []
    { s with
      children := Function.update s.children i (some child)
      pending := Function.update s.pending i (s.pending i ++ saved)
      saves := Function.update s.saves i (s.saves i ++ saved) }

def processChild (s : Sys) (i : ℕ) (m : Frame PPC_MAX_DATA_SIZE) (granted : Bool)
    (junk : ℕ → Byte) : Sys :=
  match s.children i with
  | none => s
  | some ch =>
    match ch.queue with
    | [] => s
    | msg :: rest =>
      let r := serverProcessPpc s.parent m (send msg).2 granted junk
      let child : Child := { ch with queue := if r.closed then [] else rest, writable := !r.closed }
      let s := { s with parent := r.so, children := Function.update s.children i (some child) }
      if msg.1 = PPC_CMD_MSES_SAVE then
        match s.pending i with
        | [] => s
        | a :: later =>
          { s with
            pending := Function.update s.pending i later
            log := if r.closed then s.log else s.log ++ [⟨i, a, granted⟩] }
      else s

def Sys.step (s : Sys) : Event → Sys
  | .fork i => forkChild s i
  | .add i c => addChild s i c
  | .process i m granted junk => processChild s i m granted junk

def Sys.run (s : Sys) (events : List Event) : Sys := events.foldl Sys.step s

def startSys (maxCount : ℕ) : Sys :=
  ⟨emptyStore maxCount 0, fun _ => none, fun _ => [], fun _ => [], []⟩

def replay (maxCount : ℕ) (log : List Applied) : SessionOpt :=
  log.foldl (fun so e => (soAtomAdd .parent so e.atom e.granted).so) (emptyStore maxCount 0)

/-- The parent's store is what the saves make of it: all the saves of every child
in its order, the last one present, and none evicting more than one other. -/
structure Replicated (maxCount : ℕ) (s : Sys) : Prop where
  saves : ∀ i, (s.log.filter fun e => decide (e.child = i)).map Applied.atom = s.saves i
  store : s.parent = replay maxCount s.log
  last : ∀ e, s.log.getLast? = some e → e.atom ∈ s.parent.atoms.contents
  evicts : ∀ k e, s.log[k]? = some e → ∃ v, ∀ a ∈ (replay maxCount (s.log.take k)).atoms.contents,
    a.id ≠ e.atom.id → a.id ≠ v → a ∈ (replay maxCount (s.log.take (k + 1))).atoms.contents

def HasRoom (so : SessionOpt) (id : Str) : Prop :=
  (so.atoms.count + (sizeMod - if (atomsGet so.atoms id).isSome then 1 else 0)) %
    sizeMod < so.maxCount

instance (so : SessionOpt) (id : Str) : Decidable (HasRoom so id) :=
  inferInstanceAs (Decidable (_ < _))

def SafeEvent (s : Sys) : Event → Prop
  | .fork _ => True
  | .add i c => ∀ ch ∈ s.children i, (c.sends && ch.writable) = true →
      c.filename.length ≤ 255 ∧ sizeofEsm + c.buf.length ≤ PPC_MAX_DATA_SIZE ∧
      HasRoom ch.so c.filename
  | .process i _ granted _ =>
    ∀ a ∈ (s.pending i).head?, granted = true ∧ s.parent.atoms.heap + a.footprint < sizeMod

instance (s : Sys) (e : Event) : Decidable (SafeEvent s e) := by
  cases e <;> unfold SafeEvent <;> infer_instance

def SafeEvents : Sys → List Event → Prop
  | _, [] => True
  | s, e :: rest => SafeEvent s e ∧ SafeEvents (s.step e) rest

instance decidableSafeEvents : (s : Sys) → (events : List Event) → Decidable (SafeEvents s events)
  | _, [] => isTrue trivial
  | s, e :: rest =>
    have := decidableSafeEvents (s.step e) rest
    inferInstanceAs (Decidable (SafeEvent s e ∧ SafeEvents (s.step e) rest))

structure Encodes (msg : Msg) (a : Atom) : Prop where
  cmd : msg.1 = PPC_CMD_MSES_SAVE
  payload : ∃ junk, msg.2 = encodeEsm junk a.arg a.id a.data
  name : a.id.length ≤ 255
  noNul : 0 ∉ a.id
  arg : a.arg < sizeMod
  size : sizeofEsm + a.size ≤ PPC_MAX_DATA_SIZE

theorem Encodes.process {msg : Msg} {a : Atom} (h : Encodes msg a) (so : SessionOpt)
    (m : Frame PPC_MAX_DATA_SIZE) (granted : Bool) (junk : ℕ → Byte) :
    serverProcessPpc so m (send msg).2 granted junk =
    ⟨(soAtomAdd .parent so a granted).so, none, false⟩ := by
  obtain ⟨mem, hp⟩ := h.payload
  have hmsg : msg = (PPC_CMD_MSES_SAVE, encodeEsm mem a.arg a.id a.data) := Prod.ext h.cmd hp
  rw [hmsg, process_save so m mem junk granted h.arg h.noNul h.size, List.take_of_length_le h.name]

theorem AddCall.encodes {c : AddCall} (hn : c.filename.length ≤ 255)
    (hs : sizeofEsm + c.buf.length ≤ PPC_MAX_DATA_SIZE) : Encodes c.message c.atom :=
  ⟨rfl, ⟨c.junk, rfl⟩, hn, c.filename_ok, c.now_lt, hs⟩

/-- A child whose copy has room does not evict. -/
theorem soAtomAdd_room {so : SessionOpt} {a : Atom} (hr : HasRoom so a.id) (hm : so.memLimit = 0)
    (ctx : Ctx) (granted : Bool) :
    soAtomAdd ctx so a granted = replaceAtom granted a (atomsGet so.atoms a.id) so := by
  have hc : limitCount ctx so (atomsGet so.atoms a.id) = ⟨true, so, 0⟩ :=
    if_neg (fun h => absurd hr (Nat.not_lt.mpr h.2))
  have hs : limitSize ctx a.size (atomsGet so.atoms a.id) so = ⟨true, so, 0⟩ := if_pos hm
  rw [soAtomAdd]
  exact Outcome.andThen_ok (Outcome.andThen_ok hc hs) rfl

theorem replaceAtom_fields (granted : Bool) (a : Atom) (old : Option ℕ) (so : SessionOpt) :
    (replaceAtom granted a old so).so.maxCount = so.maxCount ∧
      (replaceAtom granted a old so).so.memLimit = so.memLimit ∧
      (replaceAtom granted a old so).delold = 0 := by
  unfold replaceAtom
  cases atomCreate so.atoms granted a with
  | none => exact ⟨rfl, rfl, rfl⟩
  | some r =>
    cases old with
    | none => exact ⟨rfl, rfl, rfl⟩
    | some o => exact ⟨rfl, rfl, rfl⟩

theorem Keeps.contents_eq {so : SessionOpt} {xs : List ℕ} (h : Keeps so xs) :
    so.atoms.contents = xs.map so.atoms.cell := by
  rw [Atoms.contents, h.linked.elems_eq]

theorem Saved.mem_contents {so so' : SessionOpt} {xs : List ℕ} {old : Option ℕ} {a : Atom} {p : ℕ}
    (h : Saved so so' xs old a p) : a ∈ so'.atoms.contents := by
  rw [h.keeps.contents_eq]
  exact List.mem_map.mpr ⟨p, List.mem_cons_self, h.cell_new⟩

theorem Saved.mem_others {so so' : SessionOpt} {xs : List ℕ} {old : Option ℕ} {a : Atom} {p q : ℕ}
    (h : Saved so so' xs old a p) (hq : q ∈ xs) (ho : old ≠ some q) :
    so.atoms.cell q ∈ so'.atoms.contents := by
  have hd : q ∈ dropOld xs old := by
    cases old with
    | none => exact hq
    | some o => exact (List.mem_erase_of_ne (fun he : q = o => ho (he ▸ rfl))).mpr hq
  rw [h.keeps.contents_eq]
  exact List.mem_map.mpr ⟨q, List.mem_cons_of_mem _ hd, h.cell_old q hq⟩

theorem atomCreate_granted {as : Atoms} {a : Atom} (h : as.heap + a.footprint < sizeMod) :
    atomCreate as true a ≠ none := by
  rw [atomCreate, if_pos ⟨rfl, h⟩]
  exact Option.some_ne_none _

theorem Keeps.replaceAtom_granted {so : SessionOpt} {xs : List ℕ} (h : Keeps so xs) {a : Atom}
    {old : Option ℕ} (ho : OldIs so.atoms xs a.id old)
    (hheap : so.atoms.heap + a.footprint < sizeMod) :
    ∃ so' p, Session.replaceAtom true a old so = ⟨true, so', 0⟩ ∧ Saved so so' xs old a p := by
  rcases h.replaceAtom ho true with ⟨_, hc⟩ | hs
  · exact absurd hc (atomCreate_granted hheap)
  · exact hs

structure Applies (so so' : SessionOpt) (a : Atom) : Prop where
  inv : ∃ ys, Inv so' ys
  maxCount : so'.maxCount = so.maxCount
  memLimit : so'.memLimit = so.memLimit
  saved : a ∈ so'.atoms.contents
  others : ∃ v, ∀ x ∈ so.atoms.contents, x.id ≠ a.id → x.id ≠ v → x ∈ so'.atoms.contents

theorem soAtomAdd_applies {so : SessionOpt} {xs : List ℕ} (h : Inv so xs) (hm : so.memLimit = 0)
    {a : Atom} (hheap : so.atoms.heap + a.footprint < sizeMod) :
    Applies so (soAtomAdd .parent so a true).so a := by
  have hinv : ∃ ys, Inv (soAtomAdd .parent so a true).so ys := soAtomAdd_inv h (Or.inl hm)
  have hid : ∀ q, atomsGet so.atoms a.id = some q → (so.atoms.cell q).id = a.id :=
    fun q hq => (h.linked.get_some hq).2
  have ho := h.toKeeps.oldIs a.id
  revert hinv
  unfold soAtomAdd
  dsimp only
  generalize atomsGet so.atoms a.id = old at ho hid ⊢
  intro hinv
  rcases limitCount_cases h.toKeeps h.count_le ho with ⟨hr, _⟩ | ⟨v, so₁, hr, he, rfl, _⟩
  · have hs : limitSize .parent a.size old so = ⟨true, so, 0⟩ := if_pos hm
    obtain ⟨so', p, hrep, hsaved⟩ := h.toKeeps.replaceAtom_granted ho hheap
    rw [Outcome.andThen_ok (Outcome.andThen_ok hr hs) hrep] at hinv ⊢
    refine ⟨hinv, hsaved.maxCount, hsaved.memLimit, hsaved.mem_contents, [], ?_⟩
    intro x hx hxa _
    rw [h.toKeeps.contents_eq] at hx
    obtain ⟨q, hq, rfl⟩ := List.mem_map.mp hx
    exact hsaved.mem_others hq (fun hoq => hxa (hid q hoq))
  · have hs : limitSize .parent a.size none so₁ = ⟨true, so₁, 0⟩ := if_pos (he.memLimit.trans hm)
    have ho₁ : OldIs so₁.atoms (xs.erase v) a.id none := ho.erase he.cell (fun hv => by cases hv)
    obtain ⟨so', p, hrep, hsaved⟩ := he.keeps.replaceAtom_granted ho₁ (he.heap ▸ hheap)
    rw [Outcome.andThen_ok (Outcome.andThen_ok hr hs) hrep] at hinv ⊢
    refine ⟨hinv, hsaved.maxCount.trans he.maxCount, hsaved.memLimit.trans he.memLimit,
      hsaved.mem_contents, (so.atoms.cell v).id, ?_⟩
    intro x hx _ hxv
    rw [h.toKeeps.contents_eq] at hx
    obtain ⟨q, hq, rfl⟩ := List.mem_map.mp hx
    have hqv : q ≠ v := fun hqv => hxv (hqv ▸ rfl)
    rw [← he.cell]
    exact hsaved.mem_others ((List.mem_erase_of_ne hqv).mpr hq) (fun hn => by cases hn)

/-! ## The invariant of the system -/

structure ChildOk (n : ℕ) (ch : Child) (pending : List Atom) : Prop where
  maxCount : ch.so.maxCount = n
  memLimit : ch.so.memLimit = 0
  writable : ch.writable = true
  queue : List.Forall₂ Encodes ch.queue pending

/-- The messages of a child are its saves that the parent has not applied yet. -/
def SlotOk (n : ℕ) : Option Child → List Atom → Prop
  | none, pending => pending = []
  | some ch, pending => ChildOk n ch pending

structure SysOk (n : ℕ) (s : Sys) : Prop where
  inv : ∃ xs, Inv s.parent xs
  maxCount : s.parent.maxCount = n
  memLimit : s.parent.memLimit = 0
  slots : ∀ i, SlotOk n (s.children i) (s.pending i)
  saves : ∀ i, (s.log.filter fun e => decide (e.child = i)).map Applied.atom ++
    s.pending i = s.saves i
  store : s.parent = replay n s.log
  last : ∀ e, s.log.getLast? = some e → e.atom ∈ s.parent.atoms.contents
  evicts : ∀ k e, s.log[k]? = some e → ∃ v, ∀ a ∈ (replay n (s.log.take k)).atoms.contents,
    a.id ≠ e.atom.id → a.id ≠ v → a ∈ (replay n (s.log.take (k + 1))).atoms.contents

theorem sysOk_start (n : ℕ) : SysOk n (startSys n) where
  inv := ⟨[], inv_empty n 0⟩
  maxCount := rfl
  memLimit := rfl
  slots := fun _ => rfl
  saves := fun _ => rfl
  store := rfl
  last := fun _ h => by cases h
  evicts := fun _ _ h => by cases h

theorem forall_update₂ {α β : Type*} {P : α → β → Prop} {f : ℕ → α} {g : ℕ → β}
    (h : ∀ j, P (f j) (g j)) (i : ℕ) {a : α} {b : β} (hi : P a b) :
    ∀ j, P (Function.update f i a j) (Function.update g i b j) := by
  intro j
  by_cases hj : j = i
  · rw [hj, Function.update_self, Function.update_self]
    exact hi
  · rw [Function.update_of_ne hj, Function.update_of_ne hj]
    exact h j

theorem forkChild_ok {n : ℕ} {s : Sys} (h : SysOk n s) (i : ℕ) : SysOk n (forkChild s i) := by
  unfold forkChild
  cases hc : s.children i with
  | some ch => exact h
  | none =>
    have hslot : SlotOk n (s.children i) (s.pending i) := h.slots i
    rw [hc] at hslot
    have hnew : SlotOk n (some ⟨s.parent, [], true⟩) (s.pending i) := by
      rw [show s.pending i = [] from hslot]
      exact ⟨h.maxCount, h.memLimit, rfl, List.Forall₂.nil⟩
    have hslots := forall_update₂ h.slots i hnew
    rw [Function.update_eq_self] at hslots
    exact ⟨h.inv, h.maxCount, h.memLimit, hslots, h.saves, h.store, h.last, h.evicts⟩

/-- A save in a child with room sends its own message and nothing else. -/
theorem sessionMemAdd_room {so : SessionOpt} {c : AddCall} (hroom : HasRoom so c.filename)
    (hm : so.memLimit = 0) (hsend : (c.sends && true) = true) :
    (sessionMemAdd so true c).sent = [c.message] ∧
      (sessionMemAdd so true c).so.maxCount = so.maxCount ∧
      (sessionMemAdd so true c).so.memLimit = so.memLimit := by
  have hid : HasRoom so (Atom.id ⟨c.filename, c.buf, c.mtime⟩) := hroom
  have hadd := soAtomAdd_room hid hm (.child true) c.granted
  obtain ⟨hmax, hmem, hdel⟩ := replaceAtom_fields c.granted ⟨c.filename, c.buf, c.mtime⟩
    (atomsGet so.atoms c.filename) so
  rw [sessionMemAdd, if_pos hsend]
  dsimp only
  rw [hadd, hdel]
  exact ⟨rfl, hmax, hmem⟩

theorem addChild_ok {n : ℕ} {s : Sys} (h : SysOk n s) {i : ℕ} {c : AddCall}
    (hs : SafeEvent s (.add i c)) : SysOk n (addChild s i c) := by
  unfold addChild
  cases hc : s.children i with
  | none => exact h
  | some ch =>
    have hch : SlotOk n (s.children i) (s.pending i) := h.slots i
    rw [hc] at hch
    obtain ⟨so, queue, writable⟩ := ch
    obtain rfl : writable = true := hch.writable
    have hnew : ChildOk n ⟨(sessionMemAdd so true c).so,
      queue ++ (sessionMemAdd so true c).sent, true⟩
        (s.pending i ++ if c.sends && true then [c.atom] else []) := by
      by_cases hsend : (c.sends && true) = true
      · obtain ⟨hname, hsize, hroom⟩ := hs _ hc hsend
        obtain ⟨hsent, hmax, hmem⟩ := sessionMemAdd_room hroom hch.memLimit hsend
        rw [hsent, if_pos hsend]
        refine ⟨hmax.trans hch.maxCount, hmem.trans hch.memLimit, rfl, ?_⟩
        exact List.rel_append hch.queue
          (List.Forall₂.cons (AddCall.encodes hname hsize) List.Forall₂.nil)
      · rw [if_neg hsend, sessionMemAdd, if_neg hsend, List.append_nil, List.append_nil]
        exact hch
    refine ⟨h.inv, h.maxCount, h.memLimit, forall_update₂ h.slots i hnew, ?_, h.store,
      h.last, h.evicts⟩
    intro j
    by_cases hj : j = i
    · subst hj
      dsimp only
      rw [Function.update_self, Function.update_self, ← List.append_assoc, h.saves]
    · dsimp only
      rw [Function.update_of_ne hj, Function.update_of_ne hj]
      exact h.saves j

theorem replay_append (n : ℕ) (log : List Applied) (e : Applied) :
    replay n (log ++ [e]) = (soAtomAdd .parent (replay n log) e.atom e.granted).so := by
  rw [replay, List.foldl_append]
  rfl

/-- What `SysOk` says of the log goes on to hold when one more save is applied. -/
theorem evicts_append {n : ℕ} {log : List Applied} {e : Applied}
    (h : ∀ k e, log[k]? = some e → ∃ v, ∀ a ∈ (replay n (log.take k)).atoms.contents,
      a.id ≠ e.atom.id → a.id ≠ v → a ∈ (replay n (log.take (k + 1))).atoms.contents)
    (happ : Applies (replay n log) (replay n (log ++ [e])) e.atom) :
    ∀ k x, (log ++ [e])[k]? = some x → ∃ v, ∀ a ∈ (replay n ((log ++ [e]).take k)).atoms.contents,
      a.id ≠ x.atom.id → a.id ≠ v → a ∈ (replay n ((log ++ [e]).take (k + 1))).atoms.contents := by
  intro k x hx
  by_cases hk : k < log.length
  · rw [List.getElem?_append_left hk] at hx
    rw [List.take_append_of_le_length hk.le, List.take_append_of_le_length hk]
    exact h k x hx
  · have hlen := (List.getElem?_eq_some_iff.mp hx).1
    rw [List.length_append, List.length_singleton] at hlen
    obtain rfl : k = log.length := by omega
    obtain rfl : e = x := by
      rw [List.getElem?_append_right le_rfl, Nat.sub_self] at hx
      exact Option.some.inj hx
    rw [List.take_left, List.take_of_length_le (by rw [List.length_append, List.length_singleton])]
    exact happ.others

theorem processChild_ok {n : ℕ} {s : Sys} (h : SysOk n s) {i : ℕ} {m : Frame PPC_MAX_DATA_SIZE}
    {granted : Bool} {junk : ℕ → Byte} (hs : SafeEvent s (.process i m granted junk)) :
    SysOk n (processChild s i m granted junk) := by
  have hslot : SlotOk n (s.children i) (s.pending i) := h.slots i
  unfold processChild
  cases hc : s.children i with
  | none => exact h
  | some ch =>
    rw [hc] at hslot
    obtain ⟨so, queue, writable⟩ := ch
    cases queue with
    | nil => exact h
    | cons msg rest =>
      obtain ⟨a, later, henc, hrest, hpend⟩ := List.forall₂_cons_left_iff.mp hslot.queue
      obtain ⟨rfl, hheap⟩ := hs a (by rw [hpend]; rfl)
      obtain ⟨xs, hinv⟩ := h.inv
      have happ := soAtomAdd_applies hinv h.memLimit hheap
      dsimp only
      rw [if_pos henc.cmd, henc.process s.parent m true junk, hpend]
      dsimp only
      have hstore : (soAtomAdd .parent s.parent a true).so =
          replay n (s.log ++ [⟨i, a, true⟩]) := by
        rw [replay_append, h.store]
      rw [if_neg Bool.false_ne_true, if_neg Bool.false_ne_true]
      refine ⟨happ.inv, happ.maxCount.trans h.maxCount, happ.memLimit.trans h.memLimit, ?_, ?_,
        hstore, ?_, ?_⟩
      · exact forall_update₂ h.slots i ⟨hslot.maxCount, hslot.memLimit, rfl, hrest⟩
      · intro j
        have hj := h.saves j
        dsimp only
        rw [List.filter_append, List.map_append]
        by_cases hji : j = i
        · subst hji
          rw [hpend] at hj
          rw [Function.update_self, List.filter_cons_of_pos (by simp), List.append_assoc]
          exact hj
        · rw [Function.update_of_ne hji, List.filter_cons_of_neg (by simpa using Ne.symm hji),
            List.filter_nil,
            List.map_nil, List.append_nil]
          exact hj
      · intro e he
        rw [List.getLast?_append_of_ne_nil _ (List.cons_ne_nil _ _)] at he
        obtain rfl : (⟨i, a, true⟩ : Applied) = e := Option.some.inj he
        exact happ.saved
      · refine evicts_append h.evicts ?_
        rw [← hstore, ← h.store]
        exact happ

theorem step_ok {n : ℕ} {s : Sys} (h : SysOk n s) {e : Event} (hs : SafeEvent s e) :
    SysOk n (s.step e) := by
  cases e with
  | fork i => exact forkChild_ok h i
  | add i c => exact addChild_ok h hs
  | process i m granted junk => exact processChild_ok h hs

theorem run_ok {n : ℕ} {s : Sys} (h : SysOk n s) {events : List Event} (hs : SafeEvents s events) :
    SysOk n (s.run events) := by
  induction events generalizing s with
  | nil => exact h
  | cons e rest ih => exact ih (step_ok h hs.1) hs.2

def Sys.Quiet (s : Sys) : Prop := ∀ i ch, s.children i = some ch → ch.queue = []

theorem SysOk.pending_nil {n : ℕ} {s : Sys} (h : SysOk n s) (hq : s.Quiet) (i : ℕ) :
    s.pending i = [] := by
  have hslot : SlotOk n (s.children i) (s.pending i) := h.slots i
  cases hc : s.children i with
  | none =>
    rw [hc] at hslot
    exact hslot
  | some ch =>
    rw [hc] at hslot
    have hqueue := hslot.queue
    rw [hq i ch hc] at hqueue
    exact List.forall₂_nil_left_iff.mp hqueue

/-- If no child saves into a full copy, and messages and memory suffice, the
parent ends with the replay of all the saves. -/
theorem replicated_of_safe_run (maxCount : ℕ) (events : List Event)
    (hs : SafeEvents (startSys maxCount) events) (hq : ((startSys maxCount).run events).Quiet) :
    Replicated maxCount ((startSys maxCount).run events) := by
  have h := run_ok (sysOk_start maxCount) hs
  refine ⟨fun i => ?_, h.store, h.last, h.evicts⟩
  rw [← h.saves i, h.pending_nil hq i, List.append_nil]

def Event.child : Event → ℕ
  | .fork i => i
  | .add i _ => i
  | .process i _ _ _ => i

theorem step_children_ne {s : Sys} {e : Event} {j : ℕ} (h : j ≠ e.child) :
    (s.step e).children j = s.children j := by
  cases e with
  | fork i =>
    change (forkChild s i).children j = s.children j
    unfold forkChild
    split
    · rfl
    · exact Function.update_of_ne h _ _
  | add i c =>
    change (addChild s i c).children j = s.children j
    unfold addChild
    split
    · rfl
    · exact Function.update_of_ne h _ _
  | process i m granted junk =>
    change (processChild s i m granted junk).children j = s.children j
    unfold processChild
    split
    · rfl
    · split
      · rfl
      · dsimp only
        split
        · split
          · exact Function.update_of_ne h _ _
          · exact Function.update_of_ne h _ _
        · exact Function.update_of_ne h _ _

theorem run_children_ne {s : Sys} {events : List Event} {j : ℕ} (h : ∀ e ∈ events, j ≠ e.child) :
    (s.run events).children j = s.children j := by
  induction events generalizing s with
  | nil => rfl
  | cons e rest ih =>
    have hr := ih (s := s.step e) (fun x hx => h x (List.mem_cons_of_mem _ hx))
    exact hr.trans (step_children_ne (h e List.mem_cons_self))

def saveCall (filename : String) (h : 0 ∉ bytes filename) (now : ℕ) (hn : now < sizeMod) :
    AddCall :=
  ⟨bytes filename, h, bytes "x", by decide, now, now, hn, fun _ => 0, true, true⟩

def saveOne : AddCall := saveCall "A" (by decide) 1 one_lt_sizeMod
def saveTwo : AddCall := saveCall "B" (by decide) 2 (by decide)

def processOne : Event := .process 0 (Frame.zero PPC_MAX_DATA_SIZE) true (fun _ => 0)

def oneChild (k : ℕ) : List Event :=
  [.fork 0, .add 0 saveOne, .add 0 saveTwo] ++ List.replicate k processOne

theorem oneChild_quiet {n k : ℕ}
    (h : (((startSys n).run (oneChild k)).children 0).map Child.queue = some []) :
    ((startSys n).run (oneChild k)).Quiet := by
  intro i ch hi
  by_cases hz : i = 0
  · subst hz
    rw [hi] at h
    exact Option.some.inj h
  · have hne : ∀ e ∈ oneChild k, i ≠ e.child := by
      intro e he
      rcases List.mem_append.mp he with he | he
      · rcases List.mem_cons.mp he with rfl | he
        · exact hz
        rcases List.mem_cons.mp he with rfl | he
        · exact hz
        rw [List.mem_singleton.mp he]
        exact hz
      · rw [List.eq_of_mem_replicate he]
        exact hz
    rw [run_children_ne hne] at hi
    cases hi

theorem replicated_two_saves : Replicated 2 ((startSys 2).run (oneChild 2)) :=
  replicated_of_safe_run 2 (oneChild 2) (by decide +kernel) (oneChild_quiet (by decide +kernel))

/-- With room for one session, the second save makes the child evict from its copy
and the parent, which has evicted already, loses the session just saved. -/
theorem second_save_lost :
    ¬ ∀ (maxCount : ℕ) (events : List Event), 1 ≤ maxCount →
      ((startSys maxCount).run events).Quiet →
      Replicated maxCount ((startSys maxCount).run events) := by
  intro h
  have hr := h 1 (oneChild 3) le_rfl (oneChild_quiet (by decide +kernel))
  have hempty : ((startSys 1).run (oneChild 3)).parent.atoms.contents.length = 0 := by
    decide +kernel
  have hlog : ((startSys 1).run (oneChild 3)).log.getLast?.isSome = true := by decide +kernel
  obtain ⟨e, he⟩ := Option.isSome_iff_exists.mp hlog
  have hmem := hr.last e he
  rw [List.length_eq_zero_iff.mp hempty] at hmem
  exact absurd hmem List.not_mem_nil

end Klone.Session
