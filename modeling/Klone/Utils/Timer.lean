import Klone.Lib.Loop

/-! # Timers

The alarms of a process are kept in a list, ordered by the time at which they expire,
and one alarm of the operating system stands for all of them. Its handler calls back
those that have expired; a callback may add, delete and reschedule alarms. A child
inherits the list, but not the pending alarm. Before the first `timerm_add` the timer
is an empty one.
-/
namespace Klone.Timer
open Loop

variable {κ : Type*}

/-- An alarm with its address and its callback. The number of the insertion is not
kept by the code. -/
structure Alarm (κ : Type*) where
  id : ℕ
  expire : ℤ
  cb : κ
  owner : ℕ
  stamp : ℕ

/-- A process: the clock, the alarms that are in the list and those that are not, the
time at which the pending alarm of the operating system goes off, and whether `SIGALRM`
is blocked. -/
structure Process (κ : Type*) where
  now : ℤ
  pid : ℕ
  alist : List (Alarm κ)
  next : ℤ
  cbRunning : Bool
  osAlarm : Option ℤ
  blocked : Bool
  idle : List (Alarm κ)
  stamps : ℕ

def timermSetAlarm (p : Process κ) (timeout : ℤ) : Process κ :=
  let n := p.now + timeout
  if timeout ≠ 0 ∧ (p.next = 0 ∨ n < p.next) then { p with next := n, osAlarm := some n } else p

def timermSetNext (p : Process κ) : Process κ :=
  match p.alist with
  | [] => p
  | al :: _ => timermSetAlarm p (max 1 (al.expire - p.now))

def timermBlockAlarms (p : Process κ) : Process κ :=
  if p.cbRunning then p else { p with blocked := true }

def timermUnblockAlarms (p : Process κ) : Process κ :=
  if p.cbRunning then p else { p with blocked := false }

/-- The alarm is inserted before the first one that expires later. -/
def Process.insert (p : Process κ) (al : Alarm κ) : Process κ :=
  { p with alist := p.alist.orderedInsert (fun a b => a.expire < b.expire) al, stamps := p.stamps + 1 }

def timermReschedule (p : Process κ) (al : Alarm κ) (secs : ℤ) (cb : κ) : Process κ :=
  let al := { al with cb := cb, expire := p.now + secs, stamp := p.stamps }
  timermUnblockAlarms (timermSetNext ((timermBlockAlarms p).insert al))

def timermAdd (p : Process κ) (id : ℕ) (secs : ℤ) (cb : κ) : Process κ :=
  timermReschedule p ⟨id, 0, cb, p.pid, 0⟩ secs cb

def Process.remove (p : Process κ) (id : ℕ) : Process κ :=
  { p with alist := p.alist.filter (·.id ≠ id) }

def Process.free (p : Process κ) (id : ℕ) : Process κ :=
  { p with idle := p.idle.filter (·.id ≠ id) }

def timermDel (p : Process κ) (id : ℕ) : Process κ :=
  (timermUnblockAlarms (timermSetNext ((timermBlockAlarms p).remove id))).free id

/-! ## Calls -/

inductive Op (κ : Type*) where
  | add (id : ℕ) (secs : ℤ) (cb : κ)
  | del (id : ℕ)
  | reschedule (id : ℕ) (secs : ℤ) (cb : κ)
  | tick (secs : ℕ)

/-- A new alarm gets an address that is free. -/
def Process.Free (p : Process κ) (id : ℕ) : Prop :=
  (∀ al ∈ p.alist, al.id ≠ id) ∧ ∀ al ∈ p.idle, al.id ≠ id

instance (p : Process κ) (id : ℕ) : Decidable (p.Free id) := by
  unfold Process.Free
  infer_instance

def Process.idleAlarm (p : Process κ) (id : ℕ) : Option (Alarm κ) :=
  p.idle.find? fun al => al.id == id

/-- Calls that are not allowed do nothing. -/
def perform (p : Process κ) : Op κ → Process κ
  | .add id secs cb => if p.Free id then timermAdd p id secs cb else p
  | .del id => timermDel p id
  | .reschedule id secs cb =>
    match p.idleAlarm id with
    | none => p
    | some al => timermReschedule (p.free id) al secs cb
  | .tick secs => { p with now := p.now + secs }

def performAll (p : Process κ) (ops : List (Op κ)) : Process κ := ops.foldl perform p

/-! ## `SIGALRM` -/

/-- What a callback does, for its alarm and the state of the process at the call. -/
abbrev Callbacks (κ : Type*) := Alarm κ → Process κ → List (Op κ)

structure Firing (κ : Type*) where
  p : Process κ
  fired : List (Alarm κ × List (Op κ))

def Process.setRunning (p : Process κ) (b : Bool) : Process κ := { p with cbRunning := b }

def Process.pop (p : Process κ) (al : Alarm κ) (rest : List (Alarm κ)) : Process κ :=
  { p with alist := rest, idle := al :: p.idle }

/-- A callback is called, with its alarm out of the list. -/
def callBack (cbs : Callbacks κ) (al : Alarm κ) (p : Process κ) : Process κ × List (Op κ) :=
  let ops := cbs al (p.setRunning true)
  ((performAll (p.setRunning true) ops).setRunning false, ops)

def sigalrmBody (cbs : Callbacks κ) (now : ℤ) (s : Firing κ) :
    Option (Iter (Firing κ) (Firing κ)) :=
  match s.p.alist with
  | [] => some (.leave s)
  | al :: rest =>
    if al.owner ≠ s.p.pid then some (.again ⟨s.p.pop al rest, s.fired⟩)
    else if now < al.expire then some (.leave ⟨timermSetNext s.p, s.fired⟩)
    else
      let r := callBack cbs al (s.p.pop al rest)
      some (.again ⟨r.1, s.fired ++ [(al, r.2)]⟩)

/-- The signal is delivered and blocked; the alarm that has gone off is not pending any more. -/
def Process.deliver (p : Process κ) : Process κ :=
  { p with
    next := 0
    blocked := true
    osAlarm := p.osAlarm.filter fun a => p.now < a }

/-- The handler, which runs with the signal blocked. -/
def timermSigalrm (n : ℕ) (cbs : Callbacks κ) (p : Process κ) : Option (Firing κ) :=
  (run (sigalrmBody cbs p.now) n ⟨p.deliver, []⟩).map fun s => { s with
    p := { s.p with blocked := false } }

/-! ## Runs -/

inductive Event (κ : Type*) where
  | op (o : Op κ)
  | sigalrm (cbs : Callbacks κ)
  | fork (pid : ℕ)

/-- The child goes on; its pid is the owner of none of the alarms. -/
def Process.fork (p : Process κ) (pid : ℕ) : Process κ :=
  if (∀ al ∈ p.alist, al.owner ≠ pid) ∧ ∀ al ∈ p.idle,
    al.owner ≠ pid then { p with pid := pid, osAlarm := none } else p

def step (n : ℕ) (p : Process κ) : Event κ → Option (Process κ)
  | .op o => some (perform p o)
  | .sigalrm cbs => if p.blocked then some p else (timermSigalrm n cbs p).map Firing.p
  | .fork pid => some (p.fork pid)

def start (κ : Type*) (now pid : ℕ) : Process κ := ⟨now, pid, [], 0, false, none, false, [], 0⟩

def Trace : Process κ → List (Event κ × Process κ) → Prop
  | _, [] => True
  | p, (e, q) :: t => Ends (fun n => step n p e) q ∧ Trace q t

/-! ## Calls and the list -/

/-- The two states differ in the alarm of the operating system at most, and in what is blocked. -/
structure SameList (p q : Process κ) : Prop where
  now : q.now = p.now
  pid : q.pid = p.pid
  alist : q.alist = p.alist
  idle : q.idle = p.idle
  stamps : q.stamps = p.stamps
  cbRunning : q.cbRunning = p.cbRunning
  blocked : p.cbRunning = true → q.blocked = p.blocked

variable {p q : Process κ}

theorem SameList.refl (p : Process κ) : SameList p p := ⟨rfl, rfl, rfl, rfl, rfl, rfl, fun _ => rfl⟩

theorem timermSetAlarm_same (p : Process κ) (timeout : ℤ) :
    SameList p (timermSetAlarm p timeout) := by
  unfold timermSetAlarm
  dsimp only
  split
  · exact ⟨rfl, rfl, rfl, rfl, rfl, rfl, fun _ => rfl⟩
  · exact .refl p

theorem timermSetNext_same (p : Process κ) : SameList p (timermSetNext p) := by
  unfold timermSetNext
  split
  · exact .refl p
  · exact timermSetAlarm_same p _

theorem timermBlockAlarms_same (p : Process κ) : SameList p (timermBlockAlarms p) := by
  unfold timermBlockAlarms
  split
  · exact .refl p
  · next h => exact ⟨rfl, rfl, rfl, rfl, rfl, rfl, fun hr => absurd hr h⟩

theorem timermUnblockAlarms_same (p : Process κ) : SameList p (timermUnblockAlarms p) := by
  unfold timermUnblockAlarms
  split
  · exact .refl p
  · next h => exact ⟨rfl, rfl, rfl, rfl, rfl, rfl, fun hr => absurd hr h⟩

theorem SameList.trans {r : Process κ} (h : SameList p q) (h' : SameList q r) : SameList p r := by
  refine ⟨h'.now.trans h.now, h'.pid.trans h.pid, h'.alist.trans h.alist, h'.idle.trans h.idle,
    h'.stamps.trans h.stamps, h'.cbRunning.trans h.cbRunning, fun hr => ?_⟩
  exact (h'.blocked (h.cbRunning.trans hr)).trans (h.blocked hr)

def Process.stamped (p : Process κ) (al : Alarm κ) (secs : ℤ) (cb : κ) : Alarm κ :=
  { al with cb := cb, expire := p.now + secs, stamp := p.stamps }

theorem timermReschedule_same (p : Process κ) (al : Alarm κ) (secs : ℤ) (cb : κ) :
    SameList (p.insert (p.stamped al secs cb)) (timermReschedule p al secs cb) := by
  have hblock := timermBlockAlarms_same p
  have hinsert : SameList (p.insert (p.stamped al secs cb))
      ((timermBlockAlarms p).insert (p.stamped al secs cb)) := by
    refine ⟨hblock.now, hblock.pid, ?_, hblock.idle, ?_, hblock.cbRunning, hblock.blocked⟩
    · simp only [Process.insert, hblock.alist]
    · simp only [Process.insert, hblock.stamps]
  exact hinsert.trans ((timermSetNext_same _).trans (timermUnblockAlarms_same _))

theorem timermDel_same (p : Process κ) (id : ℕ) :
    SameList ((p.remove id).free id) (timermDel p id) := by
  have hblock := timermBlockAlarms_same p
  have hremove : SameList (p.remove id) ((timermBlockAlarms p).remove id) := by
    refine ⟨hblock.now, hblock.pid, ?_, hblock.idle, hblock.stamps, hblock.cbRunning,
      hblock.blocked⟩
    simp only [Process.remove, hblock.alist]
  have h := hremove.trans ((timermSetNext_same _).trans (timermUnblockAlarms_same _))
  refine ⟨h.now, h.pid, h.alist, ?_, h.stamps, h.cbRunning, h.blocked⟩
  simp only [timermDel, Process.free, h.idle]

def Op.frees : Op κ → List ℕ
  | .del id => [id]
  | _ => []

/-- A call inserts an alarm, removes alarms or lets time pass. -/
theorem perform_cases (p : Process κ) (o : Op κ) :
    (∃ al secs cb, (o = .add al.id secs cb ∧ al.owner = p.pid ∨ o = .reschedule al.id secs cb) ∧
        al = p.stamped al secs cb ∧ o.frees = [] ∧ (perform p o).now = p.now ∧
        (perform p o).alist = (p.insert al).alist ∧ (perform p o).stamps = p.stamps + 1) ∨
      p.now ≤ (perform p o).now ∧ (perform p o).alist = p.alist.filter (·.id ∉ o.frees) ∧
        (perform p o).stamps = p.stamps := by
  have hnone : p.alist = p.alist.filter (·.id ∉ ([] : List ℕ)) := by simp
  cases o with
  | add id secs cb =>
    by_cases hf : p.Free id
    · have hs := timermReschedule_same p ⟨id, 0, cb, p.pid, 0⟩ secs cb
      refine Or.inl ⟨p.stamped ⟨id, 0, cb, p.pid, 0⟩ secs cb, secs, cb, Or.inl ⟨rfl, rfl⟩,
        rfl, rfl, ?_⟩
      have hp : perform p (.add id secs cb) = timermReschedule p ⟨id, 0, cb, p.pid, 0⟩ secs cb :=
        if_pos hf
      rw [hp, hs.now, hs.alist, hs.stamps]
      exact ⟨rfl, rfl, rfl⟩
    · refine Or.inr ?_
      have hp : perform p (.add id secs cb) = p := if_neg hf
      rw [hp]
      exact ⟨le_refl _, hnone, rfl⟩
  | del id =>
    have hs := timermDel_same p id
    refine Or.inr ?_
    change p.now ≤ (timermDel p id).now ∧ (timermDel p id).alist = p.alist.filter (·.id ∉ [id]) ∧
      (timermDel p id).stamps = p.stamps
    rw [hs.now, hs.alist, hs.stamps]
    refine ⟨le_refl _, ?_, rfl⟩
    simp [Process.free, Process.remove]
  | reschedule id secs cb =>
    cases hi : p.idleAlarm id with
    | none =>
      have hp : perform p (.reschedule id secs cb) = p := by simp only [perform, hi]
      refine Or.inr ?_
      rw [hp]
      exact ⟨le_refl _, hnone, rfl⟩
    | some al =>
      have hid : al.id = id := by
        have hfound := List.find?_some hi
        simpa using hfound
      have hs := timermReschedule_same (p.free id) al secs cb
      refine Or.inl ⟨p.stamped al secs cb, secs, cb, Or.inr ?_, rfl, rfl, ?_⟩
      · rw [← hid]
        rfl
      · have hp : perform p (.reschedule id secs cb) = timermReschedule (p.free id) al secs cb := by
          simp only [perform, hi]
        rw [hp, hs.now, hs.alist, hs.stamps]
        exact ⟨rfl, rfl, rfl⟩
  | tick secs =>
    refine Or.inr ⟨?_, hnone, rfl⟩
    change p.now ≤ p.now + secs
    omega

/-- What no call changes. -/
theorem perform_keeps (p : Process κ) (o : Op κ) :
    (perform p o).pid = p.pid ∧ (perform p o).cbRunning = p.cbRunning ∧
      (p.cbRunning = true → (perform p o).blocked = p.blocked) := by
  cases o with
  | add id secs cb =>
    unfold perform
    dsimp only
    split
    · have hs := timermReschedule_same p ⟨id, 0, cb, p.pid, 0⟩ secs cb
      exact ⟨hs.pid, hs.cbRunning, hs.blocked⟩
    · exact ⟨rfl, rfl, fun _ => rfl⟩
  | del id =>
    have hs := timermDel_same p id
    exact ⟨hs.pid, hs.cbRunning, hs.blocked⟩
  | reschedule id secs cb =>
    unfold perform
    dsimp only
    split
    · exact ⟨rfl, rfl, fun _ => rfl⟩
    · next al _ =>
      have hs := timermReschedule_same (p.free id) al secs cb
      exact ⟨hs.pid, hs.cbRunning, hs.blocked⟩
  | tick secs => exact ⟨rfl, rfl, fun _ => rfl⟩

/-! ## The order of the list -/

/-- The first alarm expires before the second, or at the same time and was inserted before it. -/
def Alarm.Before (a b : Alarm κ) : Prop :=
  a.expire < b.expire ∨ a.expire = b.expire ∧ a.stamp < b.stamp

structure Ordered (p : Process κ) : Prop where
  sorted : p.alist.Pairwise Alarm.Before
  stamped : ∀ al ∈ p.alist, al.stamp < p.stamps

theorem insert_sorted {al : Alarm κ} {l : List (Alarm κ)} (hl : l.Pairwise Alarm.Before)
    (hs : ∀ b ∈ l, b.stamp < al.stamp) :
    (l.orderedInsert (fun a b => a.expire < b.expire) al).Pairwise Alarm.Before := by
  induction l with
  | nil => exact List.pairwise_singleton _ _
  | cons b l ih =>
    obtain ⟨hb, hl'⟩ := List.pairwise_cons.mp hl
    by_cases hlt : al.expire < b.expire
    · simp only [List.orderedInsert, hlt, if_true]
      refine List.pairwise_cons.mpr ⟨?_, hl⟩
      intro c hc
      rcases List.mem_cons.mp hc with rfl | hc
      · exact Or.inl hlt
      · rcases hb c hc with hbc | ⟨hbc, -⟩
        · exact Or.inl (hlt.trans hbc)
        · exact Or.inl (hbc ▸ hlt)
    · simp only [List.orderedInsert, hlt, if_false]
      refine List.pairwise_cons.mpr ⟨?_, ih hl' fun c hc => hs c (List.mem_cons_of_mem b hc)⟩
      intro c hc
      rcases List.mem_cons.mp ((List.perm_orderedInsert _ _ _).mem_iff.mp hc) with rfl | hc
      · have hstamp := hs b List.mem_cons_self
        rcases lt_or_eq_of_le (not_lt.mp hlt) with h | h
        · exact Or.inl h
        · exact Or.inr ⟨h, hstamp⟩
      · exact hb c hc

theorem Ordered.insert (h : Ordered p) {al : Alarm κ} (hs : al.stamp = p.stamps) :
    Ordered (p.insert al) := by
  refine ⟨insert_sorted h.sorted fun b hb => ?_, ?_⟩
  · rw [hs]
    exact h.stamped b hb
  · intro b hb
    change b.stamp < p.stamps + 1
    rcases List.mem_cons.mp ((List.perm_orderedInsert _ _ _).mem_iff.mp hb) with rfl | hb
    · omega
    · have hlt := h.stamped b hb
      omega

theorem Ordered.of_sublist (h : Ordered p) (hl : q.alist.Sublist p.alist)
    (hs : q.stamps = p.stamps) : Ordered q := by
  refine ⟨h.sorted.sublist hl, fun al hal => ?_⟩
  rw [hs]
  exact h.stamped al (hl.subset hal)

theorem Ordered.same (h : Ordered p) (hs : SameList p q) : Ordered q :=
  h.of_sublist (by rw [hs.alist]) hs.stamps

theorem perform_ordered (h : Ordered p) (o : Op κ) : Ordered (perform p o) := by
  rcases perform_cases p o with ⟨al, secs, cb, -, hal, -, -, hl, hs⟩ | ⟨-, hl, hs⟩
  · have hstamp : al.stamp = p.stamps := by rw [hal]; rfl
    have hi := h.insert hstamp
    exact hi.of_sublist (by rw [hl]) (by rw [hs]; rfl)
  · exact h.of_sublist (by rw [hl]; exact List.filter_sublist) hs

theorem performAll_ordered (h : Ordered p) (ops : List (Op κ)) : Ordered (performAll p ops) := by
  induction ops generalizing p with
  | nil => exact h
  | cons o ops ih => exact ih (perform_ordered h o)

theorem callBack_ordered (h : Ordered p) (cbs : Callbacks κ) (al : Alarm κ) :
    Ordered (callBack cbs al p).1 := by
  have hall := performAll_ordered (p := p.setRunning true) ⟨h.sorted, h.stamped⟩
    (cbs al (p.setRunning true))
  exact ⟨hall.sorted, hall.stamped⟩

theorem sigalrmBody_ordered {cbs : Callbacks κ} {now : ℤ} {s t : Firing κ} (h : Ordered s.p)
    (hb : sigalrmBody cbs now s = some (.again t)) : Ordered t.p := by
  unfold sigalrmBody at hb
  split at hb
  · cases hb
  · next al rest hl =>
    have hrest : Ordered (s.p.pop al rest) :=
      h.of_sublist (by rw [hl]; exact List.sublist_cons_self al rest) rfl
    split at hb
    · cases hb
      exact hrest
    · split at hb
      · cases hb
      · cases hb
        exact callBack_ordered hrest cbs al

theorem sigalrmBody_leave {cbs : Callbacks κ} {now : ℤ} {s t : Firing κ}
    (hb : sigalrmBody cbs now s = some (.leave t)) :
    SameList s.p t.p ∧ t.fired = s.fired ∧ t.p = timermSetNext s.p := by
  unfold sigalrmBody at hb
  split at hb
  · next hl =>
    cases hb
    refine ⟨.refl _, rfl, ?_⟩
    simp [timermSetNext, hl]
  · split at hb
    · cases hb
    · split at hb
      · cases hb
        exact ⟨timermSetNext_same _, rfl, rfl⟩
      · cases hb

theorem timermSigalrm_ordered {n : ℕ} {cbs : Callbacks κ} {s : Firing κ} (h : Ordered p)
    (hr : timermSigalrm n cbs p = some s) : Ordered s.p := by
  obtain ⟨t, ht, rfl⟩ := Option.map_eq_some_iff.mp hr
  obtain ⟨u, hu, hl⟩ := run_reaches ht
  have hdeliver : Ordered p.deliver := ⟨h.sorted, h.stamped⟩
  have hordered := hu.invariant (I := fun s => Ordered s.p)
    (fun _ _ hs hb => sigalrmBody_ordered hs hb) hdeliver
  have hlast := hordered.same (sigalrmBody_leave hl).1
  exact ⟨hlast.sorted, hlast.stamped⟩

theorem fork_ordered (h : Ordered p) (pid : ℕ) : Ordered (p.fork pid) := by
  unfold Process.fork
  split
  · exact ⟨h.sorted, h.stamped⟩
  · exact h

theorem step_ordered {n : ℕ} {e : Event κ} (h : Ordered p) (hs : step n p e = some q) :
    Ordered q := by
  cases e with
  | op o =>
    obtain rfl := Option.some.inj hs
    exact perform_ordered h o
  | sigalrm cbs =>
    unfold step at hs
    dsimp only at hs
    split at hs
    · obtain rfl := Option.some.inj hs
      exact h
    · obtain ⟨s, hr, rfl⟩ := Option.map_eq_some_iff.mp hs
      exact timermSigalrm_ordered h hr
  | fork pid =>
    obtain rfl := Option.some.inj hs
    exact fork_ordered h pid

/-! ## What is blocked -/

structure Ready (p : Process κ) : Prop where
  blocked : p.blocked = false
  cbRunning : p.cbRunning = false

theorem timermUnblockAlarms_ready (h : p.cbRunning = false) : Ready (timermUnblockAlarms p) := by
  unfold timermUnblockAlarms
  rw [if_neg (by simp [h])]
  exact ⟨rfl, h⟩

theorem timermReschedule_ready (h : p.cbRunning = false) (al : Alarm κ) (secs : ℤ) (cb : κ) :
    Ready (timermReschedule p al secs cb) := by
  apply timermUnblockAlarms_ready
  rw [(timermSetNext_same _).cbRunning]
  exact (timermBlockAlarms_same p).cbRunning.trans h

theorem perform_ready (h : Ready p) (o : Op κ) : Ready (perform p o) := by
  cases o with
  | add id secs cb =>
    unfold perform
    dsimp only
    split
    · exact timermReschedule_ready h.cbRunning _ secs cb
    · exact h
  | del id =>
    have hr : Ready (timermUnblockAlarms (timermSetNext ((timermBlockAlarms p).remove id))) := by
      apply timermUnblockAlarms_ready
      rw [(timermSetNext_same _).cbRunning]
      exact (timermBlockAlarms_same p).cbRunning.trans h.cbRunning
    exact ⟨hr.blocked, hr.cbRunning⟩
  | reschedule id secs cb =>
    unfold perform
    dsimp only
    split
    · exact h
    · exact timermReschedule_ready (p := p.free id) h.cbRunning _ secs cb
  | tick secs => exact ⟨h.blocked, h.cbRunning⟩

structure Handling (p : Process κ) : Prop where
  blocked : p.blocked = true
  cbRunning : p.cbRunning = false

theorem performAll_keeps (ops : List (Op κ)) (p : Process κ) :
    (performAll p ops).pid = p.pid ∧ (performAll p ops).cbRunning = p.cbRunning ∧
      (p.cbRunning = true → (performAll p ops).blocked = p.blocked) := by
  induction ops generalizing p with
  | nil => exact ⟨rfl, rfl, fun _ => rfl⟩
  | cons o ops ih =>
    obtain ⟨hpid, hrun, hblock⟩ := perform_keeps p o
    obtain ⟨hpid', hrun', hblock'⟩ := ih (perform p o)
    refine ⟨hpid'.trans hpid, hrun'.trans hrun, fun hr => ?_⟩
    exact (hblock' (hrun.trans hr)).trans (hblock hr)

theorem sigalrmBody_handling {cbs : Callbacks κ} {now : ℤ} {s t : Firing κ} (h : Handling s.p)
    (hb : sigalrmBody cbs now s = some (.again t)) : Handling t.p := by
  unfold sigalrmBody at hb
  split at hb
  · cases hb
  · next al rest hl =>
    split at hb
    · cases hb
      exact ⟨h.blocked, h.cbRunning⟩
    · split at hb
      · cases hb
      · cases hb
        refine ⟨?_, rfl⟩
        have hkeeps := (performAll_keeps (cbs al ((s.p.pop al rest).setRunning true))
          ((s.p.pop al rest).setRunning true)).2.2
        exact (hkeeps rfl).trans h.blocked

theorem step_ready {n : ℕ} {e : Event κ} (h : Ready p) (hs : step n p e = some q) : Ready q := by
  cases e with
  | op o =>
    obtain rfl := Option.some.inj hs
    exact perform_ready h o
  | sigalrm cbs =>
    simp only [step, h.blocked, Bool.false_eq_true, if_false] at hs
    obtain ⟨s, hr, rfl⟩ := Option.map_eq_some_iff.mp hs
    obtain ⟨t, ht, rfl⟩ := Option.map_eq_some_iff.mp hr
    obtain ⟨u, hu, hl⟩ := run_reaches ht
    have hhandling := hu.invariant (I := fun s => Handling s.p)
      (fun _ _ hs hb => sigalrmBody_handling hs hb)
      ⟨rfl, h.cbRunning⟩
    exact ⟨rfl, (sigalrmBody_leave hl).1.cbRunning.trans hhandling.cbRunning⟩
  | fork pid =>
    obtain rfl := Option.some.inj hs
    unfold Process.fork
    split
    · exact ⟨h.blocked, h.cbRunning⟩
    · exact h

/-! ## What a delivery calls -/

/-- Alarms are set for a later second. -/
def Op.Ahead : Op κ → Prop
  | .add _ secs _ => 1 ≤ secs
  | .reschedule _ secs _ => 1 ≤ secs
  | _ => True

def Callbacks.Ahead (cbs : Callbacks κ) : Prop := ∀ al p, ∀ o ∈ cbs al p, o.Ahead

def due (now : ℤ) (p : Process κ) : List (Alarm κ) :=
  p.alist.filter fun al => al.owner = p.pid ∧ al.expire ≤ now

def freed (ops : List (Op κ)) : List ℕ := ops.flatMap Op.frees

/-- The alarms of a list are called back in order, less those that an earlier callback
deletes. -/
inductive Fires : List (Alarm κ) → List (Alarm κ × List (Op κ)) → Prop
  | nil : Fires [] []
  | cons {al : Alarm κ} {ops : List (Op κ)} {l : List (Alarm κ)}
    {fired : List (Alarm κ × List (Op κ))}
      (h : Fires (l.filter (·.id ∉ freed ops)) fired) : Fires (al :: l) ((al, ops) :: fired)

variable {now : ℤ}

theorem filter_orderedInsert {α : Type*} (r : α → α → Prop) [DecidableRel r] {f : α → Bool} {a : α}
    (ha : f a = false) (l : List α) : (l.orderedInsert r a).filter f = l.filter f := by
  induction l with
  | nil => simp [ha]
  | cons b l ih =>
    by_cases h : r a b
    · simp [h, ha]
    · simp [h, List.filter_cons, ih]

theorem perform_due {o : Op κ} (ho : o.Ahead) (hnow : now ≤ p.now) :
    due now (perform p o) = (due now p).filter (·.id ∉ o.frees) ∧ now ≤ (perform p o).now := by
  have hpid := (perform_keeps p o).1
  unfold due
  rcases perform_cases p o with ⟨al, secs, cb, hop, hal, hfrees, hnow', hl, -⟩ | ⟨hle, hl, -⟩
  · have hsecs : 1 ≤ secs := by
      rcases hop with ⟨rfl, -⟩ | rfl
      · exact ho
      · exact ho
    have hexpire : al.expire = p.now + secs := by
      rw [hal]
      rfl
    rw [hnow', hl, hpid, hfrees]
    refine ⟨?_, hnow⟩
    have hlate : decide (al.owner = p.pid ∧ al.expire ≤ now) = false := by
      rw [decide_eq_false_iff_not]
      rintro ⟨-, hle⟩
      omega
    have hfilter := filter_orderedInsert (fun a b => a.expire < b.expire)
      (f := fun b => decide (b.owner = p.pid ∧ b.expire ≤ now)) hlate p.alist
    simpa [Process.insert] using hfilter
  · rw [hl, hpid]
    refine ⟨?_, hnow.trans hle⟩
    rw [List.filter_filter, List.filter_filter]
    congr 1
    funext al
    exact Bool.and_comm _ _

theorem performAll_due {ops : List (Op κ)} (hops : ∀ o ∈ ops, o.Ahead) (hnow : now ≤ p.now) :
    due now (performAll p ops) = (due now p).filter (·.id ∉ freed ops) ∧
    now ≤ (performAll p ops).now := by
  induction ops generalizing p with
  | nil => simpa [performAll, freed] using hnow
  | cons o ops ih =>
    obtain ⟨hdue, hnow'⟩ := perform_due (hops o List.mem_cons_self) hnow
    obtain ⟨hdue', hnow''⟩ :=
      ih (p := perform p o) (fun o' ho' => hops o' (List.mem_cons_of_mem o ho')) hnow'
    refine ⟨?_, hnow''⟩
    change due now (performAll (perform p o) ops) = _
    rw [hdue', hdue, List.filter_filter]
    congr 1
    funext al
    simp [freed, Bool.and_comm]

/-- Nothing is due behind an alarm that has not expired. -/
theorem Ordered.due_nil (h : Ordered p) {al : Alarm κ} {rest : List (Alarm κ)}
    (hl : p.alist = al :: rest) (hlt : now < al.expire) : due now p = [] := by
  have hs := h.sorted
  rw [hl] at hs
  obtain ⟨hbefore, -⟩ := List.pairwise_cons.mp hs
  refine List.filter_eq_nil_iff.mpr fun b hb => ?_
  rw [hl] at hb
  rw [decide_eq_true_eq]
  rintro ⟨-, hle⟩
  rcases List.mem_cons.mp hb with rfl | hb
  · omega
  · rcases hbefore b hb with h' | ⟨h', -⟩ <;> omega

theorem callBack_due {cbs : Callbacks κ} (hcbs : cbs.Ahead) (al : Alarm κ) (hnow : now ≤ p.now) :
    due now (callBack cbs al p).1 = (due now p).filter (·.id ∉ freed (callBack cbs al p).2) ∧
      now ≤ (callBack cbs al p).1.now :=
  performAll_due (p := p.setRunning true) (hcbs al (p.setRunning true)) hnow

/-- The handler calls back what is due and ends. -/
theorem sigalrmBody_fires {cbs : Callbacks κ} (hcbs : cbs.Ahead) (s : Firing κ) (h : Ordered s.p)
    (hnow : now ≤ s.p.now) :
    ∃ t fired, Ends (fun n => run (sigalrmBody cbs now) n s) t ∧ t.fired = s.fired ++ fired ∧
    Fires (due now s.p) fired := by
  cases hl : s.p.alist with
  | nil =>
    refine ⟨s, [], ends_leave ?_, (List.append_nil _).symm, ?_⟩
    · simp only [sigalrmBody, hl]
    · simp only [due, hl, List.filter_nil]
      exact .nil
  | cons al rest =>
    have hrest : Ordered (s.p.pop al rest) :=
      h.of_sublist (by rw [hl]; exact List.sublist_cons_self al rest) rfl
    by_cases howner : al.owner = s.p.pid
    · by_cases hlt : now < al.expire
      · refine ⟨⟨timermSetNext s.p, s.fired⟩, [], ends_leave ?_, (List.append_nil _).symm, ?_⟩
        · simp [sigalrmBody, hl, howner, hlt]
        · rw [h.due_nil hl hlt]
          exact .nil
      · have hdue : due now s.p = al :: due now (s.p.pop al rest) := by
          have hal : al.owner = s.p.pid ∧ al.expire ≤ now := ⟨howner, not_lt.mp hlt⟩
          simp only [due, hl, List.filter_cons, hal, and_self, decide_true, if_true]
          rfl
        obtain ⟨hafter, hnow'⟩ := callBack_due hcbs al (p := s.p.pop al rest) hnow
        have hfewer : (due now (callBack cbs al (s.p.pop al rest)).1).length <
            (due now s.p).length := by
          rw [hafter, hdue, List.length_cons]
          exact Nat.lt_succ_of_le (List.length_filter_le _ _)
        obtain ⟨t, fired, hends, hfired, hf⟩ := sigalrmBody_fires hcbs
          ⟨(callBack cbs al (s.p.pop al rest)).1,
            s.fired ++ [(al, (callBack cbs al (s.p.pop al rest)).2)]⟩
          (callBack_ordered hrest cbs al) hnow'
        refine ⟨t, (al, (callBack cbs al (s.p.pop al rest)).2) :: fired, hends.run_again ?_, ?_, ?_⟩
        · simp [sigalrmBody, hl, howner, hlt]
        · rw [hfired, List.append_assoc]
          rfl
        · rw [hdue]
          refine .cons ?_
          rw [← hafter]
          exact hf
    · have hdue : due now s.p = due now (s.p.pop al rest) := by
        simp only [due, hl, List.filter_cons, howner, false_and, decide_false,
          Bool.false_eq_true, if_false]
        rfl
      have hshorter : (s.p.pop al rest).alist.length < s.p.alist.length := by
        rw [hl]
        exact Nat.lt_succ_self _
      have hsame : (due now (s.p.pop al rest)).length = (due now s.p).length := by rw [hdue]
      obtain ⟨t, fired, hends, hfired, hf⟩ :=
        sigalrmBody_fires hcbs ⟨s.p.pop al rest, s.fired⟩ hrest hnow
      refine ⟨t, fired, hends.run_again ?_, hfired, ?_⟩
      · simp [sigalrmBody, hl, howner]
      · rw [hdue]
        exact hf
termination_by ((due now s.p).length, s.p.alist.length)
decreasing_by
  · exact Prod.Lex.left _ _ hfewer
  · rw [hsame]
    exact Prod.Lex.right _ hshorter

theorem timermSigalrm_fires {cbs : Callbacks κ} (hcbs : cbs.Ahead) (h : Ordered p) :
    ∃ s, Ends (fun n => timermSigalrm n cbs p) s ∧ Fires (due p.now p) s.fired ∧ Ordered s.p := by
  have hdeliver : Ordered p.deliver := ⟨h.sorted, h.stamped⟩
  obtain ⟨t, fired, hends, hfired, hf⟩ :=
    sigalrmBody_fires hcbs ⟨p.deliver, []⟩ hdeliver (le_refl _)
  have hall : Ends (fun n => timermSigalrm n cbs p) { t with p := { t.p with blocked := false } } :=
    hends.map _
  obtain ⟨N, hN⟩ := hall
  refine ⟨_, ⟨N, hN⟩, ?_, timermSigalrm_ordered h (hN N (le_refl N))⟩
  change Fires _ t.fired
  rw [hfired]
  exact hf

/-- The rule for facts true at every state of a run. -/
theorem Trace.invariant {I : Process κ → Prop}
    (hstep : ∀ {n p e q}, I p → step n p e = some q → I q) {t : List (Event κ × Process κ)}
    (ht : Trace p t) (h : I p) : ∀ q ∈ p :: t.map Prod.snd, I q := by
  induction t generalizing p with
  | nil =>
    intro q hq
    obtain rfl := List.mem_singleton.mp hq
    exact h
  | cons eq t ih =>
    obtain ⟨e, q⟩ := eq
    obtain ⟨⟨N, hN⟩, ht'⟩ := ht
    intro r hr
    rcases List.mem_cons.mp hr with rfl | hr
    · exact h
    · exact ih ht' (hstep h (hN N (le_refl N))) r hr

theorem start_ordered (now pid : ℕ) : Ordered (start κ now pid) :=
  ⟨List.Pairwise.nil, fun _ hal => absurd hal List.not_mem_nil⟩

/-- In every state of every run the alarms are in order, and a delivery, for which the
signal is not blocked, calls back the expired ones of the process in this order, each
once, and ends. -/
theorem timer_queue_ordered {now pid : ℕ} {t : List (Event κ × Process κ)}
    (ht : Trace (start κ now pid) t) {p : Process κ} (hp : p ∈ start κ now pid :: t.map Prod.snd) :
    Ordered p ∧ p.blocked = false ∧ ∀ cbs : Callbacks κ, cbs.Ahead →
      ∃ s, Ends (fun n => timermSigalrm n cbs p) s ∧ Fires (due p.now p) s.fired ∧ Ordered s.p := by
  obtain ⟨h, hready⟩ := ht.invariant (I := fun p => Ordered p ∧ Ready p)
    (fun h hs => ⟨step_ordered h.1 hs, step_ready h.2 hs⟩) ⟨start_ordered now pid, rfl, rfl⟩ p hp
  exact ⟨h, hready.blocked, fun cbs hcbs => timermSigalrm_fires hcbs h⟩

def callTrace (p : Process κ) : List (Op κ) → List (Event κ × Process κ)
  | [] => []
  | o :: ops => (.op o, perform p o) :: callTrace (perform p o) ops

theorem callTrace_trace (p : Process κ) (ops : List (Op κ)) : Trace p (callTrace p ops) := by
  induction ops generalizing p with
  | nil => trivial
  | cons o ops ih => exact ⟨Ends.const _, ih _⟩

theorem performAll_mem (p : Process κ) (ops : List (Op κ)) :
    performAll p ops ∈ p :: (callTrace p ops).map Prod.snd := by
  induction ops generalizing p with
  | nil => exact List.mem_cons_self
  | cons o ops ih => exact List.mem_cons_of_mem p (ih (perform p o))

theorem timer_queue_ordered_two :
    Ordered (performAll (start Unit 100 1) [.add 1 10 (), .add 2 2 (), .tick 30]) ∧
      (performAll (start Unit 100 1) [.add 1 10 (), .add 2 2 (), .tick 30]).blocked = false ∧
      ∀ cbs : Callbacks Unit, cbs.Ahead →
        ∃ s, Ends (fun n => timermSigalrm n cbs
          (performAll (start Unit 100 1) [.add 1 10 (), .add 2 2 (), .tick 30])) s ∧
          Fires (due (performAll (start Unit 100 1) [.add 1 10 (), .add 2 2 (), .tick 30]).now
            (performAll (start Unit 100 1) [.add 1 10 (), .add 2 2 (), .tick 30])) s.fired ∧
              Ordered s.p :=
  timer_queue_ordered (callTrace_trace _ _) (performAll_mem _ _)

example : (due 130 (performAll (start Unit 100 1) [.add 1 10 (), .add 2 2 (), .tick 30])).map
    Alarm.id = [2, 1] := by decide

end Klone.Timer
