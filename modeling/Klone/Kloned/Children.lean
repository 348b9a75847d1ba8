import Mathlib

/-! # The children of the server

The parent forks children at start-up, on request of a child and for connections, and
reaps those that have exited. It keeps a list of them and for every backend the number
of its children and of those that are still to be forked. The counters are integers
here, so that one that goes below zero is seen.
-/
namespace Klone.Kloned

inductive Model where
  | fork
  | iterative
  | prefork
  deriving DecidableEq, Repr

structure Backend where
  id : ℤ
  model : Model
  maxChild : ℕ
  startChild : ℕ
  nchild : ℤ
  forkChild : ℤ

structure Child where
  pid : ℕ
  be : ℕ
  deriving DecidableEq, Repr

structure Children where
  clist : List Child
  nchild : ℤ

structure Server where
  bes : List Backend
  children : Children
  maxChild : ℕ

def childrenAdd (cs : Children) (child : Child) : Children := ⟨cs.clist ++ [child], cs.nchild + 1⟩

def childrenDel (cs : Children) (child : Child) : Children := ⟨cs.clist.erase child, cs.nchild - 1⟩

def childrenGetByPid (cs : Children) (pid : ℕ) : Option Child :=
  cs.clist.find? fun c => c.pid == pid

def Server.setChildren (s : Server) (cs : Children) : Server := { s with children := cs }

def Server.modify (s : Server) (k : ℕ) (f : Backend → Backend) : Server :=
  { s with bes := s.bes.modify k f }

def Backend.add (be : Backend) : Backend := { be with nchild := be.nchild + 1 }

def Backend.reap (be : Backend) : Backend :=
  let n := be.nchild - 1
  { be with nchild := n, forkChild := if n < be.startChild then be.startChild - n else be.forkChild }

def serverReapChild (s : Server) (pid : ℕ) : Server :=
  match childrenGetByPid s.children pid with
  | none => s
  | some child => (s.setChildren (childrenDel s.children child)).modify child.be Backend.reap

def serverAddChild (s : Server) (pid k : ℕ) : Server :=
  (s.setChildren (childrenAdd s.children ⟨pid, k⟩)).modify k Backend.add

/-- The parent's side of `server_fork_child`. The outcome is the pid of the new child,
or `none` if there is no channel or no process for it. -/
def serverForkChild (s : Server) (k : ℕ) (outcome : Option ℕ) : Server × Option ℕ :=
  match s.bes[k]? with
  | none => (s, none)
  | some be =>
    if s.children.nchild = s.maxChild then (s, none)
    else if be.nchild = be.maxChild then (s, none)
    else match outcome with
      | none => (s, none)
      | some pid => (serverAddChild s pid k, some pid)

def serverSpawnChild (s : Server) (k : ℕ) (outcome : Option ℕ) : Server × Bool :=
  let r := serverForkChild s k outcome
  (r.1, r.2.isSome)

/-- The number of children that a backend has still to fork. -/
def Server.toFork (s : Server) (k : ℕ) : ℤ := (s.bes[k]?.map Backend.forkChild).getD 0

def Backend.forked (be : Backend) : Backend := { be with forkChild := be.forkChild - 1 }

def Backend.delay (be : Backend) : Backend := { be with forkChild := be.forkChild + 1 }

/-- The children of one backend, with the outcomes of the forks; without an outcome
there is no process. -/
def spawnLoop (k : ℕ) : Server → ℕ → List (Option ℕ) → Server × List (Option ℕ) × Bool
  | s, i, [] => (s, [], decide (s.toFork k ≤ i))
  | s, i, outcome :: outcomes =>
    if i < s.toFork k then
      let r := serverSpawnChild s k outcome
      if r.2 then spawnLoop k (r.1.modify k Backend.forked) (i + 1) outcomes
      else (r.1, outcomes, false)
    else (s, outcome :: outcomes, true)

/-- The backends of a list, of which the first failure ends the loop. -/
def spawnBackends : List ℕ → Server → List (Option ℕ) → Server
  | [], s, _ => s
  | k :: ks, s, outcomes =>
    match s.bes[k]? with
    | none => s
    | some be =>
      if be.model ≠ .prefork ∨ be.forkChild = 0 then spawnBackends ks s outcomes
      else
        let r := spawnLoop k s 0 outcomes
        if r.2.2 then spawnBackends ks r.1 r.2.1 else r.1

def serverSpawnChildren (s : Server) (outcomes : List (Option ℕ)) : Server :=
  spawnBackends (List.range s.bes.length) s outcomes

def serverGetBackendById (s : Server) (bid : ℤ) : Option ℕ := s.bes.findIdx? fun be => be.id == bid

/-- A child asks for another one, which is forked later if it cannot be forked now. -/
def serverPpcCbForkChild (s : Server) (bid : ℤ) (outcome : Option ℕ) : Server :=
  match serverGetBackendById s bid with
  | none => s
  | some k =>
    let r := serverSpawnChild s k outcome
    if r.2 then r.1 else r.1.modify k Backend.delay

/-- A connection to a backend, as far as the parent is concerned. -/
def serverBeServe (s : Server) (k : ℕ) (outcome : Option ℕ) : Server :=
  match s.bes[k]? with
  | none => s
  | some be => if be.model = .fork then (serverForkChild s k outcome).1 else s

def serverWaitpid (s : Server) (pids : List ℕ) : Server := pids.foldl serverReapChild s

inductive Event where
  | spawnChildren (outcomes : List (Option ℕ))
  | forkRequest (bid : ℤ) (outcome : Option ℕ)
  | connection (k : ℕ) (outcome : Option ℕ)
  | waitpid (pids : List ℕ)

def step (s : Server) : Event → Server
  | .spawnChildren outcomes => serverSpawnChildren s outcomes
  | .forkRequest bid outcome => serverPpcCbForkChild s bid outcome
  | .connection k outcome => serverBeServe s k outcome
  | .waitpid pids => serverWaitpid s pids

def serverRun (s : Server) (events : List Event) : Server := events.foldl step s

def Backend.start (be : Backend) : Backend := { be with nchild := 0, forkChild := be.startChild }

def serverStart (bes : List Backend) (maxChild : ℕ) : Server :=
  ⟨bes.map Backend.start, ⟨[], 0⟩, maxChild⟩

/-! ## The accounts -/

def Backend.config (be : Backend) : ℤ × Model × ℕ × ℕ :=
  (be.id, be.model, be.maxChild, be.startChild)

structure Backend.Balanced (be : Backend) : Prop where
  nonneg : 0 ≤ be.forkChild
  atMost : be.nchild ≤ be.maxChild
  atLeast : be.startChild ≤ be.nchild + be.forkChild

structure Accounted (bes : List Backend) (maxChild : ℕ) (s : Server) : Prop where
  config : s.bes.map Backend.config = bes.map Backend.config
  limit : s.maxChild = maxChild
  counted : s.children.nchild = s.children.clist.length
  total : (s.bes.map Backend.nchild).sum = s.children.clist.length
  owned : ∀ k be, s.bes[k]? = some be →
    be.nchild = (s.children.clist.countP (fun c => c.be = k) : ℤ)
  known : ∀ c ∈ s.children.clist, c.be < s.bes.length
  within : s.children.clist.length ≤ maxChild
  balanced : ∀ be ∈ s.bes, be.Balanced

variable {bes : List Backend} {maxChild : ℕ} {s : Server}

theorem serverStart_accounted (bes : List Backend) (maxChild : ℕ) :
    Accounted bes maxChild (serverStart bes maxChild) := by
  refine ⟨?_, rfl, rfl, ?_, ?_, fun c hc => absurd hc List.not_mem_nil, Nat.zero_le _, ?_⟩
  · simp [serverStart, Backend.config, Backend.start, Function.comp_def]
  · simp [serverStart, Backend.start, Function.comp_def]
  · intro k be hk
    obtain ⟨b, -, rfl⟩ := List.mem_map.mp (List.mem_of_getElem? hk)
    rfl
  · intro be hbe
    obtain ⟨b, -, rfl⟩ := List.mem_map.mp hbe
    refine ⟨?_, ?_, ?_⟩ <;> simp [Backend.start]

theorem sum_map_modify {α : Type*} (g : α → ℤ) {f : α → α} {l : List α} {k : ℕ} {a : α}
    (hk : l[k]? = some a) :
    ((l.modify k f).map g).sum = (l.map g).sum + (g (f a) - g a) := by
  induction l generalizing k with
  | nil => cases hk
  | cons b l ih =>
    cases k with
    | zero =>
      obtain rfl := Option.some.inj hk
      simp only [List.modify_zero_cons, List.map_cons, List.sum_cons]
      omega
    | succ k =>
      have hsum := ih hk
      simp only [List.modify_succ_cons, List.map_cons, List.sum_cons, hsum]
      omega

theorem map_modify_eq {α β : Type*} {g : α → β} {f : α → α} (hf : ∀ a, g (f a) = g a) (l : List α)
    (k : ℕ) :
    (l.modify k f).map g = l.map g := by
  induction l generalizing k with
  | nil => simp
  | cons b l ih => cases k <;> simp [hf, ih]

/-- An entry after a change is the changed one or one of the others. -/
theorem modify_cases {α : Type*} {f : α → α} {l : List α} {k j : ℕ} {a b : α} (hk : l[k]? = some a)
    (hj : (l.modify k f)[j]? = some b) : j = k ∧ b = f a ∨ j ≠ k ∧ l[j]? = some b := by
  rw [List.getElem?_modify] at hj
  by_cases hjk : k = j
  · subst hjk
    simp only [hk, if_true] at hj
    exact Or.inl ⟨rfl, (Option.some.inj hj).symm⟩
  · simp only [hjk, if_false, id_map'] at hj
    exact Or.inr ⟨Ne.symm hjk, hj⟩

/-- A change of a backend and of the list that fit together. -/
theorem Accounted.update (h : Accounted bes maxChild s) {k : ℕ} {be : Backend}
    (hk : s.bes[k]? = some be) {f : Backend → Backend} {cs : Children}
    (hf : ∀ b, (f b).config = b.config) (hb : (f be).Balanced)
    (hcount : cs.nchild = cs.clist.length)
    (hlen : (cs.clist.length : ℤ) = s.children.clist.length + ((f be).nchild - be.nchild))
    (hmax : cs.clist.length ≤ maxChild)
    (howned : ∀ j, (cs.clist.countP (fun c => c.be = j) : ℤ) =
      s.children.clist.countP (fun c => c.be = j) + if j = k then (f be).nchild - be.nchild else 0)
    (hknown : ∀ c ∈ cs.clist, c.be < s.bes.length) :
    Accounted bes maxChild ((s.setChildren cs).modify k f) := by
  refine ⟨?_, h.limit, hcount, ?_, ?_, ?_, hmax, ?_⟩
  · rw [← h.config]
    exact map_modify_eq hf s.bes k
  · change ((s.bes.modify k f).map Backend.nchild).sum = (cs.clist.length : ℤ)
    rw [sum_map_modify Backend.nchild hk, h.total, hlen]
  · intro j b hj
    change (s.bes.modify k f)[j]? = some b at hj
    change b.nchild = (cs.clist.countP (fun c => c.be = j) : ℤ)
    rw [howned]
    rcases modify_cases hk hj with ⟨rfl, rfl⟩ | ⟨hjk, hj⟩
    · have ho := h.owned j be hk
      rw [if_pos rfl]
      omega
    · rw [if_neg hjk, add_zero]
      exact h.owned j b hj
  · intro c hc
    change c.be < (s.bes.modify k f).length
    rw [List.length_modify]
    exact hknown c hc
  · intro b hbm
    obtain ⟨j, hj⟩ := List.mem_iff_getElem?.mp hbm
    rcases modify_cases hk hj with ⟨-, rfl⟩ | ⟨-, hj⟩
    · exact hb
    · exact h.balanced b (List.mem_of_getElem? hj)

/-- A change of what a backend has still to fork. -/
theorem Accounted.retarget (h : Accounted bes maxChild s) {k : ℕ} {be : Backend}
    (hk : s.bes[k]? = some be) {f : Backend → Backend} (hf : ∀ b, (f b).config = b.config)
    (hn : (f be).nchild = be.nchild) (hb : (f be).Balanced) :
    Accounted bes maxChild (s.modify k f) := by
  have howned : ∀ j, (s.children.clist.countP fun c => c.be = j : ℤ) =
      (s.children.clist.countP fun c => c.be = j : ℤ) + if j = k then (f be).nchild - be.nchild
        else 0 := by
    simp [hn]
  exact h.update hk hf hb h.counted (by simp [hn]) h.within howned h.known

theorem serverAddChild_accounted (h : Accounted bes maxChild s) {k : ℕ} {be : Backend}
    (hk : s.bes[k]? = some be) (hmax : s.children.nchild ≠ s.maxChild)
    (hbe : be.nchild ≠ be.maxChild) (pid : ℕ) :
    Accounted bes maxChild (serverAddChild s pid k) := by
  have hb := h.balanced be (List.mem_of_getElem? hk)
  have hnonneg := hb.nonneg
  have hmost := hb.atMost
  have hleast := hb.atLeast
  have hcounted := h.counted
  have hwithin := h.within
  have hm := h.limit
  apply h.update (f := Backend.add) hk (fun _ => rfl)
  · refine ⟨hnonneg, ?_, ?_⟩
    · change be.nchild + 1 ≤ be.maxChild
      omega
    · change (be.startChild : ℤ) ≤ be.nchild + 1 + be.forkChild
      omega
  · simp [childrenAdd, hcounted]
  · simp [childrenAdd, Backend.add]
  · simp only [childrenAdd, List.length_append, List.length_singleton]
    omega
  · intro j
    by_cases hj : j = k
    · subst hj
      simp [childrenAdd, Backend.add]
    · simp [childrenAdd, hj, Ne.symm hj]
  · intro c hc
    rcases List.mem_append.mp hc with hc | hc
    · exact h.known c hc
    · obtain rfl := List.mem_singleton.mp hc
      exact (List.getElem?_eq_some_iff.mp hk).1

theorem serverReapChild_accounted (h : Accounted bes maxChild s) (pid : ℕ) :
    Accounted bes maxChild (serverReapChild s pid) := by
  unfold serverReapChild
  cases hc : childrenGetByPid s.children pid with
  | none => exact h
  | some child =>
    have hmem : child ∈ s.children.clist := List.mem_of_find?_eq_some hc
    have hpos := List.length_pos_of_mem hmem
    have hlen : (s.children.clist.erase child).length = s.children.clist.length - 1 :=
      List.length_erase_of_mem hmem
    obtain ⟨be, hk⟩ : ∃ be, s.bes[child.be]? = some be :=
      ⟨_, List.getElem?_eq_getElem (h.known child hmem)⟩
    have hb := h.balanced be (List.mem_of_getElem? hk)
    have hnonneg := hb.nonneg
    have hmost := hb.atMost
    have howner : 0 < s.children.clist.countP (fun c => c.be = child.be) :=
      List.countP_pos_iff.mpr ⟨child, hmem, by simp⟩
    apply h.update (f := Backend.reap) hk (fun _ => rfl)
    · refine ⟨?_, ?_, ?_⟩
      · change 0 ≤ if be.nchild - 1 < be.startChild then (be.startChild : ℤ) - (be.nchild - 1)
          else be.forkChild
        split <;> omega
      · change be.nchild - 1 ≤ be.maxChild
        omega
      · change (be.startChild : ℤ) ≤ be.nchild - 1 +
          if be.nchild - 1 < be.startChild then (be.startChild : ℤ) - (be.nchild - 1)
          else be.forkChild
        split <;> omega
    · have hcounted := h.counted
      simp only [childrenDel, hlen]
      omega
    · simp only [childrenDel, hlen, Backend.reap]
      omega
    · have hwithin := h.within
      simp only [childrenDel, hlen]
      omega
    · intro j
      have hcount := List.countP_erase (fun c : Child => decide (c.be = j)) s.children.clist child
      simp only [childrenDel, hcount, hmem, true_and, Backend.reap]
      by_cases hj : j = child.be
      · subst hj
        simp only [decide_true, if_true]
        omega
      · simp [hj, Ne.symm hj]
    · intro c hce
      exact h.known c (List.mem_of_mem_erase hce)

/-- A fork leaves the accounts in order, and whether it has failed or not, what is
still to be forked is the same. -/
theorem serverForkChild_accounted (h : Accounted bes maxChild s) (k : ℕ) (outcome : Option ℕ) :
    Accounted bes maxChild (serverForkChild s k outcome).1 ∧
      ∀ be, s.bes[k]? = some be → (serverForkChild s k outcome).1.bes[k]? =
        some (if (serverForkChild s k outcome).2.isSome then be.add else be) := by
  unfold serverForkChild
  cases hk : s.bes[k]? with
  | none => exact ⟨h, fun be hbe => by cases hbe⟩
  | some be =>
    by_cases hmax : s.children.nchild = s.maxChild
    · simpa [hmax, hk] using h
    · by_cases hbe : be.nchild = be.maxChild
      · simpa [hmax, hbe, hk] using h
      · cases outcome with
        | none => simpa [hmax, hbe, hk] using h
        | some pid =>
          have hadd := serverAddChild_accounted h hk hmax hbe pid
          simpa [hmax, hbe, hk, serverAddChild, Server.modify, Server.setChildren] using hadd

theorem spawnLoop_accounted {k : ℕ} (outcomes : List (Option ℕ)) (h : Accounted bes maxChild s)
    (i : ℕ) :
    Accounted bes maxChild (spawnLoop k s i outcomes).1 := by
  induction outcomes generalizing s i with
  | nil => exact h
  | cons outcome outcomes ih =>
    unfold spawnLoop
    by_cases hi : i < s.toFork k
    · obtain ⟨hfork, hbe⟩ := serverForkChild_accounted h k outcome
      simp only [if_pos hi, serverSpawnChild]
      by_cases hsome : (serverForkChild s k outcome).2.isSome = true
      · simp only [hsome, if_true]
        apply ih
        obtain ⟨be, hk⟩ : ∃ be, s.bes[k]? = some be := by
          cases hk : s.bes[k]? with
          | none =>
            rw [Server.toFork, hk] at hi
            simp at hi
            omega
          | some be => exact ⟨be, rfl⟩
        have hkf := hbe be hk
        simp only [hsome, if_true] at hkf
        have hb := h.balanced be (List.mem_of_getElem? hk)
        have hmost := (hfork.balanced be.add (List.mem_of_getElem? hkf)).atMost
        have hleast := hb.atLeast
        have hi' : (i : ℤ) < be.forkChild := by
          rw [Server.toFork, hk] at hi
          exact hi
        refine hfork.retarget hkf (fun _ => rfl) rfl ⟨?_, hmost, ?_⟩
        · change 0 ≤ be.forkChild - 1
          omega
        · change (be.startChild : ℤ) ≤ be.nchild + 1 + (be.forkChild - 1)
          omega
      · simp only [hsome, Bool.false_eq_true, if_false]
        exact hfork
    · simp only [if_neg hi]
      exact h

theorem spawnBackends_accounted (ks : List ℕ) (h : Accounted bes maxChild s)
    (outcomes : List (Option ℕ)) :
    Accounted bes maxChild (spawnBackends ks s outcomes) := by
  induction ks generalizing s outcomes with
  | nil => exact h
  | cons k ks ih =>
    unfold spawnBackends
    cases s.bes[k]? with
    | none => exact h
    | some be =>
      dsimp only
      split
      · exact ih h outcomes
      · split
        · exact ih (spawnLoop_accounted outcomes h 0) _
        · exact spawnLoop_accounted outcomes h 0

theorem serverPpcCbForkChild_accounted (h : Accounted bes maxChild s) (bid : ℤ)
    (outcome : Option ℕ) :
    Accounted bes maxChild (serverPpcCbForkChild s bid outcome) := by
  unfold serverPpcCbForkChild
  cases hbid : serverGetBackendById s bid with
  | none => exact h
  | some k =>
    obtain ⟨hfork, hbe⟩ := serverForkChild_accounted h k outcome
    simp only [serverSpawnChild]
    by_cases hsome : (serverForkChild s k outcome).2.isSome = true
    · simp only [hsome, if_true]
      exact hfork
    · simp only [hsome, Bool.false_eq_true, if_false] at hbe ⊢
      obtain ⟨be, hk⟩ : ∃ be, s.bes[k]? = some be := by
        obtain ⟨hlt, -⟩ := List.findIdx?_eq_some_iff_findIdx_eq.mp hbid
        exact ⟨_, List.getElem?_eq_getElem hlt⟩
      have hb := h.balanced be (List.mem_of_getElem? hk)
      have hnonneg := hb.nonneg
      have hleast := hb.atLeast
      refine hfork.retarget (hbe be hk) (fun _ => rfl) rfl ⟨?_, hb.atMost, ?_⟩
      · change 0 ≤ be.forkChild + 1
        omega
      · change (be.startChild : ℤ) ≤ be.nchild + (be.forkChild + 1)
        omega

theorem serverWaitpid_accounted (h : Accounted bes maxChild s) (pids : List ℕ) :
    Accounted bes maxChild (serverWaitpid s pids) := by
  induction pids generalizing s with
  | nil => exact h
  | cons pid pids ih => exact ih (serverReapChild_accounted h pid)

theorem step_accounted (h : Accounted bes maxChild s) (e : Event) :
    Accounted bes maxChild (step s e) := by
  cases e with
  | spawnChildren outcomes => exact spawnBackends_accounted _ h outcomes
  | forkRequest bid outcome => exact serverPpcCbForkChild_accounted h bid outcome
  | connection k outcome =>
    change Accounted bes maxChild (serverBeServe s k outcome)
    unfold serverBeServe
    cases s.bes[k]? with
    | none => exact h
    | some be =>
      dsimp only
      split
      · exact (serverForkChild_accounted h k outcome).1
      · exact h
  | waitpid pids => exact serverWaitpid_accounted h pids

theorem serverRun_accounted (h : Accounted bes maxChild s) (events : List Event) :
    Accounted bes maxChild (serverRun s events) := by
  induction events generalizing s with
  | nil => exact h
  | cons e events ih => exact ih (step_accounted h e)

/-- What the counters say is true, the limits are kept, and every backend has the
children it starts with or is going to fork them. -/
structure InOrder (s : Server) : Prop where
  counted : s.children.nchild = s.children.clist.length
  total : (s.children.clist.length : ℤ) = (s.bes.map Backend.nchild).sum
  within : s.children.clist.length ≤ s.maxChild
  backends : ∀ be ∈ s.bes, 0 ≤ be.nchild ∧ be.nchild ≤ be.maxChild ∧ 0 ≤ be.forkChild ∧
    be.startChild ≤ be.nchild + be.forkChild

theorem Accounted.inOrder (h : Accounted bes maxChild s) : InOrder s := by
  refine ⟨h.counted, h.total.symm, ?_, ?_⟩
  · rw [h.limit]
    exact h.within
  · intro be hbe
    have hb := h.balanced be hbe
    obtain ⟨k, hk⟩ := List.mem_iff_getElem?.mp hbe
    refine ⟨?_, hb.atMost, hb.nonneg, hb.atLeast⟩
    rw [h.owned k be hk]
    exact Int.natCast_nonneg _

/-- Whatever the forks, requests, connections and exits, the accounts are in order and
the configuration is what it was at the start. -/
theorem children_accounted (bes : List Backend) (maxChild : ℕ) (events : List Event) :
    InOrder (serverRun (serverStart bes maxChild) events) ∧
      (serverRun (serverStart bes maxChild) events).maxChild = maxChild ∧
      (serverRun (serverStart bes maxChild) events).bes.map Backend.config =
        bes.map Backend.config := by
  have h := serverRun_accounted (serverStart_accounted bes maxChild) events
  exact ⟨h.inOrder, h.limit, h.config⟩

end Klone.Kloned
