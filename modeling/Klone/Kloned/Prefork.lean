import Klone.Kloned.Children

/-! # How many children are forked ahead

The loop that forks the children of a backend goes up to a counter that it takes down
by one at the same time. The two meet halfway: half of the children are forked, rounded
up, and the rest is left for the next turn of the server.
-/
namespace Klone.Kloned

/-- What `server_spawn_children` returns: whether no fork has failed or was refused. -/
def spawnBackendsRet : List ℕ → Server → List (Option ℕ) → Bool
  | [], _, _ => true
  | k :: ks, s, outcomes =>
    match s.bes[k]? with
    | none => false
    | some be =>
      if be.model ≠ .prefork ∨ be.forkChild = 0 then spawnBackendsRet ks s outcomes
      else
        let r := spawnLoop k s 0 outcomes
        if r.2.2 then spawnBackendsRet ks r.1 r.2.1 else false

def serverSpawnChildrenRet (s : Server) (outcomes : List (Option ℕ)) : Bool :=
  spawnBackendsRet (List.range s.bes.length) s outcomes

def Server.childrenOf (s : Server) (k : ℕ) : ℕ := s.children.clist.countP fun c => decide (c.be = k)

/-- A backend with `m` more children, which are no longer to be forked. -/
def Backend.spawned (m : ℕ) (be : Backend) : Backend :=
  { be with nchild := be.nchild + m, forkChild := be.forkChild - m }

/-- From `s` to `t`, the backend at `k` has forked `m` children and the others none. -/
structure Spawned (k m : ℕ) (s t : Server) : Prop where
  own : ∀ be, s.bes[k]? = some be → t.bes[k]? = some (be.spawned m)
  other : ∀ j, j ≠ k → t.bes[j]? = s.bes[j]?
  children : ∀ j, t.childrenOf j = s.childrenOf j + if j = k then m else 0
  length : t.bes.length = s.bes.length

/-- What a backend forks of the children it has still to fork. -/
def Backend.half (be : Backend) : ℕ :=
  if be.model = .prefork then (be.forkChild.toNat + 1) / 2 else 0

/-- Every prefork backend has got all the children it had still to fork. -/
def SpawnsAll (s t : Server) : Prop :=
  ∀ k be, s.bes[k]? = some be → be.model = .prefork →
    t.childrenOf k = s.childrenOf k + be.forkChild.toNat ∧
      ∃ be', t.bes[k]? = some be' ∧ be'.forkChild = 0

theorem Spawned.refl (k : ℕ) (s : Server) : Spawned k 0 s s := by
  refine ⟨?_, fun j _ => rfl, fun j => ?_, rfl⟩
  · intro be hk
    rw [hk, Backend.spawned, Nat.cast_zero, add_zero, sub_zero]
  · rw [ite_self, add_zero]

theorem Spawned.trans {k m n : ℕ} {s t u : Server} (h : Spawned k m s t) (h' : Spawned k n t u) :
    Spawned k (m + n) s u := by
  refine ⟨?_, ?_, ?_, h'.length.trans h.length⟩
  · intro be hk
    have hu := h'.own _ (h.own be hk)
    rw [hu, Backend.spawned, Backend.spawned, Backend.spawned]
    congr 2
    · push_cast
      omega
    · push_cast
      omega
  · intro j hj
    exact (h'.other j hj).trans (h.other j hj)
  · intro j
    rw [h'.children, h.children]
    split <;> omega

theorem serverForkChild_some {s : Server} {k : ℕ} {outcome : Option ℕ}
    (h : (serverForkChild s k outcome).2.isSome = true) :
    ∃ pid, (serverForkChild s k outcome).1 = serverAddChild s pid k := by
  unfold serverForkChild at h ⊢
  cases hk : s.bes[k]? with
  | none => simp [hk] at h
  | some be =>
    by_cases hmax : s.children.nchild = s.maxChild
    · simp [hk, hmax] at h
    · by_cases hbe : be.nchild = be.maxChild
      · simp [hk, hmax, hbe] at h
      · cases outcome with
        | none => simp [hk, hmax, hbe] at h
        | some pid => exact ⟨pid, by simp [hmax, hbe]⟩

theorem toFork_eq {s : Server} {k : ℕ} {be : Backend} (hk : s.bes[k]? = some be) :
    s.toFork k = be.forkChild := by
  rw [Server.toFork, hk]
  rfl

theorem spawned_done {s : Server} {k i : ℕ} {be : Backend} (h : be.forkChild ≤ i) :
    Spawned k (((be.forkChild - i).toNat + 1) / 2) s s := by
  have hz : ((be.forkChild - i).toNat + 1) / 2 = 0 := by omega
  rw [hz]
  exact Spawned.refl k s

/-- One turn of the loop: one child more and one less to fork. -/
theorem spawned_one (s : Server) (pid k : ℕ) :
    Spawned k 1 s ((serverAddChild s pid k).modify k Backend.forked) := by
  have hbes : ((serverAddChild s pid k).modify k Backend.forked).bes =
      (s.bes.modify k Backend.add).modify k Backend.forked := rfl
  refine ⟨?_, ?_, ?_, ?_⟩
  · intro be hk
    rw [hbes, List.getElem?_modify_eq, List.getElem?_modify_eq, hk]
    rfl
  · intro j hj
    rw [hbes, List.getElem?_modify_ne _ _ (Ne.symm hj), List.getElem?_modify_ne _ _ (Ne.symm hj)]
  · intro j
    change (s.children.clist ++ [(⟨pid, k⟩ : Child)]).countP _ = _
    rw [List.countP_append, List.countP_singleton]
    by_cases hj : j = k
    · subst hj
      simp [Server.childrenOf]
    · simp [Server.childrenOf, hj, Ne.symm hj]
  · rw [hbes, List.length_modify, List.length_modify]

/-- The counter and its bound meet halfway. -/
theorem spawnLoop_half {k : ℕ} (outcomes : List (Option ℕ)) {s : Server} {be : Backend} {i : ℕ}
    (hk : s.bes[k]? = some be) (hok : (spawnLoop k s i outcomes).2.2 = true) :
    Spawned k (((be.forkChild - i).toNat + 1) / 2) s (spawnLoop k s i outcomes).1 := by
  induction outcomes generalizing s be i with
  | nil =>
    have hle : s.toFork k ≤ i := of_decide_eq_true hok
    exact spawned_done (toFork_eq hk ▸ hle)
  | cons outcome outcomes ih =>
    unfold spawnLoop at hok ⊢
    by_cases hi : i < s.toFork k
    · simp only [if_pos hi, serverSpawnChild] at hok ⊢
      by_cases hsome : (serverForkChild s k outcome).2.isSome = true
      · simp only [hsome, if_true] at hok ⊢
        obtain ⟨pid, hpid⟩ := serverForkChild_some hsome
        rw [hpid] at hok ⊢
        have hone := spawned_one s pid k
        have hrest := ih (hone.own be hk) hok
        have hsum : ((be.forkChild - i).toNat + 1) / 2 =
            1 + ((be.forkChild - (1 : ℕ) - (i + 1 : ℕ)).toNat + 1) / 2 := by
          rw [toFork_eq hk] at hi
          omega
        rw [hsum]
        exact hone.trans hrest
      · simp only [hsome] at hok
        cases hok
    · rw [if_neg hi]
      rw [toFork_eq hk] at hi
      exact spawned_done (not_lt.mp hi)

/-! ## All backends -/

structure HalfSpawned (ks : List ℕ) (s t : Server) : Prop where
  bes : ∀ (j : ℕ) (be : Backend), s.bes[j]? = some be →
    t.bes[j]? = some (be.spawned (if j ∈ ks then be.half else 0))
  children : ∀ (j : ℕ) (be : Backend), s.bes[j]? = some be →
    t.childrenOf j = s.childrenOf j + if j ∈ ks then be.half else 0

theorem half_skip {be : Backend} (h : be.model ≠ .prefork ∨ be.forkChild = 0) : be.half = 0 := by
  unfold Backend.half
  rcases h with hm | hz
  · exact if_neg hm
  · rw [hz]
    exact ite_self 0

/-- The first backend has had its turn and the others follow. -/
theorem HalfSpawned.cons {k : ℕ} {ks : List ℕ} (hnd : k ∉ ks) {s t u : Server} {be : Backend}
    (hk : s.bes[k]? = some be) (hone : Spawned k be.half s t) (h : HalfSpawned ks t u) :
    HalfSpawned (k :: ks) s u := by
  constructor
  · intro j b hj
    by_cases hjk : j = k
    · subst hjk
      obtain rfl : be = b := Option.some.inj (hk.symm.trans hj)
      have hu := h.bes j _ (hone.own be hk)
      rw [if_neg hnd] at hu
      rw [if_pos List.mem_cons_self, hu]
      simp [Backend.spawned]
    · have hu := h.bes j b ((hone.other j hjk).trans hj)
      rw [hu]
      simp only [List.mem_cons, hjk, false_or]
  · intro j b hj
    by_cases hjk : j = k
    · subst hjk
      obtain rfl : be = b := Option.some.inj (hk.symm.trans hj)
      have hu := h.children j _ (hone.own be hk)
      rw [if_neg hnd, hone.children, if_pos rfl] at hu
      rw [if_pos List.mem_cons_self, hu, add_zero]
    · have hu := h.children j b ((hone.other j hjk).trans hj)
      rw [hone.children, if_neg hjk, add_zero] at hu
      rw [hu]
      simp only [List.mem_cons, hjk, false_or]

theorem spawnBackends_half {ks : List ℕ} (hnd : ks.Nodup) {s : Server} {outcomes : List (Option ℕ)}
    (hok : spawnBackendsRet ks s outcomes = true) :
    HalfSpawned ks s (spawnBackends ks s outcomes) := by
  induction ks generalizing s outcomes with
  | nil =>
    refine ⟨fun j be hj => ?_, fun j be hj => rfl⟩
    rw [spawnBackends, hj, if_neg List.not_mem_nil, Backend.spawned, Nat.cast_zero,
      add_zero, sub_zero]
  | cons k ks ih =>
    obtain ⟨hk', hnd'⟩ := List.nodup_cons.mp hnd
    unfold spawnBackendsRet at hok
    unfold spawnBackends
    cases hk : s.bes[k]? with
    | none => simp [hk] at hok
    | some be =>
      simp only [hk] at hok ⊢
      by_cases hskip : be.model ≠ .prefork ∨ be.forkChild = 0
      · rw [if_pos hskip] at hok ⊢
        refine HalfSpawned.cons hk' hk ?_ (ih hnd' hok)
        rw [half_skip hskip]
        exact Spawned.refl k s
      · rw [if_neg hskip] at hok ⊢
        by_cases hloop : (spawnLoop k s 0 outcomes).2.2 = true
        · rw [if_pos hloop] at hok ⊢
          refine HalfSpawned.cons hk' hk ?_ (ih hnd' hok)
          have hhalf := spawnLoop_half outcomes hk hloop
          rw [Nat.cast_zero, sub_zero] at hhalf
          have hm : be.model = .prefork := not_not.mp (fun hm => hskip (Or.inl hm))
          rw [Backend.half, if_pos hm]
          exact hhalf
        · rw [if_neg hloop] at hok
          cases hok

/-- Half of the children of every prefork backend are forked, rounded up. -/
theorem serverSpawnChildren_half {s : Server} {outcomes : List (Option ℕ)}
    (hok : serverSpawnChildrenRet s outcomes = true) {k : ℕ} {be : Backend}
    (hk : s.bes[k]? = some be) :
    (serverSpawnChildren s outcomes).bes[k]? = some (be.spawned be.half) ∧
      (serverSpawnChildren s outcomes).childrenOf k = s.childrenOf k + be.half := by
  have h := spawnBackends_half List.nodup_range hok
  have hmem : k ∈ List.range s.bes.length := List.mem_range.mpr (List.getElem?_eq_some_iff.mp hk).1
  have hbes := h.bes k be hk
  have hchildren := h.children k be hk
  rw [if_pos hmem] at hbes hchildren
  exact ⟨hbes, hchildren⟩

/-! ## When it succeeds -/

/-- The children that one call forks for the `k`-th backend. -/
def Server.due (s : Server) (k : ℕ) : ℕ := (s.bes[k]?.map Backend.half).getD 0

theorem serverForkChild_room {s : Server} {k : ℕ} {be : Backend} (hk : s.bes[k]? = some be)
    (hmax : s.children.nchild ≠ s.maxChild) (hbe : be.nchild ≠ be.maxChild) (pid : ℕ) :
    serverForkChild s k (some pid) = (serverAddChild s pid k, some pid) := by
  unfold serverForkChild
  simp only [hk, if_neg hmax, if_neg hbe]

/-- With room for the children of a backend and processes for them the loop gets to its end. -/
theorem spawnLoop_room {k n i : ℕ} {s : Server} {be : Backend} (outcomes : List (Option ℕ))
    (hk : s.bes[k]? = some be) (hn : n = ((be.forkChild - i).toNat + 1) / 2)
    (hsome : ∀ o ∈ outcomes, o.isSome = true) (hlen : n ≤ outcomes.length)
    (hmax : s.children.nchild + n ≤ s.maxChild) (hbe : be.nchild + n ≤ be.maxChild) :
    (spawnLoop k s i outcomes).2.2 = true ∧ (spawnLoop k s i outcomes).2.1 = outcomes.drop n ∧
      (spawnLoop k s i outcomes).1.children.nchild = s.children.nchild + n ∧
        (spawnLoop k s i outcomes).1.maxChild = s.maxChild := by
  induction outcomes generalizing s be i n with
  | nil =>
    obtain rfl := Nat.le_zero.mp hlen
    refine ⟨decide_eq_true ?_, rfl, (add_zero _).symm, rfl⟩
    rw [toFork_eq hk]
    omega
  | cons outcome outcomes ih =>
    unfold spawnLoop
    by_cases hi : i < s.toFork k
    · obtain ⟨pid, rfl⟩ := Option.isSome_iff_exists.mp (hsome outcome List.mem_cons_self)
      rw [toFork_eq hk] at hi
      obtain ⟨m, rfl⟩ : ∃ m, n = m + 1 := ⟨n - 1, by omega⟩
      have hfork := serverForkChild_room hk (by omega) (by omega) pid
      have hone := (spawned_one s pid k).own be hk
      have hleft : m = ((be.forkChild - (1 : ℕ) - (i + 1 : ℕ)).toNat + 1) / 2 := by omega
      have hcount : (serverAddChild s pid k).children.nchild = s.children.nchild + 1 := rfl
      rw [if_pos (by rwa [toFork_eq hk])]
      simp only [serverSpawnChild, hfork, Option.isSome_some, if_true]
      obtain ⟨hok, hdrop, hchildren, hlimit⟩ :=
        ih hone hleft (fun o ho => hsome o (List.mem_cons_of_mem _ ho))
        (Nat.le_of_succ_le_succ hlen)
        (by change (serverAddChild s pid k).children.nchild + (m : ℤ) ≤ s.maxChild; omega)
        (by change be.nchild + ((1 : ℕ) : ℤ) + (m : ℤ) ≤ be.maxChild; omega)
      refine ⟨hok, hdrop, ?_, hlimit⟩
      rw [hchildren]
      change (serverAddChild s pid k).children.nchild + (m : ℤ) = _
      omega
    · rw [if_neg hi]
      rw [toFork_eq hk] at hi
      have hz : n = 0 := by omega
      subst hz
      exact ⟨rfl, rfl, (add_zero _).symm, rfl⟩

theorem spawnBackends_room {ks : List ℕ} (hnd : ks.Nodup) {s : Server} {outcomes : List (Option ℕ)}
    (hks : ∀ k ∈ ks, ∃ be, s.bes[k]? = some be ∧ be.nchild + be.half ≤ be.maxChild)
    (hsome : ∀ o ∈ outcomes, o.isSome = true) (hlen : (ks.map s.due).sum ≤ outcomes.length)
    (hmax : s.children.nchild + (ks.map s.due).sum ≤ s.maxChild) :
    spawnBackendsRet ks s outcomes = true := by
  induction ks generalizing s outcomes with
  | nil => rfl
  | cons k ks ih =>
    obtain ⟨hnot, hnd⟩ := List.nodup_cons.mp hnd
    obtain ⟨⟨be, hk, hbe⟩, hks⟩ := List.forall_mem_cons.mp hks
    have hdue : s.due k = be.half := by
      rw [Server.due, hk]
      rfl
    rw [List.map_cons, List.sum_cons, hdue] at hlen hmax
    rw [Nat.cast_add] at hmax
    simp only [spawnBackendsRet, hk]
    by_cases hskip : be.model ≠ .prefork ∨ be.forkChild = 0
    · rw [if_pos hskip]
      rw [half_skip hskip] at hlen hmax
      exact ih hnd hks hsome (by omega) (by omega)
    · rw [if_neg hskip]
      have hm : be.model = .prefork := not_not.mp fun hm => hskip (Or.inl hm)
      have hhalf : be.half = ((be.forkChild - (0 : ℕ)).toNat + 1) / 2 := by
        rw [Backend.half, if_pos hm, Nat.cast_zero, sub_zero]
      obtain ⟨hok, hdrop, hchildren, hlimit⟩ :=
        spawnLoop_room outcomes hk hhalf hsome (by omega) (by omega) hbe
      have hone := spawnLoop_half outcomes hk hok
      rw [if_pos hok, hdrop]
      -- the other backends are as they were
      have hsame : ∀ j ∈ ks, (spawnLoop k s 0 outcomes).1.bes[j]? = s.bes[j]? := by
        intro j hj
        apply hone.other j
        rintro rfl
        exact hnot hj
      have hmap : ks.map (spawnLoop k s 0 outcomes).1.due = ks.map s.due :=
        List.map_congr_left fun j hj => by rw [Server.due, Server.due, hsame j hj]
      apply ih hnd
      · intro j hj
        obtain ⟨b, hb, hroom⟩ := hks j hj
        exact ⟨b, (hsame j hj).trans hb, hroom⟩
      · exact fun o ho => hsome o (List.mem_of_mem_drop ho)
      · rw [hmap, List.length_drop]
        omega
      · rw [hmap, hchildren, hlimit]
        omega

/-- No fork fails and no limit is reached when there are processes and room for all the
children that are forked. -/
theorem serverSpawnChildrenRet_room {s : Server} {outcomes : List (Option ℕ)}
    (hbes : ∀ be ∈ s.bes, be.nchild + be.half ≤ be.maxChild)
    (hsome : ∀ o ∈ outcomes, o.isSome = true)
    (hlen : (s.bes.map Backend.half).sum ≤ outcomes.length)
    (hmax : s.children.nchild + (s.bes.map Backend.half).sum ≤ s.maxChild) :
    serverSpawnChildrenRet s outcomes = true := by
  have hdue : (List.range s.bes.length).map s.due = s.bes.map Backend.half := by
    apply List.ext_getElem
    · rw [List.length_map, List.length_map, List.length_range]
    · intro k hk hk'
      rw [List.length_map] at hk'
      simp [Server.due, List.getElem?_eq_getElem hk']
  apply spawnBackends_room List.nodup_range
  · intro k hk
    have hlt := List.mem_range.mp hk
    exact ⟨s.bes[k], List.getElem?_eq_getElem hlt, hbes _ (List.getElem_mem hlt)⟩
  · exact hsome
  · rw [hdue]
    exact hlen
  · rw [hdue]
    exact hmax

/-- When no fork fails and no limit is reached, all children are forked if and only if
no prefork backend has more than one to fork. -/
theorem serverSpawnChildren_iff (s : Server) (outcomes : List (Option ℕ))
    (hok : serverSpawnChildrenRet s outcomes = true) :
    SpawnsAll s (serverSpawnChildren s outcomes) ↔
      ∀ be ∈ s.bes, be.model = .prefork → be.forkChild = 0 ∨ be.forkChild = 1 := by
  constructor
  · intro h be hbe hm
    obtain ⟨k, hk⟩ := List.mem_iff_getElem?.mp hbe
    obtain ⟨hcount, be', hbe', hzero⟩ := h k be hk hm
    obtain ⟨hbes, hhalf⟩ := serverSpawnChildren_half hok hk
    rw [hbes] at hbe'
    obtain rfl := Option.some.inj hbe'
    change be.forkChild - (be.half : ℤ) = 0 at hzero
    rw [hhalf] at hcount
    have hall : be.half = be.forkChild.toNat := Nat.add_left_cancel hcount
    rw [Backend.half, if_pos hm] at hall hzero
    omega
  · intro h k be hk hm
    have hone := h be (List.mem_of_getElem? hk) hm
    obtain ⟨hbes, hcount⟩ := serverSpawnChildren_half hok hk
    have hhalf : be.half = be.forkChild.toNat := by
      rw [Backend.half, if_pos hm]
      omega
    rw [hhalf] at hbes hcount
    refine ⟨hcount, _, hbes, ?_⟩
    change be.forkChild - (be.forkChild.toNat : ℤ) = 0
    omega

/-- A prefork backend that has just been started and one that serves connections. -/
def twoBackends (n : ℕ) : Server :=
  serverStart [⟨1, .prefork, 10, n, 0, 0⟩, ⟨2, .fork, 10, 0, 0, 0⟩] 10

theorem serverSpawnChildren_iff_one :
    SpawnsAll (twoBackends 1) (serverSpawnChildren (twoBackends 1) [some 11]) :=
  (serverSpawnChildren_iff (twoBackends 1) [some 11] rfl).mpr (by decide)

/-- Of two children only one is forked. -/
theorem serverSpawnChildren_leaves_one :
    ¬ ∀ s outcomes, (∀ be ∈ s.bes, 0 ≤ be.forkChild) → serverSpawnChildrenRet s outcomes = true →
      SpawnsAll s (serverSpawnChildren s outcomes) := by
  intro h
  have hall := h (twoBackends 2) [some 11, some 12] (by decide) rfl
  obtain ⟨-, be, hbe, hzero⟩ := hall 0 _ rfl rfl
  have hone : (serverSpawnChildren (twoBackends 2) [some 11, some 12]).bes[0]? =
      some ⟨1, .prefork, 10, 2, 1, 1⟩ := rfl
  rw [hone] at hbe
  obtain rfl := Option.some.inj hbe
  cases hzero

end Klone.Kloned
