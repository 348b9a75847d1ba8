import Mathlib

/-! # Loops and fuel

A loop of an imperative program is its body: one evaluation either goes round
again with a new state or leaves with a result. Bodies may themselves contain
loops, so a body is a fuel-indexed partial computation, and termination is the
statement that every large enough fuel gives the same answer.
-/
namespace Klone.Loop
variable {σ ρ α β : Type*}

/-- What one evaluation of a loop body does. -/
inductive Iter (σ ρ : Type*) where
  | again (s : σ)
  | leave (r : ρ)

/-- At most `fuel` rounds of a loop; `none` is reserved for lack of fuel. -/
def run (body : σ → Option (Iter σ ρ)) : ℕ → σ → Option ρ
  | 0, _ => none
  | fuel + 1, s =>
    match body s with
    | none => none
    | some (.again t) => run body fuel t
    | some (.leave r) => some r

/-- Loop heads visited from a given one. -/
def Reaches (body : σ → Option (Iter σ ρ)) : σ → σ → Prop :=
  Relation.ReflTransGen (fun s t => body s = some (.again t))

/-- The rule for facts true at every loop head. -/
theorem Reaches.invariant {body : σ → Option (Iter σ ρ)} {I : σ → Prop}
    (hstep : ∀ s t, I s → body s = some (.again t) → I t)
    {s t : σ} (h : Reaches body s t) (hs : I s) : I t := by
  induction h with
  | refl => exact hs
  | tail _ he ih => exact hstep _ _ ih he

theorem run_again {body : σ → Option (Iter σ ρ)} {s t : σ} (h : body s = some (.again t))
    (fuel : ℕ) :
    run body (fuel + 1) s = run body fuel t := by
  simp only [run, h]

theorem run_leave {body : σ → Option (Iter σ ρ)} {s : σ} {r : ρ} (h : body s = some (.leave r))
    (fuel : ℕ) : run body (fuel + 1) s = some r := by
  simp only [run, h]

/-- A finished run has left from some loop head it visited. -/
theorem run_reaches {body : σ → Option (Iter σ ρ)} {fuel : ℕ} {s : σ} {r : ρ}
    (h : run body fuel s = some r) : ∃ t, Reaches body s t ∧ body t = some (.leave r) := by
  induction fuel generalizing s with
  | zero => cases h
  | succ fuel ih =>
    cases hb : body s with
    | none => simp only [run, hb] at h; cases h
    | some it =>
      cases it with
      | again t =>
        rw [run_again hb] at h
        obtain ⟨u, hu, hl⟩ := ih h
        exact ⟨u, Relation.ReflTransGen.head hb hu, hl⟩
      | leave r' =>
        rw [run_leave hb] at h
        cases h
        exact ⟨s, Relation.ReflTransGen.refl, hb⟩

/-- The head from which a run leaves comes after every other head of the run. -/
theorem Reaches.to_leave {body : σ → Option (Iter σ ρ)} {s t u : σ} {r : ρ} (ht : Reaches body s t)
    (hu : Reaches body s u) (hl : body u = some (.leave r)) : Reaches body t u := by
  have hdet : Relator.RightUnique (fun s t => body s = some (.again t)) := by
    intro a b c hb hc
    exact Iter.again.inj (Option.some.inj (hb.symm.trans hc))
  rcases Relation.ReflTransGen.total_of_right_unique hdet ht hu with h | h
  · exact h
  · rcases Relation.ReflTransGen.cases_head h with rfl | ⟨v, hv, _⟩
    · exact Relation.ReflTransGen.refl
    · rw [hl] at hv
      cases hv

/-- A finished run has the result with which a head of it leaves. -/
theorem run_unique {body : σ → Option (Iter σ ρ)} {fuel : ℕ} {s t : σ} {r r' : ρ}
    (h : run body fuel s = some r') (ht : Reaches body s t) (hl : body t = some (.leave r)) :
    r' = r := by
  obtain ⟨u, hu, hlu⟩ := run_reaches h
  rcases Relation.ReflTransGen.cases_head (ht.to_leave hu hlu) with rfl | ⟨v, hv, -⟩
  · rw [hl] at hlu
    exact (Iter.leave.inj (Option.some.inj hlu)).symm
  · rw [hl] at hv
    cases hv

/-- A round keeps a fact: it holds of the next head, or of the result. -/
def Iter.Keeps (I : σ → Prop) (J : ρ → Prop) : Iter σ ρ → Prop
  | .again t => I t
  | .leave r => J r

theorem run_keeps {body : σ → Option (Iter σ ρ)} {I : σ → Prop} {J : ρ → Prop}
    (hb : ∀ s i, I s → body s = some i → i.Keeps I J) {fuel : ℕ} {s : σ} {r : ρ} (hs : I s)
    (h : run body fuel s = some r) : J r := by
  obtain ⟨t, hreach, hleave⟩ := run_reaches h
  have ht : I t := hreach.invariant (fun u v hu he => hb u (.again v) hu he) hs
  exact hb t (.leave r) ht hleave

/-- A loop whose rounds decrease a natural number terminates within that many rounds. -/
theorem run_total {body : σ → Option (Iter σ ρ)} (μ : σ → ℕ) {I : σ → Prop}
    (hb : ∀ s, I s → (∃ t, body s = some (.again t) ∧ I t ∧ μ t < μ s) ∨ ∃ r,
      body s = some (.leave r))
    {fuel : ℕ} {s : σ} (hs : I s) (hf : μ s < fuel) : ∃ r, run body fuel s = some r := by
  induction fuel generalizing s with
  | zero => omega
  | succ fuel ih =>
    rcases hb s hs with ⟨t, ht, hi, hlt⟩ | ⟨r, hr⟩
    · rw [run_again ht]
      exact ih hi (by omega)
    · exact ⟨r, run_leave hr fuel⟩

/-- A fuel-indexed computation ends with `r` when all large enough fuels give `r`. -/
def Ends (f : ℕ → Option ρ) (r : ρ) : Prop := ∃ N, ∀ n, N ≤ n → f n = some r

theorem Ends.some_run {f : ℕ → Option ρ} {r : ρ} (h : Ends f r) : ∃ n, f n = some r := by
  obtain ⟨N, hN⟩ := h
  exact ⟨N, hN N (le_refl N)⟩

theorem Ends.const (r : ρ) : Ends (fun _ => some r) r := ⟨0, fun _ _ => rfl⟩

theorem Ends.bind {f : ℕ → Option α} {g : ℕ → α → Option β} {a : α} {b : β}
    (hf : Ends f a) (hg : Ends (fun n => g n a) b) : Ends (fun n => (f n).bind (g n)) b := by
  obtain ⟨N, hN⟩ := hf
  obtain ⟨M, hM⟩ := hg
  refine ⟨N + M, fun n hn => ?_⟩
  simp only [hN n (by omega), Option.bind_some]
  exact hM n (by omega)

theorem Ends.map {f : ℕ → Option α} {a : α} (h : Ends f a) (g : α → β) :
    Ends (fun n => (f n).map g) (g a) := by
  obtain ⟨N, hN⟩ := h
  refine ⟨N, fun n hn => ?_⟩
  simp only [hN n hn, Option.map_some]

theorem Ends.map_eq {f : ℕ → Option α} {g : α → β} {a : α} {b : β} (h : Ends f a) (hb : g a = b) :
    Ends (fun n => (f n).map g) b := by
  rw [← hb]
  exact h.map g

/-- Spending one unit of fuel before starting does not matter. -/
theorem Ends.succ {f g : ℕ → Option ρ} {r : ρ} (h : Ends f r) (he : ∀ n, g (n + 1) = f n) :
    Ends g r := by
  obtain ⟨N, hN⟩ := h
  refine ⟨N + 1, fun n hn => ?_⟩
  obtain ⟨k, rfl⟩ : ∃ k, n = k + 1 := ⟨n - 1, by omega⟩
  exact (he k).trans (hN k (by omega))

/-- A loop fails when all large enough fuels give nothing. -/
def Fails (f : ℕ → Option ρ) : Prop := ∃ N, ∀ n, N ≤ n → f n = none

theorem Fails.const : Fails (fun _ => (none : Option ρ)) := ⟨0, fun _ _ => rfl⟩

theorem Ends.not_fails {f : ℕ → Option ρ} {r : ρ} (h : Ends f r) : ¬ Fails f := by
  rintro ⟨M, hM⟩
  obtain ⟨N, hN⟩ := h
  have hsome := hN (N + M) (Nat.le_add_right N M)
  rw [hM (N + M) (Nat.le_add_left M N)] at hsome
  cases hsome

theorem Fails.bind {f : ℕ → Option α} (h : Fails f) (g : ℕ → α → Option β) :
    Fails (fun n => (f n).bind (g n)) := by
  obtain ⟨N, hN⟩ := h
  refine ⟨N, fun n hn => ?_⟩
  simp only [hN n hn, Option.bind_none]

theorem Ends.bind_fails {f : ℕ → Option α} {g : ℕ → α → Option β} {a : α} (hf : Ends f a)
    (hg : Fails (fun n => g n a)) : Fails (fun n => (f n).bind (g n)) := by
  obtain ⟨N, hN⟩ := hf
  obtain ⟨M, hM⟩ := hg
  refine ⟨N + M, fun n hn => ?_⟩
  simp only [hN n (by omega), Option.bind_some]
  exact hM n (by omega)

theorem Fails.succ {f g : ℕ → Option ρ} (h : Fails f) (he : ∀ n, g (n + 1) = f n) : Fails g := by
  obtain ⟨N, hN⟩ := h
  refine ⟨N + 1, fun n hn => ?_⟩
  obtain ⟨k, rfl⟩ : ∃ k, n = k + 1 := ⟨n - 1, by omega⟩
  exact (he k).trans (hN k (by omega))

/-- Total correctness of a loop whose body is itself fuel-indexed: an invariant
that says how many rounds are left at most, and a postcondition. -/
theorem ends_run (body : ℕ → σ → Option (Iter σ ρ)) {I : ℕ → σ → Prop} {Q : ρ → Prop}
    (hb : ∀ m s, I m s → (∃ t k, Ends (fun n => body n s) (.again t) ∧ k < m ∧ I k t) ∨
      ∃ r, Ends (fun n => body n s) (.leave r) ∧ Q r)
    {m : ℕ} {s : σ} (hs : I m s) : ∃ r, Q r ∧ Ends (fun n => run (body n) n s) r := by
  suffices h : ∃ r, Q r ∧ ∃ N, ∀ n k, N ≤ n → N ≤ k → run (body n) k s = some r by
    obtain ⟨r, hq, N, hN⟩ := h
    exact ⟨r, hq, N, fun n hn => hN n n hn hn⟩
  induction m using Nat.strong_induction_on generalizing s with
  | h m ih =>
    rcases hb m s hs with ⟨t, j, ⟨N, hN⟩, hlt, hi⟩ | ⟨r, ⟨N, hN⟩, hq⟩
    · obtain ⟨r, hq, M, hM⟩ := ih j hlt hi
      refine ⟨r, hq, N + M + 1, fun n k hn hk => ?_⟩
      obtain ⟨i, rfl⟩ : ∃ i, k = i + 1 := ⟨k - 1, by omega⟩
      rw [run_again (hN n (by omega))]
      exact hM n i (by omega) (by omega)
    · refine ⟨r, hq, N + 1, fun n k hn hk => ?_⟩
      obtain ⟨i, rfl⟩ : ∃ i, k = i + 1 := ⟨k - 1, by omega⟩
      exact run_leave (hN n (by omega)) i

/-- What a loop does in a round is followed by a fuel-indexed one. -/
def Iter.Followed {σ' ρ' : Type*} (R : σ → σ' → Prop) (Q : ρ → ρ' → Prop)
    (f : ℕ → Option (Iter σ' ρ')) : Iter σ ρ → Prop
  | .again t => ∃ t', Ends f (.again t') ∧ R t t'
  | .leave r => ∃ r', Ends f (.leave r') ∧ Q r r'

/-- The rule of simulation: a loop that follows a finished one round by round ends as well. -/
theorem run_followed {σ' ρ' : Type*} {body : σ → Option (Iter σ ρ)}
    {body' : ℕ → σ' → Option (Iter σ' ρ')} {R : σ → σ' → Prop} {Q : ρ → ρ' → Prop}
    (hb : ∀ s s' i, R s s' → body s = some i → i.Followed R Q fun n => body' n s') {fuel : ℕ}
    {s : σ} {s' : σ'} {r : ρ} (hs : R s s') (h : run body fuel s = some r) :
    ∃ r', Q r r' ∧ Ends (fun n => run (body' n) n s') r' := by
  refine ends_run body' (I := fun m s' => ∃ s, R s s' ∧ run body m s = some r)
    (Q := Q r) ?_ ⟨s, hs, h⟩
  rintro m t' ⟨t, ht, hrun⟩
  cases m with
  | zero => cases hrun
  | succ m =>
    cases hbt : body t with
    | none => simp only [run, hbt] at hrun; cases hrun
    | some i =>
      cases i with
      | again u =>
        obtain ⟨u', hends, hu⟩ := hb t t' _ ht hbt
        rw [Loop.run_again hbt] at hrun
        exact Or.inl ⟨u', m, hends, Nat.lt_succ_self m, u, hu, hrun⟩
      | leave q =>
        obtain ⟨q', hends, hq⟩ := hb t t' _ ht hbt
        rw [run_leave hbt] at hrun
        exact Or.inr ⟨q', hends, Option.some.inj hrun ▸ hq⟩

theorem Ends.unique {f : ℕ → Option ρ} {r r' : ρ} (h : Ends f r) (h' : Ends f r') : r = r' := by
  obtain ⟨N, hN⟩ := h
  obtain ⟨M, hM⟩ := h'
  have hr := hN (N + M) (Nat.le_add_right N M)
  have hr' := hM (N + M) (Nat.le_add_left M N)
  exact Option.some.inj (hr.symm.trans hr')

theorem Ends.run_again {body : σ → Option (Iter σ ρ)} {s t : σ} {r : ρ}
    (h : Ends (fun n => run body n t) r) (hb : body s = some (.again t)) :
    Ends (fun n => run body n s) r :=
  h.succ (Loop.run_again hb)

theorem ends_leave {body : σ → Option (Iter σ ρ)} {s : σ} {r : ρ} (hb : body s = some (.leave r)) :
    Ends (fun n => run body n s) r :=
  (Ends.const r).succ (run_leave hb)

/-- A run that gets to a head ends like the run from there. -/
theorem Ends.reaches {body : σ → Option (Iter σ ρ)} {s t : σ} {r : ρ}
    (h : Ends (fun n => run body n t) r) (hr : Reaches body s t) :
    Ends (fun n => run body n s) r := by
  induction hr using Relation.ReflTransGen.head_induction_on with
  | refl => exact h
  | head hs _ ih => exact ih.run_again hs

/-! ## Loops with a record of where they leave -/

/-- The body of a loop that also returns the head from which it leaves. -/
def logged (body : σ → Option (Iter σ ρ)) (s : σ) : Option (Iter σ (σ × ρ)) :=
  (body s).map fun
    | .again t => .again t
    | .leave r => .leave (s, r)

theorem run_logged (body : σ → Option (Iter σ ρ)) (fuel : ℕ) (s : σ) :
    (run (logged body) fuel s).map Prod.snd = run body fuel s := by
  induction fuel generalizing s with
  | zero => rfl
  | succ fuel ih =>
    cases hb : body s with
    | none => simp [run, logged, hb]
    | some it =>
      cases it with
      | again t =>
        rw [run_again hb, run_again (t := t) (by simp [logged, hb]), ih]
      | leave r =>
        rw [run_leave hb, run_leave (r := (s, r)) (by simp [logged, hb])]
        rfl

theorem Ends.logged_again {body : ℕ → σ → Option (Iter σ ρ)} {s t : σ}
    (h : Ends (fun n => body n s) (.again t)) :
    Ends (fun n => logged (body n) s) (.again t) :=
  h.map_eq rfl

theorem Ends.logged_leave {body : ℕ → σ → Option (Iter σ ρ)} {s : σ} {r : ρ}
    (h : Ends (fun n => body n s) (.leave r)) : Ends (fun n => logged (body n) s) (.leave (s, r)) :=
  h.map_eq rfl

/-- Loop heads visited by a loop whose body is itself fuel-indexed. -/
def Visits (body : ℕ → σ → Option (Iter σ ρ)) : σ → σ → Prop :=
  Relation.ReflTransGen (fun s t => Ends (fun n => body n s) (.again t))

/-- A loop that gets to a head and leaves there ends. -/
theorem Visits.ends {body : ℕ → σ → Option (Iter σ ρ)} {s t : σ} {r : ρ} (h : Visits body s t)
    (hleave : Ends (fun n => body n t) (.leave r)) : Ends (fun n => run (body n) n s) r := by
  suffices hrun : ∃ N, ∀ n k, N ≤ n → N ≤ k → run (body n) k s = some r by
    obtain ⟨N, hN⟩ := hrun
    exact ⟨N, fun n hn => hN n n hn hn⟩
  induction h using Relation.ReflTransGen.head_induction_on with
  | refl =>
    obtain ⟨N, hN⟩ := hleave
    refine ⟨N + 1, fun n k hn hk => ?_⟩
    obtain ⟨i, rfl⟩ : ∃ i, k = i + 1 := ⟨k - 1, by omega⟩
    exact run_leave (hN n (by omega)) i
  | head hstep _ ih =>
    obtain ⟨N, hN⟩ := hstep
    obtain ⟨M, hM⟩ := ih
    refine ⟨N + M + 1, fun n k hn hk => ?_⟩
    obtain ⟨i, rfl⟩ : ∃ i, k = i + 1 := ⟨k - 1, by omega⟩
    rw [Loop.run_again (hN n (by omega))]
    exact hM n i (by omega) (by omega)

end Klone.Loop
