import Klone.Lib.Loop

/-! # Code with jumps

A body is a list of instructions. Most of them go on with the next one; a piece of code may
also go on behind another piece of code, which is named by its number in the body, or leave
the body. If every instruction is translated by a block that does the same and every piece of
code by a piece that goes on in the same way, then a run that ends is a run of the translation.
-/
namespace Klone.Control
open Loop

/-- Where control goes after an instruction. -/
inductive Next where
  | on
  | behind (j : ℕ)
  | out

/-- Instructions on a state. What one does may depend on the number of pieces of code before it. -/
structure Machine (α σ : Type*) where
  isCode : α → Bool
  exec : ℕ → ℕ → α → σ → Option (σ × Next)

/-- A place in a body. -/
structure Head (α σ : Type*) where
  rest : List α
  passed : ℕ
  state : σ

variable {α β σ τ : Type*}

/-- What stands behind the piece of code with this number. -/
def behind (isCode : α → Bool) : ℕ → List α → List α
  | _, [] => []
  | 0, a :: as => if isCode a then as else behind isCode 0 as
  | j + 1, a :: as => behind isCode (if isCode a then j else j + 1) as

namespace Machine
variable (m : Machine α σ) (m' : Machine β τ)

def passed (k : ℕ) (a : α) : ℕ := if m.isCode a then k + 1 else k

def next (whole : List α) (a : α) (rest : List α) (k : ℕ) (r : σ × Next) : Iter (Head α σ) σ :=
  match r.2 with
  | .on => .again ⟨rest, m.passed k a, r.1⟩
  | .behind j => .again ⟨behind m.isCode j whole, j + 1, r.1⟩
  | .out => .leave r.1

def step (whole : List α) (n : ℕ) (h : Head α σ) : Option (Iter (Head α σ) σ) :=
  match h.rest with
  | [] => some (.leave h.state)
  | a :: rest => (m.exec n h.passed a h.state).map (m.next whole a rest h.passed)

def runBody (whole : List α) (n : ℕ) (s : σ) : Option σ := run (m.step whole n) n ⟨whole, 0, s⟩

inductive Through (k : ℕ) : List α → σ → σ → Prop
  | nil (s : σ) : Through k [] s s
  | cons {a : α} {as : List α} {s t u : σ} (hstep : Ends (fun n => m.exec n k a s) (t, .on))
    (hrest : Through k as t u) :
      Through k (a :: as) s u

structure Block (R : σ → τ → Prop) (a : α) (bs : List β) : Prop where
  source : m.isCode a = false
  target : ∀ b ∈ bs, m'.isCode b = false
  follows : ∀ n k s t r, R s t → m.exec n k a s = some r → r.2 = .on ∧ ∃ t', R r.1 t' ∧
    m'.Through k bs t t'

structure Piece (R : σ → τ → Prop) (a : α) (b : β) : Prop where
  source : m.isCode a = true
  target : m'.isCode b = true
  follows : ∀ n k s t r, R s t → m.exec n k a s = some r → ∃ t', R r.1 t' ∧
    Ends (fun n => m'.exec n k b t) (t', r.2)

inductive Translated (R : σ → τ → Prop) : List α → List β → Prop
  | nil : Translated R [] []
  | block {a : α} {as : List α} {bs bs' : List β} (hblock : m.Block m' R a bs)
    (hrest : Translated R as bs') :
      Translated R (a :: as) (bs ++ bs')
  | piece {a : α} {as : List α} {b : β} {bs : List β} (hpiece : m.Piece m' R a b)
    (hrest : Translated R as bs) :
      Translated R (a :: as) (b :: bs)

variable {m m'} {R : σ → τ → Prop} {as : List α} {bs : List β}

theorem Translated.append {as' : List α} {bs' : List β} (h : m.Translated m' R as bs)
    (h' : m.Translated m' R as' bs') :
    m.Translated m' R (as ++ as') (bs ++ bs') := by
  induction h with
  | nil => exact h'
  | block hblock _ ih =>
    rw [List.cons_append, List.append_assoc]
    exact .block hblock ih
  | piece hpiece _ ih => exact .piece hpiece ih

theorem behind_plain {isCode : α → Bool} {a : α} (h : isCode a = false) (j : ℕ) (as : List α) :
    behind isCode j (a :: as) = behind isCode j as := by
  cases j <;> simp [behind, h]

theorem behind_block (isCode : β → Bool) {bs : List β} (h : ∀ b ∈ bs, isCode b = false) (j : ℕ)
    (bs' : List β) :
    behind isCode j (bs ++ bs') = behind isCode j bs' := by
  induction bs with
  | nil => rfl
  | cons b bs ih =>
    rw [List.cons_append, behind_plain (h b List.mem_cons_self)]
    exact ih fun b' hb' => h b' (List.mem_cons_of_mem b hb')

/-- What stands behind a piece of code is translated by what stands behind its translation. -/
theorem Translated.behind (h : m.Translated m' R as bs) (j : ℕ) :
    m.Translated m' R (behind m.isCode j as) (behind m'.isCode j bs) := by
  induction h generalizing j with
  | nil => exact .nil
  | block hblock _ ih =>
    rw [behind_plain hblock.source, behind_block _ hblock.target]
    exact ih j
  | piece hpiece hrest ih =>
    cases j with
    | zero =>
      rw [Control.behind, Control.behind, hpiece.source, hpiece.target, if_pos rfl, if_pos rfl]
      exact hrest
    | succ j =>
      rw [Control.behind, Control.behind, hpiece.source, hpiece.target, if_pos rfl]
      exact ih j

theorem Through.visits {k : ℕ} {s t : σ} (h : m.Through k as s t)
    (hplain : ∀ a ∈ as, m.isCode a = false) (whole rest : List α) :
    Visits (m.step whole) ⟨as ++ rest, k, s⟩ ⟨rest, k, t⟩ := by
  induction h with
  | nil s => exact Relation.ReflTransGen.refl
  | @cons a as s t u hstep _ ih =>
    have hpassed : m.passed k a = k := by
      rw [passed, hplain a List.mem_cons_self, if_neg Bool.false_ne_true]
    refine Relation.ReflTransGen.head (hstep.map_eq ?_)
      (ih fun a' ha' => hplain a' (List.mem_cons_of_mem a ha'))
    rw [next, hpassed]
    rfl

/-- The step and the run: from a place of the body, the translation goes to a place where it
leaves with the state that follows. -/
theorem Translated.leaves {whole : List α} {whole' : List β}
    (hwhole : m.Translated m' R whole whole') {n fuel : ℕ} (h : m.Translated m' R as bs) {k : ℕ}
    {s s' : σ} {t : τ} (hs : R s t) (hrun : run (m.step whole n) fuel ⟨as, k, s⟩ = some s') :
    ∃ head t', Visits (m'.step whole') ⟨bs, k, t⟩ head ∧
    Ends (fun n => m'.step whole' n head) (.leave t') ∧ R s' t' := by
  induction fuel generalizing as bs k s t with
  | zero => cases hrun
  | succ fuel ih =>
    cases h with
    | nil =>
      have hs' : s = s' := Option.some.inj hrun
      subst hs'
      exact ⟨_, t, Relation.ReflTransGen.refl, Ends.const _, hs⟩
    | @block a as bs bs' hblock hrest =>
      cases hexec : m.exec n k a s with
      | none => simp [run, step, hexec] at hrun
      | some r =>
        obtain ⟨hon, t', ht', hthrough⟩ := hblock.follows n k s t r hs hexec
        have hpassed : m.passed k a = k := by rw [passed, hblock.source, if_neg Bool.false_ne_true]
        have hstep : m.step whole n ⟨a :: as, k, s⟩ = some (.again ⟨as, k, r.1⟩) := by
          simp only [step, hexec, Option.map_some, next, hon, hpassed]
        rw [run_again hstep] at hrun
        obtain ⟨head, u, hvisits, hends, hu⟩ := ih hrest ht' hrun
        exact ⟨head, u, (hthrough.visits hblock.target whole' bs').trans hvisits, hends, hu⟩
    | @piece a as b bs hpiece hrest =>
      cases hexec : m.exec n k a s with
      | none => simp [run, step, hexec] at hrun
      | some r =>
        obtain ⟨t', ht', hends⟩ := hpiece.follows n k s t r hs hexec
        have hpassed : m.passed k a = m'.passed k b := by
          rw [passed, passed, hpiece.source, hpiece.target]
        have hstep : m.step whole n ⟨a :: as, k, s⟩ = some (m.next whole a as k r) := by
          simp only [step, hexec, Option.map_some]
        have hstep' : Ends (fun n => m'.step whole' n ⟨b :: bs, k, t⟩)
          (m'.next whole' b bs k (t', r.2)) := hends.map _
        cases hnext : r.2 with
        | on =>
          simp only [next, hnext] at hstep hstep'
          rw [run_again hstep, hpassed] at hrun
          obtain ⟨head, u, hvisits, hleave, hu⟩ := ih hrest ht' hrun
          exact ⟨head, u, Relation.ReflTransGen.head hstep' hvisits, hleave, hu⟩
        | behind j =>
          simp only [next, hnext] at hstep hstep'
          rw [run_again hstep] at hrun
          obtain ⟨head, u, hvisits, hleave, hu⟩ := ih (hwhole.behind j) ht' hrun
          exact ⟨head, u, Relation.ReflTransGen.head hstep' hvisits, hleave, hu⟩
        | out =>
          simp only [next, hnext] at hstep hstep'
          rw [run_leave hstep] at hrun
          rw [← Option.some.inj hrun]
          exact ⟨_, t', Relation.ReflTransGen.refl, hstep', ht'⟩

/-- The rule for translations. -/
theorem Translated.run (h : m.Translated m' R as bs) {n : ℕ} {s s' : σ} {t : τ} (hs : R s t)
    (hrun : m.runBody as n s = some s') :
    ∃ t', Ends (fun n => m'.runBody bs n t) t' ∧ R s' t' := by
  obtain ⟨head, t', hvisits, hends, ht'⟩ := h.leaves h hs hrun
  exact ⟨t', hvisits.ends hends, ht'⟩

end Machine

end Klone.Control
