import Klone.Lib.Path

/-! # Paths as stacks of names

The parts of a path between its slashes are instructions to a stack: a name is pushed, two
dots pop the last one, and empty parts and single dots do nothing.
-/
namespace Klone

structure Proper (seg : Str) : Prop where
  notEmpty : seg ≠ []
  notDot : seg ≠ dot
  notDotdot : seg ≠ dotdot

def stackStep (stack : List Str) (seg : Str) : List Str :=
  if seg = [] ∨ seg = dot then stack
  else if seg = dotdot then stack.dropLast
  else stack ++ [seg]

def resolved (segs : List Str) : List Str := segs.foldl stackStep []

theorem stackStep_nil (stack : List Str) : stackStep stack [] = stack := by simp [stackStep]

theorem stackStep_proper {seg : Str} (h : Proper seg) (stack : List Str) :
    stackStep stack seg = stack ++ [seg] := by
  simp [stackStep, h.notEmpty, h.notDot, h.notDotdot]

theorem mem_stackStep {stack : List Str} {seg t : Str} (h : t ∈ stackStep stack seg) :
    t ∈ stack ∨ t = seg ∧ Proper seg := by
  unfold stackStep at h
  split at h
  · exact Or.inl h
  · next hkeep =>
    obtain ⟨hne, hdot⟩ := not_or.mp hkeep
    split at h
    · exact Or.inl (List.mem_of_mem_dropLast h)
    · next hdd =>
      rcases List.mem_append.mp h with h | h
      · exact Or.inl h
      · exact Or.inr ⟨List.mem_singleton.mp h, hne, hdot, hdd⟩

theorem mem_foldl_stackStep {segs stack : List Str} {t : Str} (h : t ∈ segs.foldl stackStep stack) :
    t ∈ stack ∨ t ∈ segs ∧ Proper t := by
  induction segs generalizing stack with
  | nil => exact Or.inl h
  | cons seg segs ih =>
    rcases ih h with h | ⟨h, hp⟩
    · rcases mem_stackStep h with h | ⟨rfl, hp⟩
      · exact Or.inl h
      · exact Or.inr ⟨List.mem_cons_self, hp⟩
    · exact Or.inr ⟨List.mem_cons_of_mem _ h, hp⟩

theorem mem_resolved {segs : List Str} {t : Str} (h : t ∈ resolved segs) : t ∈ segs ∧ Proper t :=
  (mem_foldl_stackStep h).resolve_left List.not_mem_nil

/-- Names that are all proper are left as they are. -/
theorem foldl_stackStep_proper {segs : List Str} (h : ∀ t ∈ segs, Proper t) (stack : List Str) :
    segs.foldl stackStep stack = stack ++ segs := by
  induction segs generalizing stack with
  | nil => simp
  | cons seg segs ih =>
    rw [List.foldl_cons, stackStep_proper (h seg List.mem_cons_self),
      ih fun t ht => h t (List.mem_cons_of_mem _ ht),
      List.append_assoc, List.singleton_append]

/-- Empty parts do not matter. -/
theorem foldl_stackStep_filter (segs stack : List Str) :
    (segs.filter (· ≠ [])).foldl stackStep stack = segs.foldl stackStep stack := by
  induction segs generalizing stack with
  | nil => rfl
  | cons seg segs ih =>
    by_cases hnil : seg = []
    · subst hnil
      simp [stackStep_nil, ← ih]
    · simp [hnil, ← ih]

theorem joined_cons (seg : Str) (segs : List Str) :
    joined (seg :: segs) = slash :: seg ++ joined segs := by
  simp [joined]

theorem joined_length_append (segs segs' : List Str) :
    (joined (segs ++ segs')).length = (joined segs).length + (joined segs').length := by
  simp [joined]

theorem joined_stackStep_length (stack : List Str) (seg : Str) :
    (joined (stackStep stack seg)).length ≤ (joined stack).length + (slash :: seg).length := by
  unfold stackStep
  split
  · exact Nat.le_add_right _ _
  · split
    · rcases List.eq_nil_or_concat stack with rfl | ⟨init, t, rfl⟩
      · exact Nat.le_add_right _ _
      · rw [List.concat_eq_append, List.dropLast_concat, joined_length_append]
        omega
    · rw [joined_append, List.length_append]

theorem joined_foldl_length (segs stack : List Str) :
    (joined (segs.foldl stackStep stack)).length ≤
    (joined stack).length + (joined segs).length := by
  induction segs generalizing stack with
  | nil => exact Nat.le_add_right _ _
  | cons seg segs ih =>
    have hstep := joined_stackStep_length stack seg
    have hrest := ih (stackStep stack seg)
    rw [List.foldl_cons, joined_cons, List.length_append]
    omega

/-- Resolving a path makes it no longer. -/
theorem joined_resolved_length (segs : List Str) :
    (joined (resolved segs)).length ≤ (joined segs).length := by
  have hle := joined_foldl_length segs []
  rwa [show joined [] = [] from rfl, List.length_nil, Nat.zero_add] at hle

/-- A path is its parts, each after a slash, without the first slash. -/
theorem joined_segments (s : Str) : joined (segments s) = slash :: s := by
  induction s with
  | nil => rfl
  | cons c s ih =>
    by_cases hc : c = slash
    · subst hc
      have hs : segments (slash :: s) = [] :: segments s := segments_slash [] s
      rw [hs, joined_cons, ih]
      rfl
    · obtain ⟨t, rest, hs⟩ := List.exists_cons_of_ne_nil (segments_ne_nil s)
      rw [hs, joined_cons] at ih
      have ht : t ++ joined rest = s := (List.cons.inj ih).2
      rw [segments_cons_ne hc, hs, List.modifyHead_cons, joined_cons]
      simp [ht]

end Klone
