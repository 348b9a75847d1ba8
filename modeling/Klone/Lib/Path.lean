import Klone.Lib.CString

/-! # Lexical paths

A path as a string of bytes: its parts between slashes, the parts `.` and `..`,
and the collapsing of repeated slashes. Nothing here looks at a file system.
-/
namespace Klone

def slash : Byte := 47
def backslash : Byte := 92
def dot : Str := [46]
def dotdot : Str := [46, 46]

def segments (s : Str) : List Str := s.splitOn slash

def joined (segs : List Str) : Str := segs.flatMap (slash :: ·)

theorem joined_append (segs : List Str) (t : Str) :
    joined (segs ++ [t]) = joined segs ++ slash :: t := by
  simp [joined]

def squeeze : Str → Str
  | [] => []
  | a :: rest => if a = slash ∧ rest.head? = some slash then squeeze rest else a :: squeeze rest

def hasDots (s : Str) : Prop := dotdot <:+: s

instance (s : Str) : Decidable (hasDots s) := inferInstanceAs (Decidable (dotdot <:+: s))

theorem segments_slash (s t : Str) : segments (s ++ slash :: t) = segments s ++ segments t :=
  List.splitOn_append_cons_self s t

theorem segments_ne_nil (s : Str) : segments s ≠ [] := List.splitOn_ne_nil _ _

theorem segments_append_joined (s : Str) {segs : List Str} (h : ∀ t ∈ segs, slash ∉ t) :
    segments (s ++ joined segs) = segments s ++ segs := by
  induction segs generalizing s with
  | nil => simp [joined]
  | cons t rest ih =>
    have ht : segments t = [t] := List.splitOn_eq_singleton (h t List.mem_cons_self)
    have hi := ih t (fun u hu => h u (List.mem_cons_of_mem _ hu))
    have hj : joined (t :: rest) = slash :: (t ++ joined rest) := by simp [joined]
    rw [hj, segments, List.splitOn_append_cons_self]
    change segments s ++ segments (t ++ joined rest) = segments s ++ t :: rest
    rw [hi, ht]
    rfl

theorem segments_joined {segs : List Str} (h : ∀ t ∈ segs, slash ∉ t) :
    segments (joined segs) = [] :: segs := by
  have hs := segments_append_joined [] h
  simpa [segments] using hs

/-- Concatenation joins the last name of one path to the first of the other. -/
theorem segments_append (s t : Str) :
    ∃ init x i rest, segments s = init ++ [x] ∧ segments t = i :: rest ∧
      segments (s ++ t) = init ++ (x ++ i) :: rest := by
  obtain ⟨i, rest, ht⟩ := List.exists_cons_of_ne_nil (segments_ne_nil t)
  induction s with
  | nil => exact ⟨[], [], i, rest, rfl, ht, ht⟩
  | cons c s ih =>
    obtain ⟨init, x, i', rest', hs, ht', hst⟩ := ih
    by_cases hc : c = slash
    · subst hc
      refine ⟨[] :: init, x, i', rest', ?_, ht', ?_⟩
      · have he := segments_slash [] s
        rw [hs] at he
        exact he
      · have he := segments_slash [] (s ++ t)
        rw [hst] at he
        exact he
    · have hcs : ∀ u, segments (c :: u) = (segments u).modifyHead (List.cons c) := by
        intro u
        rw [segments, List.splitOn_cons_eq_if_modifyHead, if_neg (by simpa using hc)]
        rfl
      rw [List.cons_append, hcs, hcs, hs, hst]
      cases init with
      | nil => exact ⟨[], c :: x, i', rest', rfl, ht', rfl⟩
      | cons y init => exact ⟨(c :: y) :: init, x, i', rest', rfl, ht', rfl⟩

/-- After a prefix that ends with a slash, or that a slash follows, come names of
the whole. -/
theorem dotdot_suffix {src suffix : Str} (h : dotdot ∉ segments (src ++ suffix))
    (hb : src.getLast? = some slash ∨ suffix.head? = some slash) : dotdot ∉ segments suffix := by
  intro hd
  apply h
  rcases hb with hb | hb
  · obtain ⟨init, rfl⟩ := List.getLast?_eq_some_iff.mp hb
    rw [List.append_assoc, List.singleton_append, segments_slash]
    exact List.mem_append_right _ hd
  · obtain ⟨rest, rfl⟩ := List.head?_eq_some_iff.mp hb
    have hs : segments (slash :: rest) = [[]] ++ segments rest := segments_slash [] rest
    rw [hs] at hd
    rw [segments_slash]
    rcases List.mem_append.mp hd with hd | hd
    · exact absurd (List.mem_singleton.mp hd) (by decide)
    · exact List.mem_append_right _ hd

theorem segments_cons_ne {c : Byte} (h : c ≠ slash) (s : Str) :
    segments (c :: s) = (segments s).modifyHead (List.cons c) := by
  rw [segments, List.splitOn_cons_eq_if_modifyHead, if_neg (by simpa using h)]
  rfl

/-- The first part is at the beginning, and the others are inside. -/
theorem segments_infix {s t : Str} {rest : List Str} (h : segments s = t :: rest) :
    t <+: s ∧ ∀ u ∈ rest, u <:+: s := by
  induction s generalizing t rest with
  | nil =>
    obtain ⟨rfl, rfl⟩ := List.cons.inj h
    exact ⟨List.prefix_rfl, fun u hu => absurd hu List.not_mem_nil⟩
  | cons c s ih =>
    obtain ⟨t', rest', hs⟩ := List.exists_cons_of_ne_nil (segments_ne_nil s)
    obtain ⟨hpre, hinf⟩ := ih hs
    by_cases hc : c = slash
    · subst hc
      have he : segments (slash :: s) = [] :: segments s := segments_slash [] s
      rw [he, hs] at h
      obtain ⟨rfl, rfl⟩ := List.cons.inj h
      refine ⟨List.nil_prefix, fun u hu => ?_⟩
      rcases List.mem_cons.mp hu with rfl | hu
      · exact hpre.isInfix.trans (List.suffix_cons slash s).isInfix
      · exact (hinf u hu).trans (List.suffix_cons slash s).isInfix
    · rw [segments_cons_ne hc, hs] at h
      obtain ⟨rfl, rfl⟩ := List.cons.inj h
      exact ⟨(List.cons_prefix_cons).mpr ⟨rfl, hpre⟩,
        fun u hu => (hinf u hu).trans (List.suffix_cons c s).isInfix⟩

theorem hasDots_of_mem_segments {s : Str} (h : dotdot ∈ segments s) : hasDots s := by
  obtain ⟨t, rest, hs⟩ := List.exists_cons_of_ne_nil (segments_ne_nil s)
  obtain ⟨hpre, hinf⟩ := segments_infix hs
  rw [hs] at h
  rcases List.mem_cons.mp h with rfl | h
  · exact hpre.isInfix
  · exact hinf _ h

theorem head?_squeeze (s : Str) : (squeeze s).head? = s.head? := by
  induction s with
  | nil => rfl
  | cons a rest ih =>
    rw [squeeze]
    split
    · next h => rw [ih, h.1, h.2, List.head?_cons]
    · rfl

/-- A part that is squeezed already may be left as it is. -/
theorem squeeze_append (s t : Str) : squeeze (squeeze s ++ t) = squeeze (s ++ t) := by
  induction s with
  | nil => rfl
  | cons a rest ih =>
    have hhead : (squeeze rest ++ t).head? = (rest ++ t).head? := by
      rw [List.head?_append, List.head?_append, head?_squeeze]
    rw [squeeze]
    split
    · next h =>
      have hh : (rest ++ t).head? = some slash := by rw [List.head?_append, h.2, Option.some_or]
      rw [ih, List.cons_append, squeeze, if_pos ⟨h.1, hh⟩]
    · rw [List.cons_append, List.cons_append, squeeze, squeeze, hhead, ih]

theorem hasDots_squeeze {s : Str} (h : hasDots s) : hasDots (squeeze s) := by
  induction s with
  | nil => exact h
  | cons a rest ih =>
    rcases List.infix_cons_iff.mp h with hp | hi
    · obtain ⟨more, he⟩ := hp
      obtain ⟨rfl, rfl⟩ := List.cons.inj he
      have hne : (46 : Byte) ≠ slash := by decide
      have hs : squeeze (46 :: 46 :: more) = 46 :: 46 :: squeeze more := by simp [squeeze, hne]
      exact ⟨[], squeeze more, hs.symm⟩
    · rw [squeeze]
      split
      · exact ih hi
      · exact (ih hi).trans (List.suffix_cons a _).isInfix

/-- A path made of a base and a suffix is below the base, or shows two dots. -/
theorem hasDots_of_suffix {base suffix : Str} (h : dotdot ∈ segments suffix) :
    hasDots (squeeze (base ++ slash :: suffix)) := by
  apply hasDots_squeeze
  have hs : suffix <:+: base ++ slash :: suffix :=
    ⟨base ++ [slash], [], by rw [List.append_nil, List.append_assoc, List.singleton_append]⟩
  exact (hasDots_of_mem_segments h).trans hs

end Klone
