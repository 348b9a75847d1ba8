import Klone.Lib.Loop
import Klone.Lib.CString

/-! # HTML escaping

The encoder of `u_htmlncpy` goes along the string once. The decoder makes one pass over the
whole buffer for each entity, and starts again from the beginning after each replacement.
-/
namespace Klone
open Loop

/-- `u_stristr`: the rest of a string from the first occurrence of another one. -/
def uStristr (s sub : Str) : Option Str := s.tails.find? fun t => !t.isEmpty && startsWithCase t sub

structure HtmlEntity where
  sChar : Byte
  entity : Str
  deriving DecidableEq

def entities : List HtmlEntity :=
  [⟨38, bytes "&amp;"⟩, ⟨34, bytes "&quot;"⟩, ⟨39, bytes "&#39;"⟩, ⟨60, bytes "&lt;"⟩,
    ⟨62, bytes "&gt;"⟩]

def htmlEscape (c : Byte) : Str :=
  match entities.find? fun p => p.sChar == c with
  | none => [c]
  | some p => p.entity

/-- `u_htmlncpy` with `HTMLCPY_ENCODE`: the string in `d`, and the value that is returned. -/
def uHtmlncpyEncode (s : List Byte) (slen : ℕ) : Str × ℕ :=
  let d := (s.take slen).flatMap htmlEscape
  (d, d.length)

def replaceBody (p : HtmlEntity) (d : Str) : Option (Iter Str Str) :=
  match uStristr d p.entity with
  | none => some (.leave d)
  | some found => some (.again
    (d.take (d.length - found.length) ++ p.sChar :: found.drop p.entity.length))

/-- All replacements of an entity: each of them makes the string shorter. -/
def replaceAll (d : Str) (p : HtmlEntity) : Option Str := run (replaceBody p) (d.length + 1) d

def uHtmlncpyDecode (s : List Byte) (slen : ℕ) : Option (Str × ℕ) :=
  (entities.foldlM replaceAll (strlcpy (cstr s) (slen + 1)).2).map fun d => (d, d.length)

/-! ## Occurrences -/

def Occurs (p : HtmlEntity) (d : Str) : Prop := p.entity <:+: d.map tolower

instance (p : HtmlEntity) (d : Str) : Decidable (Occurs p d) :=
  inferInstanceAs (Decidable (_ <:+: _))

/-- What the search and the two passes need of an entry: the ampersand is only at its
beginning, it is written in lower case, and longer than its character. -/
structure Wellformed (p : HtmlEntity) : Prop where
  mark : ∃ rest, p.entity = 38 :: rest ∧ 38 ∉ rest
  lower : p.entity.map tolower = p.entity
  long : 1 < p.entity.length

theorem entities_wellformed : ∀ p ∈ entities, Wellformed p := by
  have hmark : ∀ p ∈ entities, p.entity = 38 :: p.entity.tail ∧ 38 ∉ p.entity.tail := by decide
  have hlower : ∀ p ∈ entities, p.entity.map tolower = p.entity := by decide
  have hlong : ∀ p ∈ entities, 1 < p.entity.length := by decide
  exact fun p hp => ⟨⟨_, hmark p hp⟩, hlower p hp, hlong p hp⟩

/-- No entity begins with another one. -/
theorem entities_apart : ∀ p ∈ entities, ∀ q ∈ entities, p.entity <+: q.entity → p = q := by decide

/-- No later character is part of an entity. -/
theorem entities_fresh : entities.Pairwise fun p q => tolower q.sChar ∉ p.entity := by decide

theorem tolower_ampersand : ∀ c : Byte, tolower c = 38 → c = 38 := by decide +kernel

section Search
variable {p : HtmlEntity} {d : Str}

/-- What has been found: the text before it, the entity in some case, and the rest. -/
theorem found_split (hp : Wellformed p) {found : Str} (h : uStristr d p.entity = some found) :
    ∃ pre x post, d = pre ++ x ++ post ∧ found = x ++ post ∧ x.map tolower = p.entity ∧
    x.length = p.entity.length := by
  have hmem := List.mem_of_find?_eq_some h
  have hfound := List.find?_some h
  obtain ⟨pre, hpre⟩ := (List.mem_tails _ _).mp hmem
  simp only [Bool.and_eq_true, startsWithCase, hp.lower, List.isPrefixOf_iff_prefix] at hfound
  obtain ⟨post, hpost⟩ := hfound.2
  obtain ⟨x, y, rfl, hx, -⟩ := List.map_eq_append_iff.mp hpost.symm
  refine ⟨pre, x, y, ?_, rfl, hx, ?_⟩
  · rw [List.append_assoc, hpre]
  · rw [← hx, List.length_map]

theorem not_occurs_of_none (hp : Wellformed p) (h : uStristr d p.entity = none) : ¬ Occurs p d := by
  rintro ⟨pre, post, hsplit⟩
  obtain ⟨u, v, rfl, hu, -⟩ := List.map_eq_append_iff.mp hsplit.symm
  obtain ⟨a, x, rfl, -, hx⟩ := List.map_eq_append_iff.mp hu
  have htail := (List.find?_eq_none.mp h) (x ++ v) ((List.mem_tails _ _).mpr ⟨a, by simp⟩)
  have hne : x ≠ [] := by
    rintro rfl
    have hlong := hp.long
    rw [← hx] at hlong
    simp at hlong
  simp [startsWithCase, hp.lower, hx, hne] at htail

/-- A replacement of an occurrence. -/
theorem replaceBody_found (hp : Wellformed p) {d' : Str} (h : replaceBody p d = some (.again d')) :
    ∃ pre x post, d = pre ++ x ++ post ∧ x.map tolower = p.entity ∧ d' = pre ++ p.sChar :: post ∧
    d'.length < d.length := by
  unfold replaceBody at h
  split at h
  · cases h
  · next found hfound =>
    obtain ⟨pre, x, post, rfl, rfl, hx, hlen⟩ := found_split hp hfound
    have hd' := Iter.again.inj (Option.some.inj h)
    have hlong := hp.long
    have htake : (pre ++ x ++ post).length - (x ++ post).length = pre.length := by
      simp only [List.length_append]
      omega
    rw [htake, ← hlen, List.drop_left, List.append_assoc, List.take_left] at hd'
    refine ⟨pre, x, post, rfl, hx, hd'.symm, ?_⟩
    simp only [← hd', List.length_append, List.length_cons]
    omega

theorem replaceAll_ends (hp : Wellformed p) (d : Str) : ∃ r, replaceAll d p = some r := by
  refine run_total List.length (I := fun _ => True) ?_ trivial (Nat.lt_succ_self _)
  intro d _
  cases hs : uStristr d p.entity with
  | none => exact Or.inr ⟨d, by simp [replaceBody, hs]⟩
  | some found =>
    have hb : replaceBody p d = some
        (.again (d.take (d.length - found.length) ++ p.sChar :: found.drop p.entity.length)) := by
      simp [replaceBody, hs]
    obtain ⟨-, -, -, -, -, -, hlt⟩ := replaceBody_found hp hb
    exact Or.inl ⟨_, hb, trivial, hlt⟩

/-- The rule for a pass: what each replacement keeps holds when nothing is left to replace. -/
theorem replaceAll_keeps (hp : Wellformed p) {I : Str → Prop} {r : Str}
    (hstep : ∀ pre x post, x.map tolower = p.entity → I (pre ++ x ++ post) →
      I (pre ++ p.sChar :: post))
    (hd : I d) (h : replaceAll d p = some r) : I r ∧ ¬ Occurs p r := by
  refine run_keeps (I := I) (J := fun r => I r ∧ ¬ Occurs p r) ?_ hd h
  intro d i hi hb
  cases i with
  | again d' =>
    obtain ⟨pre, x, post, rfl, hx, rfl, -⟩ := replaceBody_found hp hb
    exact hstep pre x post hx hi
  | leave r =>
    unfold replaceBody at hb
    split at hb
    · next hnone =>
      obtain rfl := Iter.leave.inj (Option.some.inj hb)
      exact ⟨hi, not_occurs_of_none hp hnone⟩
    · cases hb

end Search

/-! ## Nothing is left -/

theorem infix_of_fresh {α : Type*} {w a b : List α} {q : α} (hq : q ∉ w) (h : w <:+: a ++ q :: b) :
    w <:+: a ∨ w <:+: b := by
  rw [List.infix_append_iff_ne_nil] at h
  rcases h with h | h | ⟨l₁, l₂, -, hne, rfl, -, hl₂⟩
  · exact Or.inl h
  · rw [List.infix_cons_iff] at h
    rcases h with h | h
    · match w with
      | [] => exact Or.inl List.nil_infix
      | c :: w =>
        obtain ⟨rfl, -⟩ := List.cons_prefix_cons.mp h
        exact absurd List.mem_cons_self hq
    · exact Or.inr h
  · match l₂ with
    | [] => exact absurd rfl hne
    | c :: l₂ =>
      obtain ⟨rfl, -⟩ := List.cons_prefix_cons.mp hl₂
      exact absurd (by simp) hq

/-- A replacement by a character that is not part of an entity does not make one. -/
theorem replaceAll_absent {p q : HtmlEntity} (hp : Wellformed p) (hq : tolower p.sChar ∉ q.entity)
    {d r : Str} (hd : ¬ Occurs q d) (h : replaceAll d p = some r) : ¬ Occurs q r := by
  refine (replaceAll_keeps hp (I := fun d => ¬ Occurs q d) ?_ hd h).1
  intro pre x post _ hno hocc
  unfold Occurs at hocc hno
  rw [List.map_append, List.map_cons] at hocc
  rw [List.append_assoc, List.map_append, List.map_append] at hno
  rcases infix_of_fresh hq hocc with h | h
  · exact hno (List.infix_append_of_infix_left h)
  · exact hno (List.infix_append_of_infix_right (List.infix_append_of_infix_right h))

theorem passes_keep_absent {q : HtmlEntity} {ps : List HtmlEntity} (hps : ∀ p ∈ ps, Wellformed p)
    (hq : ∀ p ∈ ps, tolower p.sChar ∉ q.entity) {d r : Str} (hd : ¬ Occurs q d)
    (h : ps.foldlM replaceAll d = some r) :
    ¬ Occurs q r := by
  induction ps generalizing d with
  | nil =>
    obtain rfl := Option.some.inj h
    exact hd
  | cons p ps ih =>
    rw [List.foldlM_cons, Option.bind_eq_bind, Option.bind_eq_some_iff] at h
    obtain ⟨d', hd', hr⟩ := h
    have hab := replaceAll_absent (hps p List.mem_cons_self) (hq p List.mem_cons_self) hd hd'
    exact ih (fun e he => hps e (List.mem_cons_of_mem p he))
      (fun e he => hq e (List.mem_cons_of_mem p he)) hab hr

/-- After all passes no entity occurs. -/
theorem passes_absent {ps : List HtmlEntity} (hps : ∀ p ∈ ps, Wellformed p)
    (hfresh : ps.Pairwise fun p q => tolower q.sChar ∉ p.entity) {d r : Str}
    (h : ps.foldlM replaceAll d = some r) :
    ∀ p ∈ ps, ¬ Occurs p r := by
  induction ps generalizing d with
  | nil => simp
  | cons p ps ih =>
    rw [List.foldlM_cons, Option.bind_eq_bind, Option.bind_eq_some_iff] at h
    obtain ⟨d', hd', hr⟩ := h
    obtain ⟨hp, hrest⟩ := List.pairwise_cons.mp hfresh
    have hps' := fun e he => hps e (List.mem_cons_of_mem p he)
    have hno := (replaceAll_keeps (hps p List.mem_cons_self) (I := fun _ => True)
      (fun _ _ _ _ _ => trivial) trivial hd').2
    intro e he
    rcases List.mem_cons.mp he with rfl | he
    · exact passes_keep_absent hps' hp hno hr
    · exact ih hps' hrest hr e he

/-! ## Texts that are encoded in part -/

/-- `t` stands for `s`: the characters of `must` are written as entities, those of `may` can be. -/
inductive Encoded (must may : List HtmlEntity) : Str → Str → Prop
  | nil : Encoded must may [] []
  | raw {s t : Str} (c : Byte) : (∀ p ∈ must, p.sChar ≠ c) → Encoded must may s t →
    Encoded must may (c :: s) (c :: t)
  | coded {s t : Str} (p : HtmlEntity) : p ∈ may → Encoded must may s t →
    Encoded must may (p.sChar :: s) (p.entity ++ t)

section Encoded
variable {must may : List HtmlEntity} {s t : Str}

theorem encoded_encode (s : Str) : Encoded entities entities s (s.flatMap htmlEscape) := by
  induction s with
  | nil => exact .nil
  | cons c s ih =>
    rw [List.flatMap_cons, htmlEscape]
    cases hc : entities.find? fun p => p.sChar == c with
    | none => exact .raw c (fun p hp => by simpa using List.find?_eq_none.mp hc p hp) ih
    | some p =>
      obtain rfl : p.sChar = c := by simpa using List.find?_some hc
      exact .coded p (List.mem_of_find?_eq_some hc) ih

theorem Encoded.weaken {must' : List HtmlEntity} (h : Encoded must may s t) (hsub : must' ⊆ must) :
    Encoded must' may s t := by
  induction h with
  | nil => exact .nil
  | raw c hc _ ih => exact .raw c (fun p hp => hc p (hsub hp)) ih
  | coded p hp _ ih => exact .coded p hp ih

/-- Text without an ampersand at the beginning is not encoded. -/
theorem Encoded.plain (h : Encoded must may s t) (hmay : ∀ p ∈ may, Wellformed p) {y : Str}
    (hy : y <+: t) (hamp : 38 ∉ y) :
    y <+: s := by
  induction h generalizing y with
  | nil => exact hy
  | raw c _ _ ih =>
    match y with
    | [] => exact List.nil_prefix
    | b :: y =>
      obtain ⟨rfl, hy'⟩ := List.cons_prefix_cons.mp hy
      exact List.cons_prefix_cons.mpr ⟨rfl, ih hy' (fun h => hamp (List.mem_cons_of_mem b h))⟩
  | coded p hp _ _ =>
    obtain ⟨rest, hrest, -⟩ := (hmay p hp).mark
    match y with
    | [] => exact List.nil_prefix
    | b :: y =>
      rw [hrest, List.cons_append] at hy
      obtain ⟨rfl, -⟩ := List.cons_prefix_cons.mp hy
      exact absurd List.mem_cons_self hamp

/-- At the beginning of an entity only this entity occurs. -/
theorem same_entity {p q : HtmlEntity} (hp : p ∈ entities) (hq : q ∈ entities) {x post t : Str}
    (hx : x.map tolower = p.entity) (h : q.entity ++ t = x ++ post) :
    q = p ∧ x = p.entity ∧ post = t := by
  have hpq : p = q := by
    rcases List.prefix_or_prefix_of_prefix (List.prefix_append x post)
      (h ▸ List.prefix_append q.entity t) with hpre | hpre
    · have hlow := hpre.map tolower
      rw [hx, (entities_wellformed q hq).lower] at hlow
      exact entities_apart p hp q hq hlow
    · have hlow := hpre.map tolower
      rw [hx, (entities_wellformed q hq).lower] at hlow
      exact (entities_apart q hq p hp hlow).symm
  subst hpq
  have hlen : p.entity.length = x.length := by rw [← hx, List.length_map]
  obtain ⟨rfl, rfl⟩ := List.append_inj h hlen
  exact ⟨rfl, rfl, rfl⟩

/-- What follows a tail without an ampersand begins behind it if it begins with one. -/
theorem behind_tail {qs t pre y : Str} (hqs : 38 ∉ qs) (hy : ∃ z, y = 38 :: z)
    (h : qs ++ t = pre ++ y) :
    ∃ pre', pre = qs ++ pre' ∧ t = pre' ++ y := by
  obtain ⟨z, rfl⟩ := hy
  rcases List.append_eq_append_iff.mp h with ⟨a, ha, ht⟩ | ⟨a, ha, hyt⟩
  · exact ⟨a, ha, ht⟩
  · match a with
    | [] =>
      rw [List.append_nil] at ha
      exact ⟨[], by rw [ha, List.append_nil], hyt.symm⟩
    | c :: a =>
      obtain ⟨rfl, -⟩ := List.cons.inj hyt
      exact absurd (by simp [ha]) hqs

theorem head_of_occurrence {p : HtmlEntity} (hp : p ∈ entities) {x : Str}
    (hx : x.map tolower = p.entity) (post : Str) :
    ∃ z, x ++ post = 38 :: z := by
  obtain ⟨xs, hxs, -⟩ := (entities_wellformed p hp).mark
  obtain ⟨b, y, rfl, hb, -⟩ := List.map_eq_cons_iff.mp (hx.trans hxs)
  rw [tolower_ampersand b hb]
  exact ⟨y ++ post, rfl⟩

/-- An occurrence in an encoded text stands for the character, unless the string contains
the entity itself. -/
theorem Encoded.replace {p : HtmlEntity} (h : Encoded must may s t) (hmay : may ⊆ entities)
    (hp : p ∈ entities) (hmust : ∀ q ∈ must, q.sChar ≠ p.sChar) (hno : ¬ Occurs p s)
    {pre x post : Str} (ht : t = pre ++ x ++ post) (hx : x.map tolower = p.entity) :
    Encoded must may s (pre ++ p.sChar :: post) := by
  obtain ⟨xs, hxs, hamp⟩ := (entities_wellformed p hp).mark
  have hxne : x ≠ [] := by
    rintro rfl
    rw [hxs] at hx
    cases hx
  induction h generalizing pre with
  | nil =>
    simp [hxne] at ht
  | raw c hc htail ih =>
    rename_i s' t'
    match pre with
    | [] =>
      -- the occurrence would be one of the string
      exfalso
      obtain ⟨b, y, rfl⟩ := List.exists_cons_of_ne_nil hxne
      rw [List.nil_append, List.cons_append] at ht
      obtain ⟨rfl, rfl⟩ := List.cons.inj ht
      rw [List.map_cons, hxs] at hx
      obtain ⟨-, hy⟩ := List.cons.inj hx
      have hplain : 38 ∉ y := by
        intro h38
        refine hamp ?_
        rw [← hy]
        exact List.mem_map.mpr ⟨38, h38, rfl⟩
      have hpre := htail.plain (fun q hq => entities_wellformed q (hmay hq))
        (List.prefix_append y post) hplain
      refine hno (List.IsPrefix.isInfix ?_)
      rw [hxs, ← hx]
      exact (List.cons_prefix_cons.mpr ⟨rfl, hpre⟩).map tolower
    | a :: pre =>
      rw [List.cons_append, List.cons_append] at ht
      obtain ⟨rfl, rfl⟩ := List.cons.inj ht
      refine .raw c hc (ih (fun h => hno ?_) rfl)
      exact h.trans (List.suffix_cons _ _).isInfix
  | coded q hq htail ih =>
    rename_i s' t'
    obtain ⟨qs, hqs, hqamp⟩ := (entities_wellformed q (hmay hq)).mark
    match pre with
    | [] =>
      rw [List.nil_append] at ht
      obtain ⟨rfl, rfl, rfl⟩ := same_entity hp (hmay hq) hx ht
      exact .raw _ hmust htail
    | a :: pre =>
      rw [hqs, List.cons_append, List.append_assoc, List.cons_append] at ht
      obtain ⟨rfl, htail'⟩ := List.cons.inj ht
      have hhead := head_of_occurrence hp hx post
      obtain ⟨pre', rfl, rfl⟩ := behind_tail hqamp hhead htail'
      have hrest := ih (fun h => hno (h.trans (List.suffix_cons _ _).isInfix))
        (List.append_assoc _ _ _).symm
      have hcoded := Encoded.coded q hq hrest
      rwa [hqs, List.cons_append, ← List.append_assoc] at hcoded

/-- When an entity does not occur any more, its characters are all raw. -/
theorem Encoded.done {p : HtmlEntity} (h : Encoded must (p :: may) s t) (hp : Wellformed p)
    (hno : ¬ Occurs p t) :
    Encoded must may s t := by
  induction h with
  | nil => exact .nil
  | raw c hc _ ih => exact .raw c hc (ih fun h => hno (h.trans (List.suffix_cons _ _).isInfix))
  | coded q hq _ ih =>
    unfold Occurs at hno ih
    rw [List.map_append] at hno
    rcases List.mem_cons.mp hq with rfl | hq
    · rw [hp.lower] at hno
      exact absurd List.infix_append_left hno
    · exact .coded q hq (ih fun h => hno (List.infix_append_of_infix_right h))

theorem Encoded.plain_eq (h : Encoded [] [] s t) : t = s := by
  induction h with
  | nil => rfl
  | raw c _ _ ih => rw [ih]
  | coded p hp => cases hp

theorem replaceAll_encoded {p : HtmlEntity} {ps : List HtmlEntity} {d r : Str}
    (hps : p :: ps ⊆ entities) (hapart : ∀ q ∈ ps, q.sChar ≠ p.sChar) (hno : ¬ Occurs p s)
    (hd : Encoded (p :: ps) (p :: ps) s d) (h : replaceAll d p = some r) : Encoded ps ps s r := by
  have hp := entities_wellformed p (hps List.mem_cons_self)
  obtain ⟨hr, hnone⟩ := replaceAll_keeps hp (I := Encoded ps (p :: ps) s)
    (fun pre x post hx hd => hd.replace hps (hps List.mem_cons_self) hapart hno rfl hx)
    (hd.weaken (List.subset_cons_self p ps)) h
  exact hr.done hp hnone

theorem passes_encoded {ps : List HtmlEntity} {d r : Str} (hps : ps ⊆ entities)
    (hapart : ps.Pairwise fun p q => q.sChar ≠ p.sChar) (hno : ∀ p ∈ ps, ¬ Occurs p s)
    (hd : Encoded ps ps s d) (h : ps.foldlM replaceAll d = some r) : r = s := by
  induction ps generalizing d with
  | nil =>
    obtain rfl := Option.some.inj h
    exact hd.plain_eq
  | cons p ps ih =>
    rw [List.foldlM_cons, Option.bind_eq_bind, Option.bind_eq_some_iff] at h
    obtain ⟨d', hd', hr⟩ := h
    obtain ⟨hp, hrest⟩ := List.pairwise_cons.mp hapart
    have henc := replaceAll_encoded hps hp (hno p List.mem_cons_self) hd hd'
    exact ih (fun q hq => hps (List.mem_cons_of_mem p hq)) hrest
      (fun q hq => hno q (List.mem_cons_of_mem p hq)) henc hr

end Encoded

/-! ## The round trip -/

theorem passes_end {ps : List HtmlEntity} (hps : ∀ p ∈ ps, Wellformed p) (d : Str) :
    ∃ r, ps.foldlM replaceAll d = some r := by
  induction ps generalizing d with
  | nil => exact ⟨d, rfl⟩
  | cons p ps ih =>
    obtain ⟨d', hd'⟩ := replaceAll_ends (hps p List.mem_cons_self) d
    obtain ⟨r, hr⟩ := ih (fun q hq => hps q (List.mem_cons_of_mem p hq)) d'
    exact ⟨r, by rw [List.foldlM_cons, hd']; exact hr⟩

theorem htmlEscape_nul {s : Str} (hs : 0 ∉ s) : 0 ∉ s.flatMap htmlEscape := by
  have hent : ∀ p ∈ entities, 0 ∉ p.entity := by decide
  intro h
  obtain ⟨c, hc, h0⟩ := List.mem_flatMap.mp h
  unfold htmlEscape at h0
  split at h0
  · obtain rfl := List.mem_singleton.mp h0
    exact hs hc
  · next p hp => exact hent p (List.mem_of_find?_eq_some hp) h0

theorem cstr_terminated {e : Str} (he : 0 ∉ e) (rest : List Byte) : cstr (e ++ 0 :: rest) = e := by
  have hall : ∀ c ∈ e, decide (c ≠ 0) = true := by
    intro c hc
    rw [decide_eq_true_eq]
    rintro rfl
    exact he hc
  rw [cstr, List.takeWhile_append_of_pos hall]
  simp

/-- What the decoder works on is what the encoder has written. -/
theorem decode_encode_eq {s : Str} (hs : 0 ∉ s) (rest : List Byte) :
    uHtmlncpyDecode ((uHtmlncpyEncode s s.length).1 ++ 0 :: rest) (uHtmlncpyEncode s s.length).2 =
      (entities.foldlM replaceAll (s.flatMap htmlEscape)).map fun d => (d, d.length) := by
  simp only [uHtmlncpyEncode, List.take_length, uHtmlncpyDecode,
    cstr_terminated (htmlEscape_nul hs), strlcpy,
    Nat.add_sub_cancel]

/-- A string is given back exactly when none of the entities occurs in it, in whatever case:
no pass can tell such an occurrence from a character that has been encoded. -/
theorem html_round_trip_iff (s : Str) (hs : 0 ∉ s) :
    (∀ rest, uHtmlncpyDecode ((uHtmlncpyEncode s s.length).1 ++ 0 :: rest)
      (uHtmlncpyEncode s s.length).2 =
      some (s, s.length)) ↔ ∀ p ∈ entities, ¬ Occurs p s := by
  obtain ⟨r, hr⟩ := passes_end entities_wellformed (s.flatMap htmlEscape)
  simp only [decode_encode_eq hs, hr, Option.map_some, Option.some.injEq, Prod.mk.injEq,
    forall_const]
  constructor
  · rintro ⟨rfl, -⟩
    exact passes_absent entities_wellformed entities_fresh hr
  · intro hno
    have hapart : entities.Pairwise fun p q => q.sChar ≠ p.sChar := by decide
    obtain rfl := passes_encoded (List.Subset.refl entities) hapart hno (encoded_encode s) hr
    exact ⟨rfl, rfl⟩

theorem html_round_trip_markup :
    uHtmlncpyDecode (bytes "a&lt;b&amp;&#39;" ++ [0]) 16 = some (bytes "a<b&'", 5) :=
  (html_round_trip_iff (bytes "a<b&'") (by decide)).mpr (by decide) []

/-- The text of an entity does not come back. -/
theorem html_round_trip_entity : ¬ ∀ s : Str, 0 ∉ s → ∀ rest,
    uHtmlncpyDecode ((uHtmlncpyEncode s s.length).1 ++ 0 :: rest) (uHtmlncpyEncode s s.length).2 =
    some (s, s.length) := by
  intro h
  have hlt := h (bytes "&lt;") (by decide) []
  have hcode : uHtmlncpyDecode ((uHtmlncpyEncode (bytes "&lt;") (bytes "&lt;").length).1 ++ [0])
      (uHtmlncpyEncode (bytes "&lt;") (bytes "&lt;").length).2 = some (bytes "<", 1) := by rfl
  rw [hcode] at hlt
  revert hlt
  decide

end Klone
