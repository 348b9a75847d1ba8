import Klone.Http.Supplier
import Klone.Lib.PathStack

/-! # Script directories

A value of `script_alias` is an alias and a directory with blanks between them. A file is
taken for a script when its name begins with what follows the last blank.
-/
namespace Klone.Http

structure AliasValue where
  src : Str
  sep : Str
  dir : Str
  trail : Str
  src_ne : src ≠ []
  src_solid : ∀ c ∈ src, isblank c = false
  sep_ne : sep ≠ []
  sep_blank : ∀ c ∈ sep, isblank c = true
  dir_ne : dir ≠ []
  dir_solid : ∀ c ∈ dir, isblank c = false
  trail_blank : ∀ c ∈ trail, isblank c = true

def AliasValue.text (a : AliasValue) : Str := a.src ++ (a.sep ++ (a.dir ++ a.trail))

def NormalPath (s : Str) : Prop :=
  ∃ names, names ≠ [] ∧ (∀ t ∈ names, Proper t) ∧ segments s = [] :: names

/-- The path is the directory, or goes on from it with a slash. -/
def Inside (dir fqn : Str) : Prop :=
  dir <+: fqn ∧ (fqn = dir ∨ dir.getLast? = some slash ∨ (fqn.drop dir.length).head? = some slash)

instance (dir fqn : Str) : Decidable (Inside dir fqn) := inferInstanceAs (Decidable (_ ∧ _))

/-- Scripts are accepted only inside the directories to which `http_try_resolv` resolves. -/
def ScriptsInside (v : Vhost) : Prop :=
  ∀ fqn st, NormalPath fqn → cgiScript v fqn st = true →
    ∃ rule ∈ v.scriptAlias, ∃ dir, (strtok isblank rule)[1]? = some dir ∧ Inside dir fqn

/-- No blank at the end of a value, and each directory that can begin a path ends with a
slash or lies inside another one; or the root is one of them. -/
def Contained (values : List AliasValue) : Prop :=
  (∃ a ∈ values, a.dir = [slash]) ∨
    ∀ a ∈ values, a.trail = [] ∧
      (NormalPath (a.dir ++ [120]) → a.dir.getLast? = some slash ∨ ∃ b ∈ values, b.dir ≠ a.dir ∧
        Inside b.dir a.dir)

/-! ## The two ways to the directory -/

theorem strtok_text (a : AliasValue) : strtok isblank a.text = [a.src, a.dir] := by
  obtain ⟨b, sep, hsep⟩ := List.exists_cons_of_ne_nil a.sep_ne
  have hb : isblank b = true := a.sep_blank b (by simp [hsep])
  have hblank : ∀ c ∈ sep, isblank c = true := fun c hc => a.sep_blank c (by simp [hsep, hc])
  have hdir : strtok isblank (a.dir ++ a.trail) = [a.dir] := by
    cases htrail : a.trail with
    | nil => rw [List.append_nil, strtok_token a.dir_ne a.dir_solid]
    | cons c trail =>
      have hc : isblank c = true := a.trail_blank c (by simp [htrail])
      have htail : ∀ x ∈ trail, isblank x = true :=
        fun x hx => a.trail_blank x (by simp [htrail, hx])
      have hrest := strtok_delims htail []
      rw [List.append_nil, strtok_nil] at hrest
      rw [strtok_append a.dir_ne a.dir_solid hc, hrest]
  unfold AliasValue.text
  rw [hsep, List.cons_append, strtok_append a.src_ne a.src_solid hb, strtok_delims hblank, hdir]

/-- The scan from the end stops at the last blank. -/
theorem scriptDir_blank {u w : Str} {b : Byte} (hu : u ≠ []) (hb : isblank b = true)
    (hw : ∀ c ∈ w, isblank c = false) :
    scriptDir (u ++ b :: w) = some w := by
  obtain ⟨n, hn⟩ := Nat.exists_eq_succ_of_ne_zero (mt List.length_eq_zero_iff.mp hu)
  have hrange : List.range' 1 ((u ++ b :: w).length - 1) =
      List.range' 1 n ++ u.length :: List.range' (u.length + 1) w.length := by
    rw [List.length_append, List.length_cons, hn,
      show n.succ + (w.length + 1) - 1 = n + (1 + w.length) by omega,
      ← List.range'_append_1, ← List.range'_append_1, show 1 + n = n.succ by omega]
    rfl
  have hnone : (List.range' (u.length + 1) w.length).reverse.find?
      (fun t => ((u ++ b :: w)[t]?.map isblank).getD false) = none := by
    rw [List.find?_eq_none]
    intro t ht
    obtain ⟨hlow, hhigh⟩ := List.mem_range'_1.mp (List.mem_reverse.mp ht)
    obtain ⟨k, rfl⟩ := Nat.exists_eq_add_of_le hlow
    rw [List.getElem?_append_right (by omega),
      show u.length + 1 + k - u.length = k + 1 by omega, List.getElem?_cons_succ,
      List.getElem?_eq_getElem (by omega)]
    simp [hw _ (List.getElem_mem _)]
  have hat : ((u ++ b :: w)[u.length]?.map isblank).getD false = true := by simp [hb]
  unfold scriptDir
  rw [if_neg (by simp), hrange, List.reverse_append, List.reverse_cons, List.append_assoc,
    List.find?_append, hnone,
    Option.none_or, List.singleton_append, List.find?_cons, hat]
  simp [List.drop_append]

theorem scriptDir_text (a : AliasValue) :
    scriptDir a.text = some (if a.trail = [] then a.dir else []) := by
  unfold AliasValue.text
  rcases List.eq_nil_or_concat a.trail with htrail | ⟨trail, b, htrail⟩
  · obtain ⟨sep, b, hsep⟩ := List.eq_nil_or_concat a.sep |>.resolve_left a.sep_ne
    rw [List.concat_eq_append] at hsep
    have hb : isblank b = true := a.sep_blank b (by simp [hsep])
    have hne : a.src ++ sep ≠ [] := by simp [a.src_ne]
    have h := scriptDir_blank hne hb a.dir_solid
    rw [htrail, if_pos rfl, hsep]
    simpa using h
  · rw [List.concat_eq_append] at htrail
    have hb : isblank b = true := a.trail_blank b (by simp [htrail])
    have hne : a.src ++ (a.sep ++ (a.dir ++ trail)) ≠ [] := by simp [a.src_ne]
    have h := scriptDir_blank hne hb (w := []) (by simp)
    rw [htrail, if_neg (by simp)]
    simpa using h

/-! ## Paths with a common beginning -/

/-- What begins a path begins many others. -/
theorem normalPath_extend {d w : Str} {c : Byte} (hc : c ≠ slash) (h : NormalPath (d ++ c :: w))
    (n : ℕ) :
    NormalPath (d ++ List.replicate (n + 1) 120) := by
  obtain ⟨names, hnames, hproper, hsegs⟩ := h
  obtain ⟨init, x, i, rest, hd, hcw, hall⟩ := segments_append d (c :: w)
  obtain ⟨init', x', i', rest', hd', htail, hall'⟩ := segments_append d (List.replicate (n + 1) 120)
  obtain ⟨rfl, rfl⟩ : init' = init ∧ x' = x := by
    have h := hd'.symm.trans hd
    exact ⟨(List.append_inj' h rfl).1, List.singleton_inj.mp (List.append_inj' h rfl).2⟩
  have hsolid : slash ∉ List.replicate (n + 1) (120 : Byte) := by
    intro hm
    exact absurd (List.eq_of_mem_replicate hm) (by decide)
  have hsingle : segments (List.replicate (n + 1) 120) = [List.replicate (n + 1) 120] :=
    List.splitOn_eq_singleton hsolid
  obtain ⟨rfl, rfl⟩ := List.cons.inj (htail.symm.trans hsingle)
  -- the first part of the path is empty, and the part that goes on is not
  have hi : i ≠ [] := by
    rintro rfl
    have hcons := segments_cons_ne hc w
    obtain ⟨j, more, hw⟩ := List.exists_cons_of_ne_nil (segments_ne_nil w)
    rw [hcw, hw] at hcons
    cases hcons
  obtain ⟨init, rfl⟩ : ∃ more, init' = [] :: more := by
    cases init' with
    | nil =>
      have h := List.cons.inj (hall.symm.trans hsegs)
      exact absurd (List.append_eq_nil_iff.mp h.1).2 hi
    | cons y more =>
      have h := List.cons.inj (hall.symm.trans hsegs)
      exact ⟨more, by rw [h.1]⟩
  have hrest : names = init ++ (x' ++ i) :: rest := (List.cons.inj (hsegs.symm.trans hall)).2
  refine ⟨init ++ [x' ++ List.replicate (n + 1) 120], by simp, ?_, by simpa using hall'⟩
  intro t ht
  rcases List.mem_append.mp ht with ht | ht
  · exact hproper t (hrest ▸ List.mem_append_left _ ht)
  · rw [List.mem_singleton.mp ht]
    have hlast : (x' ++ List.replicate (n + 1) (120 : Byte)).getLast? = some 120 := by
      simp [List.getLast?_append, List.getLast?_replicate]
    refine ⟨by simp, ?_, ?_⟩
    · intro he
      rw [he] at hlast
      exact absurd hlast (by decide)
    · intro he
      rw [he] at hlast
      exact absurd hlast (by decide)

/-- A directory that holds the path with a long tail holds the path without it. -/
theorem inside_of_replicate {dir d : Str} {n : ℕ} (hlen : dir.length < n)
    (h : Inside dir (d ++ List.replicate n 120)) :
    Inside dir d ∧ (dir = d → d.getLast? = some slash) := by
  obtain ⟨hpre, hend⟩ := h
  have hne : d ++ List.replicate n 120 ≠ dir := by
    intro he
    have := congrArg List.length he
    rw [List.length_append, List.length_replicate] at this
    omega
  have hend := hend.resolve_left hne
  rcases Nat.lt_or_ge d.length dir.length with hlt | hge
  · -- a directory that reaches into the tail ends in it
    exfalso
    obtain ⟨e, rfl⟩ : d <+: dir :=
      List.prefix_of_prefix_length_le (List.prefix_append _ _) hpre hlt.le
    have he : e <+: List.replicate n 120 := (List.prefix_append_right_inj d).mp hpre
    obtain ⟨m, hm⟩ : ∃ m, e = List.replicate (m + 1) 120 := by
      rw [List.length_append] at hlt
      refine ⟨e.length - 1, ?_⟩
      rw [show e.length - 1 + 1 = e.length by omega]
      exact List.eq_replicate_of_mem fun x hx => List.eq_of_mem_replicate (he.subset hx)
    rcases hend with hend | hend
    · rw [hm] at hend
      simp [List.getLast?_append, List.getLast?_replicate] at hend
      exact absurd hend (by decide)
    · have hmem := List.mem_of_head? hend
      rw [List.drop_append, List.drop_eq_nil_of_le hlt.le, List.nil_append] at hmem
      exact absurd (List.eq_of_mem_replicate (List.mem_of_mem_drop hmem)) (by decide)
  · obtain ⟨u, rfl⟩ : dir <+: d := List.prefix_of_prefix_length_le hpre (List.prefix_append _ _) hge
    cases u with
    | nil =>
      rw [List.append_nil] at hend ⊢
      rcases hend with hend | hend
      · exact ⟨⟨List.prefix_rfl, Or.inl rfl⟩, fun _ => hend⟩
      · rw [List.drop_left] at hend
        exact absurd (List.eq_of_mem_replicate (List.mem_of_head? hend)) (by decide)
    | cons c u =>
      refine ⟨⟨List.prefix_append _ _, Or.inr ?_⟩, fun he => by simp at he⟩
      rw [List.append_assoc, List.drop_left] at hend
      rw [List.drop_left]
      exact hend

/-- A path that begins with a directory lies inside it, or the directory goes on. -/
theorem inside_or_extends {dir fqn : Str} (h : dir <+: fqn) :
    Inside dir fqn ∨ dir.getLast? ≠ some slash ∧ ∃ c w, c ≠ slash ∧ fqn = dir ++ c :: w := by
  obtain ⟨w, rfl⟩ := h
  cases w with
  | nil => exact Or.inl ⟨List.prefix_append _ _, Or.inl (List.append_nil dir)⟩
  | cons c w =>
    by_cases hlast : dir.getLast? = some slash
    · exact Or.inl ⟨List.prefix_append _ _, Or.inr (Or.inl hlast)⟩
    · by_cases hc : c = slash
      · exact Or.inl ⟨List.prefix_append _ _, Or.inr (Or.inr (by simp [hc]))⟩
      · exact Or.inr ⟨hlast, c, w, hc, rfl⟩

theorem Inside.trans {dir dir' fqn : Str} (h : Inside dir dir') (hne : dir ≠ dir')
    (hpre : dir' <+: fqn) : Inside dir fqn := by
  obtain ⟨⟨u, rfl⟩, hend⟩ := h
  obtain ⟨w, rfl⟩ := hpre
  refine ⟨(List.prefix_append _ _).trans (List.prefix_append _ _), Or.inr ?_⟩
  rcases hend with hend | hend | hend
  · exact absurd hend.symm hne
  · exact Or.inl hend
  · right
    rw [List.drop_left] at hend
    rw [List.append_assoc, List.drop_left]
    cases u with
    | nil => cases hend
    | cons c u => exact hend

/-! ## Which scripts are accepted -/

section
variable {v : Vhost} {values : List AliasValue}

theorem inScriptDir_iff (hv : v.scriptAlias = values.map AliasValue.text) (fqn : Str) :
    inScriptDir v fqn = true ↔ ∃ a ∈ values, a.trail ≠ [] ∨ a.dir <+: fqn := by
  unfold inScriptDir
  rw [hv, List.any_map, List.any_eq_true]
  refine exists_congr fun a => and_congr_right fun _ => ?_
  simp only [Function.comp_apply, scriptDir_text, List.isPrefixOf_iff_prefix]
  by_cases htrail : a.trail = []
  · simp [htrail]
  · simp [htrail]

/-- The directories of the values are those to which `http_try_resolv` resolves. -/
theorem scriptsInside_iff (hv : v.scriptAlias = values.map AliasValue.text) :
    ScriptsInside v ↔ ∀ fqn, NormalPath fqn → (∃ a ∈ values, a.trail ≠ [] ∨ a.dir <+: fqn) →
    ∃ a ∈ values, Inside a.dir fqn := by
  have hinside : ∀ fqn, (∃ rule ∈ v.scriptAlias, ∃ dir, (strtok isblank rule)[1]? = some dir ∧
    Inside dir fqn) ↔
      ∃ a ∈ values, Inside a.dir fqn := by
    intro fqn
    rw [hv]
    constructor
    · rintro ⟨rule, hrule, dir, hdir, hin⟩
      obtain ⟨a, ha, rfl⟩ := List.mem_map.mp hrule
      rw [strtok_text] at hdir
      cases hdir
      exact ⟨a, ha, hin⟩
    · rintro ⟨a, ha, hin⟩
      exact ⟨a.text, List.mem_map_of_mem ha, a.dir, by rw [strtok_text]; rfl, hin⟩
  constructor
  · intro h fqn hnormal haccept
    rw [← hinside]
    apply h fqn ⟨true, 0, true, true⟩ hnormal
    unfold cgiScript
    rw [(inScriptDir_iff hv fqn).mpr haccept]
    rfl
  · intro h fqn st hnormal haccept
    rw [hinside]
    apply h fqn hnormal
    unfold cgiScript at haccept
    exact (inScriptDir_iff hv fqn).mp (Bool.and_eq_true_iff.mp haccept).1

theorem normalPath_root (n : ℕ) : NormalPath ([slash] ++ List.replicate (n + 1) 120) := by
  have hproper : ∀ t ∈ [[(120 : Byte)]], Proper t := by
    intro t ht
    rw [List.mem_singleton.mp ht]
    exact ⟨by decide, by decide, by decide⟩
  have h : NormalPath ([slash] ++ 120 :: []) := ⟨[[120]], by decide, hproper, by decide⟩
  exact normalPath_extend (by decide) h n

theorem normalPath_slash {fqn : Str} (h : NormalPath fqn) : [slash] <+: fqn := by
  obtain ⟨names, hne, -, hsegs⟩ := h
  cases fqn with
  | nil => exact absurd (List.cons.inj (hsegs.symm.trans (show segments [] = [[]] from rfl))).2 hne
  | cons c s =>
    by_cases hc : c = slash
    · rw [hc]
      exact List.prefix_append [slash] s
    · rw [segments_cons_ne hc] at hsegs
      obtain ⟨j, more, hs⟩ := List.exists_cons_of_ne_nil (segments_ne_nil s)
      rw [hs] at hsegs
      cases hsegs

/-- Scripts are accepted only inside the directories exactly when the values are contained. -/
theorem scripts_inside_iff (hv : v.scriptAlias = values.map AliasValue.text) :
    ScriptsInside v ↔ Contained values := by
  rw [scriptsInside_iff hv]
  constructor
  · intro h
    -- a tail that is longer than all the directories
    obtain ⟨n, hn⟩ : ∃ n, ∀ a ∈ values, a.dir.length < n + 1 := by
      refine ⟨(values.map fun a => a.dir.length).sum, fun a ha => ?_⟩
      have := List.le_sum_of_mem (List.mem_map_of_mem (f := fun a : AliasValue => a.dir.length) ha)
      omega
    by_cases hroot : ∃ a ∈ values, a.dir = [slash]
    · exact Or.inl hroot
    · refine Or.inr fun a ha => ⟨?_, fun hnormal => ?_⟩
      · by_contra htrail
        obtain ⟨b, hb, hin⟩ := h _ (normalPath_root n) ⟨a, ha, Or.inl htrail⟩
        obtain ⟨⟨u, hu⟩, -⟩ := (inside_of_replicate (hn b hb) hin).1
        refine hroot ⟨b, hb, ?_⟩
        rcases List.append_eq_singleton_iff.mp hu with ⟨hnil, -⟩ | ⟨hdir, -⟩
        · exact absurd hnil b.dir_ne
        · exact hdir
      · have hlong := normalPath_extend (by decide) hnormal n
        obtain ⟨b, hb, hin⟩ := h _ hlong ⟨a, ha, Or.inr (List.prefix_append _ _)⟩
        obtain ⟨hin, hsame⟩ := inside_of_replicate (hn b hb) hin
        by_cases hdir : b.dir = a.dir
        · exact Or.inl (hsame hdir)
        · exact Or.inr ⟨b, hb, hdir, hin⟩
  · rintro (⟨a, ha, hroot⟩ | hall) fqn hnormal ⟨b, hb, haccept⟩
    · refine ⟨a, ha, ?_⟩
      rw [hroot]
      exact ⟨normalPath_slash hnormal, Or.inr (Or.inl rfl)⟩
    · obtain ⟨htrail, hdir⟩ := hall b hb
      rcases inside_or_extends (haccept.resolve_left (not_not.mpr htrail)) with hin |
        ⟨hlast, c, w, hc, rfl⟩
      · exact ⟨b, hb, hin⟩
      · obtain ⟨a, ha, hne, hin⟩ := (hdir (normalPath_extend hc hnormal 0)).resolve_left hlast
        exact ⟨a, ha, hin.trans hne (List.prefix_append _ _)⟩

end

def cgiVhost (rules : List Str) : Vhost :=
  ⟨bytes "www", bytes "/var/www", [], some ⟨rules, []⟩, none, none, none, none⟩

/-- `/cgi-bin/ /var/www/cgi-bin/` -/
def cgiBinValue : AliasValue where
  src := bytes "/cgi-bin/"
  sep := [32]
  dir := bytes "/var/www/cgi-bin/"
  trail := []
  src_ne := by decide
  src_solid := by decide +kernel
  sep_ne := by decide
  sep_blank := by decide +kernel
  dir_ne := by decide
  dir_solid := by decide +kernel
  trail_blank := by decide +kernel

/-- A script that is accepted outside the only directory. -/
theorem not_scriptsInside {rule fqn : Str} (dir : Str) (names : List Str)
    (hrule : (strtok isblank rule)[1]? = some dir) (hsegs : segments fqn = [] :: names)
    (hne : names ≠ []) (hproper : ∀ t ∈ names, t ≠ [] ∧ t ≠ dot ∧ t ≠ dotdot)
    (haccept : cgiScript (cgiVhost [rule]) fqn ⟨true, 0, true, true⟩ = true)
    (houtside : ¬ Inside dir fqn) :
    ¬ ScriptsInside (cgiVhost [rule]) := by
  intro h
  have hnormal : NormalPath fqn :=
    ⟨names, hne, fun t ht => ⟨(hproper t ht).1, (hproper t ht).2.1, (hproper t ht).2.2⟩, hsegs⟩
  obtain ⟨rule', hmem, dir', hdir, hin⟩ := h fqn _ hnormal haccept
  obtain rfl : rule' = rule := List.mem_singleton.mp hmem
  rw [hrule] at hdir
  cases hdir
  exact houtside hin

theorem scripts_inside_cgiBin :
    ScriptsInside (cgiVhost [cgiBinValue.text]) ↔ Contained [cgiBinValue] :=
  scripts_inside_iff (v := cgiVhost [cgiBinValue.text]) rfl

/-- A file of a directory beside the script directory is accepted, and with a blank at the
end of the value every file is. -/
theorem scripts_outside :
    cgiScript (cgiVhost [bytes "/cgi-bin /var/www/cgi-bin"]) (bytes "/var/www/cgi-bin-old/run")
    ⟨true, 0, true, true⟩ = true ∧
      cgiScript (cgiVhost [bytes "/cgi-bin /var/www/cgi-bin "]) (bytes "/etc/run")
        ⟨true, 0, true, true⟩ = true ∧
      ¬ ScriptsInside (cgiVhost [bytes "/cgi-bin /var/www/cgi-bin"]) ∧
      ¬ ScriptsInside (cgiVhost [bytes "/cgi-bin /var/www/cgi-bin "]) := by
  have hbeside : cgiScript (cgiVhost [bytes "/cgi-bin /var/www/cgi-bin"])
    (bytes "/var/www/cgi-bin-old/run")
      ⟨true, 0, true, true⟩ = true := rfl
  have hany : cgiScript (cgiVhost [bytes "/cgi-bin /var/www/cgi-bin "]) (bytes "/etc/run")
    ⟨true, 0, true, true⟩ =
      true := rfl
  refine ⟨hbeside, hany, ?_, ?_⟩
  · exact not_scriptsInside (bytes "/var/www/cgi-bin")
      [bytes "var", bytes "www", bytes "cgi-bin-old", bytes "run"]
      (by decide) (by decide) (by decide) (by decide) hbeside (by decide)
  · exact not_scriptsInside (bytes "/var/www/cgi-bin") [bytes "etc", bytes "run"]
      (by decide) (by decide) (by decide) (by decide) hany (by decide)

end Klone.Http
