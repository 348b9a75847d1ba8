import Klone.Http.Resolve

/-! # Confinement to the document root

Every file name that a request is resolved to is the document root or an alias
target, followed by what is left of a clean path. Index names come from the
configuration and are appended as they are, so they must be clean themselves.
-/
namespace Klone.Http
variable {σ : Type*}

inductive ResolveOp where
  | resolv
  | index

/-- What the server does to the names of a request, with the callback's state. -/
def resolveStep (lib : Libu) (v : Vhost) (valid : σ → Str → Bool × σ) (s : Target × σ) :
    ResolveOp → Target × σ
  | .resolv => ((httpResolvRequest lib v s.1).2, s.2)
  | .index => (httpSetIndexRequest lib v valid s.1 s.2).2

def resolveRun (lib : Libu) (v : Vhost) (valid : σ → Str → Bool × σ) (s : Target × σ)
    (ops : List ResolveOp) : Target × σ := ops.foldl (resolveStep lib v valid) s

/-- The path is the root or the target of a matching alias, joined with a rest of
the file name that does not lead elsewhere. -/
def Confined (v : Vhost) (filename path : Str) : Prop :=
  ∃ suffix, backslash ∉ suffix ∧ dotdot ∉ segments suffix ∧
    (suffix = filename ∧ path = squeeze (v.dirRoot ++ slash :: suffix) ∨
      ∃ rule ∈ v.aliases, ∃ src target rest, strtok isblank rule = src :: target :: rest ∧
        filename = src ++ suffix ∧ path = squeeze (target ++ slash :: suffix))

/-- The configured index names that the request may be given. -/
def Vhost.indexNames (v : Vhost) : List Str := (v.index.map (strtok isblank)).getD []

theorem append_eq_dotdot {x i : Str} (h : x ++ i = dotdot) :
    x = [] ∧ i = dotdot ∨ x = dot ∨ x = dotdot := by
  rcases x with _ | ⟨a, _ | ⟨b, _ | ⟨c, x⟩⟩⟩
  · exact Or.inl ⟨rfl, h⟩
  · refine Or.inr (Or.inl ?_)
    injection h with ha
    rw [ha]
    rfl
  · refine Or.inr (Or.inr ?_)
    injection h with ha h
    injection h with hb
    rw [ha, hb]
    rfl
  · simp [dotdot] at h

theorem append_eq_dot {x i : Str} (h : x ++ i = dot) : x = [] ∧ i = dot ∨ x = dot := by
  rcases x with _ | ⟨a, _ | ⟨b, x⟩⟩
  · exact Or.inl ⟨rfl, h⟩
  · refine Or.inr ?_
    injection h with ha
    rw [ha]
    rfl
  · simp [dot] at h

theorem Clean.append {s t : Str} (hs : Clean s) (ht : Clean t) : Clean (s ++ t) := by
  obtain ⟨init, x, i, rest, hss, hts, hst⟩ := segments_append s t
  have hx : x ≠ dot := by
    rintro rfl
    apply hs.noLastDot
    rw [hss, List.getLast?_append_of_ne_nil _ (List.cons_ne_nil _ _)]
    rfl
  have hxx : x ≠ dotdot := by
    rintro rfl
    apply hs.noDotdot
    rw [hss]
    simp
  constructor
  · intro hb
    rcases List.mem_append.mp hb with hb | hb
    · exact hs.noBackslash hb
    · exact ht.noBackslash hb
  · intro hd
    rw [hst] at hd
    rcases List.mem_append.mp hd with hd | hd
    · apply hs.noDotdot
      rw [hss]
      exact List.mem_append_left _ hd
    rcases List.mem_cons.mp hd with hd | hd
    · rcases append_eq_dotdot hd.symm with ⟨-, hi⟩ | hi | hi
      · apply ht.noDotdot
        rw [hts, hi]
        exact List.mem_cons_self
      · exact hx hi
      · exact hxx hi
    · apply ht.noDotdot
      rw [hts]
      exact List.mem_cons_of_mem _ hd
  · intro hl
    rw [hst, List.getLast?_append_of_ne_nil _ (List.cons_ne_nil _ _)] at hl
    have htl := ht.noLastDot
    rw [hts] at htl
    cases rest with
    | nil =>
      rcases append_eq_dot (Option.some.inj hl) with ⟨-, hi⟩ | hi
      · exact htl (congrArg some hi)
      · exact hx hi
    | cons y rest =>
      rw [List.getLast?_cons_cons] at hl htl
      exact htl hl

theorem httpTryResolv_confined {lib : Libu} {v : Vhost} {rule uri path : Str} {sz : ℕ}
    (hr : rule ∈ v.aliases) (hu : Clean uri) (h : httpTryResolv lib rule uri sz = some path) :
    Confined v uri path := by
  obtain ⟨src, target, rest, suffix, hstr, rfl, hb, hpath⟩ := httpTryResolv_some h
  have hback : backslash ∉ suffix := fun hm => hu.noBackslash (List.mem_append_right _ hm)
  exact ⟨suffix, hback, dotdot_suffix hu.noDotdot hb,
    Or.inr ⟨rule, hr, src, target, rest, hstr, rfl, hpath⟩⟩

theorem httpAliasResolv_confined {lib : Libu} {v : Vhost} {uri path : Str} {sz : ℕ} (hu : Clean uri)
    (h : httpAliasResolv lib v uri sz = some path) : Confined v uri path := by
  unfold httpAliasResolv at h
  cases hf : v.aliases.findSome? fun rule => httpTryResolv lib rule uri sz with
  | some dst =>
    rw [hf] at h
    obtain ⟨rule, hr, ht⟩ := List.exists_of_findSome?_eq_some hf
    obtain rfl : dst = path := Option.some.inj h
    exact httpTryResolv_confined hr hu ht
  | none =>
    rw [hf] at h
    exact ⟨uri, hu.noBackslash, hu.noDotdot, Or.inl ⟨rfl, lib.path_eq _ _ _ _ h⟩⟩

/-! ## Runs -/

structure TargetOk (v : Vhost) (t : Target) : Prop where
  filename : Clean t.filename
  stored : ∀ e ∈ t.stored, Confined v e.1 e.2

theorem httpResolvRequest_ok {lib : Libu} {v : Vhost} {t : Target} (h : TargetOk v t) :
    TargetOk v (httpResolvRequest lib v t).2 := by
  unfold httpResolvRequest
  cases hr : httpAliasResolv lib v t.filename lib.filenameMax with
  | none => exact h
  | some resolved =>
    have hstored : ∀ e ∈ (t.filename, resolved) :: t.stored, Confined v e.1 e.2 := by
      intro e he
      rcases List.mem_cons.mp he with rfl | he
      · exact httpAliasResolv_confined h.filename hr
      · exact h.stored e he
    dsimp only
    split
    · exact ⟨h.filename, hstored⟩
    · split
      · exact ⟨h.filename, hstored⟩
      · exact ⟨h.filename, hstored⟩

theorem firstIndex_mem {lib : Libu} {valid : σ → Str → Bool × σ} {t : Target} {names : List Str}
    {st st' : σ} {idx : Str} (h : firstIndex lib valid t names st = (some idx, st')) :
    idx ∈ names := by
  induction names generalizing st with
  | nil => cases h
  | cons name rest ih =>
    rw [firstIndex] at h
    split at h
    · exact List.mem_cons_of_mem _ (ih h)
    · dsimp only at h
      split at h
      · split at h
        · cases h
        · have he := (Prod.mk.inj h).1
          rw [Option.some.inj he]
          exact List.mem_cons_self
      · exact List.mem_cons_of_mem _ (ih h)

theorem defaultIndexes_clean : ∀ name ∈ defaultIndexes, Clean name := by
  have hd : ∀ name ∈ defaultIndexes, backslash ∉ name ∧ dotdot ∉ segments name ∧
      (segments name).getLast? ≠ some dot := by decide
  intro name hn
  obtain ⟨h₁, h₂, h₃⟩ := hd name hn
  exact ⟨h₁, h₂, h₃⟩

theorem httpGetIndex_clean {lib : Libu} {v : Vhost} (hv : ∀ name ∈ v.indexNames, Clean name)
    {valid : σ → Str → Bool × σ} {t : Target} {st st' : σ} {idx : Str}
    (h : httpGetIndex lib v valid t st = (some idx, st')) : Clean idx := by
  unfold httpGetIndex at h
  split at h
  · next idx' st₁ hc =>
    obtain rfl : idx' = idx := Option.some.inj (Prod.mk.inj h).1
    unfold httpGetConfigIndex at hc
    cases hi : v.index with
    | none =>
      rw [hi] at hc
      cases hc
    | some cindex =>
      rw [hi] at hc
      dsimp only at hc
      split at hc
      · cases hc
      · apply hv
        rw [Vhost.indexNames, hi]
        exact firstIndex_mem hc
  · exact defaultIndexes_clean idx (firstIndex_mem h)

theorem httpSetIndexRequest_ok {lib : Libu} {v : Vhost} (hv : ∀ name ∈ v.indexNames, Clean name)
    {valid : σ → Str → Bool × σ} {t : Target} (h : TargetOk v t) (st : σ) :
    TargetOk v (httpSetIndexRequest lib v valid t st).2.1 := by
  unfold httpSetIndexRequest
  split
  · exact h
  · next idx st' hi =>
    split
    · exact h
    · apply httpResolvRequest_ok
      exact ⟨h.filename.append (httpGetIndex_clean hv hi), h.stored⟩

theorem resolveStep_ok {lib : Libu} {v : Vhost} (hv : ∀ name ∈ v.indexNames, Clean name)
    {valid : σ → Str → Bool × σ} {s : Target × σ} (h : TargetOk v s.1) (op : ResolveOp) :
    TargetOk v (resolveStep lib v valid s op).1 := by
  cases op with
  | resolv => exact httpResolvRequest_ok h
  | index => exact httpSetIndexRequest_ok hv h s.2

theorem resolveRun_ok {lib : Libu} {v : Vhost} (hv : ∀ name ∈ v.indexNames, Clean name)
    {valid : σ → Str → Bool × σ} (ops : List ResolveOp) {s : Target × σ} (h : TargetOk v s.1) :
    TargetOk v (resolveRun lib v valid s ops).1 := by
  induction ops generalizing s with
  | nil => exact h
  | cons op rest ih => exact ih (resolveStep_ok hv h op)

/-- For an accepted URI, whatever the callback answers and however often the server
resolves the request or gives it an index page, what it stores is confined. -/
theorem resolved_confined (lib : Libu) (v : Vhost) (hv : ∀ name ∈ v.indexNames, Clean name)
    (valid : σ → Str → Bool × σ) (st st' : σ) (uri : Str) (r : SetUri)
    (hr : requestSetUri valid st uri = some (r, st')) (ops : List ResolveOp) :
    ∀ e ∈ (resolveRun lib v valid (targetOf r, st') ops).1.stored, Confined v e.1 e.2 := by
  have hstart : TargetOk v (targetOf r) :=
    ⟨requestSetUri_clean hr, fun e he => absurd he List.not_mem_nil⟩
  exact (resolveRun_ok hv ops hstart).stored

/-- A path printer that fails when the buffer is too small. -/
def plainLibu : Libu where
  filenameMax := 1024
  pathSnprintf := fun sz a b =>
    if (squeeze (a ++ slash :: b)).length < sz then some (squeeze (a ++ slash :: b)) else none
  path_eq := by
    intro sz a b r h
    split at h
    · exact (Option.some.inj h).symm
    · cases h

def siteVhost (dirAlias : List Str) (index : Str) : Vhost :=
  ⟨bytes "site", bytes "/www", dirAlias, none, some index, none, none, none⟩

def acceptAll (_ : Unit) (_ : Str) : Bool × Unit := (true, ())

theorem resolved_confined_alias :
    (resolveRun plainLibu (siteVhost [bytes "/img /pictures"] (bytes "index.html")) acceptAll
        (targetOf ⟨bytes "/x/..%2fimg/", none, bytes "/img/", none⟩, ())
          [.resolv, .index]).1.stored =
      [(bytes "/img/index.html", bytes "/pictures/index.html"),
        (bytes "/img/", bytes "/pictures/")] ∧
    Confined (siteVhost [bytes "/img /pictures"] (bytes "index.html")) (bytes "/img/index.html")
      (bytes "/pictures/index.html") := by
  have hstored : (resolveRun plainLibu
    (siteVhost [bytes "/img /pictures"] (bytes "index.html")) acceptAll
        (targetOf ⟨bytes "/x/..%2fimg/", none, bytes "/img/", none⟩, ())
          [.resolv, .index]).1.stored =
      [(bytes "/img/index.html", bytes "/pictures/index.html"),
        (bytes "/img/", bytes "/pictures/")] := by decide
  have hclean : ∀ name ∈ (siteVhost [bytes "/img /pictures"] (bytes "index.html")).indexNames,
      Clean name := by
    intro name hn
    rw [List.mem_singleton.mp (show name ∈ [bytes "index.html"] from hn)]
    exact ⟨by decide, by decide, by decide⟩
  have hset : requestSetUri acceptAll () (bytes "/x/..%2fimg/") =
      some (⟨bytes "/x/..%2fimg/", none, bytes "/img/", none⟩, ()) := by decide
  have hconf := resolved_confined plainLibu _ hclean acceptAll () () (bytes "/x/..%2fimg/") _ hset
    [.resolv, .index]
  rw [hstored] at hconf
  exact ⟨hstored, hconf _ List.mem_cons_self⟩

/-- No `..` in the document root, the aliases and the index names. -/
def Vhost.NoDots (v : Vhost) : Prop :=
  dotdot ∉ segments v.dirRoot ∧
    (∀ rule ∈ v.aliases, ∀ tok ∈ strtok isblank rule, dotdot ∉ segments tok) ∧
    ∀ name ∈ v.indexNames, dotdot ∉ segments name

instance (v : Vhost) : Decidable v.NoDots := inferInstanceAs (Decidable (_ ∧ _ ∧ _))

def Vhost.Confines (v : Vhost) : Prop :=
  ∀ (lib : Libu) (valid : Unit → Str → Bool × Unit) (uri : Str) (r : SetUri) (ops : List ResolveOp),
    requestSetUri valid () uri = some (r, ()) →
      ∀ e ∈ (resolveRun lib v valid (targetOf r, ()) ops).1.stored, Confined v e.1 e.2

theorem not_confined_of_unclean {index filename path : Str}
    (h : backslash ∈ filename ∨ dotdot ∈ segments filename) :
    ¬ Confined (siteVhost [] index) filename path := by
  rintro ⟨suffix, hb, hd, ⟨rfl, -⟩ | ⟨rule, hr, -⟩⟩
  · rcases h with h | h
    · exact hb h
    · exact hd h
  · exact absurd hr List.not_mem_nil

/-- An index name with a backslash is stored as it is, and the index name `.` given
twice makes the name `..`. -/
theorem index_not_confined :
    ((siteVhost [] (bytes "a\\b")).NoDots ∧ ¬ (siteVhost [] (bytes "a\\b")).Confines) ∧
      (siteVhost [] dot).NoDots ∧ ¬ (siteVhost [] dot).Confines := by
  refine ⟨⟨by decide, fun h => ?_⟩, by decide, fun h => ?_⟩
  · have hc := h plainLibu acceptAll (bytes "/") ⟨bytes "/", none, bytes "/", none⟩
      [.resolv, .index]
      (by decide) (bytes "/a\\b", bytes "/www/a\\b") (by decide)
    exact not_confined_of_unclean (Or.inl (by decide)) hc
  · have hc := h plainLibu acceptAll (bytes "/?q") ⟨bytes "/?q", some (bytes "q"), bytes "/", none⟩
      [.resolv, .index, .index] (by decide) (bytes "/..", bytes "/www/..") (by decide)
    exact not_confined_of_unclean (Or.inr (by decide)) hc

end Klone.Http
