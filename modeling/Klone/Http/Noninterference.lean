import Klone.Http.Confinement
import Klone.Http.Serve

/-! # Which files a response depends on

The split of the URI asks the file suppliers for prefixes of the URI itself and for
prefixes resolved by the default virtual host. A response depends on no file
outside the area of its virtual host exactly if all those paths that a file
supplier would take lie inside.
-/
namespace Klone.Http

variable {site : Site} {v : Vhost} {fs fs' : FileSystem}

/-! ## The split -/

theorem brokerIsValidUri_congr {uri : Str}
    (h : filesValid site v fs uri = filesValid site v fs' uri) :
    brokerIsValidUri site v fs uri = brokerIsValidUri site v fs' uri := by
  rw [brokerIsValidUri, brokerIsValidUri, h]

theorem brokerIsValidUri_fixed {uri : Str} (h : (fixedValid site uri).isSome = true) :
    brokerIsValidUri site v fs uri = fixedValid site uri := by
  obtain ⟨info, hi⟩ := Option.isSome_iff_exists.mp h
  rw [brokerIsValidUri, hi]
  rfl

theorem brokerIsValidUri_files {uri : Str} (h : ¬ (fixedValid site uri).isSome = true) :
    brokerIsValidUri site v fs uri = filesValid site v fs uri := by
  rw [Option.not_isSome_iff_eq_none] at h
  rw [brokerIsValidUri, h, Option.none_or]

/-- One prefix: the answer depends on the files tried, and is positive if a
supplier without files takes the prefix. -/
theorem httpIsValidUri_congr {uri : Str}
    (h : ∀ p ∈ (tried site v uri).1, filesValid site v fs p = filesValid site v fs' p) :
    httpIsValidUri site v fs uri = httpIsValidUri site v fs' uri := by
  unfold httpIsValidUri
  unfold tried at h
  split
  · rfl
  next hlen =>
    rw [if_neg hlen] at h
    by_cases hf : (fixedValid site uri).isSome = true
    · rw [brokerIsValidUri_fixed hf, brokerIsValidUri_fixed hf]
      obtain ⟨info, hi⟩ := Option.isSome_iff_exists.mp hf
      rw [hi, Option.some_or, Option.some_or]
    · rw [if_neg hf] at h
      cases hr : httpAliasResolv site.lib v uri site.lib.filenameMax with
      | none =>
        rw [hr] at h
        rw [brokerIsValidUri_congr (h uri List.mem_cons_self)]
        rfl
      | some resolved =>
        rw [hr] at h
        dsimp only at h
        rw [Option.bind_some, Option.bind_some]
        by_cases hg : (fixedValid site resolved).isSome = true
        · rw [if_pos hg] at h
          rw [brokerIsValidUri_congr (h uri List.mem_cons_self), brokerIsValidUri_fixed hg,
            brokerIsValidUri_fixed hg]
        · rw [if_neg hg] at h
          rw [brokerIsValidUri_congr (h uri List.mem_cons_self),
            brokerIsValidUri_congr (h resolved (List.mem_cons_of_mem _ List.mem_cons_self))]

theorem httpIsValidUri_isSome (fs : FileSystem) {uri : Str} (h : (tried site v uri).2 = true) :
    (httpIsValidUri site v fs uri).isSome = true := by
  unfold tried at h
  unfold httpIsValidUri
  split at h
  · cases h
  next hlen =>
    rw [if_neg hlen]
    split at h
    · next hf =>
      rw [brokerIsValidUri_fixed hf, Option.isSome_or, hf, Bool.true_or]
    · split at h
      · cases h
      · next resolved hr =>
        split at h
        · next hg => rw [hr, Option.bind_some, Option.isSome_or, brokerIsValidUri_fixed hg, hg,
            Bool.or_true]
        · cases h

theorem cacheSup_some {found : Str → Option SupInfo} {uri : Str} {info : SupInfo}
    (h : found uri = some info) (st : Option SupInfo) :
    cacheSup found st uri = (true, some info) := by
  rw [cacheSup, h]

theorem cacheSup_none {found : Str → Option SupInfo} {uri : Str} (h : found uri = none)
    (st : Option SupInfo) : cacheSup found st uri = (false, st) := by
  rw [cacheSup, h]

theorem splitLoop_congr {cp : Str} {turns len : ℕ} (st : Option SupInfo)
    (h : ∀ p ∈ probes site v cp turns len, filesValid site v fs p = filesValid site v fs' p) :
    splitLoop (cacheSup (httpIsValidUri site v fs)) cp turns len st =
      splitLoop (cacheSup (httpIsValidUri site v fs')) cp turns len st := by
  induction turns generalizing len with
  | zero => rfl
  | succ turns ih =>
    rw [probes] at h
    have hval := httpIsValidUri_congr fun p hp => h p (List.mem_append_left _ hp)
    rw [splitLoop, splitLoop]
    cases hv : httpIsValidUri site v fs (cp.take len) with
    | some info =>
      rw [cacheSup_some hv, cacheSup_some (hval.symm.trans hv)]
      exact (if_pos rfl).trans (if_pos rfl).symm
    | none =>
      have ht : ¬ (tried site v (cp.take len)).2 = true := by
        intro ht
        have hs := httpIsValidUri_isSome fs ht
        rw [hv] at hs
        cases hs
      rw [cacheSup_none hv, cacheSup_none (hval.symm.trans hv)]
      rw [if_neg ht] at h
      cases hr : uStrnrchr cp slash len with
      | none => rfl
      | some p =>
        rw [hr] at h
        exact ih fun q hq => h q (List.mem_append_right _ hq)

theorem httpGetVhost_nil (s : Server) : httpGetVhost s [] = some s.main := rfl

theorem parseUri_congr {s : Server} {uri : Str}
    (h : ∀ p ∈ uriProbes site s.main uri,
      filesValid site s.main fs p = filesValid site s.main fs' p) :
    parseUri site s fs uri = parseUri site s fs' uri := by
  unfold parseUri requestSetUri
  unfold uriProbes at h
  rw [httpGetVhost_nil, Option.bind_some, Option.bind_some]
  cases hn : (decodedPath uri).bind uUriNormalize with
  | none => rfl
  | some cp =>
    rw [hn] at h
    dsimp only
    rw [splitLoop_congr none h]

/-- A path that no file supplier would take is not looked up. -/
theorem filesValid_not_wouldTake {path : Str} (h : ¬ wouldTake site v path = true) :
    filesValid site v fs path = none := by
  cases hf : filesValid site v fs path with
  | none => rfl
  | some info =>
    exfalso
    apply h
    obtain ⟨-, hr⟩ := filesValid_sup hf
    have hne : path ≠ [] := by
      rintro rfl
      have hn : filesValid site v fs [] = none := filesValid_none rfl
      rw [hn] at hf
      cases hf
    unfold wouldTake
    rw [hr, decide_eq_true hne]
    unfold filesValid cgiIsValidUri fsIsValidUri cgiScript at hf
    rw [hr] at hf
    cases hfs : site.enableFs with
    | true => rfl
    | false =>
      rw [hfs] at hf
      cases hc : site.enableCgi with
      | false =>
        rw [hc] at hf
        cases hf
      | true =>
        rw [hc] at hf
        cases hx : cgiExt site v path with
        | true => rfl
        | false =>
          cases hd : inScriptDir v path with
          | true => rfl
          | false =>
            simp [hx, hd] at hf
            split at hf
            · cases hf
            · cases hf

/-! ## The page -/

theorem httpAliasResolv_base {lib : Libu} {uri path : Str} {sz : ℕ}
    (h : httpAliasResolv lib v uri sz = some path) :
    ∃ base ∈ v.bases, ∃ suffix, path = squeeze (base ++ slash :: suffix) ∧
      (dotdot ∉ segments uri → dotdot ∉ segments suffix) := by
  unfold httpAliasResolv at h
  cases hf : v.aliases.findSome? fun rule => httpTryResolv lib rule uri sz with
  | none =>
    rw [hf] at h
    exact ⟨v.dirRoot, List.mem_cons_self, uri, lib.path_eq _ _ _ _ h, id⟩
  | some dst =>
    rw [hf] at h
    obtain ⟨rule, hr, ht⟩ := List.exists_of_findSome?_eq_some hf
    obtain rfl : dst = path := Option.some.inj h
    obtain ⟨src, target, rest, suffix, hstr, rfl, hb, hpath⟩ := httpTryResolv_some ht
    have hbase : target ∈ v.bases := by
      apply List.mem_cons_of_mem
      apply List.mem_filterMap.mpr
      exact ⟨rule, hr, by rw [hstr]; rfl⟩
    exact ⟨target, hbase, suffix, hpath, fun hu => dotdot_suffix hu hb⟩

/-- Below a base a path is in the area, or it shows two dots and is refused. -/
theorem stat_base {path base suffix : Str} (ha : Agree v.Area fs fs') (hb : base ∈ v.bases)
    (hp : path = squeeze (base ++ slash :: suffix)) :
    hasDots path ∨ stat fs path = stat fs' path := by
  by_cases hd : dotdot ∈ segments suffix
  · exact Or.inl (hp ▸ hasDots_of_suffix hd)
  · have he := ha path ⟨base, hb, suffix, hd, hp⟩
    refine Or.inr ?_
    rw [stat, stat, he]

theorem refused_of_hasDots {path : Str} (h : hasDots path) : refused site path = true := by
  rw [refused, decide_eq_true h, Bool.or_true]

theorem filesValid_base {path base suffix : Str} (ha : Agree v.Area fs fs') (hb : base ∈ v.bases)
    (hp : path = squeeze (base ++ slash :: suffix)) :
    filesValid site v fs path = filesValid site v fs' path := by
  apply filesValid_congr
  rcases stat_base ha hb hp with hd | he
  · exact Or.inl (refused_of_hasDots hd)
  · exact Or.inr he

def Supplier.usesFiles : Supplier → Prop
  | .emb => False
  | .kilt => False
  | .cgi => True
  | .fs => True

theorem not_usesFiles_fixed {uri : Str} {info : SupInfo} (h : fixedValid site uri = some info) :
    ¬ Supplier.usesFiles info.sup := by
  rcases fixedValid_sup h with he | he
  · rw [he]
    exact id
  · rw [he]
    exact id

/-- A supplier that uses files has been asked for a path without two dots. -/
theorem not_hasDots_of_usesFiles {uri : Str} {info : SupInfo}
    (h : brokerIsValidUri site v fs uri = some info) (hu : Supplier.usesFiles info.sup) :
    ¬ hasDots uri := by
  intro hd
  rcases Option.or_eq_some_iff.mp h with h | ⟨-, h⟩
  · exact not_usesFiles_fixed h hu
  · have hr := (filesValid_sup h).2
    rw [refused_of_hasDots hd] at hr
    cases hr

/-- What is known of a request when its page is served: the resolved file name is
below a base, and in the area if the cached supplier uses files. -/
structure Ready (v : Vhost) (t : Target) (cached : Option SupInfo) : Prop where
  base : ∀ r, t.resolvedFilename = some r → ∃ base ∈ v.bases, ∃ suffix,
    r = squeeze (base ++ slash :: suffix)
  area : ∀ info, cached = some info → Supplier.usesFiles info.sup →
    ∀ r, t.resolvedFilename = some r → v.Area r

theorem supServe_congr {head : Bool} {sup : Supplier} {handle : Option ℕ} {t : Target}
    (h : Supplier.usesFiles sup → ∀ r, t.resolvedFilename = some r → stat fs r = stat fs' r) :
    supServe site fs head sup handle t = supServe site fs' head sup handle t := by
  cases sup with
  | emb => rfl
  | kilt => rfl
  | cgi =>
    unfold supServe
    cases hr : t.resolvedFilename with
    | none => rfl
    | some r =>
      dsimp only [Option.bind_some]
      rw [h trivial r hr]
  | fs =>
    unfold supServe
    cases hr : t.resolvedFilename with
    | none => rfl
    | some r =>
      dsimp only [Option.bind_some]
      rw [fsServe, fsServe, h trivial r hr]

theorem stat_area (ha : Agree v.Area fs fs') {path : Str} (hp : v.Area path) :
    stat fs path = stat fs' path := by
  rw [stat, stat, ha path hp]

theorem brokerServe_congr {t : Target} {cached : Option SupInfo} (ha : Agree v.Area fs fs')
    (h : Ready v t cached) (ims : ℕ) (head : Bool) :
    brokerServe site v fs ims head cached t = brokerServe site v fs' ims head cached t := by
  unfold brokerServe
  cases cached with
  | some info =>
    rw [Option.some_or, Option.some_or]
    dsimp only
    rw [supServe_congr fun hu r hr => stat_area ha (h.area info rfl hu r hr)]
  | none =>
    rw [Option.none_or, Option.none_or]
    cases hr : t.resolvedFilename with
    | none => rfl
    | some r =>
      obtain ⟨base, hb, suffix, hp⟩ := h.base r hr
      rw [Option.bind_some, Option.bind_some, ← brokerIsValidUri_congr (filesValid_base ha hb hp)]
      cases hv : brokerIsValidUri site v fs r with
      | none => rfl
      | some info =>
        dsimp only
        have hserve : supServe site fs head info.sup none t =
            supServe site fs' head info.sup none t := by
          apply supServe_congr
          intro hu q hq
          obtain rfl : r = q := Option.some.inj (hr.symm.trans hq)
          exact (stat_base ha hb hp).resolve_left (not_hasDots_of_usesFiles hv hu)
        rw [Option.bind_none, hserve]

/-! ## The index page -/

theorem index_base {t : Target} {name q : Str}
    (hb : ∀ r, t.resolvedFilename = some r → ∃ base ∈ v.bases, ∃ suffix,
      r = squeeze (base ++ slash :: suffix))
    (h : (t.resolvedFilename.bind fun r => site.lib.pathSnprintf site.lib.filenameMax r name) =
      some q) :
    ∃ base ∈ v.bases, ∃ suffix, q = squeeze (base ++ slash :: (suffix ++ slash :: name)) := by
  obtain ⟨r, hr, hq⟩ := Option.bind_eq_some_iff.mp h
  obtain ⟨base, hmem, suffix, rfl⟩ := hb r hr
  refine ⟨base, hmem, suffix, ?_⟩
  rw [site.lib.path_eq _ _ _ _ hq, squeeze_append, List.append_assoc, List.cons_append]

theorem firstIndex_congr {t : Target} (ha : Agree v.Area fs fs')
    (hb : ∀ r, t.resolvedFilename = some r → ∃ base ∈ v.bases, ∃ suffix,
      r = squeeze (base ++ slash :: suffix))
    (names : List Str) (st : Option SupInfo) :
    firstIndex site.lib (cacheSup (brokerIsValidUri site v fs)) t names st =
      firstIndex site.lib (cacheSup (brokerIsValidUri site v fs')) t names st := by
  induction names generalizing st with
  | nil => rfl
  | cons name rest ih =>
    rw [firstIndex, firstIndex]
    cases hq : t.resolvedFilename.bind fun r =>
      site.lib.pathSnprintf site.lib.filenameMax r name with
    | none => exact ih st
    | some q =>
      obtain ⟨base, hmem, suffix, hp⟩ := index_base hb hq
      have hval : brokerIsValidUri site v fs q = brokerIsValidUri site v fs' q :=
        brokerIsValidUri_congr (filesValid_base ha hmem hp)
      dsimp only
      rw [cacheSup, cacheSup, ← hval]
      cases brokerIsValidUri site v fs q with
      | none => exact ih st
      | some info => rfl

theorem firstIndex_found {t : Target} {names : List Str} {st st' : Option SupInfo} {idx : Str}
    (h : firstIndex site.lib (cacheSup (brokerIsValidUri site v fs)) t names st = (some idx, st')) :
    ∃ q info, (t.resolvedFilename.bind fun r => site.lib.pathSnprintf site.lib.filenameMax r idx) =
    some q ∧
      brokerIsValidUri site v fs q = some info ∧ st' = some info := by
  induction names generalizing st with
  | nil => cases h
  | cons name rest ih =>
    rw [firstIndex] at h
    cases hq : t.resolvedFilename.bind fun r =>
      site.lib.pathSnprintf site.lib.filenameMax r name with
    | none =>
      rw [hq] at h
      exact ih h
    | some q =>
      rw [hq] at h
      dsimp only at h
      cases hv : brokerIsValidUri site v fs q with
      | none =>
        rw [cacheSup_none hv] at h
        exact ih h
      | some info =>
        rw [cacheSup_some hv] at h
        dsimp only at h
        rw [if_pos rfl] at h
        obtain ⟨hi, rfl⟩ := Prod.mk.inj h
        split at hi
        · cases hi
        · obtain rfl : name = idx := Option.some.inj hi
          exact ⟨q, info, hq, hv, rfl⟩

theorem httpGetIndex_found {t : Target} {st st' : Option SupInfo} {idx : Str}
    (h : httpGetIndex site.lib v (cacheSup (brokerIsValidUri site v fs)) t st = (some idx, st')) :
    ∃ q info, (t.resolvedFilename.bind fun r => site.lib.pathSnprintf site.lib.filenameMax r idx) =
    some q ∧
      brokerIsValidUri site v fs q = some info ∧ st' = some info := by
  unfold httpGetIndex at h
  split at h
  · next idx' st₁ hc =>
    obtain ⟨hi, rfl⟩ := Prod.mk.inj h
    obtain rfl : idx' = idx := Option.some.inj hi
    unfold httpGetConfigIndex at hc
    split at hc
    · cases hc
    · split at hc
      · cases hc
      · exact firstIndex_found hc
  · exact firstIndex_found h

theorem httpGetIndex_congr {t : Target} (ha : Agree v.Area fs fs')
    (hb : ∀ r, t.resolvedFilename = some r → ∃ base ∈ v.bases, ∃ suffix,
      r = squeeze (base ++ slash :: suffix))
    (st : Option SupInfo) :
    httpGetIndex site.lib v (cacheSup (brokerIsValidUri site v fs)) t st =
      httpGetIndex site.lib v (cacheSup (brokerIsValidUri site v fs')) t st := by
  unfold httpGetIndex httpGetConfigIndex
  simp only [firstIndex_congr ha hb]

variable (site v) in
/-- Resolution leaves the resolved file name as it is, or puts it below a base, in
the area if the file name has no `..`. -/
theorem httpResolvRequest_cases (t : Target) :
    ((httpResolvRequest site.lib v t).1 = false ∧
        (httpResolvRequest site.lib v t).2.resolvedFilename = t.resolvedFilename) ∨
      ∃ base ∈ v.bases, ∃ suffix,
        (httpResolvRequest site.lib v t).2.resolvedFilename =
          some (squeeze (base ++ slash :: suffix)) ∧
        (dotdot ∉ segments t.filename → dotdot ∉ segments suffix) := by
  unfold httpResolvRequest
  cases hr : httpAliasResolv site.lib v t.filename site.lib.filenameMax with
  | none => exact Or.inl ⟨rfl, rfl⟩
  | some resolved =>
    obtain ⟨base, hb, suffix, rfl, hd⟩ := httpAliasResolv_base hr
    refine Or.inr ⟨base, hb, suffix, ?_, hd⟩
    dsimp only
    split
    · rfl
    · split
      · rfl
      · rfl

/-- A file name without `..` is resolved into the area. -/
theorem httpResolvRequest_area {t : Target} (h : (httpResolvRequest site.lib v t).1 = true)
    (hd : dotdot ∉ segments t.filename) :
    ∀ r, (httpResolvRequest site.lib v t).2.resolvedFilename = some r → v.Area r := by
  intro r hr
  rcases httpResolvRequest_cases site v t with ⟨hf, -⟩ | ⟨base, hb, suffix, he, hs⟩
  · rw [h] at hf
    cases hf
  · obtain rfl := Option.some.inj (he.symm.trans hr)
    exact ⟨base, hb, suffix, hs hd, rfl⟩

theorem Vhost.Area.base {path : Str} (h : v.Area path) :
    ∃ base ∈ v.bases, ∃ suffix, path = squeeze (base ++ slash :: suffix) := by
  obtain ⟨base, hb, suffix, -, hp⟩ := h
  exact ⟨base, hb, suffix, hp⟩

variable (site fs) in
theorem httpSetIndexRequest_ready {t : Target} (st : Option SupInfo)
    (hd : dotdot ∉ segments t.filename) (hlast : t.filename.getLast? = some slash)
    (harea : ∀ r, t.resolvedFilename = some r → v.Area r) :
    Ready v (httpSetIndexRequest site.lib v (cacheSup (brokerIsValidUri site v fs)) t st).2.1
      (httpSetIndexRequest site.lib v (cacheSup (brokerIsValidUri site v fs)) t st).2.2 := by
  have hbase : ∀ r, t.resolvedFilename = some r →
      ∃ base ∈ v.bases, ∃ suffix, r = squeeze (base ++ slash :: suffix) :=
        fun r hr => (harea r hr).base
  unfold httpSetIndexRequest
  split
  · exact ⟨hbase, fun _ _ _ => harea⟩
  · next idx st' hi =>
    split
    · exact ⟨hbase, fun _ _ _ => harea⟩
    · dsimp only
      rcases httpResolvRequest_cases site v { t with filename := t.filename ++ idx } with
        ⟨-, hr⟩ | ⟨base, hb, suffix, hr, hs⟩
      · refine ⟨fun r he => hbase r (hr.symm.trans he),
          fun info _ _ r he => harea r (hr.symm.trans he)⟩
      · constructor
        · intro r he
          obtain rfl := Option.some.inj (hr.symm.trans he)
          exact ⟨base, hb, suffix, rfl⟩
        · intro info hinfo hu r he
          obtain rfl := Option.some.inj (hr.symm.trans he)
          refine ⟨base, hb, suffix, hs ?_, rfl⟩
          obtain ⟨q, info', hq, hv, hst⟩ := httpGetIndex_found hi
          obtain rfl : info' = info := Option.some.inj (hst.symm.trans hinfo)
          obtain ⟨base', hb', suffix', rfl⟩ := index_base hbase hq
          have hno : dotdot ∉ segments (suffix' ++ slash :: idx) := fun hm =>
            not_hasDots_of_usesFiles hv hu (hasDots_of_suffix hm)
          rw [segments_slash, List.mem_append, not_or] at hno
          obtain ⟨init, hinit⟩ := List.getLast?_eq_some_iff.mp hlast
          change dotdot ∉ segments (t.filename ++ idx)
          rw [hinit, segments_slash, List.mem_append, not_or] at hd
          rw [hinit, List.append_assoc, List.singleton_append, segments_slash,
            List.mem_append, not_or]
          exact ⟨hd.1, hno.2⟩

theorem serveResolved_congr {t : Target} (ha : Agree v.Area fs fs')
    (hd : dotdot ∉ segments t.filename) (harea : ∀ r, t.resolvedFilename = some r → v.Area r)
    (rq : Incoming) (cached : Option SupInfo) :
    serveResolved site v fs rq t cached = serveResolved site v fs' rq t cached := by
  have hbase : ∀ r, t.resolvedFilename = some r →
      ∃ base ∈ v.bases, ∃ suffix, r = squeeze (base ++ slash :: suffix) :=
        fun r hr => (harea r hr).base
  unfold serveResolved giveIndex
  dsimp only
  split
  · next hc =>
    have hidx : httpSetIndexRequest site.lib v (cacheSup (brokerIsValidUri site v fs)) t cached =
        httpSetIndexRequest site.lib v (cacheSup (brokerIsValidUri site v fs')) t cached := by
      rw [httpSetIndexRequest, httpSetIndexRequest, httpGetIndex_congr ha hbase]
    have hready := httpSetIndexRequest_ready site fs' cached hd hc.2 harea
    rw [hidx, brokerServe_congr ha hready]
  · rw [brokerServe_congr ha ⟨hbase, fun _ _ _ => harea⟩]

/-! ## One file outside -/

def oneFile (path : Str) : FileSystem :=
  fun q => if q = path then some ⟨true, 1, true, true⟩ else none

def noFiles : FileSystem := fun _ => none

theorem oneFile_ne {path q : Str} (h : q ≠ path) : filesValid site v (oneFile path) q = none := by
  apply filesValid_none
  rw [stat, oneFile, if_neg h, ite_self]

theorem oneFile_taken {path : Str} (h : wouldTake site v path = true) :
    ∃ info, filesValid site v (oneFile path) path = some info ∧ Supplier.usesFiles info.sup := by
  unfold wouldTake at h
  rw [Bool.and_eq_true, Bool.and_eq_true, Bool.not_eq_true', Bool.or_eq_true, Bool.and_eq_true] at h
  obtain ⟨⟨hr, hne⟩, htake⟩ := h
  have hst : stat (oneFile path) path = some ⟨true, 1, true, true⟩ := by
    rw [stat, if_neg (of_decide_eq_true hne), oneFile, if_pos rfl]
  unfold filesValid cgiIsValidUri fsIsValidUri cgiScript
  rw [hr, hst]
  by_cases hc : site.enableCgi = true ∧ (cgiExt site v path || inScriptDir v path) = true
  · exact ⟨⟨.cgi, none, 1⟩, by simp [hc.1, hc.2], trivial⟩
  · have hfs := htake.resolve_right hc
    cases hcgi : site.enableCgi with
    | false => exact ⟨⟨.fs, none, 1⟩, by simp [hfs], trivial⟩
    | true =>
      have hx : (cgiExt site v path || inScriptDir v path) = false :=
        Bool.eq_false_iff.mpr fun he => hc ⟨hcgi, he⟩
      exact ⟨⟨.fs, none, 1⟩, by simp [hfs, hx], trivial⟩

theorem httpIsValidUri_oneFile {path uri : Str} (h : wouldTake site v path = true)
    (hm : path ∈ (tried site v uri).1) :
    ∃ info, httpIsValidUri site v (oneFile path) uri = some info ∧ Supplier.usesFiles info.sup := by
  obtain ⟨info, htaken, hu⟩ := oneFile_taken h
  refine ⟨info, ?_, hu⟩
  unfold tried at hm
  unfold httpIsValidUri
  split at hm
  · exact absurd hm List.not_mem_nil
  next hlen =>
    rw [if_neg hlen]
    split at hm
    · exact absurd hm List.not_mem_nil
    next hf =>
      rw [brokerIsValidUri_files hf]
      by_cases hpu : uri = path
      · rw [hpu, htaken, Option.some_or]
      rw [oneFile_ne hpu, Option.none_or]
      split at hm
      · exact absurd (List.mem_singleton.mp hm).symm hpu
      · next resolved hr =>
        rw [hr, Option.bind_some]
        split at hm
        · exact absurd (List.mem_singleton.mp hm).symm hpu
        · next hg =>
          rcases List.mem_cons.mp hm with he | hm
          · exact absurd he.symm hpu
          · rw [brokerIsValidUri_files hg, ← List.mem_singleton.mp hm, htaken]

theorem httpIsValidUri_untried {path uri : Str} (hm : path ∉ (tried site v uri).1)
    (ht : ¬ (tried site v uri).2 = true) : httpIsValidUri site v (oneFile path) uri = none := by
  unfold tried at hm ht
  unfold httpIsValidUri
  split
  · rfl
  next hlen =>
    rw [if_neg hlen] at hm ht
    by_cases hf : (fixedValid site uri).isSome = true
    · rw [if_pos hf] at ht
      exact absurd rfl ht
    rw [if_neg hf] at hm ht
    rw [brokerIsValidUri_files hf]
    cases hr : httpAliasResolv site.lib v uri site.lib.filenameMax with
    | none =>
      rw [hr] at hm
      have hu : uri ≠ path := by
        rintro rfl
        exact hm List.mem_cons_self
      rw [oneFile_ne hu]
      rfl
    | some resolved =>
      rw [hr] at hm ht
      dsimp only at hm ht
      by_cases hg : (fixedValid site resolved).isSome = true
      · rw [if_pos hg] at ht
        exact absurd rfl ht
      rw [if_neg hg] at hm
      have hu : uri ≠ path := by
        rintro rfl
        exact hm List.mem_cons_self
      have hres : resolved ≠ path := by
        rintro rfl
        exact hm (List.mem_cons_of_mem _ List.mem_cons_self)
      rw [oneFile_ne hu, Option.none_or, Option.bind_some, brokerIsValidUri_files hg,
        oneFile_ne hres]

/-- The file is found when the search comes to it. -/
theorem splitLoop_oneFile {path cp : Str} (h : wouldTake site v path = true) {turns len : ℕ}
    (hm : path ∈ probes site v cp turns len) (st : Option SupInfo) :
    ∃ info, (splitLoop (cacheSup (httpIsValidUri site v (oneFile path))) cp turns len st).2 =
    some info ∧
      Supplier.usesFiles info.sup := by
  induction turns generalizing len with
  | zero => exact absurd hm List.not_mem_nil
  | succ turns ih =>
    rw [probes] at hm
    rw [splitLoop]
    by_cases hin : path ∈ (tried site v (cp.take len)).1
    · obtain ⟨info, hv, hu⟩ := httpIsValidUri_oneFile h hin
      rw [cacheSup_some hv]
      exact ⟨info, rfl, hu⟩
    · have hm := (List.mem_append.mp hm).resolve_left hin
      split at hm
      · exact absurd hm List.not_mem_nil
      next ht =>
        rw [cacheSup_none (httpIsValidUri_untried hin ht)]
        cases hr : uStrnrchr cp slash len with
        | none =>
          rw [hr] at hm
          exact absurd hm List.not_mem_nil
        | some p =>
          rw [hr] at hm
          exact ih hm

theorem brokerIsValidUri_noFiles {uri : Str} {info : SupInfo}
    (h : brokerIsValidUri site v noFiles uri = some info) : ¬ Supplier.usesFiles info.sup := by
  rw [brokerIsValidUri, filesValid_none (by rw [stat, noFiles, ite_self]), Option.or_none] at h
  exact not_usesFiles_fixed h

/-- Without files no supplier that uses files is cached. -/
theorem splitLoop_noFiles {cp : Str} {turns len : ℕ} {st : Option SupInfo}
    (hst : ∀ info, st = some info → ¬ Supplier.usesFiles info.sup) :
    ∀ info, (splitLoop (cacheSup (httpIsValidUri site v noFiles)) cp turns len st).2 = some info →
      ¬ Supplier.usesFiles info.sup := by
  induction turns generalizing len with
  | zero => exact hst
  | succ turns ih =>
    rw [splitLoop]
    cases hv : httpIsValidUri site v noFiles (cp.take len) with
    | some found =>
      rw [cacheSup_some hv]
      intro info hi
      obtain rfl : found = info := Option.some.inj hi
      unfold httpIsValidUri at hv
      split at hv
      · cases hv
      · rcases Option.or_eq_some_iff.mp hv with hv | ⟨-, hv⟩
        · exact brokerIsValidUri_noFiles hv
        · obtain ⟨r, -, hr⟩ := Option.bind_eq_some_iff.mp hv
          exact brokerIsValidUri_noFiles hr
    | none =>
      rw [cacheSup_none hv]
      cases hr : uStrnrchr cp slash len with
      | none => exact hst
      | some p => exact ih

/-! ## The exact condition -/

/-- Every path that the split looks up in the file system is in the area. -/
def ProbesInside (site : Site) (s : Server) (uri : Str) (area : Str → Prop) : Prop :=
  ∀ path ∈ uriProbes site s.main uri, wouldTake site s.main path = true → area path

theorem parseUri_agree {s : Server} {uri : Str} {area : Str → Prop}
    (h : ProbesInside site s uri area) (ha : Agree area fs fs') :
    parseUri site s fs uri = parseUri site s fs' uri := by
  apply parseUri_congr
  intro p hp
  by_cases hw : wouldTake site s.main p = true
  · apply filesValid_congr
    refine Or.inr ?_
    rw [stat, stat, ha p (h p hp hw)]
  · rw [filesValid_not_wouldTake hw, filesValid_not_wouldTake hw]

theorem probesInside_of_parseUri {s : Server} {uri : Str} {area : Str → Prop}
    (h : ∀ fs fs', Agree area fs fs' → (parseUri site s fs uri).map (fun x => x.2.map SupInfo.sup) =
      (parseUri site s fs' uri).map (fun x => x.2.map SupInfo.sup)) :
    ProbesInside site s uri area := by
  intro path hp hw
  by_contra hout
  have hagree : Agree area (oneFile path) noFiles := by
    intro q hq
    apply if_neg
    rintro rfl
    exact hout hq
  have heq := h _ _ hagree
  unfold uriProbes at hp
  unfold parseUri requestSetUri at heq
  rw [httpGetVhost_nil, Option.bind_some, Option.bind_some] at heq
  cases hn : (decodedPath uri).bind uUriNormalize with
  | none =>
    rw [hn] at hp
    exact absurd hp List.not_mem_nil
  | some cp =>
    rw [hn] at hp heq
    obtain ⟨info, h₁, hu⟩ := splitLoop_oneFile hw hp none
    have h₂ : ∀ info, (splitLoop (cacheSup (httpIsValidUri site s.main noFiles)) cp (cp.length + 1)
        cp.length none).2 = some info → ¬ Supplier.usesFiles info.sup :=
      splitLoop_noFiles fun i hi => by cases hi
    dsimp only [Option.map_some] at heq
    rw [h₁] at heq
    obtain ⟨i, hi, he⟩ := Option.map_eq_some_iff.mp (Option.some.inj heq).symm
    exact h₂ i hi (he ▸ hu)

theorem httpServe_split (site : Site) (s : Server) (fs : FileSystem) (rq : Incoming) :
    (httpServe site s fs rq).split = (parseUri site s fs rq.uri).map fun x =>
    ⟨x.1.filename, x.1.pathInfo⟩ := by
  unfold httpServe
  cases parseUri site s fs rq.uri with
  | none => rfl
  | some x => rfl

theorem httpServe_cached (site : Site) (s : Server) (fs : FileSystem) (rq : Incoming) :
    (httpServe site s fs rq).cached = (parseUri site s fs rq.uri).bind fun x =>
    x.2.map SupInfo.sup := by
  unfold httpServe
  cases parseUri site s fs rq.uri with
  | none => rfl
  | some x => rfl

/-- The response shows which supplier the split has cached. -/
theorem parseUri_sup_of_httpServe {s : Server} {rq : Incoming}
    (hs : (httpServe site s fs rq).split = (httpServe site s fs' rq).split)
    (hc : (httpServe site s fs rq).cached = (httpServe site s fs' rq).cached) :
    (parseUri site s fs rq.uri).map (fun x => x.2.map SupInfo.sup) =
      (parseUri site s fs' rq.uri).map (fun x => x.2.map SupInfo.sup) := by
  rw [httpServe_split, httpServe_split] at hs
  rw [httpServe_cached, httpServe_cached] at hc
  cases hp : parseUri site s fs rq.uri with
  | none =>
    rw [hp] at hs
    rw [Option.map_eq_none_iff.mp hs.symm]
  | some x =>
    rw [hp] at hs hc
    obtain ⟨y, hy, -⟩ := Option.map_eq_some_iff.mp hs.symm
    rw [hy] at hc ⊢
    exact congrArg some hc

variable (site v) in
theorem httpResolvRequest_filename (t : Target) :
    (httpResolvRequest site.lib v t).2.filename = t.filename := by
  unfold httpResolvRequest
  split
  · rfl
  · dsimp only
    split
    · rfl
    · split
      · rfl
      · rfl

theorem parseUri_noDotdot {s : Server} {uri : Str} {r : SetUri} {cached : Option SupInfo}
    (h : parseUri site s fs uri = some (r, cached)) : dotdot ∉ segments r.filename := by
  unfold parseUri at h
  rw [httpGetVhost_nil, Option.bind_some] at h
  exact (requestSetUri_clean h).noDotdot

theorem httpServe_agree {s : Server} {rq : Incoming}
    (h : ProbesInside site s rq.uri (requestArea s rq)) (ha : Agree (requestArea s rq) fs fs') :
    httpServe site s fs rq = httpServe site s fs' rq := by
  have hparse := parseUri_agree h ha
  unfold httpServe
  rw [← hparse]
  cases hp : parseUri site s fs rq.uri with
  | none => rfl
  | some x =>
    obtain ⟨r, cached⟩ := x
    dsimp only
    cases hv : httpGetVhost s rq.header with
    | none => rfl
    | some v =>
      dsimp only
      have hav : Agree v.Area fs fs' := fun path hpath => ha path ⟨v, hv, hpath⟩
      have hdots := parseUri_noDotdot hp
      have hname := httpResolvRequest_filename site v (targetOf r)
      have harea : (httpResolvRequest site.lib v (targetOf r)).1 = true →
          ∀ q, (httpResolvRequest site.lib v (targetOf r)).2.resolvedFilename = some q → v.Area q :=
        fun hok => httpResolvRequest_area hok hdots
      cases hres : httpResolvRequest site.lib v (targetOf r) with
      | mk ok t =>
        cases ok with
        | false => rfl
        | true =>
          rw [hres] at hname harea
          have hd : dotdot ∉ segments t.filename := hname ▸ hdots
          dsimp only
          rw [serveResolved_congr hav hd (harea rfl)]

/-- A response depends only on the files of its virtual host exactly if the paths
that the split looks up are among them. -/
theorem noninterference_iff (site : Site) (s : Server) (rq : Incoming) :
    (∀ fs fs', Agree (requestArea s rq) fs fs' → httpServe site s fs rq = httpServe site s fs' rq) ↔
      ProbesInside site s rq.uri (requestArea s rq) := by
  constructor
  · intro h
    apply probesInside_of_parseUri
    intro fs fs' ha
    have he := h fs fs' ha
    exact parseUri_sup_of_httpServe (congrArg Observed.split he) (congrArg Observed.cached he)
  · intro h fs fs' ha
    exact httpServe_agree h ha

def filesSite : Site :=
  ⟨plainLibu, fun _ => none, fun _ => none, false, false, true, fun _ => none, fun _ _ => none,
    fun _ _ => none⟩

def wwwServer : Server := ⟨siteVhost [] (bytes "index.html"), []⟩

def passwdRequest : Incoming := ⟨bytes "/etc/passwd", [], 0, false⟩

theorem not_area_www {path : Str} (h : path[1]? ≠ some 119) : ¬ wwwServer.main.Area path := by
  rintro ⟨base, hb, suffix, -, rfl⟩
  obtain rfl : base = bytes "/www" := List.mem_singleton.mp hb
  exact h rfl

/-- The split of `/etc/passwd` tells whether that file exists, with the document root
`/www` and no aliases. -/
theorem passwd_interferes :
    ¬ ∀ fs fs', Agree (requestArea wwwServer passwdRequest) fs fs' →
      httpServe filesSite wwwServer fs passwdRequest =
        httpServe filesSite wwwServer fs' passwdRequest := by
  intro h
  have hagree : Agree (requestArea wwwServer passwdRequest)
      (oneFile (bytes "/etc/passwd")) noFiles := by
    rintro q ⟨v, hv, hq⟩
    obtain rfl := Option.some.inj hv
    apply if_neg
    rintro rfl
    exact not_area_www (by decide) hq
  have he := congrArg Observed.cached (h _ _ hagree)
  exact absurd he (by decide)

end Klone.Http
