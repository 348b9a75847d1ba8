import Klone.Lib.CString

/-! # The arguments of a kilt page

A kilt page is chosen by a pattern and gets the submatches of the file name as its
arguments. How many there are is not taken from the pattern: the first empty submatch
ends them. A pattern is a parameter here, with the number of its groups and the offsets
that `regexec` reports for a string that matches.
-/
namespace Klone.Kilt

def dypageMaxParams : ℕ := 16

structure RegMatch where
  rmSo : ℤ
  rmEo : ℤ
  deriving DecidableEq

/-- The offsets of a group without a match and of an entry without a group. -/
def RegMatch.unmatched : RegMatch := ⟨-1, -1⟩

def RegMatch.isEmpty (sub : RegMatch) : Bool := sub.rmSo == sub.rmEo

/-- The submatch itself, which is `u_strndup` of its offset and length. -/
def RegMatch.text (fileName : Str) (sub : RegMatch) : Str :=
  (fileName.drop sub.rmSo.toNat).take (sub.rmEo - sub.rmSo).toNat

structure Regex where
  reNsub : ℕ
  exec : Str → Option (ℕ → RegMatch)

/-- The first `nmatch` entries are filled in, the others are left as they are. -/
def regexec (re : Regex) (s : Str) (nmatch : ℕ) : Option (ℕ → Option RegMatch) :=
  (re.exec s).map fun m i =>
    if i < nmatch then some (if i ≤ re.reNsub then m i else RegMatch.unmatched) else none

structure Param where
  key : Option Str
  val : Str

/-- An entry of the table of the user, with parameters up to the first without a key. -/
structure KiltUrl (Fun : Type) where
  pattern : Str
  function : Fun
  params : List Param

structure UrlToKu (Fun : Type) where
  re : Regex
  ku : KiltUrl Fun

structure DypageArgs (Fun : Type) where
  function : Fun
  argc : ℕ
  argv : List Str
  nparams : ℕ
  params : List Param

/-- The page is run, the match fails, or an entry is read that nothing has been put in. -/
inductive Served (Fun : Type) where
  | page (args : DypageArgs Fun)
  | error
  | unfilled

variable {Fun : Type}

def kiltInit (regcomp : Str → Option Regex) (urls : List (KiltUrl Fun)) :
    Option (List (UrlToKu Fun)) :=
  urls.mapM fun u => (regcomp u.pattern).bind fun re =>
    if dypageMaxParams < re.reNsub then none else some ⟨re, u⟩

/-- The loop over the entries, which ends at the first empty one. -/
def collectArgs (fileName : Str) : List (Option RegMatch) → Option (List Str)
  | [] => none
  | none :: _ => none
  | some sub :: subs =>
    if sub.isEmpty then some [] else (collectArgs fileName subs).map (sub.text fileName :: ·)

def kiltServe (utk : UrlToKu Fun) (fileName : Str) : Served Fun :=
  match regexec utk.re fileName dypageMaxParams with
  | none => .error
  | some subs =>
    match collectArgs fileName ((List.range (dypageMaxParams + 1)).map subs) with
    | none => .unfilled
    | some argv => .page
        { function := utk.ku.function
          argc := argv.length
          argv := argv
          nparams := (utk.ku.params.takeWhile fun p => p.key.isSome).length
          params := utk.ku.params }

/-- The page gets the whole name and one argument for each group of the pattern. -/
def PassesGroups (utk : UrlToKu Fun) (fileName : Str) (m : ℕ → RegMatch) : Prop :=
  ∃ args, kiltServe utk fileName = .page args ∧ args.argc = utk.re.reNsub + 1 ∧
    args.argv = (List.range (utk.re.reNsub + 1)).map fun i => (m i).text fileName

/-! ## The entries that are read -/

/-- Behind the entries that are filled in the loop has to have ended. -/
theorem collectArgs_filled (fileName : Str) (filled : List RegMatch)
    (rest : List (Option RegMatch)) :
    collectArgs fileName (filled.map some ++ none :: rest) =
      if filled.any RegMatch.isEmpty then
        some ((filled.takeWhile fun sub => !sub.isEmpty).map (RegMatch.text fileName))
      else none := by
  induction filled with
  | nil => rfl
  | cons sub filled ih =>
    rw [List.map_cons, List.cons_append, collectArgs, List.any_cons, List.takeWhile_cons]
    cases hsub : sub.isEmpty with
    | true => simp
    | false =>
      rw [if_neg Bool.false_ne_true, ih, Bool.false_or]
      cases filled.any RegMatch.isEmpty <;> simp

/-- The entries that `regexec` fills in for `kilt_serve`. -/
def filledEntries (re : Regex) (m : ℕ → RegMatch) : List RegMatch :=
  (List.range dypageMaxParams).map fun i => if i ≤ re.reNsub then m i else RegMatch.unmatched

theorem entries_eq {re : Regex} {fileName : Str} {m : ℕ → RegMatch}
    (hm : re.exec fileName = some m) :
    ∃ subs, regexec re fileName dypageMaxParams = some subs ∧
      (List.range (dypageMaxParams + 1)).map subs = (filledEntries re m).map some ++ [none] := by
  refine ⟨_, by rw [regexec, hm, Option.map_some], ?_⟩
  rw [List.range_succ, List.map_append, filledEntries, List.map_map]
  refine congrArg₂ (· ++ ·) (List.map_congr_left fun i hi => ?_) ?_
  · rw [if_pos (List.mem_range.mp hi), Function.comp_apply]
  · rw [List.map_singleton, if_neg (Nat.lt_irrefl _)]

theorem kiltServe_page {utk : UrlToKu Fun} {fileName : Str} {m : ℕ → RegMatch}
    (hm : utk.re.exec fileName = some m) {args : DypageArgs Fun}
    (h : kiltServe utk fileName = .page args) :
    (filledEntries utk.re m).any RegMatch.isEmpty = true ∧ args.argc = args.argv.length ∧
      args.argv = ((filledEntries utk.re m).takeWhile fun sub => !sub.isEmpty).map
        (RegMatch.text fileName) := by
  obtain ⟨subs, hexec, hsubs⟩ := entries_eq hm
  rw [kiltServe, hexec] at h
  simp only [hsubs, collectArgs_filled] at h
  cases hany : (filledEntries utk.re m).any RegMatch.isEmpty with
  | false => simp [hany] at h
  | true =>
    simp only [hany, if_true] at h
    obtain rfl := Served.page.inj h
    exact ⟨rfl, rfl, rfl⟩

theorem kiltServe_of_empty {utk : UrlToKu Fun} {fileName : Str} {m : ℕ → RegMatch}
    (hm : utk.re.exec fileName = some m)
    (hany : (filledEntries utk.re m).any RegMatch.isEmpty = true) :
    ∃ args, kiltServe utk fileName = .page args := by
  obtain ⟨subs, hexec, hsubs⟩ := entries_eq hm
  rw [kiltServe, hexec]
  simp only [hsubs, collectArgs_filled, hany, if_true]
  exact ⟨_, rfl⟩

theorem filledEntries_split (re : Regex) (m : ℕ → RegMatch) (h : re.reNsub + 1 < dypageMaxParams) :
    ∃ n, filledEntries re m = (List.range (re.reNsub + 1)).map m ++ RegMatch.unmatched ::
    List.replicate n RegMatch.unmatched := by
  refine ⟨dypageMaxParams - (re.reNsub + 2), ?_⟩
  apply List.ext_getElem?
  intro i
  rw [filledEntries, ← List.replicate_succ, List.getElem?_map, List.getElem?_append,
    List.getElem?_map,
    List.length_map, List.length_range]
  by_cases hi : i < re.reNsub + 1
  · rw [if_pos hi, List.getElem?_range (hi.trans h), List.getElem?_range hi, Option.map_some,
      Option.map_some,
      if_pos (Nat.le_of_lt_succ hi)]
  · rw [if_neg hi, List.getElem?_replicate]
    by_cases hlt : i < dypageMaxParams
    · rw [List.getElem?_range hlt, Option.map_some, if_neg (by omega), if_pos (by omega)]
    · rw [List.getElem?_eq_none (by rw [List.length_range]; omega), Option.map_none,
        if_neg (by omega)]

theorem filledEntries_take (re : Regex) (m : ℕ → RegMatch) (h : re.reNsub + 1 ≤ dypageMaxParams) :
    (filledEntries re m).take (re.reNsub + 1) = (List.range (re.reNsub + 1)).map m := by
  rw [filledEntries, ← List.map_take, List.take_range, min_eq_left h]
  apply List.map_congr_left
  intro i hi
  rw [if_pos (Nat.le_of_lt_succ (List.mem_range.mp hi))]

/-- The page gets every group if and only if there is room for one entry more than the
pattern needs and neither the name nor a group is empty. -/
theorem kiltServe_iff (utk : UrlToKu Fun) (fileName : Str) (m : ℕ → RegMatch)
    (hm : utk.re.exec fileName = some m) :
    PassesGroups utk fileName m ↔
      utk.re.reNsub + 1 < dypageMaxParams ∧ ∀ i ≤ utk.re.reNsub, (m i).rmSo ≠ (m i).rmEo := by
  constructor
  · rintro ⟨args, hserve, hargc, -⟩
    obtain ⟨hany, hlen, hargv⟩ := kiltServe_page hm hserve
    have htake : ((filledEntries utk.re m).takeWhile fun sub => !sub.isEmpty).length =
        utk.re.reNsub + 1 := by
      rw [← hargc, hlen, hargv, List.length_map]
    have hpre := List.takeWhile_prefix (l := filledEntries utk.re m) fun sub => !sub.isEmpty
    have hle : utk.re.reNsub + 1 ≤ dypageMaxParams := by
      have := hpre.length_le
      rwa [htake, filledEntries, List.length_map, List.length_range] at this
    have hfirst := List.prefix_iff_eq_take.mp hpre
    rw [htake, filledEntries_take utk.re m hle] at hfirst
    refine ⟨lt_of_le_of_ne hle fun heq => ?_, ?_⟩
    · -- all entries are read and none of them is empty
      have hfull : (filledEntries utk.re m).takeWhile (fun sub => !sub.isEmpty) =
          filledEntries utk.re m := by
        apply hpre.eq_of_length
        rw [htake, filledEntries, List.length_map, List.length_range, heq]
      obtain ⟨sub, hsub, hempty⟩ := List.any_eq_true.mp hany
      rw [← hfull] at hsub
      have hne := List.mem_takeWhile_imp hsub
      rw [hempty] at hne
      cases hne
    · intro i hi heq
      have hmem : m i ∈ (filledEntries utk.re m).takeWhile fun sub => !sub.isEmpty := by
        rw [hfirst]
        exact List.mem_map.mpr ⟨i, List.mem_range.mpr (Nat.lt_succ_of_le hi), rfl⟩
      have hne := List.mem_takeWhile_imp hmem
      simp [RegMatch.isEmpty, heq] at hne
  · rintro ⟨hlt, hne⟩
    obtain ⟨n, hsplit⟩ := filledEntries_split utk.re m hlt
    have hall : ∀ sub ∈ (List.range (utk.re.reNsub + 1)).map m, (!sub.isEmpty) = true := by
      intro sub hsub
      obtain ⟨i, hi, rfl⟩ := List.mem_map.mp hsub
      simpa [RegMatch.isEmpty] using hne i (Nat.le_of_lt_succ (List.mem_range.mp hi))
    have hany : (filledEntries utk.re m).any RegMatch.isEmpty = true := by
      rw [hsplit]
      exact List.any_eq_true.mpr ⟨_, List.mem_append_right _ List.mem_cons_self, rfl⟩
    obtain ⟨args, hserve⟩ := kiltServe_of_empty hm hany
    obtain ⟨-, hlen, hargv⟩ := kiltServe_page hm hserve
    rw [hsplit, List.takeWhile_append_of_pos hall, List.takeWhile_cons_of_neg (by decide),
      List.append_nil,
      List.map_map] at hargv
    refine ⟨args, hserve, ?_, hargv⟩
    rw [hlen, hargv, List.length_map, List.length_range]

def optionalGroup : Regex where
  reNsub := 1
  exec := fun s =>
    if s = bytes "abc" then some fun i => if i = 0 then ⟨0, 3⟩ else ⟨1, 2⟩
    else if s = bytes "ac" then some fun i => if i = 0 then ⟨0, 2⟩ else RegMatch.unmatched
    else none

def optionalUrl : KiltUrl ℕ := ⟨bytes "a(b)?c", 0, [⟨none, []⟩]⟩

theorem kiltServe_abc :
    PassesGroups ⟨optionalGroup, optionalUrl⟩ (bytes "abc")
    (fun i => if i = 0 then ⟨0, 3⟩ else ⟨1, 2⟩) :=
  (kiltServe_iff ⟨optionalGroup, optionalUrl⟩ (bytes "abc") _ rfl).mpr ⟨by decide, by decide⟩

/-- The group of `a(b)?c` does not take part in the match of `ac`. -/
theorem kiltServe_drops_group :
    ¬ ∀ (regcomp : Str → Option Regex) (urls : List (KiltUrl ℕ)) (utks : List (UrlToKu ℕ)),
      kiltInit regcomp urls = some utks → ∀ utk ∈ utks, ∀ fileName m,
        utk.re.exec fileName = some m → PassesGroups utk fileName m := by
  intro h
  have hpass := h (fun _ => some optionalGroup) [optionalUrl] [⟨optionalGroup, optionalUrl⟩] rfl
    ⟨optionalGroup, optionalUrl⟩ List.mem_cons_self (bytes "ac") _ rfl
  obtain ⟨args, hserve, hargc, -⟩ := hpass
  have hone : kiltServe ⟨optionalGroup, optionalUrl⟩ (bytes "ac") =
      .page ⟨0, 1, [bytes "ac"], 0, [⟨none, []⟩]⟩ := rfl
  rw [hone] at hserve
  obtain rfl := Served.page.inj hserve
  cases hargc

end Klone.Kilt
