import Klone.Session.Text

/-! # Saved sessions are read back

What `u_getline` drops from a long line cannot be made up for: the text of a variable
is the shortest that means it, so a variable is read back exactly when its line is
short enough to be read in one piece.
-/
namespace Klone.Session

def lineOf (v : Var) : Str := uUrlncpyEncode v.name ++ 61 :: uUrlncpyEncode v.value

structure Ordinary (v : Var) : Prop where
  name : v.name ≠ []
  noNul : (0 : Byte) ∉ v.name
  notKey : v.name ≠ SESSION_KEY_VAR
  value : v.value ≠ []

/-! ## Long lines -/

theorem squeeze_sublist (line : Str) : (squeeze line).Sublist line := by
  induction line using squeeze.induct with
  | case1 line h => rw [squeeze_short h]
  | case2 line h ih =>
    rw [squeeze_long (by omega)]
    have hsplit : line = line.take 1022 ++ line.drop 1022 := (List.take_append_drop 1022 line).symm
    have hdrop : line.drop 1023 = (line.drop 1022).drop 1 := by rw [List.drop_drop]
    have hsub : (line.take 1022 ++ squeeze (line.drop 1023)).Sublist
        (line.take 1022 ++ line.drop 1022) := by
      apply List.Sublist.append_left
      rw [hdrop] at ih ⊢
      exact ih.trans (List.drop_sublist _ _)
    rwa [← hsplit] at hsub

theorem squeeze_length_lt {line : Str} (h : 1023 ≤ line.length) :
    (squeeze line).length < line.length := by
  have hle := (squeeze_sublist (line.drop 1023)).length_le
  rw [List.length_drop] at hle
  rw [squeeze_long h, List.length_append, List.length_take]
  omega

/-- One of the last two bytes of a line is kept at the end. -/
theorem squeeze_last {line : Str} {a b : Byte} (h : [a, b] <:+ line) :
    (squeeze line).getLast? = some a ∨ (squeeze line).getLast? = some b := by
  induction line using squeeze.induct with
  | case1 line hlen =>
    obtain ⟨pre, rfl⟩ := h
    rw [squeeze_short hlen]
    exact Or.inr (by simp)
  | case2 line hlen ih =>
    obtain ⟨pre, rfl⟩ := h
    simp only [List.length_append, List.length_cons, List.length_nil] at hlen
    rw [squeeze_long (by simp only [List.length_append, List.length_cons, List.length_nil]; omega)]
    by_cases h₁ : pre.length = 1021
    · left
      have htake : (pre ++ [a, b]).take 1022 = pre ++ [a] := by simp [List.take_append, h₁]
      have hdrop : (pre ++ [a, b]).drop 1023 = [] := by simp [h₁]
      rw [htake, hdrop, squeeze_short (Nat.zero_le _)]
      simp
    by_cases h₂ : pre.length = 1022
    · right
      have hdrop : (pre ++ [a, b]).drop 1023 = [b] := by simp [List.drop_append, h₂]
      rw [hdrop, squeeze_short (by simp)]
      simp
    · have hdrop : (pre ++ [a, b]).drop 1023 = pre.drop 1023 ++ [a, b] :=
        List.drop_append_of_le_length (by omega)
      have hsome := ih (by rw [hdrop]; exact List.suffix_append _ _)
      rcases hsome with hs | hs
      · left
        rw [List.getLast?_append, hs]
        rfl
      · right
        rw [List.getLast?_append, hs]
        rfl

/-- Parts on both sides of a delimiter that occurs once. -/
theorem sublist_split {α : Type*} {d : α} {nam val a b : List α} (hnam : d ∉ nam) (ha : d ∉ a)
    (hb : d ∉ b) (h : (nam ++ d :: val).Sublist (a ++ d :: b)) : nam.Sublist a ∧ val.Sublist b := by
  induction a generalizing nam with
  | nil =>
    rw [List.nil_append] at h
    cases nam with
    | nil => exact ⟨List.Sublist.refl _, List.cons_sublist_cons.mp h⟩
    | cons c nam =>
      rw [List.cons_append] at h
      rcases List.sublist_cons_iff.mp h with h | ⟨r, he, hr⟩
      · exact absurd (h.subset (by simp)) hb
      · obtain ⟨rfl, -⟩ := List.cons.inj he
        exact absurd List.mem_cons_self hnam
  | cons c a ih =>
    obtain ⟨hc, ha'⟩ := not_or.mp (fun hm => ha (List.mem_cons.mpr hm))
    rw [List.cons_append] at h
    rcases List.sublist_cons_iff.mp h with h | ⟨r, he, hr⟩
    · obtain ⟨hn, hv⟩ := ih hnam ha' h
      exact ⟨hn.cons c, hv⟩
    · cases nam with
      | nil =>
        obtain ⟨rfl, -⟩ := List.cons.inj he
        exact absurd rfl hc
      | cons c' nam =>
        obtain ⟨rfl, rfl⟩ := List.cons.inj he
        obtain ⟨hn, hv⟩ := ih (fun hm => hnam (List.mem_cons_of_mem _ hm)) ha' hr
        exact ⟨hn.cons_cons _, hv⟩

/-- A line that is read in more than one piece no longer means its variable. -/
theorem length_of_urlVar_squeeze {v : Var} (h : urlVar (squeeze (lineOf v)) = some v) :
    (lineOf v).length ≤ 1022 := by
  by_contra hlong
  have hlong : 1023 ≤ (lineOf v).length := by omega
  have hn : ∀ c ∈ uUrlncpyEncode v.name, urlChar c = true := fun c => mem_uUrlncpyEncode
  have hv : ∀ c ∈ uUrlncpyEncode v.value, urlChar c = true := fun c => mem_uUrlncpyEncode
  have hsub := squeeze_sublist (lineOf v)
  have hlt := squeeze_length_lt hlong
  have hzero : (0 : Byte) ∉ squeeze (lineOf v) := by
    intro hm
    rcases List.mem_append.mp (hsub.subset hm) with hm | hm
    · exact not_mem_of_urlChar hn rfl hm
    · rcases List.mem_cons.mp hm with he | hm
      · cases he
      · exact not_mem_of_urlChar hv rfl hm
  obtain ⟨nam, val, hs, hnam, hnamed⟩ := urlVar_some hzero h
  rw [hs] at hsub hlt
  obtain ⟨hsubn, hsubv⟩ :=
    sublist_split hnam (not_mem_of_urlChar hn rfl) (not_mem_of_urlChar hv rfl) hsub
  by_cases hval : val = []
  · subst hval
    obtain ⟨-, -, -, hvalue⟩ := urlNamed_some hnamed
    have hz : v.value = [0] := (Option.some.inj hvalue).symm
    have hsuffix : [48, 48] <:+ lineOf v := by
      refine ⟨uUrlncpyEncode v.name ++ [61, 37], ?_⟩
      rw [lineOf, hz, List.append_assoc]
      rfl
    have hlast := squeeze_last hsuffix
    rw [hs] at hlast
    simp at hlast
  · obtain ⟨hle₁, hle₂⟩ := encode_le_of_urlNamed (fun c hc => hn c (hsubn.subset hc))
      (fun c hc => hv c (hsubv.subset hc))
      hnamed hval
    simp only [lineOf, List.length_append, List.length_cons] at hlt
    omega

/-! ## Loading the lines -/

theorem restoreKey_cases (ssl : Option KeyCipher) (vs : List Var) (v : Var) :
    (∃ w, restoreKey ssl vs v = vs ++ [w] ∧ (w = v ∨ w.name = SESSION_KEY_VAR)) ∨
      (restoreKey ssl vs v).length ≤ vs.length := by
  unfold restoreKey
  cases ssl with
  | none => exact Or.inl ⟨v, rfl, Or.inl rfl⟩
  | some c =>
    dsimp only
    split
    · next hkey =>
      cases c.decrypt v.value with
      | none =>
        refine Or.inr ?_
        have hmem : v ∈ vs ++ [v] := by simp
        have hp : strcasecmpEq v.name SESSION_KEY_VAR = true := by simp [hkey, strcasecmpEq]
        rw [varsDel, List.length_eraseP_of_mem hmem hp]
        simp
      | some key => exact Or.inl ⟨_, rfl, Or.inr hkey⟩
    · exact Or.inl ⟨v, rfl, Or.inl rfl⟩

theorem restoreKey_ordinary (ssl : Option KeyCipher) (vs : List Var) {v : Var}
    (h : v.name ≠ SESSION_KEY_VAR) :
    restoreKey ssl vs v = vs ++ [v] := by
  unfold restoreKey
  cases ssl with
  | none => rfl
  | some c => exact if_neg h

/-- Each line adds at most one variable; if all of them add one, these are the
variables that the lines mean. -/
theorem loadLines_adds (ssl : Option KeyCipher) {lines : List Str} (hne : ∀ line ∈ lines, line ≠ [])
    {vs r : List Var} (h : loadLines ssl lines vs = (true, r)) :
    r.length ≤ vs.length + lines.length ∧ (r.length = vs.length + lines.length →
      ∃ ws, r = vs ++ ws ∧ List.Forall₂
        (fun line w => urlVar line = some w ∨ w.name = SESSION_KEY_VAR) lines ws) := by
  induction lines generalizing vs with
  | nil =>
    obtain ⟨-, rfl⟩ := Prod.mk.inj h
    exact ⟨le_refl _, fun _ => ⟨[], (List.append_nil _).symm, .nil⟩⟩
  | cons line lines ih =>
    have hline := hne line List.mem_cons_self
    rw [loadLines, loadLine, if_neg hline] at h
    cases hu : urlVar line with
    | none =>
      rw [hu] at h
      cases h
    | some v =>
      rw [hu, Option.map_some] at h
      obtain ⟨hle, heq⟩ := ih (fun l hl => hne l (List.mem_cons_of_mem _ hl)) h
      rw [List.length_cons]
      rcases restoreKey_cases ssl vs v with ⟨w, hw, hwv⟩ | hshort
      · rw [hw, List.length_append, List.length_singleton] at hle heq
        refine ⟨by omega, fun hlen => ?_⟩
        obtain ⟨ws, hr, hall⟩ := heq (by omega)
        refine ⟨w :: ws, by rw [hr, List.append_assoc]; rfl, .cons ?_ hall⟩
        rcases hwv with rfl | hwv
        · exact Or.inl hu
        · exact Or.inr hwv
      · exact ⟨by omega, fun hlen => by omega⟩

/-- Lines that mean ordinary variables add them in order. -/
theorem loadLines_ordinary (ssl : Option KeyCipher) {lines : List Str} {ws : List Var}
    (hne : ∀ line ∈ lines, line ≠ [])
    (h : List.Forall₂ (fun line w => urlVar line = some w ∧ w.name ≠ SESSION_KEY_VAR) lines ws)
    (vs : List Var) :
    loadLines ssl lines vs = (true, vs ++ ws) := by
  induction h generalizing vs with
  | nil => rw [loadLines, List.append_nil]
  | @cons line w lines ws hw _ ih =>
    rw [loadLines, loadLine, if_neg (hne line List.mem_cons_self), hw.1, Option.map_some,
      restoreKey_ordinary ssl vs hw.2]
    dsimp only
    rw [ih (fun l hl => hne l (List.mem_cons_of_mem _ hl)), List.append_assoc]
    rfl

/-! ## The round trip -/

theorem savedLines_ordinary (ssl : Option KeyCipher) {vars : List Var}
    (h : ∀ v ∈ vars, Ordinary v) :
    savedLines ssl vars = vars.map fun v => lineOf v ++ [10] := by
  induction vars with
  | nil => rfl
  | cons v vars ih =>
    have hv := h v List.mem_cons_self
    have hkey : protectKey ssl v = some v := by
      unfold protectKey
      cases ssl with
      | none => rfl
      | some c => exact if_neg hv.notKey
    have hsave : sessionPrvSaveVar ssl v = (some (lineOf v ++ [10]), v) := by
      simp [sessionPrvSaveVar, hv.name, hv.value, hkey, lineOf]
    rw [savedLines, hsave, ih (fun w hw => h w (List.mem_cons_of_mem _ hw))]
    rfl

theorem lineOf_bytes (v : Var) : (10 : Byte) ∉ lineOf v ∧ (13 : Byte) ∉ lineOf v := by
  have hn : ∀ c ∈ uUrlncpyEncode v.name, urlChar c = true := fun c => mem_uUrlncpyEncode
  have hv : ∀ c ∈ uUrlncpyEncode v.value, urlChar c = true := fun c => mem_uUrlncpyEncode
  have h₁ : (10 : Byte) ∉ uUrlncpyEncode v.name := not_mem_of_urlChar hn rfl
  have h₂ : (10 : Byte) ∉ uUrlncpyEncode v.value := not_mem_of_urlChar hv rfl
  have h₃ : (13 : Byte) ∉ uUrlncpyEncode v.name := not_mem_of_urlChar hn rfl
  have h₄ : (13 : Byte) ∉ uUrlncpyEncode v.value := not_mem_of_urlChar hv rfl
  simp [lineOf, h₁, h₂, h₃, h₄]

theorem squeeze_ne_nil {line : Str} (h : line ≠ []) : squeeze line ≠ [] := by
  by_cases hlen : line.length ≤ 1022
  · rwa [squeeze_short hlen]
  · rw [squeeze_long (by omega)]
    intro he
    have htake := (List.append_eq_nil_iff.mp he).1
    rcases List.take_eq_nil_iff.mp htake with hz | hz
    · cases hz
    · exact h hz

theorem sessionPrvLoadFromIo_lines (ssl : Option KeyCipher) {vars : List Var}
    (h : ∀ v ∈ vars, Ordinary v) (rtot : ℕ) :
    let r := sessionPrvLoadFromIo ssl [] ⟨sessionText ssl vars, false, rtot⟩
    (r.ok, r.vars) = loadLines ssl (vars.map fun v => squeeze (lineOf v)) [] := by
  have htext : sessionText ssl vars = (vars.map lineOf).flatMap (· ++ [10]) := by
    rw [sessionText, savedLines_ordinary ssl h, List.flatMap_map]
    rfl
  have hbytes : ∀ line ∈ vars.map lineOf, (10 : Byte) ∉ line ∧ (13 : Byte) ∉ line := by
    intro line hm
    obtain ⟨v, -, rfl⟩ := List.mem_map.mp hm
    exact lineOf_bytes v
  have hcount : ∀ lines : List Str, lines.length ≤ (lines.flatMap (· ++ [10])).length := by
    intro lines
    induction lines with
    | nil => exact le_refl _
    | cons line lines ih =>
      simp only [List.flatMap_cons, List.length_append, List.length_cons, List.length_nil]
      omega
  rw [htext]
  have hl := loadLoop_lines ssl hbytes rtot (Nat.lt_succ_of_le (hcount (vars.map lineOf))) []
  rw [List.map_map] at hl
  exact hl

theorem loadFromIo_text_iff (ssl : Option KeyCipher) {vars : List Var} (h : ∀ v ∈ vars, Ordinary v)
    (rtot : ℕ) :
    ((sessionPrvLoadFromIo ssl [] ⟨sessionText ssl vars, false, rtot⟩).ok = true ∧
      (sessionPrvLoadFromIo ssl [] ⟨sessionText ssl vars, false, rtot⟩).vars = vars) ↔
    ∀ v ∈ vars, (uUrlncpyEncode v.name).length + (uUrlncpyEncode v.value).length ≤ 1021 := by
  have hlen : ∀ v : Var, (lineOf v).length =
      (uUrlncpyEncode v.name).length + (uUrlncpyEncode v.value).length + 1 := by
    intro v
    simp only [lineOf, List.length_append, List.length_cons]
    omega
  have hne : ∀ line ∈ vars.map (fun v => squeeze (lineOf v)), line ≠ [] := by
    intro line hm
    obtain ⟨v, -, rfl⟩ := List.mem_map.mp hm
    apply squeeze_ne_nil
    simp [lineOf]
  have hload := sessionPrvLoadFromIo_lines ssl h rtot
  dsimp only at hload
  constructor
  · rintro ⟨hok, hvars⟩ v hv
    rw [hok, hvars] at hload
    obtain ⟨-, hadds⟩ := loadLines_adds ssl hne hload.symm
    obtain ⟨ws, rfl, hall⟩ := hadds (by simp)
    rw [List.forall₂_map_left_iff, List.forall₂_same] at hall
    rcases hall v hv with hu | hkey
    · have hle := length_of_urlVar_squeeze hu
      rw [hlen] at hle
      omega
    · exact absurd hkey (h v hv).notKey
  · intro hshort
    have hall : List.Forall₂ (fun line w => urlVar line = some w ∧ w.name ≠ SESSION_KEY_VAR)
        (vars.map fun v => squeeze (lineOf v)) vars := by
      rw [List.forall₂_map_left_iff, List.forall₂_same]
      intro v hv
      have ho := h v hv
      have hle := hshort v hv
      refine ⟨?_, ho.notKey⟩
      rw [squeeze_short (by rw [hlen]; omega), lineOf, urlVar_split (fun c => mem_uUrlncpyEncode)
        (fun c => mem_uUrlncpyEncode)]
      exact urlNamed_encode ho.name ho.noNul ho.value
    rw [loadLines_ordinary ssl hne hall, List.nil_append] at hload
    exact Prod.mk.inj hload

/-- A session of ordinary variables that is saved to a new stream is read back as it was
exactly when every line has room in one piece of `u_getline`. -/
theorem session_text_read_back {d : Chain.Device} {received : d.State → Str}
    (hd : Chain.Accepts d received) (ssl : Option KeyCipher) {vars : List Var}
    (h : ∀ v ∈ vars, Ordinary v) {dev : d.State} (hdev : received dev = []) :
    ∃ io, Loop.Ends (fun n => sessionPrvSaveToIo n ssl vars (Chain.ioCreate dev [])) io ∧
      (((sessionPrvLoadFromIo ssl [] ⟨io.sent received, false, 0⟩).ok = true ∧
        (sessionPrvLoadFromIo ssl [] ⟨io.sent received, false, 0⟩).vars = vars) ↔
      ∀ v ∈ vars, (uUrlncpyEncode v.name).length + (uUrlncpyEncode v.value).length ≤ 1021) := by
  obtain ⟨io, hends, -, hsent⟩ :=
    sessionPrvSaveToIo_sends hd ssl vars (Chain.outputCreate_plain dev)
  have hnew : (Chain.outputCreate dev).io.sent received = [] := by
    change received dev ++ window _ 0 0 = []
    rw [hdev, window_zero, List.append_nil]
  rw [hnew, List.nil_append] at hsent
  refine ⟨io, hends, ?_⟩
  rw [hsent]
  exact loadFromIo_text_iff ssl h 0

theorem session_text_read_back_fifo :
    ∃ io, Loop.Ends (fun n => sessionPrvSaveToIo (d := Chain.fifo) n none
      [⟨bytes "a b", bytes "1=2"⟩] (Chain.ioCreate [] []))
        io ∧
      (((sessionPrvLoadFromIo none [] ⟨io.sent (d := Chain.fifo) id, false, 0⟩).ok = true ∧
        (sessionPrvLoadFromIo none [] ⟨io.sent (d := Chain.fifo) id, false, 0⟩).vars =
          [⟨bytes "a b", bytes "1=2"⟩]) ↔
      ∀ v ∈ [(⟨bytes "a b", bytes "1=2"⟩ : Var)],
        (uUrlncpyEncode v.name).length + (uUrlncpyEncode v.value).length ≤ 1021) :=
  session_text_read_back (d := Chain.fifo) Chain.fifo_accepts none
    (by
      intro v hv
      obtain rfl := List.mem_singleton.mp hv
      exact ⟨by decide, by decide, by decide, by decide⟩) rfl

/-- A value of 1021 letters comes back shorter. -/
theorem session_text_not_read_back :
    ¬ ∀ (ssl : Option KeyCipher) (vars : List Var), (∀ v ∈ vars, Ordinary v) →
      (sessionPrvLoadFromIo ssl [] ⟨sessionText ssl vars, false, 0⟩).ok = true ∧
        (sessionPrvLoadFromIo ssl [] ⟨sessionText ssl vars, false, 0⟩).vars = vars := by
  intro h
  have hord : ∀ v ∈ [(⟨bytes "n", List.replicate 1021 97⟩ : Var)], Ordinary v := by
    intro v hv
    obtain rfl := List.mem_singleton.mp hv
    exact ⟨by decide, by decide, by decide, fun he => by cases he⟩
  have hiff := (loadFromIo_text_iff none hord 0).mp (h none _ hord) _ List.mem_cons_self
  have hlen := uUrlncpyEncode_length (List.replicate 1021 97)
  have hplain : plainCount (List.replicate 1021 97) = 1021 := by
    rw [plainCount, List.countP_replicate, if_pos (by decide)]
  have hname : (uUrlncpyEncode (bytes "n")).length = 1 := by decide
  rw [hplain, List.length_replicate] at hlen
  dsimp only at hiff
  omega

end Klone.Session
