import Klone.Lib.Loop
import Klone.Utils.Urlncpy

/-! # URL escaping in memory

The two loops of `u_urlncpy` with their counters. The source is the memory from `s` on, and
`slen`, a `size_t`, says how much of it is the string: nothing keeps the loops from going on
behind it.
-/
namespace Klone
open Http Loop

/-- The place of `s`, the counter `slen`, what has been written to `d`, and `wr`. -/
structure Copier where
  pos : ℕ
  slen : ℕ
  out : List Byte
  wr : ℕ

/-- How a call ends: with the bytes that have been written and the value that is returned,
or with a read outside the memory. -/
inductive Copied where
  | done (written : List Byte) (ret : ℕ)
  | failed (written : List Byte)
  | outside (written : List Byte)
  deriving DecidableEq

def Copied.written : Copied → List Byte
  | .done written _ => written
  | .failed written => written
  | .outside written => written

/-- A round that has read `k` bytes, `less` of which are subtracted before the counter is
decremented, and has written `bs`. -/
def Copier.next (c : Copier) (k less : ℕ) (bs : List Byte) (wr : ℕ) : Copier :=
  ⟨c.pos + k, sizeDec (c.slen - less), c.out ++ bs, c.wr + wr⟩

def encodeBody (mem : List Byte) (c : Copier) : Option (Iter Copier Copied) :=
  if c.slen = 0 then some (.leave (.done (c.out ++ [0]) c.wr))
  else match mem[c.pos]? with
    | none => some (.leave (.outside c.out))
    | some b => some (.again (c.next 1 0 (urlEscape b) (urlEscape b).length))

def escapeDigits (mem : List Byte) (pos : ℕ) (c : Copier) : Iter Copier Copied :=
  match mem[pos]? with
  | none => .leave (.outside c.out)
  | some a =>
    if isxdigit a = false then .leave (.failed c.out)
    else match mem[pos + 1]? with
      | none => .leave (.outside c.out)
      | some b =>
        if isxdigit b = false then .leave (.failed c.out)
        else .again (c.next 3 2 [htoi a <<< 4 ||| htoi b] 1)

def decodeBody (mem : List Byte) (c : Copier) : Option (Iter Copier Copied) :=
  if c.slen = 0 then some (.leave (.done (c.out ++ [0]) c.wr))
  else match mem[c.pos]? with
    | none => some (.leave (.outside c.out))
    | some b =>
      if b = 37 then
        if c.slen < 2 then some (.leave (.failed c.out)) else some (escapeDigits mem (c.pos + 1) c)
      else some (.again (c.next 1 0 [if b = 43 then 32 else b] 1))

inductive UrlFlag where
  | encode
  | decode

def urlncpyBody (mem : List Byte) : UrlFlag → Copier → Option (Iter Copier Copied)
  | .encode => encodeBody mem
  | .decode => decodeBody mem

def copyStart (slen : ℕ) : Copier := ⟨0, slen, [], 0⟩

/-- `u_urlncpy`: no round reads outside the memory, so their number is bounded by its size. -/
def uUrlncpy (mem : List Byte) (slen : ℕ) (flag : UrlFlag) : Option Copied :=
  run (urlncpyBody mem flag) (mem.length + 2) (copyStart slen)

/-! ## Every call ends -/

theorem sizeDec_pred {n : ℕ} (h : n ≠ 0) (hn : n < sizeMod) : sizeDec n = n - 1 :=
  sizeDec_pos (Nat.pos_of_ne_zero h) hn

theorem getElem?_lt {mem : List Byte} {i : ℕ} {b : Byte} (h : mem[i]? = some b) :
    i < mem.length := by
  obtain ⟨hi, -⟩ := List.getElem?_eq_some_iff.mp h
  exact hi

theorem escapeDigits_again {mem : List Byte} {pos : ℕ} {c t : Copier}
    (h : escapeDigits mem pos c = .again t) :
    ∃ a b, mem[pos]? = some a ∧ mem[pos + 1]? = some b ∧ (isxdigit a && isxdigit b) = true ∧
      t = c.next 3 2 [htoi a <<< 4 ||| htoi b] 1 := by
  unfold escapeDigits at h
  split at h
  · cases h
  · next a ha =>
    split at h
    · cases h
    · next hxa =>
      split at h
      · cases h
      · next b hb =>
        split at h
        · cases h
        · next hxb =>
          obtain rfl := Iter.again.inj h
          exact ⟨a, b, ha, hb, by simp_all, rfl⟩

/-- A round takes at least a byte, and all it takes is in the memory. -/
theorem urlncpyBody_again {mem : List Byte} {flag : UrlFlag} {c t : Copier}
    (h : urlncpyBody mem flag c = some (.again t)) :
    c.pos < t.pos ∧ t.pos ≤ mem.length := by
  cases flag with
  | encode =>
    simp only [urlncpyBody, encodeBody] at h
    split at h
    · cases h
    · split at h
      · cases h
      · next b hb =>
        cases h
        exact ⟨Nat.lt_succ_self _, getElem?_lt hb⟩
  | decode =>
    simp only [urlncpyBody, decodeBody] at h
    split at h
    · cases h
    · split at h
      · cases h
      · next b hb =>
        split at h
        · split at h
          · cases h
          · obtain ⟨x, y, -, hy, -, rfl⟩ := escapeDigits_again (Option.some.inj h)
            have hlt := getElem?_lt hy
            change c.pos < c.pos + 3 ∧ c.pos + 3 ≤ mem.length
            omega
        · cases h
          exact ⟨Nat.lt_succ_self _, getElem?_lt hb⟩

theorem uUrlncpy_ends (mem : List Byte) (slen : ℕ) (flag : UrlFlag) :
    ∃ r, uUrlncpy mem slen flag = some r := by
  refine run_total (fun c => mem.length + 1 - c.pos) (I := fun c => c.pos ≤ mem.length) ?_
    (Nat.zero_le _) ?_
  · intro c hc
    cases hb : urlncpyBody mem flag c with
    | none =>
      exfalso
      cases flag with
      | encode =>
        simp only [urlncpyBody, encodeBody] at hb
        split at hb
        · cases hb
        · split at hb <;> cases hb
      | decode =>
        simp only [urlncpyBody, decodeBody] at hb
        split at hb
        · cases hb
        · split at hb
          · cases hb
          · split at hb
            · split at hb <;> cases hb
            · cases hb
    | some i =>
      cases i with
      | again t =>
        obtain ⟨hlt, hle⟩ := urlncpyBody_again hb
        exact Or.inl ⟨t, rfl, hle, by omega⟩
      | leave r => exact Or.inr ⟨r, rfl⟩
  · change mem.length + 1 - 0 < mem.length + 2
    omega

/-- The result is that of the head from which the loop leaves. -/
theorem uUrlncpy_eq {mem : List Byte} {slen : ℕ} (flag : UrlFlag) {t : Copier} {r : Copied}
    (h : Reaches (urlncpyBody mem flag) (copyStart slen) t)
    (hl : urlncpyBody mem flag t = some (.leave r)) :
    uUrlncpy mem slen flag = some r := by
  obtain ⟨r', hr'⟩ := uUrlncpy_ends mem slen flag
  rw [hr', run_unique hr' h hl]

/-! ## Decoding -/

def digitsFollow : Str → Bool
  | a :: b :: _ => isxdigit a && isxdigit b
  | _ => false

/-- A percent sign in `t` is not followed, within `t`, by two digits. -/
def BadEscape (t : Str) : Prop := ∃ rest, 37 :: rest <:+ t ∧ digitsFollow rest = false

/-- What the decoder does with the rest of a string when it has written `out`. -/
def decodeRest : Str → List Byte → Copied
  | [], out => .done (out ++ [0]) out.length
  | 37 :: a :: b :: rest, out =>
    if isxdigit a && isxdigit b then decodeRest rest (out ++ [htoi a <<< 4 ||| htoi b])
    else .failed out
  | 37 :: _, out => .failed out
  | c :: rest, out => decodeRest rest (out ++ [if c = 43 then 32 else c])

/-- The string ends in an escape that lacks its second digit, and all before can be decoded. -/
def EndsShort (t : Str) : Prop :=
  ∃ a x, t = a ++ [37, x] ∧ isxdigit x = true ∧ (uUrlncpyDecode a).isSome = true

theorem decodeRest_cons {c : Byte} (h : c ≠ 37) (rest : Str) (out : List Byte) :
    decodeRest (c :: rest) out = decodeRest rest (out ++ [if c = 43 then 32 else c]) := by
  rw [decodeRest] <;> simp_all

theorem decodeRest_short {rest : Str} (h : rest.length < 2) (out : List Byte) :
    decodeRest (37 :: rest) out = .failed out := by
  match rest with
  | [] => rfl
  | [a] => rfl

theorem decode_append {a : Str} {w : List Byte} (h : uUrlncpyDecode a = some w) (b : Str) :
    uUrlncpyDecode (a ++ b) = (uUrlncpyDecode b).map (w ++ ·) := by
  induction a using uUrlncpyDecode.induct generalizing w with
  | case1 =>
    obtain rfl := Option.some.inj (by simpa [uUrlncpyDecode] using h)
    simp
  | case2 x y rest hx ih =>
    simp only [uUrlncpyDecode, hx, if_true, Option.map_eq_some_iff] at h
    obtain ⟨w', hw', rfl⟩ := h
    simp only [List.cons_append, uUrlncpyDecode, hx, if_true, ih hw']
    cases uUrlncpyDecode b <;> rfl
  | case3 x y rest hx => simp [uUrlncpyDecode, hx] at h
  | case4 rest hne =>
    rw [uUrlncpyDecode.eq_3 _ hne] at h
    cases h
  | case5 c rest hne₁ hne₂ ih =>
    have hc : c ≠ 37 := by
      rintro rfl
      exact hne₂ rfl
    rw [uUrlncpyDecode_cons hc] at h
    obtain ⟨w', hw', rfl⟩ := Option.map_eq_some_iff.mp h
    rw [List.cons_append, uUrlncpyDecode_cons hc, ih hw']
    cases uUrlncpyDecode b <;> rfl

structure Walk (t : Str) (c : Copier) : Prop where
  wr : c.wr = c.out.length
  split : ∃ a rest, t = a ++ rest ∧ uUrlncpyDecode a = some c.out ∧ c.pos = a.length ∧
    c.slen = rest.length ∧
    decodeRest t [] = decodeRest rest c.out

theorem walk_start (t : Str) : Walk t (copyStart t.length) := ⟨rfl, [], t, rfl, rfl, rfl, rfl, rfl⟩

theorem escapeDigits_eq {mem : List Byte} {pos : ℕ} {x y : Byte} (hx : mem[pos]? = some x)
    (hy : mem[pos + 1]? = some y) (c : Copier) : escapeDigits mem pos c =
      if isxdigit x && isxdigit y then .again (c.next 3 2 [htoi x <<< 4 ||| htoi y] 1)
      else .leave (.failed c.out) := by
  unfold escapeDigits
  cases hxd : isxdigit x <;> cases hyd : isxdigit y <;> simp [hx, hy, hxd, hyd]

/-- A round over one byte or one escape. -/
theorem walk_next {a e rest : Str} {c : Copier} {v : Byte} {less : ℕ}
    (hsize : (a ++ (e ++ rest)).length < sizeMod) (hwr : c.wr = c.out.length)
    (ha : uUrlncpyDecode a = some c.out) (hpos : c.pos = a.length)
    (hslen : c.slen = (e ++ rest).length)
    (hrest : decodeRest (a ++ (e ++ rest)) [] = decodeRest (e ++ rest) c.out)
    (hless : e.length = less + 1) (he : uUrlncpyDecode e = some [v])
    (hgo : decodeRest (e ++ rest) c.out = decodeRest rest (c.out ++ [v])) :
    Walk (a ++ (e ++ rest)) (c.next e.length less [v] 1) := by
  refine ⟨?_, a ++ e, rest, (List.append_assoc _ _ _).symm, ?_, ?_, ?_, hrest.trans hgo⟩
  · change c.wr + 1 = (c.out ++ [v]).length
    rw [hwr, List.length_append]
    rfl
  · rw [decode_append ha, he]
    rfl
  · change c.pos + e.length = (a ++ e).length
    rw [hpos, List.length_append]
  · change sizeDec (c.slen - less) = rest.length
    rw [List.length_append] at hslen
    rw [List.length_append, List.length_append] at hsize
    rw [sizeDec_pred (by omega) (by omega)]
    omega

section Walk
variable {t more : Str}

theorem getElem?_split (a rest more : Str) (i : ℕ) (hi : i < rest.length) :
    (a ++ rest ++ more)[a.length + i]? = rest[i]? := by
  rw [List.append_assoc, List.getElem?_append_right (Nat.le_add_right _ _), Nat.add_sub_cancel_left,
    List.getElem?_append_left hi]

/-- In a string that does not end in a short escape, a round goes on along the string or
ends as it should. -/
theorem walk_step (more : Str) (hsize : t.length < sizeMod) (hshort : ¬ EndsShort t) {c : Copier}
    (h : Walk t c) :
    (∃ u, decodeBody (t ++ more) c = some (.again u) ∧ Walk t u) ∨
      decodeBody (t ++ more) c = some (.leave (decodeRest t [])) := by
  obtain ⟨hwr, a, rest, rfl, ha, hpos, hslen, hrest⟩ := h
  rw [List.length_append] at hsize
  unfold decodeBody
  rw [hrest, hpos, hslen]
  match rest with
  | [] =>
    refine Or.inr ?_
    rw [List.length_nil, if_pos rfl, decodeRest, hwr]
  | b :: rest =>
    have hlen : (b :: rest).length = rest.length + 1 := rfl
    have hb := getElem?_split a (b :: rest) more 0 (by simp)
    rw [Nat.add_zero] at hb
    rw [if_neg (by rw [hlen]; omega), hb]
    simp only [List.getElem?_cons_zero]
    by_cases hbp : b = 37
    · subst hbp
      simp only [if_true]
      match rest with
      | [] => exact Or.inr (by simp [decodeRest])
      | [x] =>
        -- only a digit could lead out of the string
        have hx : isxdigit x = false := by
          by_contra hx
          exact hshort ⟨a, x, rfl, by simpa using hx, by rw [ha]; rfl⟩
        exact Or.inr (by simp [escapeDigits, hx, decodeRest])
      | x :: y :: rest =>
        have hget₁ := getElem?_split a (37 :: x :: y :: rest) more 1 (by simp)
        have hget₂ := getElem?_split a (37 :: x :: y :: rest) more 2 (by simp)
        simp only [List.getElem?_cons_succ, List.getElem?_cons_zero] at hget₁ hget₂
        rw [if_neg (by simp), escapeDigits_eq hget₁ hget₂, decodeRest]
        cases hxy : isxdigit x && isxdigit y with
        | false => exact Or.inr rfl
        | true =>
          have hpiece : uUrlncpyDecode [37, x, y] = some [htoi x <<< 4 ||| htoi y] := by
            simp [uUrlncpyDecode, hxy]
          have hgo : decodeRest ([37, x, y] ++ rest) c.out =
              decodeRest rest (c.out ++ [htoi x <<< 4 ||| htoi y]) := by
            simp [decodeRest, hxy]
          exact Or.inl ⟨_, rfl, walk_next (e := [37, x, y]) (by simpa using hsize) hwr ha hpos hslen
            hrest rfl hpiece hgo⟩
    · rw [if_neg hbp]
      have hpiece : uUrlncpyDecode [b] = some [if b = 43 then 32 else b] := by
        rw [uUrlncpyDecode_cons hbp]
        rfl
      exact Or.inl ⟨_, rfl, walk_next (e := [b]) (by simpa using hsize) hwr ha hpos hslen
        hrest rfl hpiece
        (decodeRest_cons hbp rest c.out)⟩

theorem walk_reaches (hsize : t.length < sizeMod) (hshort : ¬ EndsShort t) {c : Copier}
    (h : Reaches (decodeBody (t ++ more)) (copyStart t.length) c) : Walk t c := by
  refine h.invariant (I := Walk t) ?_ (walk_start t)
  intro c u hc hu
  rcases walk_step more hsize hshort hc with ⟨u', hu', hw⟩ | hl
  · obtain rfl := Iter.again.inj (Option.some.inj (hu.symm.trans hu'))
    exact hw
  · cases hu.symm.trans hl

theorem uUrlncpy_decode (hsize : t.length < sizeMod) (hshort : ¬ EndsShort t) :
    uUrlncpy (t ++ more) t.length .decode = some (decodeRest t []) := by
  obtain ⟨r, hr⟩ := uUrlncpy_ends (t ++ more) t.length .decode
  obtain ⟨c, hreach, hl⟩ := run_reaches hr
  rcases walk_step more hsize hshort (walk_reaches hsize hshort hreach) with ⟨u, hu, -⟩ | hl'
  · cases hu.symm.trans hl
  · rw [hr]
    exact congrArg some (Iter.leave.inj (Option.some.inj (hl.symm.trans hl')))

end Walk

theorem getElem?_of_drop {mem l : List Byte} {pos : ℕ} (h : mem.drop pos = l) (i : ℕ) :
    mem[pos + i]? = l[i]? := by
  rw [← h, List.getElem?_drop]

/-- The head after a piece of `n` bytes that gives `v`, and the rest. -/
theorem passed_eq (c : Copier) (n : ℕ) (rest e : Str) (k : ℕ) (v : Byte) (w : List Byte)
    (hn : e.length = n) :
    (⟨c.pos + n + rest.length, k, c.out ++ [v] ++ w, c.wr + 1 + w.length⟩ : Copier) =
      ⟨c.pos + (e ++ rest).length, k, c.out ++ v :: w, c.wr + (v :: w).length⟩ := by
  simp only [← hn, List.length_append, List.length_cons, List.append_assoc, List.singleton_append,
    Copier.mk.injEq, true_and]
  omega

/-- What can be decoded is passed, whatever the counter says behind it. -/
theorem reaches_decoded {mem a x : Str} {w : List Byte} (h : uUrlncpyDecode a = some w) {c : Copier}
    {k : ℕ} (hmem : mem.drop c.pos = a ++ x) (hslen : c.slen = a.length + k)
    (hsize : c.slen < sizeMod) :
    Reaches (decodeBody mem) c ⟨c.pos + a.length, k, c.out ++ w, c.wr + w.length⟩ := by
  induction a using uUrlncpyDecode.induct generalizing w c with
  | case1 =>
    obtain rfl := Option.some.inj (by simpa [uUrlncpyDecode] using h)
    obtain ⟨pos, slen, out, wr⟩ := c
    obtain rfl : slen = k := hslen.trans (Nat.zero_add k)
    rw [List.append_nil]
    exact Relation.ReflTransGen.refl
  | case2 b₁ b₂ rest hx ih =>
    simp only [uUrlncpyDecode, hx, if_true, Option.map_eq_some_iff] at h
    obtain ⟨w', hw', rfl⟩ := h
    have h₀ := getElem?_of_drop hmem 0
    have h₁ := getElem?_of_drop hmem 1
    have h₂ := getElem?_of_drop hmem 2
    have hrest : mem.drop (c.pos + 3) = rest ++ x := by rw [← List.drop_drop, hmem]; rfl
    simp only [List.length_cons] at hslen
    have hdec : sizeDec (c.slen - 2) = rest.length + k := by
      rw [sizeDec_pred (by omega) (by omega)]
      omega
    have hstep : decodeBody mem c = some (.again (c.next 3 2 [htoi b₁ <<< 4 ||| htoi b₂] 1)) := by
      have hz : c.slen ≠ 0 := by omega
      have hlt : ¬ c.slen < 2 := by omega
      rw [Nat.add_zero] at h₀
      simp only [List.cons_append, List.getElem?_cons_zero, List.getElem?_cons_succ] at h₀ h₁ h₂
      simp only [decodeBody, if_neg hz, h₀, if_true, if_neg hlt, escapeDigits_eq h₁ h₂, hx]
    rw [Copier.next, hdec] at hstep
    have hreach := ih hw' (c := ⟨c.pos + 3, rest.length + k, c.out ++ [htoi b₁ <<< 4 ||| htoi b₂],
      c.wr + 1⟩) hrest rfl
      (by change rest.length + k < sizeMod; omega)
    have hend := passed_eq c 3 rest [37, b₁, b₂] k (htoi b₁ <<< 4 ||| htoi b₂) w' rfl
    rw [hend] at hreach
    exact Relation.ReflTransGen.head hstep hreach
  | case3 b₁ b₂ rest hx => simp [uUrlncpyDecode, hx] at h
  | case4 rest hne =>
    rw [uUrlncpyDecode.eq_3 _ hne] at h
    cases h
  | case5 b rest hne₁ hne₂ ih =>
    have hb : b ≠ 37 := by
      rintro rfl
      exact hne₂ rfl
    rw [uUrlncpyDecode_cons hb] at h
    obtain ⟨w', hw', rfl⟩ := Option.map_eq_some_iff.mp h
    have h₀ := getElem?_of_drop hmem 0
    have hrest : mem.drop (c.pos + 1) = rest ++ x := by rw [← List.drop_drop, hmem]; rfl
    simp only [List.length_cons] at hslen
    have hdec : sizeDec (c.slen - 0) = rest.length + k := by
      rw [sizeDec_pred (by omega) (by omega)]
      omega
    have hstep : decodeBody mem c = some (.again (c.next 1 0 [if b = 43 then 32 else b] 1)) := by
      have hz : c.slen ≠ 0 := by omega
      rw [Nat.add_zero] at h₀
      simp only [List.cons_append, List.getElem?_cons_zero] at h₀
      simp only [decodeBody, if_neg hz, h₀, if_neg hb]
    rw [Copier.next, hdec] at hstep
    have hreach := ih hw' (c := ⟨c.pos + 1, rest.length + k, c.out ++ [if b = 43 then 32 else b],
      c.wr + 1⟩) hrest rfl
      (by change rest.length + k < sizeMod; omega)
    have hend := passed_eq c 1 rest [b] k (if b = 43 then 32 else b) w' rfl
    rw [hend] at hreach
    exact Relation.ReflTransGen.head hstep hreach

theorem badEscape_cons {c : Byte} {rest : Str} :
    BadEscape (c :: rest) ↔ (c = 37 ∧ digitsFollow rest = false) ∨ BadEscape rest := by
  unfold BadEscape
  simp only [List.suffix_cons_iff, List.cons.injEq, or_and_right, exists_or]
  constructor
  · rintro (⟨r, ⟨rfl, rfl⟩, hr⟩ | h)
    · exact Or.inl ⟨rfl, hr⟩
    · exact Or.inr h
  · rintro (⟨rfl, hr⟩ | h)
    · exact Or.inl ⟨rest, ⟨rfl, rfl⟩, hr⟩
    · exact Or.inr h

theorem badEscape_nil : ¬ BadEscape [] := by
  rintro ⟨r, hr, -⟩
  simp at hr

theorem not_percent_of_isxdigit {c : Byte} (h : isxdigit c = true) :
    c ≠ 37 := ne_of_urlSafe (urlSafe_of_isxdigit h) rfl

/-- The decoder accepts the strings all of whose escapes are whole. -/
theorem badEscape_iff {t : Str} : BadEscape t ↔ uUrlncpyDecode t = none := by
  induction t using uUrlncpyDecode.induct with
  | case1 => simpa [uUrlncpyDecode] using badEscape_nil
  | case2 a b rest hx ih =>
    have hab := hx
    rw [Bool.and_eq_true] at hab
    have ha := not_percent_of_isxdigit hab.1
    have hb := not_percent_of_isxdigit hab.2
    simp [badEscape_cons, digitsFollow, hx, ha, hb, ih, uUrlncpyDecode]
  | case3 a b rest hx =>
    have hbad : digitsFollow (a :: b :: rest) = false := by simpa [digitsFollow] using hx
    have hnone : uUrlncpyDecode (37 :: a :: b :: rest) = none := by rw [uUrlncpyDecode, if_neg hx]
    simp [badEscape_cons, hbad, hnone]
  | case4 rest hne =>
    have hbad : digitsFollow rest = false := by
      unfold digitsFollow
      split
      · next a b r => exact absurd rfl (hne a b r)
      · rfl
    simp [badEscape_cons, hbad, uUrlncpyDecode.eq_3 _ hne]
  | case5 c rest hne₁ hne₂ ih =>
    have hc : c ≠ 37 := by
      rintro rfl
      exact hne₂ rfl
    simp [badEscape_cons, hc, ih, uUrlncpyDecode_cons hc]

/-- The outcome of decoding: the decoded text and its length, or a failure after no more
bytes than there are. -/
theorem decodeRest_cases (t : Str) (out : List Byte) :
    (∃ w, uUrlncpyDecode t = some w ∧
      decodeRest t out = .done (out ++ w ++ [0]) (out.length + w.length)) ∨
      (uUrlncpyDecode t = none ∧ ∃ w, decodeRest t out = .failed w ∧
        w.length ≤ out.length + t.length) := by
  induction t using uUrlncpyDecode.induct generalizing out with
  | case1 => exact Or.inl ⟨[], by simp [uUrlncpyDecode], by simp [decodeRest]⟩
  | case2 a b rest hx ih =>
    simp only [uUrlncpyDecode, decodeRest, hx, if_true]
    rcases ih (out ++ [htoi a <<< 4 ||| htoi b]) with ⟨w, hw, hd⟩ | ⟨hn, w, hw, hle⟩
    · refine Or.inl ⟨(htoi a <<< 4 ||| htoi b) :: w, by rw [hw]; rfl, ?_⟩
      simp [hd]
      omega
    · refine Or.inr ⟨by rw [hn]; rfl, w, hw, ?_⟩
      simp only [List.length_append, List.length_cons, List.length_nil] at hle ⊢
      omega
  | case3 a b rest hx =>
    refine Or.inr ⟨by simp [uUrlncpyDecode, hx], out, by simp [decodeRest,
      hx], Nat.le_add_right _ _⟩
  | case4 rest hne =>
    exact Or.inr ⟨uUrlncpyDecode.eq_3 _ hne, out, decodeRest_short (length_lt_two hne) out,
      Nat.le_add_right _ _⟩
  | case5 c rest hne₁ hne₂ ih =>
    have hc : c ≠ 37 := by
      rintro rfl
      exact hne₂ rfl
    rw [uUrlncpyDecode_cons hc, decodeRest_cons hc]
    rcases ih (out ++ [if c = 43 then 32 else c]) with ⟨w, hw, hd⟩ | ⟨hn, w, hw, hle⟩
    · refine Or.inl ⟨(if c = 43 then 32 else c) :: w, by rw [hw]; rfl, ?_⟩
      simp [hd]
      omega
    · refine Or.inr ⟨by rw [hn]; rfl, w, hw, ?_⟩
      simp only [List.length_append, List.length_cons, List.length_nil] at hle ⊢
      omega

/-! ## Staying within the length -/

/-- Decoding the first `t.length` bytes of a buffer stays within them, whatever follows. -/
structure Confined (t : Str) : Prop where
  /-- The outcome is a function of these bytes. -/
  same : ∃ r, ∀ more, uUrlncpy (t ++ more) t.length .decode = some r
  inside : ∀ more w, uUrlncpy (t ++ more) t.length .decode ≠ some (.outside w)
  /-- The counter goes down in every round, so it does not wrap. -/
  counter : ∀ more c u, Reaches (decodeBody (t ++ more)) (copyStart t.length) c →
    decodeBody (t ++ more) c = some (.again u) → u.slen < c.slen
  room : ∀ more r, uUrlncpy (t ++ more) t.length .decode = some r → r.written.length ≤ t.length + 1
  fails : BadEscape t → ∀ more, ∃ w, uUrlncpy (t ++ more) t.length .decode = some (.failed w)

theorem walk_slen {t : Str} {c u : Copier} (hc : Walk t c) (hu : Walk t u) (hlt : c.pos < u.pos) :
    u.slen < c.slen := by
  obtain ⟨-, a, rest, rfl, -, hpos, hslen, -⟩ := hc
  obtain ⟨-, a', rest', hsplit, -, hpos', hslen', -⟩ := hu
  have hlen := congrArg List.length hsplit
  simp only [List.length_append] at hlen
  omega

theorem confined_of_not_endsShort {t : Str} (hsize : t.length < sizeMod) (hshort : ¬ EndsShort t) :
    Confined t := by
  have hres : ∀ more, uUrlncpy (t ++ more) t.length .decode = some (decodeRest t []) := fun more =>
    uUrlncpy_decode hsize hshort
  have hcases := decodeRest_cases t []
  refine ⟨⟨_, hres⟩, ?_, ?_, ?_, ?_⟩
  · intro more w h
    rw [hres] at h
    rcases hcases with ⟨v, -, hd⟩ | ⟨-, v, hv, -⟩
    · rw [hd] at h
      cases h
    · rw [hv] at h
      cases h
  · intro more c u hc hu
    have hround : urlncpyBody (t ++ more) .decode c = some (.again u) := hu
    exact walk_slen (walk_reaches hsize hshort hc) (walk_reaches hsize hshort (hc.tail hu))
      (urlncpyBody_again hround).1
  · intro more r h
    obtain rfl := Option.some.inj ((hres more).symm.trans h)
    rcases hcases with ⟨v, hv, hd⟩ | ⟨-, v, hv, hle⟩
    · have hle := decode_length_le hv
      simpa [hd, Copied.written] using hle
    · rw [hv, Copied.written]
      simp only [List.length_nil, Nat.zero_add] at hle
      omega
  · intro hbad more
    rcases hcases with ⟨v, hv, -⟩ | ⟨-, v, hv, -⟩
    · rw [badEscape_iff.mp hbad] at hv
      cases hv
    · exact ⟨v, by rw [hres, hv]⟩

/-- Behind a short escape the decoder looks at the byte that follows the string. -/
theorem looks_behind {t : Str} (hsize : t.length < sizeMod) (h : EndsShort t) :
    ∃ w, uUrlncpy t t.length .decode = some (.outside w) ∧
    uUrlncpy (t ++ [120]) t.length .decode = some (.failed w) := by
  obtain ⟨a, x, rfl, hx, ha⟩ := h
  obtain ⟨w, hw⟩ := Option.isSome_iff_exists.mp ha
  have hlen : (a ++ [37, x]).length = a.length + 2 := by simp
  have hreach : ∀ more, Reaches (decodeBody (a ++ [37, x] ++ more))
    (copyStart (a ++ [37, x]).length)
      ⟨a.length, 2, w, w.length⟩ := by
    intro more
    have hmem : (a ++ [37, x] ++ more).drop (copyStart (a ++ [37, x]).length).pos =
      a ++ ([37, x] ++ more) := by simp [copyStart]
    have h := reaches_decoded hw (k := 2) hmem hlen hsize
    simpa [copyStart] using h
  have h₀ : ∀ more, (a ++ [37, x] ++ more)[a.length]? = some 37 := fun more => by simp
  have h₁ : ∀ more, (a ++ [37, x] ++ more)[a.length + 1]? = some x := fun more => by simp
  have h₂ : ∀ more, (a ++ [37, x] ++ more)[a.length + 1 + 1]? = more[0]? := by
    intro more
    rw [Nat.add_assoc, ← hlen, List.getElem?_append_right (Nat.le_refl _), Nat.sub_self]
  have hround : ∀ more, decodeBody (a ++ [37, x] ++ more) ⟨a.length, 2, w, w.length⟩ =
      some (match more[0]? with
        | none => .leave (.outside w)
        | some b => if isxdigit b = false then .leave (.failed w) else
          .again (Copier.next ⟨a.length, 2, w, w.length⟩ 3 2 [htoi x <<< 4 ||| htoi b] 1)) := by
    intro more
    simp only [decodeBody, h₀, escapeDigits, h₁, h₂, hx]
    rfl
  refine ⟨w, ?_, ?_⟩
  · have h := uUrlncpy_eq .decode (hreach []) (hround [])
    rwa [List.append_nil] at h
  · exact uUrlncpy_eq .decode (hreach [120]) (hround [120])

/-- Decoding stays within the length of the string exactly when the string does not end in a
percent sign and one digit, with all escapes before it whole. -/
theorem decode_confined_iff (t : Str) (hsize : t.length < sizeMod) :
    Confined t ↔ ¬ EndsShort t := by
  refine ⟨?_, confined_of_not_endsShort hsize⟩
  intro hc hshort
  obtain ⟨w, hoff, hfail⟩ := looks_behind hsize hshort
  obtain ⟨r, hr⟩ := hc.same
  have h₀ := hr []
  rw [List.append_nil, hoff] at h₀
  cases h₀.trans ((hr [120]).symm.trans hfail)

theorem decode_confined_whole : Confined [97, 37, 52, 49] := by
  refine (decode_confined_iff [97, 37, 52, 49] (by decide)).mpr ?_
  rintro ⟨a, x, h, -⟩
  have hlen := congrArg List.length h
  simp only [List.length_append, List.length_cons, List.length_nil] at hlen
  match a, hlen with
  | [b, c], _ =>
    injection h with _ h
    injection h with _ h
    injection h with h _
    exact absurd h (by decide)

/-- The escape `%4` at the end of the string, with another byte behind it. -/
theorem decode_not_confined : ¬ Confined [37, 52] := by
  intro h
  obtain ⟨r, hr⟩ := h.same
  have hoff : uUrlncpy ([37, 52] ++ []) 2 .decode = some (.outside []) := by rfl
  have hfail : uUrlncpy ([37, 52] ++ [120]) 2 .decode = some (.failed []) := by rfl
  cases (hoff.symm.trans (hr [])).trans ((hr [120]).symm.trans hfail)

/-! ## Encoding -/

theorem reaches_encoded {mem s x : List Byte} {c : Copier} (hmem : mem.drop c.pos = s ++ x)
    (hslen : c.slen = s.length) (hsize : c.slen < sizeMod) : Reaches (encodeBody mem) c
      ⟨c.pos + s.length, 0, c.out ++ uUrlncpyEncode s, c.wr + (uUrlncpyEncode s).length⟩ := by
  induction s generalizing c with
  | nil =>
    obtain ⟨pos, slen, out, wr⟩ := c
    obtain rfl : slen = 0 := hslen
    rw [uUrlncpyEncode_nil, List.append_nil]
    exact Relation.ReflTransGen.refl
  | cons b s ih =>
    have h₀ := getElem?_of_drop hmem 0
    have hrest : mem.drop (c.pos + 1) = s ++ x := by rw [← List.drop_drop, hmem]; rfl
    rw [List.length_cons] at hslen
    have hdec : sizeDec (c.slen - 0) = s.length := by
      rw [sizeDec_pred (by omega) (by omega)]
      omega
    have hstep : encodeBody mem c =
        some (.again (c.next 1 0 (urlEscape b) (urlEscape b).length)) := by
      have hz : c.slen ≠ 0 := by omega
      simp only [Nat.add_zero, List.cons_append, List.getElem?_cons_zero] at h₀
      simp only [encodeBody, if_neg hz, h₀]
    rw [Copier.next, hdec] at hstep
    have hreach := ih (c := ⟨c.pos + 1, s.length, c.out ++ urlEscape b,
      c.wr + (urlEscape b).length⟩) hrest rfl
      (by change s.length < sizeMod; omega)
    have hend : (⟨c.pos + 1 + s.length, 0, c.out ++ urlEscape b ++ uUrlncpyEncode s,
        c.wr + (urlEscape b).length + (uUrlncpyEncode s).length⟩ : Copier) =
          ⟨c.pos + (b :: s).length, 0, c.out ++ uUrlncpyEncode (b :: s),
            c.wr + (uUrlncpyEncode (b :: s)).length⟩ := by
      simp only [List.length_cons, uUrlncpyEncode_cons, List.length_append, List.append_assoc,
        Copier.mk.injEq, true_and]
      omega
    rw [hend] at hreach
    exact Relation.ReflTransGen.head hstep hreach

theorem uUrlncpy_encode {s : List Byte} (hsize : s.length < sizeMod) (more : List Byte) :
    uUrlncpy (s ++ more) s.length .encode =
    some (.done (uUrlncpyEncode s ++ [0]) (uUrlncpyEncode s).length) := by
  have hmem : (s ++ more).drop (copyStart s.length).pos = s ++ more := rfl
  have hreach := reaches_encoded hmem rfl hsize
  refine uUrlncpy_eq .encode hreach ?_
  simp [urlncpyBody, encodeBody, copyStart]

theorem length_le_encode (s : List Byte) : s.length ≤ (uUrlncpyEncode s).length := by
  have h := uUrlncpyEncode_length s
  have hp : plainCount s ≤ s.length := List.countP_le_length
  omega

theorem decode_whole {t : Str} {s : List Byte} (hsize : t.length < sizeMod)
    (h : uUrlncpyDecode t = some s) (more : List Byte) :
    uUrlncpy (t ++ more) t.length .decode = some (.done (s ++ [0]) s.length) := by
  have hshort : ¬ EndsShort t := by
    rintro ⟨a, x, rfl, -, ha⟩
    obtain ⟨w, hw⟩ := Option.isSome_iff_exists.mp ha
    rw [decode_append hw] at h
    cases h
  rw [uUrlncpy_decode hsize hshort]
  rcases decodeRest_cases t [] with ⟨w, hw, hd⟩ | ⟨hn, -⟩
  · obtain rfl := Option.some.inj (h.symm.trans hw)
    simpa using hd
  · rw [hn] at h
    cases h

/-- For every byte string the encoder writes whole escapes over the safe characters, at most
three for a byte, and the decoder gives the string back from exactly what has been written. -/
theorem urlncpy_round_trip (s : List Byte) (hsize : (uUrlncpyEncode s).length < sizeMod) :
    ∃ e : Str, (∀ more, uUrlncpy (s ++ more) s.length .encode = some (.done (e ++ [0]) e.length)) ∧
      e.length ≤ 3 * s.length ∧ (∀ c ∈ e, urlChar c = true) ∧ ¬ BadEscape e ∧
      ∀ more, uUrlncpy (e ++ more) e.length .decode = some (.done (s ++ [0]) s.length) := by
  have hdec := uUrlncpyDecode_encode s
  have hlen := uUrlncpyEncode_length s
  refine ⟨uUrlncpyEncode s,
    ?_, by omega, fun c hc => mem_uUrlncpyEncode hc, ?_, decode_whole hsize hdec⟩
  · exact uUrlncpy_encode (lt_of_le_of_lt (length_le_encode s) hsize)
  · intro hbad
    rw [badEscape_iff.mp hbad] at hdec
    cases hdec

theorem urlncpy_round_trip_percent : ∃ e : Str,
    (∀ more, uUrlncpy ([37, 0, 97, 255] ++ more) 4 .encode = some (.done (e ++ [0]) e.length)) ∧
      e.length ≤ 12 ∧ (∀ c ∈ e, urlChar c = true) ∧ ¬ BadEscape e ∧
      ∀ more, uUrlncpy (e ++ more) e.length .decode = some (.done [37, 0, 97, 255, 0] 4) :=
  urlncpy_round_trip [37, 0, 97, 255] (by decide)

end Klone
