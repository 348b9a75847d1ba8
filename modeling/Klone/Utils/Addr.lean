import Klone.Lib.Scanf
import Klone.Response.Fields

/-! # Addresses with a port

The text that holds an address and a port, and the two functions that take it apart. The
formatter tells the families apart by one byte.
-/
namespace Klone.Addr
open Klone.Page (decimal mem_decimal_natCast)
open Klone.Scanf (isdigit)

def uAddrGetIp (a : Str) (dlen : ℕ) : Option Str :=
  if dlen = 0 then none
  else match a with
    | 47 :: _ => some (strlcpy a dlen).2
    | 91 :: b => if 93 ∈ b then some (strlcpy b (min (b.idxOf 93 + 1) dlen)).2 else none
    | _ => if 58 ∈ a then some (strlcpy a (min (a.idxOf 58 + 1) dlen)).2 else none

/-- The scan from the end for the separator; it stops at the start. -/
def scanBack (a : Str) : ℕ → ℕ
  | 0 => 0
  | p + 1 => if a.getD (p + 1) 0 = 58 then p + 1 else scanBack a p

def uAddrGetPort (a : Str) (dlen : ℕ) : Option Str :=
  if dlen = 0 then none
  else if a.head? = some 47 then some []
  else
    let p := scanBack a a.length
    some (strlcpy (if 0 < p then a.drop (p + 1) else []) dlen).2

def uAddrFmt (ip port : Option Str) (dlen : ℕ) : Option Str :=
  if dlen = 0 then none
  else match ip with
    | none => some []
    | some [] => some []
    | some (47 :: path) => some (strlcpy (47 :: path) dlen).2
    | some ip =>
      let isv6 := decide (46 ∉ ip)
      some (strlcpy ((if isv6 then bytes "[" else []) ++ ip ++ (if isv6 then bytes "]" else []) ++
        bytes ":" ++
        port.getD (bytes "0")) dlen).2

/-! ## Textual addresses -/

def isxdigit (c : Byte) : Bool := (48 ≤ c && c ≤ 57) || (65 ≤ c && c ≤ 70) || (97 ≤ c && c ≤ 102)

def IsOctet (s : Str) : Prop := ∃ n < 256, s = decimal (n : ℕ)

def IsIpv4 (s : Str) : Prop :=
  ∃ a b c d, IsOctet a ∧ IsOctet b ∧ IsOctet c ∧ IsOctet d ∧
    s = a ++ 46 :: (b ++ 46 :: (c ++ 46 :: d))

def IsGroup (g : Str) : Prop := g ≠ [] ∧ g.length ≤ 4 ∧ ∀ c ∈ g, isxdigit c = true

/-- The parts between colons, and the number of groups that they stand for; the last part
may be an IPv4 address. -/
inductive Pieces : List Str → ℕ → Prop
  | nil : Pieces [] 0
  | group {g : Str} {ps : List Str} {n : ℕ} (hg : IsGroup g) (h : Pieces ps n) :
    Pieces (g :: ps) (n + 1)
  | dotted {s : Str} (hs : IsIpv4 s) : Pieces [s] 2

def colons (ps : List Str) : Str := [58].intercalate ps

/-- Eight groups, or fewer with two colons for groups of zeros. -/
inductive IsIpv6 : Str → Prop
  | full {ps : List Str} (h : Pieces ps 8) : IsIpv6 (colons ps)
  | compressed {ls rs : List Str} {n : ℕ} (hl : ∀ g ∈ ls, IsGroup g) (hr : Pieces rs n)
    (hn : ls.length + n < 8) :
      IsIpv6 (colons ls ++ 58 :: 58 :: colons rs)

def IsAddress (s : Str) : Prop := IsIpv4 s ∨ IsIpv6 s

def addressByte (c : Byte) : Bool := isxdigit c || c == 46 || c == 58

def dottedByte (c : Byte) : Bool := isxdigit c || c == 46

theorem isxdigit_dottedByte {c : Byte} (h : isxdigit c = true) :
    dottedByte c = true := by simp [dottedByte, h]

theorem dottedByte_addressByte {c : Byte} (h : dottedByte c = true) : addressByte c = true := by
  unfold addressByte
  unfold dottedByte at h
  rw [h, Bool.true_or]

theorem IsOctet.all_dottedByte {s : Str} (h : IsOctet s) : ∀ c ∈ s, dottedByte c = true := by
  obtain ⟨n, -, rfl⟩ := h
  intro c hc
  obtain ⟨hlow, hhigh⟩ := mem_decimal_natCast hc
  simp [Addr.dottedByte, isxdigit, hlow, hhigh]

theorem IsIpv4.all_dottedByte {s : Str} (h : IsIpv4 s) : ∀ x ∈ s, dottedByte x = true := by
  obtain ⟨a, b, c, d, ha, hb, hc, hd, rfl⟩ := h
  intro x hx
  simp only [List.mem_append, List.mem_cons] at hx
  rcases hx with hx | rfl | hx | rfl | hx | rfl | hx
  · exact ha.all_dottedByte x hx
  · decide
  · exact hb.all_dottedByte x hx
  · decide
  · exact hc.all_dottedByte x hx
  · decide
  · exact hd.all_dottedByte x hx

theorem IsIpv4.dot_mem {s : Str} (h : IsIpv4 s) : 46 ∈ s := by
  obtain ⟨a, b, c, d, -, -, -, -, rfl⟩ := h
  simp

theorem colons_addressByte {ps : List Str} (h : ∀ p ∈ ps, ∀ c ∈ p, addressByte c = true) :
    ∀ c ∈ colons ps, addressByte c = true := by
  induction ps with
  | nil => simp [colons]
  | cons p ps ih =>
    have hp := h p List.mem_cons_self
    cases ps with
    | nil => simpa [colons] using hp
    | cons q ps =>
      have hrest := ih fun r hr => h r (List.mem_cons_of_mem p hr)
      intro c hc
      rw [colons, List.intercalate_cons_cons, List.append_assoc, List.mem_append,
        List.mem_append] at hc
      rcases hc with hc | hc | hc
      · exact hp c hc
      · rw [List.mem_singleton.mp hc]
        decide
      · exact hrest c hc

theorem Pieces.all_addressByte {ps : List Str} {n : ℕ} (h : Pieces ps n) :
    ∀ p ∈ ps, ∀ c ∈ p, addressByte c = true := by
  induction h with
  | nil => simp
  | group hg _ ih =>
    intro p hp
    rcases List.mem_cons.mp hp with rfl | hp
    · exact fun c hc => dottedByte_addressByte (isxdigit_dottedByte (hg.2.2 c hc))
    · exact ih p hp
  | dotted hs =>
    intro p hp c hc
    rw [List.mem_singleton] at hp
    subst hp
    exact dottedByte_addressByte (hs.all_dottedByte c hc)

theorem colon_mem_colons (p q : Str) (ps : List Str) : 58 ∈ colons (p :: q :: ps) := by
  simp [colons, List.intercalate]

theorem IsIpv6.colon_mem {s : Str} (h : IsIpv6 s) : 58 ∈ s := by
  cases h with
  | full h =>
    cases h with
    | group _ h =>
      cases h with
      | group _ _ => exact colon_mem_colons _ _ _
  | compressed _ _ _ => simp

theorem IsIpv6.all_addressByte {s : Str} (h : IsIpv6 s) : ∀ c ∈ s, addressByte c = true := by
  cases h with
  | full h => exact colons_addressByte h.all_addressByte
  | compressed hl hr _ =>
    intro c hc
    simp only [List.mem_append, List.mem_cons] at hc
    rcases hc with hc | rfl | rfl | hc
    · exact colons_addressByte
        (fun g hg x hx => dottedByte_addressByte (isxdigit_dottedByte ((hl g hg).2.2 x hx))) c hc
    · decide
    · decide
    · exact colons_addressByte hr.all_addressByte c hc

theorem IsAddress.all_addressByte {s : Str} (h : IsAddress s) : ∀ c ∈ s, addressByte c = true := by
  rcases h with h | h
  · exact fun c hc => dottedByte_addressByte (h.all_dottedByte c hc)
  · exact h.all_addressByte

/-- An address without a dot has a colon. -/
theorem IsAddress.colon_mem {s : Str} (h : IsAddress s) (hdot : 46 ∉ s) : 58 ∈ s := by
  rcases h with h | h
  · exact absurd h.dot_mem hdot
  · exact h.colon_mem

/-! ## The way back -/

/-- The scan stops at the last separator. -/
theorem scanBack_append {u port : Str} (hu : u ≠ []) (hport : 58 ∉ port) :
    scanBack (u ++ 58 :: port) (u ++ 58 :: port).length = u.length := by
  have hstep : ∀ k, k ≤ port.length + 1 → scanBack (u ++ 58 :: port) (u.length + k) = u.length := by
    intro k
    induction k with
    | zero =>
      intro _
      obtain ⟨n, hn⟩ := Nat.exists_eq_succ_of_ne_zero (mt List.length_eq_zero_iff.mp hu)
      have hat : (u ++ 58 :: port).getD (n + 1) 0 = 58 := by
        rw [List.getD_append_right _ _ _ _ (by omega)]
        simp [hn]
      rw [Nat.add_zero, hn, scanBack, if_pos hat]
    | succ k ih =>
      intro hk
      have hat : (u ++ 58 :: port).getD (u.length + k + 1) 0 ≠ 58 := by
        rw [List.getD_append_right _ _ _ _ (by omega),
          show u.length + k + 1 - u.length = k + 1 by omega,
          List.getD_cons_succ]
        intro h58
        rcases Nat.lt_or_ge k port.length with hlt | hge
        · rw [List.getD_eq_getElem _ _ hlt] at h58
          exact hport (h58 ▸ List.getElem_mem hlt)
        · rw [List.getD_eq_default _ _ hge] at h58
          exact absurd h58 (by decide)
      rw [← Nat.add_assoc, scanBack, if_neg hat]
      exact ih (by omega)
  have := hstep (port.length + 1) le_rfl
  simpa using this

section
variable {ip port : Str} {dlen : ℕ}

theorem strlcpy_fits {s : Str} (h : s.length < dlen) : (strlcpy s dlen).2 = s := by
  simp only [strlcpy]
  exact List.take_of_length_le (by omega)

/-- The port is found behind whatever holds the address. -/
theorem getPort_append {u : Str} (hu : u ≠ []) (hpath : u.head? ≠ some 47) (hport : 58 ∉ port)
    (hd : port.length < dlen) :
    uAddrGetPort (u ++ 58 :: port) dlen = some port := by
  have hhead : (u ++ 58 :: port).head? = u.head? := by
    rw [List.head?_append_of_ne_nil _ hu]
  have hdrop : (u ++ 58 :: port).drop (u.length + 1) = port := by simp [List.drop_append]
  unfold uAddrGetPort
  rw [if_neg (by omega), hhead, if_neg hpath, scanBack_append hu hport]
  dsimp only
  rw [if_pos (List.length_pos_iff.mpr hu), hdrop, strlcpy_fits hd]

/-- An address in brackets. -/
theorem getIp_bracket (rest : Str) (hip : 93 ∉ ip) (hd : ip.length < dlen) :
    uAddrGetIp (91 :: (ip ++ 93 :: rest)) dlen = some ip := by
  have hidx : (ip ++ 93 :: rest).idxOf 93 = ip.length := by
    rw [List.idxOf_append_of_notMem hip, List.idxOf_cons_self, Nat.add_zero]
  unfold uAddrGetIp
  rw [if_neg (by omega)]
  show (if 93 ∈ ip ++ 93 :: rest then some _ else none) = some ip
  rw [if_pos (by simp), hidx, Nat.min_eq_left hd]
  simp [strlcpy]

theorem take_idxOf (s : Str) (x : Byte) :
    s.take (s.idxOf x) = s.takeWhile fun c => decide (c ≠ x) := by
  induction s with
  | nil => rfl
  | cons c s ih =>
    rw [List.idxOf_cons, List.takeWhile_cons]
    by_cases hc : c = x
    · simp [hc]
    · have hb : (c == x) = false := beq_eq_false_iff_ne.mpr hc
      simpa [hb, hc] using ih

/-- Without brackets the address ends at its first colon. -/
theorem getIp_bare (hne : ip ≠ []) (hpath : ip.head? ≠ some 47) (hbracket : ip.head? ≠ some 91)
    (hd : ip.length < dlen) (rest : Str) :
    uAddrGetIp (ip ++ 58 :: rest) dlen = some (ip.takeWhile fun c => decide (c ≠ 58)) := by
  have hidx : (ip ++ 58 :: rest).idxOf 58 ≤ ip.length := by
    rw [List.idxOf_append]
    split
    · exact List.idxOf_le_length
    · simp
  have htake : (ip ++ 58 :: rest).takeWhile (fun c => decide (c ≠ 58)) = ip.takeWhile fun c =>
      decide (c ≠ 58) := by
    rw [List.takeWhile_append]
    split
    · next hlen =>
      rw [(List.takeWhile_prefix _).eq_of_length hlen]
      simp
    · rfl
  have hcopy : (strlcpy (ip ++ 58 :: rest) (min ((ip ++ 58 :: rest).idxOf 58 + 1) dlen)).2 =
      ip.takeWhile fun c => decide (c ≠ 58) := by
    simp only [strlcpy]
    rw [Nat.min_eq_left (by omega), Nat.add_sub_cancel, take_idxOf, htake]
  obtain ⟨c, s, rfl⟩ := List.exists_cons_of_ne_nil hne
  unfold uAddrGetIp
  rw [if_neg (by omega), List.cons_append]
  split
  · next heq => exact absurd (congrArg some (List.cons.inj heq).1) hpath
  · next heq => exact absurd (congrArg some (List.cons.inj heq).1) hbracket
  · rw [if_pos (by simp), ← List.cons_append, hcopy]

theorem IsAddress.ends (h : IsAddress ip) :
    ip ≠ [] ∧ 93 ∉ ip ∧ ip.head? ≠ some 47 ∧ ip.head? ≠ some 91 := by
  have hbytes := h.all_addressByte
  have hnot : ∀ x : Byte, addressByte x = false → x ∉ ip := by
    intro x hx hmem
    exact absurd (hbytes x hmem) (by rw [hx]; exact Bool.false_ne_true)
  refine ⟨?_, hnot 93 (by decide), ?_, ?_⟩
  · rintro rfl
    exact absurd (h.colon_mem (by simp)) (by simp)
  · exact fun hhead => hnot 47 (by decide) (List.mem_of_head? hhead)
  · exact fun hhead => hnot 91 (by decide) (List.mem_of_head? hhead)

/-- The text of an address with a port. -/
theorem uAddrFmt_eq (h : IsAddress ip) (hd : ip.length + port.length + 3 < dlen) :
    uAddrFmt (some ip) (some port) dlen =
      some (if 46 ∈ ip then ip ++ 58 :: port else (91 :: (ip ++ [93])) ++ 58 :: port) := by
  obtain ⟨hne, -, hpath, -⟩ := h.ends
  obtain ⟨c, s, rfl⟩ := List.exists_cons_of_ne_nil hne
  rw [List.length_cons] at hd
  unfold uAddrFmt
  rw [if_neg (by omega)]
  split
  · next heq => cases heq
  · next heq => cases heq
  · next heq => exact absurd (congrArg some (List.cons.inj (Option.some.inj heq)).1) hpath
  · next heq =>
    cases heq
    dsimp only
    have hcolon : bytes ":" = [58] := rfl
    have hopen : bytes "[" = [91] := rfl
    have hclose : bytes "]" = [93] := rfl
    by_cases hdot : 46 ∈ c :: s
    · rw [strlcpy_fits (by simp [hdot, hcolon]; omega)]
      simp [hdot, hcolon]
    · rw [strlcpy_fits (by simp [hdot, hcolon, hopen, hclose]; omega)]
      simp [hdot, hcolon, hopen, hclose]

def RoundTrip (ip port : Str) (d₁ d₂ d₃ : ℕ) : Prop :=
  ∃ a, uAddrFmt (some ip) (some port) d₁ = some a ∧ uAddrGetIp a d₂ = some ip ∧
    uAddrGetPort a d₃ = some port

/-- The address and the port are got back unless the address has a dot and a colon. -/
theorem addr_round_trip_iff (hip : IsAddress ip) (hport : ∀ c ∈ port, isdigit c = true)
    {d₁ d₂ d₃ : ℕ} (h₁ : ip.length + port.length + 3 < d₁) (h₂ : ip.length < d₂)
    (h₃ : port.length < d₃) :
    RoundTrip ip port d₁ d₂ d₃ ↔ ¬ (46 ∈ ip ∧ 58 ∈ ip) := by
  obtain ⟨hne, hclose, hpath, hopen⟩ := hip.ends
  have hcolon : 58 ∉ port := by
    intro h
    exact absurd (hport 58 h) (by decide)
  have hfmt := uAddrFmt_eq hip h₁
  by_cases hdot : 46 ∈ ip
  · rw [if_pos hdot] at hfmt
    have hget := getIp_bare hne hpath hopen h₂ port
    constructor
    · rintro ⟨a, ha, hback, -⟩ ⟨-, hmem⟩
      rw [hfmt] at ha
      cases ha
      rw [hget, Option.some.injEq] at hback
      exact all_ne_iff.mp (List.takeWhile_eq_self_iff.mp hback) hmem
    · intro hnot
      have hmem : 58 ∉ ip := fun h => hnot ⟨hdot, h⟩
      rw [List.takeWhile_eq_self_iff.mpr (all_ne_iff.mpr hmem)] at hget
      exact ⟨_, hfmt, hget, getPort_append hne hpath hcolon h₃⟩
  · rw [if_neg hdot] at hfmt
    have hget : uAddrGetIp (91 :: (ip ++ [93]) ++ 58 :: port) d₂ = some ip := by
      have h := getIp_bracket (58 :: port) hclose h₂
      simpa using h
    constructor
    · exact fun _ h => hdot h.1
    · exact fun _ => ⟨_, hfmt, hget, getPort_append (List.cons_ne_nil _ _) (by simp) hcolon h₃⟩

theorem isAddress_loopback : IsAddress (bytes "127.0.0.1") :=
  Or.inl ⟨bytes "127", bytes "0", bytes "0", bytes "1", ⟨127, by decide, by decide⟩,
    ⟨0, by decide, by decide⟩,
    ⟨0, by decide, by decide⟩, ⟨1, by decide, by decide⟩, by decide⟩

theorem addr_round_trip_loopback :
    RoundTrip (bytes "127.0.0.1") (bytes "80") 64 64 64 ↔
    ¬ (46 ∈ bytes "127.0.0.1" ∧ 58 ∈ bytes "127.0.0.1") :=
  addr_round_trip_iff isAddress_loopback (by decide +kernel) (by decide) (by decide) (by decide)

/-- The text of `::ffff:1.2.3.4` with a port begins with a colon, so the address is empty. -/
theorem mapped_addr_lost :
    IsAddress (bytes "::ffff:1.2.3.4") ∧
    uAddrFmt (some (bytes "::ffff:1.2.3.4")) (some (bytes "80")) 64 =
      some (bytes "::ffff:1.2.3.4:80") ∧ uAddrGetIp (bytes "::ffff:1.2.3.4:80") 64 = some [] ∧
        ¬ RoundTrip (bytes "::ffff:1.2.3.4") (bytes "80") 64 64 64 := by
  have hfmt : uAddrFmt (some (bytes "::ffff:1.2.3.4")) (some (bytes "80")) 64 =
      some (bytes "::ffff:1.2.3.4:80") := by
    decide +kernel
  have hget : uAddrGetIp (bytes "::ffff:1.2.3.4:80") 64 = some [] := by decide +kernel
  have hoctet : ∀ n < 256, IsOctet (decimal (n : ℕ)) := fun n hn => ⟨n, hn, rfl⟩
  have hdotted : IsIpv4 (bytes "1.2.3.4") :=
    ⟨decimal 1, decimal 2, decimal 3, decimal 4, hoctet 1 (by decide), hoctet 2 (by decide),
      hoctet 3 (by decide),
      hoctet 4 (by decide), by decide +kernel⟩
  have hgroup : IsGroup (bytes "ffff") := ⟨by decide, by decide, by decide +kernel⟩
  have hv6 : IsIpv6 (colons [] ++ 58 :: 58 :: colons [bytes "ffff", bytes "1.2.3.4"]) :=
    .compressed (by simp) (.group hgroup (.dotted hdotted)) (by decide)
  refine ⟨Or.inr hv6, hfmt, hget, ?_⟩
  rintro ⟨a, ha, hback, -⟩
  rw [hfmt] at ha
  cases ha
  rw [hget] at hback
  exact absurd hback (by decide)

end

end Klone.Addr
