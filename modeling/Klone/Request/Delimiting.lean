import Klone.Lib.FirstMatch
import Klone.Request.ReadUntil

/-! # Delimiting a part by repeated reads

A caller that wants all the bytes before a delimiter calls `read_until` again and again
until it reports the delimiter. A call returns without it only where the bytes read do
not end half-way through the delimiter, so no call misses a delimiter that starts in
the bytes of an earlier one.
-/
namespace Klone.Multipart
open Loop Matcher

/-- The delimiter of the parts of a multipart body with a given boundary. -/
def delimiter (boundary : Str) : Str := bytes "\r\n--" ++ boundary

structure Calls where
  src : Source
  calls : List Scan
  deriving DecidableEq, Repr

/-- One more call, until the delimiter is found or there is nothing more to read. -/
def callsBody (stopAt : Str) (size : ℕ) (s : Calls) : Option (Iter Calls Calls) :=
  let r := readUntil s.src stopAt size
  let t : Calls := ⟨r.2.src, s.calls ++ [r.2]⟩
  match r.1 with
  | none => some (.leave t)
  | some 0 => some (.leave t)
  | some _ => if r.2.found then some (.leave t) else some (.again t)

def readCalls (stopAt : Str) (size : ℕ) (src : Source) : Option Calls :=
  run (callsBody stopAt size) (src.bytes.length + 1) ⟨src, []⟩

def Calls.chunks (s : Calls) : List (List Byte) := s.calls.map Scan.dst

/-- What one call does with a stream: it ends behind the first delimiter, or where none
has begun, or with the stream. -/
inductive Returns (stopAt : Str) (s : List Byte) (k : ℕ) (found : Bool) : Prop where
  | delimited (pre : List Byte) (hpre : pre ++ stopAt = s.take k)
    (hfirst : FirstAt stopAt s pre (s.drop k))
      (hfound : found = true)
  | between (hpos : 0 < k) (hno : ¬ Partial stopAt (s.take k)) (habsent : ¬ stopAt <:+: s.take k)
      (hfound : found = false)
  | ended (hk : k = s.length) (habsent : ¬ stopAt <:+: s) (hfound : found = false)

section
variable {a : Byte} {d : Str} (ha : a ∉ d) {src : Source} {size k : ℕ}
include ha

/-- At a loop head the matcher has not completed the delimiter on what comes before. -/
theorem visits_before (hv : Visits (a :: d) src size k) :
    ∀ j, j < (src.bytes.take k).length →
    state (a :: d) ((src.bytes.take k).take j) < (a :: d).length := by
  intro j hj
  rw [List.length_take] at hj
  rw [List.take_take, Nat.min_eq_left (by omega)]
  exact hv.state_lt ha j (by omega)

theorem returns_delimited (hv : Visits (a :: d) src size k) (hpos : 0 < k)
    (hfull : state (a :: d) (src.bytes.take k) = (a :: d).length) (found : Bool)
    (hfound : found = true) :
    Returns (a :: d) src.bytes k found := by
  obtain ⟨pre, hpre⟩ := (state_full_iff ha (visits_before ha hv)).mp hfull
  refine .delimited pre hpre ⟨by rw [hpre, List.take_append_drop], ?_⟩ hfound
  have hdrop : pre ++ (a :: d).dropLast = src.bytes.take (k - 1) := by
    rw [← List.dropLast_append_of_ne_nil (List.cons_ne_nil a d), hpre, List.dropLast_eq_take,
      List.take_take,
      List.length_take, Nat.min_eq_left hv.1, Nat.min_eq_left (Nat.sub_le k 1)]
  rw [hdrop, not_infix_iff ha]
  intro j hj
  rw [List.length_take] at hj
  rw [List.take_take, Nat.min_eq_left (by omega)]
  exact hv.state_lt ha j (by omega)

/-- Without the delimiter so far, it is absent from what has been read. -/
theorem absent_of_state (hv : Visits (a :: d) src size k)
    (hlt : state (a :: d) (src.bytes.take k) < (a :: d).length) :
    ¬ (a :: d) <:+: src.bytes.take k := by
  rw [not_infix_iff ha]
  intro j hj
  rcases Nat.lt_or_eq_of_le hj with hj | rfl
  · exact visits_before ha hv j hj
  · rwa [List.take_length]

theorem state_lt_of_not_found (hv : Visits (a :: d) src size k)
    (hfound : (scanAt (a :: d) src size k).found = false) :
    state (a :: d) (src.bytes.take k) < (a :: d).length := by
  rcases Nat.eq_zero_or_pos k with rfl | hpos
  · simp
  · have hne : state (a :: d) (src.bytes.take k) ≠ (a :: d).length := fun he => by
      simp [scanAt, hpos, he] at hfound
    exact lt_of_le_of_ne (tracks_state ha _ (visits_before ha hv)).1 hne

/-- One call on a stream without errors, with room for more than the delimiter. -/
theorem readUntil_returns (s : List Byte) (rtot : ℕ) (hsize : (a :: d).length + 1 ≤ size) :
    ∃ k sc, readUntil ⟨s, false, rtot⟩ (a :: d) size = (some k, sc) ∧ k ≤ s.length ∧
    sc.dst = s.take k ∧
      sc.src = ⟨s.drop k, false, rtot + k⟩ ∧ Returns (a :: d) s k sc.found := by
  obtain ⟨k, hv, hcase⟩ := readUntil_spec ha ⟨s, false, rtot⟩ (show (a :: d).length ≤ size by omega)
  refine ⟨k, scanAt (a :: d) ⟨s, false, rtot⟩ size k, ?_, hv.1, rfl, rfl, ?_⟩
  · rcases hcase with ⟨h, -⟩ | ⟨h, -⟩
    · exact h
    · exact h
  by_cases hfound : (scanAt (a :: d) ⟨s, false, rtot⟩ size k).found = true
  · obtain ⟨hpos, hfull⟩ := of_decide_eq_true hfound
    exact returns_delimited ha hv hpos hfull _ hfound
  · have hfound := Bool.eq_false_of_not_eq_true hfound
    have hlt := state_lt_of_not_found ha hv hfound
    have habsent := absent_of_state ha hv hlt
    rcases hcase with ⟨-, hstop⟩ | ⟨-, -, hend⟩
    · rcases hstop with hf | ⟨hptr, hroom⟩
      · rw [hfound] at hf
        exact absurd hf Bool.false_ne_true
      · have hpos : 0 < k := by
          by_contra hz
          obtain rfl : k = 0 := by omega
          change size < (a :: d).length + 1 at hroom
          omega
        refine .between hpos (fun hpart => ?_) habsent hfound
        have hpos := (state_pos_iff ha (visits_before ha hv)).mpr hpart
        exact hpos.ne' hptr
    · refine .ended hend ?_ hfound
      rwa [hend, List.take_length] at habsent

/-- The calls that follow on a stream, after those in `calls`. -/
theorem readCalls_run (s : List Byte) (rtot : ℕ) (hsize : (a :: d).length + 1 ≤ size)
    (calls : List Scan) {fuel : ℕ} (hfuel : s.length < fuel) :
    ∃ r, run (callsBody (a :: d) size) fuel ⟨⟨s, false, rtot⟩, calls⟩ = some r ∧
      ((∃ pre post front last, FirstAt (a :: d) s pre post ∧ r.calls = calls ++ front ++ [last] ∧
          (∀ sc ∈ front, sc.found = false) ∧ last.found = true ∧ (a :: d).length ≤ last.dst.length ∧
          ((front ++ [last]).map Scan.dst).flatten = pre ++ (a :: d) ∧
          r.src = ⟨post, false, rtot + (pre ++ (a :: d)).length⟩) ∨
        ∃ more, ¬ (a :: d) <:+: s ∧ r.calls = calls ++ more ∧ (∀ sc ∈ more, sc.found = false) ∧
          (more.map Scan.dst).flatten = s) := by
  induction fuel generalizing s rtot calls with
  | zero => omega
  | succ fuel ih =>
    obtain ⟨k, sc, hcall, hk, hdst, hsrc, hreturns⟩ := readUntil_returns ha s rtot hsize
    have hlen : sc.dst.length = k := by rw [hdst, List.length_take, Nat.min_eq_left hk]
    cases hreturns with
    | delimited pre hpre hfirst hfound =>
      have hbody : callsBody (a :: d) size ⟨⟨s, false, rtot⟩, calls⟩ =
          some (.leave ⟨sc.src, calls ++ [sc]⟩) := by
        simp only [callsBody, hcall, hfound, if_true]
        split <;> rfl
      have hpos : (pre ++ (a :: d)).length = k := by rw [hpre, List.length_take, Nat.min_eq_left hk]
      refine ⟨_, run_leave hbody fuel,
        Or.inl ⟨pre, s.drop k, [], sc, hfirst, by simp, by simp, hfound, ?_, ?_, ?_⟩⟩
      · rw [List.length_append] at hpos
        omega
      · simp [hdst, hpre]
      · rw [hsrc, hpos]
    | between hpos hno habsent hfound =>
      obtain ⟨k, rfl⟩ : ∃ j, k = j + 1 := ⟨k - 1, by omega⟩
      have hbody : callsBody (a :: d) size ⟨⟨s, false, rtot⟩, calls⟩ =
          some (.again ⟨sc.src, calls ++ [sc]⟩) := by
        simp [callsBody, hcall, hfound]
      have hcut : s.take (k + 1) ++ s.drop (k + 1) = s := List.take_append_drop _ _
      have hrest := ih (s.drop (k + 1)) (rtot + (k + 1)) (calls ++ [sc])
        (by rw [List.length_drop]; omega)
      obtain ⟨r, hr, hcases⟩ := hrest
      refine ⟨r, by rw [run_again hbody, hsrc, hr], ?_⟩
      rcases hcases with ⟨pre, post, front, last, hfirst, hcalls, hfront, hlast, hle, hflat, hend⟩ |
        ⟨more, hnot, hcalls, hmore, hflat⟩
      · have hbehind := hfirst.behind hno habsent
        rw [hcut] at hbehind
        refine Or.inl ⟨_, post, sc :: front, last,
          hbehind, by simp [hcalls], ?_, hlast, hle, ?_, ?_⟩
        · simpa [hfound] using hfront
        · simpa [hdst] using hflat
        · rw [hend]
          simp only [List.length_append, List.length_take, Nat.min_eq_left hk,
            Source.mk.injEq, true_and]
          omega
      · refine Or.inr ⟨sc :: more, ?_, by simp [hcalls], ?_, ?_⟩
        · rwa [← hcut, infix_behind hno habsent]
        · simpa [hfound] using hmore
        · simp [hdst, hflat]
    | ended hend habsent hfound =>
      have hall : s.take k = s := by rw [hend, List.take_length]
      rcases Nat.eq_zero_or_pos k with rfl | hpos
      · have hbody : callsBody (a :: d) size ⟨⟨s, false, rtot⟩, calls⟩ =
          some (.leave ⟨sc.src, calls ++ [sc]⟩) := by
          simp [callsBody, hcall]
        refine ⟨_, run_leave hbody fuel, Or.inr ⟨[sc], habsent, rfl, by simp [hfound], ?_⟩⟩
        simp [hdst, hall]
      · obtain ⟨k, rfl⟩ : ∃ j, k = j + 1 := ⟨k - 1, by omega⟩
        have hbody : callsBody (a :: d) size ⟨⟨s, false, rtot⟩, calls⟩ =
            some (.again ⟨sc.src, calls ++ [sc]⟩) := by
          simp [callsBody, hcall, hfound]
        have hrest := ih (s.drop (k + 1)) (rtot + (k + 1)) (calls ++ [sc])
          (by rw [List.length_drop]; omega)
        obtain ⟨r, hr, hcases⟩ := hrest
        refine ⟨r, by rw [run_again hbody, hsrc, hr], ?_⟩
        have hnil : s.drop (k + 1) = [] := by rw [hend, List.drop_length]
        rcases hcases with ⟨pre, post, front, last, hfirst, -⟩ | ⟨more, -, hcalls, hmore, hflat⟩
        · have hocc := hfirst.occurs
          rw [hnil] at hocc
          exact absurd (List.infix_nil.mp hocc) (List.cons_ne_nil a d)
        · refine Or.inr ⟨sc :: more, habsent, by simp [hcalls], ?_, ?_⟩
          · simpa [hfound] using hmore
          · simp [hdst, hflat]

end

theorem delimiter_cons (boundary : Str) : delimiter boundary = 13 :: (bytes "\n--" ++ boundary) := rfl

theorem cr_not_mem_delimiter_tail {boundary : Str} (hb : 13 ∉ boundary) :
    (13 : Byte) ∉ bytes "\n--" ++ boundary := by
  intro h
  rcases List.mem_append.mp h with h | h
  · exact absurd h (by decide)
  · exact hb h

/-- The calls up to the delimiter return exactly the bytes before its first occurrence
and the delimiter, whatever the stream; without a delimiter they return the stream. -/
theorem read_until_delimits (boundary : Str) (hb : 13 ∉ boundary) (s : List Byte) (rtot size : ℕ)
    (hsize : (delimiter boundary).length + 1 ≤ size) :
    ∃ r, readCalls (delimiter boundary) size ⟨s, false, rtot⟩ = some r ∧
      (delimiter boundary <:+: s → ∃ pre post front last, FirstAt (delimiter boundary) s pre post ∧
        r.calls = front ++ [last] ∧ (∀ sc ∈ front, sc.found = false) ∧ last.found = true ∧
        (delimiter boundary).length ≤ last.dst.length ∧
        r.chunks.flatten = pre ++ delimiter boundary ∧
        r.src = ⟨post, false, rtot + (pre ++ delimiter boundary).length⟩) ∧
      (¬ delimiter boundary <:+: s → (∀ sc ∈ r.calls, sc.found = false) ∧
        r.chunks.flatten = s) := by
  have ha := cr_not_mem_delimiter_tail hb
  rw [delimiter_cons] at hsize ⊢
  obtain ⟨r, hr, hcases⟩ := readCalls_run ha s rtot hsize [] (Nat.lt_succ_self s.length)
  refine ⟨r, hr, ?_⟩
  rcases hcases with ⟨pre, post, front, last, hfirst, hcalls, hfront, hlast, hle, hflat, hend⟩ |
    ⟨more, hnot, hcalls, hmore, hflat⟩
  · rw [List.nil_append] at hcalls
    refine ⟨fun _ => ⟨pre, post, front, last, hfirst, hcalls, hfront, hlast, hle, ?_, hend⟩,
      fun hno => ?_⟩
    · rw [Calls.chunks, hcalls, hflat]
    · exact absurd hfirst.occurs hno
  · rw [List.nil_append] at hcalls
    refine ⟨fun hocc => absurd hocc hnot, fun _ => ⟨by rwa [hcalls], ?_⟩⟩
    rw [Calls.chunks, hcalls, hflat]

/-- A stream of near-delimiters, read through a buffer of seven bytes. -/
theorem read_until_delimits_near :
    ∃ r, readCalls (delimiter (bytes "b")) 7 ⟨bytes "x\r\r\n-\r\n--b--", false, 0⟩ = some r ∧
      (delimiter (bytes "b") <:+: bytes "x\r\r\n-\r\n--b--" → ∃ pre post front last,
        FirstAt (delimiter (bytes "b")) (bytes "x\r\r\n-\r\n--b--") pre post ∧
        r.calls = front ++ [last] ∧ (∀ sc ∈ front, sc.found = false) ∧ last.found = true ∧
        (delimiter (bytes "b")).length ≤ last.dst.length ∧
        r.chunks.flatten = pre ++ delimiter (bytes "b") ∧
        r.src = ⟨post, false, 0 + (pre ++ delimiter (bytes "b")).length⟩) ∧
      (¬ delimiter (bytes "b") <:+: bytes "x\r\r\n-\r\n--b--" → (∀ sc ∈ r.calls, sc.found = false) ∧
        r.chunks.flatten = bytes "x\r\r\n-\r\n--b--") :=
  read_until_delimits (bytes "b") (by decide) (bytes "x\r\r\n-\r\n--b--") 0 7 (by decide)

end Klone.Multipart
