import Klone.Lib.TextLines
import Klone.Response.Fields
import Klone.Trans.Preprocess

/-! # The lines that point back to the generated file

The last pass over a generated file replaces the placeholder lines by the number of the
line behind them. It counts what it copies, piece by piece, and not what it writes.
-/
namespace Klone.Trans
open TextLines Klone.Page

def placeholder : Str := bytes "#line 0 __PG_FILE_C__"

/-- The bytes that `io_gets` can put into the buffer of `fix_line_decl`. -/
def FIX_BUFSZ : ℕ := 1023

inductive Write where
  | copy (s : Str)
  | decl (n : ℕ)

def Write.text (fileOut : Str) : Write → Str
  | .copy s => s
  | .decl n => bytes "#line " ++ decimal n ++ bytes " \"" ++ fileOut ++ bytes "\"\n"

structure Turn where
  read : Str
  wrote : Write

/-- `strstr` and `%s` see the buffer up to its first NUL. -/
def fixWrite (ln : ℕ) (buf : Str) : Write :=
  if placeholder <:+: cstr buf then .decl (ln + 2) else .copy (cstr buf)

def Write.count (ln : ℕ) : Write → ℕ
  | .copy _ => ln + 1
  | .decl _ => ln

/-- The loop over the lines, of which there are fewer than `2 ^ 31`: `ln` is an `int`. -/
def fixLoop : ℕ → List Str → List Turn
  | _, [] => []
  | ln, buf :: bufs => ⟨buf, fixWrite ln buf⟩ :: fixLoop ((fixWrite ln buf).count ln) bufs

/-- The turns of `fix_line_decl`; the lines are read into a buffer of `LINE_BUFSZ` bytes. -/
def fixLineDecl (content : Str) : List Turn :=
  fixLoop 0 (getLines content.length ⟨content, false, 0⟩)

def lineBehind (text : Str) : ℕ := text.count 10 + 1

/-- The lines of a file have been fixed, behind the text `out` of the new file: a
placeholder line is read whole and replaced by the number of the line that follows, and
what is written for any other line is the line. -/
inductive Fixed (fileOut : Str) : Str → List Str → List Turn → Prop
  | nil (out : Str) : Fixed fileOut out [] []
  | replaced {out l : Str} {ls : List Str} {n : ℕ} {turns : List Turn} (hl : placeholder <:+: l)
      (hn : n = lineBehind (out ++ (Write.decl n).text fileOut))
      (h : Fixed fileOut (out ++ (Write.decl n).text fileOut) ls turns) :
      Fixed fileOut out (l :: ls) (⟨l, .decl n⟩ :: turns)
  | copied {out l : Str} {ls : List Str} {own turns : List Turn} (hl : ¬ placeholder <:+: l)
      (hread : (own.map Turn.read).flatten = l)
      (hwrote : (own.map fun t => t.wrote.text fileOut).flatten = l)
      (h : Fixed fileOut (out ++ l) ls turns) : Fixed fileOut out (l :: ls) (own ++ turns)

def declared (ls : List Str) : ℕ := ls.countP fun l => decide (placeholder <:+: l)

def extra (ls : List Str) : ℕ :=
  ((ls.filter fun l => decide (¬ placeholder <:+: l)).map fun l => (l.length - 1) / FIX_BUFSZ).sum

/-- What a line must be like behind the lines `before` it. -/
def LineFits (fileOut : Str) (before : List Str) (l : Str) : Prop :=
  if placeholder <:+: l then
    l.length ≤ FIX_BUFSZ ∧ placeholder <:+: cstr l ∧
      extra before = declared before + fileOut.count 10 * (declared before + 1)
  else (0 : Byte) ∉ l

/-! ## What is read -/

theorem takeThrough_isLine {l rest : Str} (h : IsLine 10 l rest) (n : ℕ) :
    takeThrough 10 n (l ++ rest) = l.take n := by
  induction l generalizing n with
  | nil => exact absurd rfl h.nonempty
  | cons c l ih =>
    cases n with
    | zero => rfl
    | succ n =>
      cases l with
      | nil =>
        rw [List.singleton_append, takeThrough]
        rcases h.ended with rfl | he
        · rw [takeThrough_nil, ite_self, List.take_succ_cons, List.take_nil]
        · rw [List.getLast?_singleton] at he
          rw [if_pos (Option.some.inj he), List.take_succ_cons, List.take_nil]
      | cons d l =>
        obtain ⟨hc, ht⟩ := h.tail
        rw [List.cons_append, takeThrough, if_neg hc, ih ht, List.take_succ_cons]

theorem getLines_nil (fuel rtot : ℕ) : getLines fuel ⟨[], false, rtot⟩ = [] := by
  cases fuel with
  | zero => rfl
  | succ fuel => rfl

theorem getLines_step {l rest : Str} (h : IsLine 10 l rest) (fuel rtot : ℕ) :
    getLines (fuel + 1) ⟨l ++ rest, false, rtot⟩ =
      l.take FIX_BUFSZ :: getLines fuel
        ⟨l.drop FIX_BUFSZ ++ rest, false, rtot + (l.take FIX_BUFSZ).length⟩ := by
  have hpos : 0 < (l.take FIX_BUFSZ).length := by
    have := List.length_pos_iff.mpr h.nonempty
    rw [List.length_take, FIX_BUFSZ]
    omega
  have hdrop : (l ++ rest).drop (l.take FIX_BUFSZ).length = l.drop FIX_BUFSZ ++ rest := by
    have hsplit : l ++ rest = l.take FIX_BUFSZ ++ (l.drop FIX_BUFSZ ++ rest) := by
      rw [← List.append_assoc, List.take_append_drop]
    rw [hsplit, List.drop_left]
  have hread : ioGets ⟨l ++ rest, false, rtot⟩ LINE_BUFSZ =
      ⟨some (l.take FIX_BUFSZ).length, l.take FIX_BUFSZ,
        ⟨l.drop FIX_BUFSZ ++ rest, false, rtot + (l.take FIX_BUFSZ).length⟩⟩ := by
    rw [ioGets, ioGetUntil, if_neg (by decide)]
    have ht := takeThrough_isLine h FIX_BUFSZ
    have hsz : LINE_BUFSZ - 1 = FIX_BUFSZ := rfl
    simp only [hsz, ht, Bool.false_eq_true, and_false, if_false, Source.skip, hdrop]
  rw [getLines, hread]
  exact if_pos (decide_eq_true hpos)

/-- The pieces of the lines are read, one after the other. -/
theorem getLines_pieces (content : Str) (fuel rtot : ℕ) (h : content.length ≤ fuel) :
    getLines fuel ⟨content, false, rtot⟩ = (textLines 10 content).flatMap (pieces FIX_BUFSZ) := by
  have hsz : 0 < FIX_BUFSZ := by decide
  induction fuel generalizing content rtot with
  | zero =>
    obtain rfl := List.eq_nil_of_length_eq_zero (Nat.le_zero.mp h)
    rfl
  | succ fuel ih =>
    by_cases hc : content = []
    · subst hc
      exact getLines_nil _ _
    · obtain ⟨l, rest, rfl, hl⟩ := exists_isLine (s := 10) hc
      have hpos := List.length_pos_iff.mpr hl.nonempty
      rw [List.length_append] at h
      rw [getLines_step hl, ih, textLines_append hl, List.flatMap_cons]
      · by_cases hlong : FIX_BUFSZ < l.length
        · rw [textLines_append (hl.drop hlong), List.flatMap_cons, pieces_long hsz hlong,
            List.cons_append]
        · rw [pieces_short (not_lt.mp hlong), List.drop_eq_nil_of_le (not_lt.mp hlong),
            List.nil_append,
            List.take_of_length_le (not_lt.mp hlong), List.singleton_append]
      · rw [List.length_append, List.length_drop, FIX_BUFSZ]
        omega

/-! ## One line -/

theorem fixLoop_reads (ln : ℕ) (bufs : List Str) : (fixLoop ln bufs).map Turn.read = bufs := by
  induction bufs generalizing ln with
  | nil => rfl
  | cons buf bufs ih => rw [fixLoop, List.map_cons, ih]

theorem fixLoop_copied (ln : ℕ) {bufs : List Str} (h : ∀ buf ∈ bufs, ¬ placeholder <:+: cstr buf)
    (more : List Str) :
    fixLoop ln (bufs ++ more) =
      bufs.map (fun buf => ⟨buf, .copy (cstr buf)⟩) ++ fixLoop (ln + bufs.length) more := by
  induction bufs generalizing ln with
  | nil => rfl
  | cons buf bufs ih =>
    have hw : fixWrite ln buf = .copy (cstr buf) := if_neg (h buf List.mem_cons_self)
    rw [List.cons_append, fixLoop, hw, Write.count,
      ih (ln + 1) (fun b hb => h b (List.mem_cons_of_mem _ hb)),
      List.map_cons, List.cons_append, List.length_cons, Nat.add_assoc, Nat.add_comm 1]

theorem cstr_isPrefix (s : Str) : cstr s <+: s := List.takeWhile_prefix _

/-- Pieces that are cut at a NUL are shorter than the line. -/
theorem flatten_cstr_iff (bufs : List Str) :
    (bufs.map cstr).flatten = bufs.flatten ↔ (0 : Byte) ∉ bufs.flatten := by
  constructor
  · intro h hz
    rw [← h] at hz
    obtain ⟨s, hs, hzs⟩ := List.mem_flatten.mp hz
    obtain ⟨buf, -, rfl⟩ := List.mem_map.mp hs
    exact absurd (List.mem_takeWhile_imp hzs) (by decide)
  · intro h
    have hmap : bufs.map cstr = bufs := by
      conv_rhs => rw [← List.map_id bufs]
      apply List.map_congr_left
      intro buf hbuf
      exact cstr_of_not_mem fun hz => h (List.mem_flatten.mpr ⟨buf, hbuf, hz⟩)
    rw [hmap]

/-- The reads of a line that holds no placeholder are copied. -/
theorem fixLoop_line (ln : ℕ) {l : Str} (h : ¬ placeholder <:+: l) (more : List Str) :
    fixLoop ln (pieces FIX_BUFSZ l ++ more) =
      (pieces FIX_BUFSZ l).map (fun buf => ⟨buf, .copy (cstr buf)⟩) ++
        fixLoop (ln + (pieces FIX_BUFSZ l).length) more := by
  apply fixLoop_copied
  intro buf hbuf hp
  exact h ((hp.trans (cstr_isPrefix buf).isInfix).trans (pieces_isInfix (by decide) l buf hbuf))

theorem fixed_replaced_iff {fileOut out l : Str} (hl : placeholder <:+: l) {ls more : List Str}
    {ln : ℕ} :
    Fixed fileOut out (l :: ls) (fixLoop ln (pieces FIX_BUFSZ l ++ more)) ↔
      l.length ≤ FIX_BUFSZ ∧ placeholder <:+: cstr l ∧
        ln + 2 = lineBehind (out ++ (Write.decl (ln + 2)).text fileOut) ∧
        Fixed fileOut (out ++ (Write.decl (ln + 2)).text fileOut) ls (fixLoop ln more) := by
  constructor
  · intro h
    generalize hturns : fixLoop ln (pieces FIX_BUFSZ l ++ more) = turns at h
    cases h with
    | copied hno => exact absurd hl hno
    | @replaced _ _ _ n turns _ hn hrest =>
      have hshort : l.length ≤ FIX_BUFSZ := by
        by_contra hlong
        have hlt := not_le.mp hlong
        rw [pieces_long (by decide) hlt, List.cons_append, fixLoop] at hturns
        have hread : l.take FIX_BUFSZ = l := congrArg Turn.read (List.cons_eq_cons.mp hturns).1
        have hlen := congrArg List.length hread
        rw [List.length_take] at hlen
        omega
      rw [pieces_short hshort, List.singleton_append, fixLoop] at hturns
      obtain ⟨hhead, htail⟩ := List.cons_eq_cons.mp hturns
      have hwrote : fixWrite ln l = .decl n := congrArg Turn.wrote hhead
      by_cases hc : placeholder <:+: cstr l
      · have hw : fixWrite ln l = .decl (ln + 2) := if_pos hc
        obtain rfl : ln + 2 = n := Write.decl.inj (hw.symm.trans hwrote)
        rw [hw] at htail
        exact ⟨hshort, hc, hn, htail ▸ hrest⟩
      · have hw : fixWrite ln l = .copy (cstr l) := if_neg hc
        rw [hw] at hwrote
        cases hwrote
  · rintro ⟨hshort, hc, hn, hrest⟩
    have hw : fixWrite ln l = .decl (ln + 2) := if_pos hc
    rw [pieces_short hshort, List.singleton_append, fixLoop, hw]
    exact Fixed.replaced hl hn hrest

theorem fixed_copied_iff {fileOut out l : Str} (hne : l ≠ []) (hl : ¬ placeholder <:+: l)
    {ls more : List Str} {ln : ℕ} (hmore : ∀ buf ∈ more, buf ≠ []) :
    Fixed fileOut out (l :: ls) (fixLoop ln (pieces FIX_BUFSZ l ++ more)) ↔
      (0 : Byte) ∉ l ∧ Fixed fileOut (out ++ l) ls
        (fixLoop (ln + (pieces FIX_BUFSZ l).length) more) := by
  have hsz : 0 < FIX_BUFSZ := by decide
  have hpieces := pieces_ne_nil hsz hne
  have hcut : ((pieces FIX_BUFSZ l).map cstr).flatten = l ↔ (0 : Byte) ∉ l := by
    have h := flatten_cstr_iff (pieces FIX_BUFSZ l)
    rwa [flatten_pieces hsz] at h
  rw [fixLoop_line ln hl]
  constructor
  · intro h
    generalize hturns : (pieces FIX_BUFSZ l).map (fun buf => (⟨buf, .copy (cstr buf)⟩ : Turn)) ++
      fixLoop (ln + (pieces FIX_BUFSZ l).length) more = turns at h
    cases h with
    | replaced hyes => exact absurd hyes hl
    | @copied _ _ _ own turns _ hread hwrote hrest =>
      have hid : (pieces FIX_BUFSZ l).map
          (Turn.read ∘ fun buf => (⟨buf, .copy (cstr buf)⟩ : Turn)) = pieces FIX_BUFSZ l :=
        List.map_id _
      have hreads := congrArg (List.map Turn.read) hturns
      rw [List.map_append, List.map_append, List.map_map, fixLoop_reads, hid] at hreads
      have hown : own.map Turn.read = pieces FIX_BUFSZ l := by
        refine eq_of_flatten_eq ?_ hpieces hreads.symm (hread.trans (flatten_pieces hsz l).symm)
        intro buf hbuf
        have hmem : buf ∈ pieces FIX_BUFSZ l ++ more := hreads ▸ List.mem_append_left _ hbuf
        rcases List.mem_append.mp hmem with hm | hm
        · exact hpieces buf hm
        · exact hmore buf hm
      have hlen : ((pieces FIX_BUFSZ l).map fun buf => (⟨buf, .copy (cstr buf)⟩ : Turn)).length =
          own.length := by
        rw [List.length_map, ← hown, List.length_map]
      obtain ⟨rfl, rfl⟩ := List.append_inj hturns hlen
      rw [List.map_map] at hwrote
      exact ⟨hcut.mp hwrote, hrest⟩
  · rintro ⟨hz, hrest⟩
    refine Fixed.copied hl ?_ ?_ hrest
    · rw [List.map_map]
      exact (congrArg List.flatten (List.map_id _)).trans (flatten_pieces hsz l)
    · rw [List.map_map]
      exact hcut.mpr hz

/-! ## All lines -/

theorem declared_concat (before : List Str) (l : Str) :
    declared (before ++ [l]) = declared before + if placeholder <:+: l then 1 else 0 := by
  rw [declared, declared, List.countP_append, List.countP_singleton]
  simp only [decide_eq_true_eq]

theorem extra_concat (before : List Str) (l : Str) :
    extra (before ++ [l]) = extra before + if placeholder <:+: l then 0
    else (l.length - 1) / FIX_BUFSZ := by
  rw [extra, extra, List.filter_append, List.map_append, List.sum_append]
  by_cases hl : placeholder <:+: l
  · simp [hl]
  · simp [hl]

/-- The line that replaces a placeholder ends one line, and has those of the name. -/
theorem count_decl (fileOut : Str) (n : ℕ) :
    ((Write.decl n).text fileOut).count 10 = fileOut.count 10 + 1 := by
  have hdec : (decimal n).count 10 = 0 := by
    apply List.count_eq_zero_of_not_mem
    intro h
    exact absurd (mem_decimal_natCast h).1 (by decide)
  have hpre : (bytes "#line ").count 10 = 0 := rfl
  have hmid : (bytes " \"").count 10 = 0 := rfl
  have hend : (bytes "\"\n").count 10 = 1 := rfl
  rw [Write.text, List.count_append, List.count_append, List.count_append, List.count_append, hdec,
    hpre, hmid, hend]
  omega

theorem forall_split_cons {F : List Str → Str → Prop} {before ls : List Str} {l : Str} :
    (∀ pre l' post, l :: ls = pre ++ l' :: post → F (before ++ pre) l') ↔
      F before l ∧ ∀ pre l' post, ls = pre ++ l' :: post → F (before ++ [l] ++ pre) l' := by
  constructor
  · intro h
    refine ⟨?_, fun pre l' post hls => ?_⟩
    · have hl := h [] l ls rfl
      rwa [List.append_nil] at hl
    · have hl := h (l :: pre) l' post (by rw [hls, List.cons_append])
      rwa [List.append_assoc, List.singleton_append]
  · rintro ⟨hhead, htail⟩ pre l' post hls
    cases pre with
    | nil =>
      obtain ⟨rfl, -⟩ := List.cons_eq_cons.mp hls
      rwa [List.append_nil]
    | cons x pre =>
      rw [List.cons_append] at hls
      obtain ⟨rfl, hrest⟩ := List.cons_eq_cons.mp hls
      have hl := htail pre l' post hrest
      rwa [List.append_assoc, List.singleton_append] at hl

theorem flatMap_pieces_ne_nil (t : Str) :
    ∀ buf ∈ (textLines 10 t).flatMap (pieces FIX_BUFSZ), buf ≠ [] := by
  induction t using lines_induction (s := (10 : Byte)) with
  | nil =>
    intro buf hbuf
    cases hbuf
  | line l rest hl ih =>
    intro buf hbuf
    rw [textLines_append hl, List.flatMap_cons] at hbuf
    rcases List.mem_append.mp hbuf with hb | hb
    · exact pieces_ne_nil (by decide) hl.nonempty buf hb
    · exact ih buf hb

/-- The counter is ahead of the lines by the reads of the long ones and behind by the
placeholders. -/
theorem fixed_iff (fileOut content : Str) {out : Str} {ln : ℕ} (before : List Str)
    (hout : content ≠ [] → out.count 10 = before.length + fileOut.count 10 * declared before)
    (hln : ln + declared before = before.length + extra before) :
    Fixed fileOut out (textLines 10 content)
    (fixLoop ln ((textLines 10 content).flatMap (pieces FIX_BUFSZ))) ↔
      ∀ pre l post, textLines 10 content = pre ++ l :: post →
      LineFits fileOut (before ++ pre) l := by
  induction content using lines_induction (s := (10 : Byte)) generalizing out ln before with
  | nil =>
    constructor
    · intro _ pre l post hls
      exact absurd hls (by simp [textLines])
    · intro _
      exact Fixed.nil out
  | line l rest hl ih =>
    have hcount := hout (List.append_ne_nil_of_left_ne_nil hl.nonempty rest)
    have hlen : (before ++ [l]).length = before.length + 1 := List.length_append
    have hdecl := declared_concat before l
    have hext := extra_concat before l
    rw [textLines_append hl, List.flatMap_cons, forall_split_cons]
    by_cases hp : placeholder <:+: l
    · rw [if_pos hp] at hdecl hext
      have hmul : fileOut.count 10 * (declared before + 1) =
          fileOut.count 10 * declared before + fileOut.count 10 :=
        Nat.mul_succ _ _
      have hbehind : ln + 2 = lineBehind (out ++ (Write.decl (ln + 2)).text fileOut) ↔
          extra before = declared before + fileOut.count 10 * (declared before + 1) := by
        rw [lineBehind, List.count_append, count_decl, hcount]
        omega
      have hout' : rest ≠ [] → (out ++ (Write.decl (ln + 2)).text fileOut).count 10 =
          (before ++ [l]).length + fileOut.count 10 * declared (before ++ [l]) := by
        intro _
        rw [List.count_append, count_decl, hcount, hlen, hdecl]
        omega
      rw [fixed_replaced_iff hp, hbehind, ih (before ++ [l]) hout' (by omega), LineFits, if_pos hp]
      tauto
    · rw [if_neg hp] at hdecl hext
      have hpieces := length_pieces (n := FIX_BUFSZ) (by decide) l
      have hout' : rest ≠ [] → (out ++ l).count 10 =
          (before ++ [l]).length + fileOut.count 10 * declared (before ++ [l]) := by
        intro hne
        rw [List.count_append, hl.count (hl.ended.resolve_left hne), hcount, hlen, hdecl, add_zero]
        omega
      rw [fixed_copied_iff hl.nonempty hp (flatMap_pieces_ne_nil rest),
        ih (before ++ [l]) hout' (by omega),
        LineFits, if_neg hp]

/-- The numbers are right and the other lines are copied if and only if every line fits:
one without a placeholder has no NUL, and one with it is not longer than the buffer, has
it before any NUL and as many additional reads before it as placeholders. -/
theorem fixLineDecl_iff (fileOut content : Str) :
    Fixed fileOut [] (textLines 10 content) (fixLineDecl content) ↔
      ∀ pre l post, textLines 10 content = pre ++ l :: post → LineFits fileOut pre l := by
  rw [fixLineDecl, getLines_pieces content _ 0 le_rfl]
  exact fixed_iff fileOut content [] (fun _ => rfl) rfl

/-- In a file with two placeholder lines the second number is one too low. -/
theorem fixLineDecl_second_low :
    ¬ ∀ fileOut content, Fixed fileOut [] (textLines 10 content) (fixLineDecl content) := by
  intro h
  have hfixed := h (bytes "p.c") (placeholder ++ bytes "\na\n" ++ placeholder ++ bytes "\nb\n")
  rw [fixLineDecl, getLines_pieces _ _ 0 le_rfl] at hfixed
  have hfits := (fixed_iff _ _ [] (fun _ => rfl) rfl).mp hfixed
  have hsecond := hfits [placeholder ++ [10], bytes "a\n"] (placeholder ++ [10])
    [bytes "b\n"] (by decide)
  rw [LineFits, if_pos (List.prefix_append placeholder [10]).isInfix] at hsecond
  exact absurd hsecond.2.2 (by decide)

end Klone.Trans
