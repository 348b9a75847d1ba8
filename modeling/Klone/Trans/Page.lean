import Klone.Trans.Parser

/-! # Pages

A page is text that is cut by sections of code. Here this is said without the parser, and
the calls that the parser makes for a page are compared with it.
-/
namespace Klone.Trans
open Loop Matcher Blocks

/-- A text, its sections with the text before each of them, and the text after the last. -/
inductive Page : List Byte → List (List Byte × List Byte) → List Byte → Prop
  | text {x : List Byte} (hno : ¬ Mode.html.delim <:+: x) : Page x [] x
  | cons {x html mid content rest last : List Byte} {secs : List (List Byte × List Byte)}
      (hopen : FirstAt Mode.html.delim x html mid)
        (hclose : FirstAt Mode.code.delim mid content rest)
      (hrest : Page rest secs last) : Page x ((html, content) :: secs) last

/-- A text in which every `<%` is followed by a `%>` is a page. -/
theorem page_of_closed {x : List Byte}
    (h : ∀ pre post, x = pre ++ Mode.html.delim ++ post → Mode.code.delim <:+: post) :
    ∃ secs last, Page x secs last := by
  obtain ⟨n, hn⟩ : ∃ n, x.length = n := ⟨_, rfl⟩
  induction n using Nat.strong_induction_on generalizing x with
  | h n ih =>
    by_cases hno : Mode.html.delim <:+: x
    · obtain ⟨html, mid, hopen⟩ := firstAt_of_infix (by simp [Mode.delim]) hno
      obtain ⟨content, rest, hclose⟩ :=
        firstAt_of_infix (by simp [Mode.delim]) (h html mid hopen.split)
      have hx : x = html ++ Mode.html.delim ++ (content ++ Mode.code.delim) ++ rest := by
        rw [hopen.split, hclose.split]
        simp
      have hlen := congrArg List.length hx
      simp only [List.length_append, Mode.delim, List.length_cons, List.length_nil] at hlen
      obtain ⟨secs, last, hrest⟩ := ih rest.length (by omega) (x := rest) (fun pre post hpost => by
        refine h (html ++ Mode.html.delim ++ (content ++ Mode.code.delim) ++ pre) post ?_
        rw [hx, hpost]
        simp) rfl
      exact ⟨_, last, .cons hopen hclose hrest⟩
    · exact ⟨[], x, .text hno⟩

/-- The calls for a section: the text before it, then its body with its command. -/
def sectionCalls (sec : List Byte × List Byte) : List Call :=
  (closed (BUFSZ - 1) sec.1 60).map Call.html ++
    (closed (BUFSZ - 1) (command sec.2).2 37).map (Call.code (command sec.2).1)

def lastCalls (last : List Byte) : List Call :=
  ((fill (BUFSZ - 1) [] last).1 ++ [(fill (BUFSZ - 1) [] last).2].filter fun b =>
    !b.isEmpty).map Call.html

/-- What the parser makes of sections. The first one without content swallows what follows. -/
inductive Made : List (List Byte × List Byte) → List Byte → List Call → Prop
  | text (last : List Byte) : Made [] last (lastCalls last)
  | cons {sec : List Byte × List Byte} {secs : List (List Byte × List Byte)} {last : List Byte}
    {calls : List Call}
      (hne : sec.2 ≠ []) (hrest : Made secs last calls) :
        Made (sec :: secs) last (sectionCalls sec ++ calls)
  | empty (html : List Byte) (secs : List (List Byte × List Byte)) (last body : List Byte)
    (more : List Call) :
      Made ((html, []) :: secs) last
        ((closed (BUFSZ - 1) html 60).map Call.html ++ .code 37 (62 :: body) :: more)

section
variable {p : Parser} {cmd : Byte} {x last : List Byte} {calls : List Call}
    {secs : List (List Byte × List Byte)}

/-- The text after the last section is passed on at the end of the input. -/
theorem last_run (h : p.At .html cmd x [] calls) (hno : ¬ Mode.html.delim <:+: x) :
    ∃ r, Ends (fun n => run parserBody n p) r ∧ r.calls = calls ++ lastCalls x := by
  rw [← List.append_nil x] at h
  obtain ⟨q, hq, hat⟩ := collect (m := .html) h hno
  by_cases hbuf : (fill (BUFSZ - 1) [] x).2 = []
  · refine ⟨q, Ends.reaches (ends_leave ?_) hq, ?_⟩
    · simp [parserBody, hat.input, hat.buf, hbuf]
    · rw [hat.calls, lastCalls, hbuf]
      simp [Mode.call]
  · have hne : q.buf ≠ [] := hat.buf ▸ hbuf
    have hflush := parserOnBlock_mode (p := q) (hat.state ▸ Mode.html.after_cases x) hne
    refine ⟨_, Ends.reaches (ends_leave (parserBody_end hat.input hne hflush)) hq, ?_⟩
    have hempty : (fill (BUFSZ - 1) [] x).2.isEmpty = false := by rwa [List.isEmpty_eq_false_iff]
    simp [hat.calls, hat.buf, lastCalls, hempty, Mode.call]

/-- The calls of a run over a page. -/
theorem page_run (h : Page x secs last) (hat : p.At .html cmd x [] calls) :
    ∃ r cs, Ends (fun n => run parserBody n p) r ∧ r.calls = calls ++ cs ∧ Made secs last cs := by
  induction h generalizing p cmd calls with
  | text hno =>
    obtain ⟨r, hr, hcalls⟩ := last_run hat hno
    exact ⟨r, _, hr, hcalls, .text _⟩
  | @cons x html mid content rest last secs hopen hclose hrest ih =>
    obtain ⟨e, he, heat⟩ := html_section hat hopen
    cases content with
    | nil =>
      rw [hclose.split] at heat
      obtain ⟨body, r, more, hr, hcalls⟩ := empty_section heat
      exact ⟨r, _, hr.reaches he, by rw [hcalls,
        List.append_assoc], .empty html secs last body more⟩
    | cons c content =>
      have hmid : mid = c :: (content ++ Mode.code.delim ++ rest) := by rw [hclose.split]; rfl
      rw [hmid] at heat
      obtain ⟨f, hf, hfat⟩ := start_code heat
      have hbody : FirstAt Mode.code.delim (command (c :: (content ++ Mode.code.delim ++ rest))).2
          (command (c :: content)).2 rest := by
        by_cases hc : isspace c
        · simp only [command, if_pos hc]
          rw [← hmid]
          exact hclose
        · simp only [command, if_neg hc]
          rw [hmid] at hclose
          exact hclose.tail
      have hcmd : (command (c :: (content ++ Mode.code.delim ++ rest))).1 =
          (command (c :: content)).1 := by
        by_cases hc : isspace c
        · simp only [command, if_pos hc]
        · simp only [command, if_neg hc]
      rw [hcmd] at hfat
      obtain ⟨q, hq, hqat⟩ := code_section hfat hbody
      obtain ⟨r, cs, hr, hcalls, hmade⟩ := ih hqat
      refine ⟨r, _, ((hr.reaches hq).run_again hf).reaches he, ?_,
        .cons (List.cons_ne_nil c content) hmade⟩
      rw [hcalls]
      simp [sectionCalls]

end

/-! ## What the calls should be -/

def outside (secs : List (List Byte × List Byte)) (last : List Byte) : List Byte :=
  (secs.map Prod.fst).flatten ++ last

def sectionCode (sec : List Byte × List Byte) : List Call :=
  ([(command sec.2).2].filter fun b => !b.isEmpty).map (Call.code (command sec.2).1)

def htmlText (calls : List Call) : List Byte := calls.flatMap fun
  | .html buf => buf
  | .code _ _ => []

def codeCalls (calls : List Call) : List Call := calls.filter fun
  | .html _ => false
  | .code _ _ => true

/-- The buffers of `cb_html` make up the text outside the sections, and every section with
a body has one call of `cb_code`, in the order of the text. -/
def Agrees (secs : List (List Byte × List Byte)) (last : List Byte) (calls : List Call) : Prop :=
  htmlText calls = outside secs last ∧ codeCalls calls = secs.flatMap sectionCode

/-- A section that fits the parser's buffer: it has content, the `<` before it does not fill
the buffer, and neither does its body with the `%` after it. -/
def Fits (sec : List Byte × List Byte) : Prop :=
  sec.2 ≠ [] ∧ (sec.1.length + 1) % (BUFSZ - 1) ≠ 0 ∧
    (command sec.2).2.length ≤ BUFSZ - 1 ∧ (command sec.2).2.length + 1 ≠ BUFSZ - 1

@[simp] theorem htmlText_append (a b : List Call) :
    htmlText (a ++ b) = htmlText a ++ htmlText b := by
  simp [htmlText]

@[simp] theorem codeCalls_append (a b : List Call) :
    codeCalls (a ++ b) = codeCalls a ++ codeCalls b := by
  simp [codeCalls]

@[simp] theorem htmlText_map_html (l : List (List Byte)) :
    htmlText (l.map Call.html) = l.flatten := by
  rw [htmlText, List.flatMap_map]
  exact List.flatMap_id

@[simp] theorem htmlText_map_code (cmd : Byte) (l : List (List Byte)) :
    htmlText (l.map (Call.code cmd)) = [] := by
  simp [htmlText]

@[simp] theorem codeCalls_map_html (l : List (List Byte)) : codeCalls (l.map Call.html) = [] := by
  simp [codeCalls]

@[simp] theorem codeCalls_map_code (cmd : Byte) (l : List (List Byte)) :
    codeCalls (l.map (Call.code cmd)) = l.map (Call.code cmd) := by
  simp [codeCalls]

section
variable {secs : List (List Byte × List Byte)} {last : List Byte} {calls : List Call}
    {sec : List Byte × List Byte}

theorem htmlText_lastCalls (last : List Byte) : htmlText (lastCalls last) = last := by
  have hall := fill_flatten (n := BUFSZ - 1) [] last
  rw [lastCalls, htmlText_map_html, List.flatten_append]
  cases hb : (fill (BUFSZ - 1) [] last).2 with
  | nil => simpa [hb] using hall
  | cons c b => simpa [hb] using hall

theorem codeCalls_lastCalls (last : List Byte) :
    codeCalls (lastCalls last) = [] := codeCalls_map_html _

theorem htmlText_sectionCalls (sec : List Byte × List Byte) :
    htmlText (sectionCalls sec) = sec.1 ++ if (sec.1.length + 1) % (BUFSZ - 1) = 0 then [60]
    else [] := by
  rw [sectionCalls, htmlText_append, htmlText_map_html, htmlText_map_code, List.append_nil,
    closed_flatten (by decide)]

theorem codeCalls_sectionCalls (sec : List Byte × List Byte) : codeCalls (sectionCalls sec) =
    (closed (BUFSZ - 1) (command sec.2).2 37).map (Call.code (command sec.2).1) := by
  simp [sectionCalls]

/-- A body that fits is passed on in one call. -/
theorem codeCalls_fits (hle : (command sec.2).2.length ≤ BUFSZ - 1)
    (hne : (command sec.2).2.length + 1 ≠ BUFSZ - 1) :
    codeCalls (sectionCalls sec) = sectionCode sec := by
  rw [codeCalls_sectionCalls, closed_fits hle hne (by decide), sectionCode]

/-- Another one is not: the first call for it has something else. -/
theorem codeCalls_overfull
    (h : ¬ ((command sec.2).2.length ≤ BUFSZ - 1 ∧ (command sec.2).2.length + 1 ≠ BUFSZ - 1))
    (a b : List Call) : codeCalls (sectionCalls sec) ++ a ≠ sectionCode sec ++ b := by
  have hcase : BUFSZ - 1 < (command sec.2).2.length ∨ (command sec.2).2.length + 1 = BUFSZ - 1 := by
    by_contra hcon
    push Not at hcon
    exact h ⟨by omega, hcon.2⟩
  obtain ⟨y, rest, hclosed, hy⟩ := closed_head hcase 37 (by decide)
  have hbody : (command sec.2).2.isEmpty = false := by
    rw [List.isEmpty_eq_false_iff]
    intro hnil
    rw [hnil] at hcase
    exact absurd hcase (by decide)
  rw [codeCalls_sectionCalls, hclosed, sectionCode]
  simp [hbody, hy]

theorem page_content {x : List Byte} (h : Page x secs last) :
    ∀ sec ∈ secs, ¬ Mode.code.delim <+: sec.2 := by
  induction h with
  | text hno => simp
  | cons hopen hclose hrest ih =>
    intro sec hsec
    rcases List.mem_cons.mp hsec with rfl | hsec
    · exact fun hpre => hclose.first (hpre.isInfix.trans (List.prefix_append _ _).isInfix)
    · exact ih sec hsec

/-- No section has the command `%` and a body that begins with `>`. -/
theorem no_such_call (hpre : ∀ sec ∈ secs, ¬ Mode.code.delim <+: sec.2) (body : List Byte) :
    Call.code 37 (62 :: body) ∉ secs.flatMap sectionCode := by
  intro hmem
  obtain ⟨sec, hsec, hcall⟩ := List.mem_flatMap.mp hmem
  apply hpre sec hsec
  simp only [sectionCode, List.mem_map, List.mem_filter, List.mem_singleton,
    Call.code.injEq] at hcall
  obtain ⟨b, ⟨rfl, -⟩, hcmd, hbody⟩ := hcall
  cases hc : sec.2 with
  | nil =>
    rw [hc] at hbody
    exact absurd hbody (by simp [command])
  | cons c content =>
    rw [hc] at hcmd hbody
    by_cases hspace : isspace c
    · simp only [command, if_pos hspace] at hcmd
      exact absurd hcmd (by decide)
    · simp only [command, if_neg hspace] at hcmd hbody
      exact ⟨body, by simp [Mode.delim, Mode.first, Mode.second, hcmd, hbody]⟩

/-- If the code calls are right, no section is empty or too long for its call. -/
theorem code_agrees (h : Made secs last calls) (hpre : ∀ sec ∈ secs, ¬ Mode.code.delim <+: sec.2)
    (hcode : codeCalls calls = secs.flatMap sectionCode) :
    ∀ sec ∈ secs, sec.2 ≠ [] ∧ (command sec.2).2.length ≤ BUFSZ - 1 ∧
    (command sec.2).2.length + 1 ≠ BUFSZ - 1 := by
  induction h with
  | text last => simp
  | @cons sec secs last calls hne hrest ih =>
    have hpre' : ∀ s ∈ secs, ¬ Mode.code.delim <+: s.2 :=
      fun s hs => hpre s (List.mem_cons_of_mem sec hs)
    rw [codeCalls_append, List.flatMap_cons] at hcode
    by_cases hfit : (command sec.2).2.length ≤ BUFSZ - 1 ∧ (command sec.2).2.length + 1 ≠ BUFSZ - 1
    · rw [codeCalls_fits hfit.1 hfit.2] at hcode
      intro s hs
      rcases List.mem_cons.mp hs with rfl | hs
      · exact ⟨hne, hfit⟩
      · exact ih hpre' (List.append_cancel_left hcode) s hs
    · exact absurd hcode (codeCalls_overfull hfit _ _)
  | empty html secs last body more =>
    have hnot := no_such_call hpre body
    rw [← hcode] at hnot
    exact absurd (by simp [codeCalls]) hnot

/-- Without empty sections the text comes through, with the `<`s that filled the buffer. -/
theorem made_html (h : Made secs last calls) (hne : ∀ sec ∈ secs, sec.2 ≠ []) :
    htmlText calls = (secs.map fun sec => sec.1 ++ if (sec.1.length + 1) % (BUFSZ - 1) = 0 then [60]
      else []).flatten ++
      last := by
  induction h with
  | text last => simp [htmlText_lastCalls]
  | @cons sec secs last calls hsec hrest ih =>
    have hrest := ih fun s hs => hne s (List.mem_cons_of_mem sec hs)
    rw [htmlText_append, htmlText_sectionCalls, hrest]
    simp
  | empty html secs last body more => exact absurd rfl (hne (html, []) List.mem_cons_self)

theorem made_code (h : Made secs last calls) (hfit : ∀ sec ∈ secs, Fits sec) :
    codeCalls calls = secs.flatMap sectionCode := by
  induction h with
  | text last => simp [codeCalls_lastCalls]
  | @cons sec secs last calls hsec hrest ih =>
    obtain ⟨-, -, hle, hne⟩ := hfit sec List.mem_cons_self
    rw [codeCalls_append, codeCalls_fits hle hne,
      ih fun s hs => hfit s (List.mem_cons_of_mem sec hs)]
    simp
  | empty html secs last body more => exact absurd rfl (hfit (html, []) List.mem_cons_self).1

/-- Texts with additions are the texts only if there are no additions. -/
theorem flatten_additions {l : List (List Byte × List Byte)}
    {add : List Byte × List Byte → List Byte} {z : List Byte}
    (h : (l.map fun s => s.1 ++ add s).flatten ++ z = (l.map Prod.fst).flatten ++ z) :
    ∀ s ∈ l, add s = [] := by
  have hcancel := congrArg List.length (List.append_cancel_right h)
  clear h
  have hlong : ∀ l : List (List Byte × List Byte),
      (l.map Prod.fst).flatten.length ≤ (l.map fun s => s.1 ++ add s).flatten.length := by
    intro l
    induction l with
    | nil => simp
    | cons s l ih => simp only [List.map_cons, List.flatten_cons, List.length_append]; omega
  induction l with
  | nil => simp
  | cons s l ih =>
    simp only [List.map_cons, List.flatten_cons, List.length_append] at hcancel
    have hl := hlong l
    intro t ht
    rcases List.mem_cons.mp ht with rfl | ht
    · exact List.length_eq_zero_iff.mp (by omega)
    · exact ih (by omega) t ht

theorem agrees_iff (h : Made secs last calls) (hpre : ∀ sec ∈ secs, ¬ Mode.code.delim <+: sec.2) :
    Agrees secs last calls ↔ ∀ sec ∈ secs, Fits sec := by
  constructor
  · rintro ⟨hhtml, hcode⟩ sec hsec
    have hall := code_agrees h hpre hcode
    obtain ⟨hne, hle, hedge⟩ := hall sec hsec
    rw [made_html h fun s hs => (hall s hs).1] at hhtml
    have hadd := flatten_additions hhtml sec hsec
    refine ⟨hne, fun hleak => ?_, hle, hedge⟩
    rw [if_pos hleak] at hadd
    exact absurd hadd (List.cons_ne_nil _ _)
  · intro hfit
    refine ⟨?_, made_code h hfit⟩
    rw [made_html h fun s hs => (hfit s hs).1, outside]
    have hmap : (secs.map fun sec => sec.1 ++ if (sec.1.length + 1) % (BUFSZ - 1) = 0 then
      [60] else []) =
        secs.map Prod.fst := by
      refine List.map_congr_left fun s hs => ?_
      rw [if_neg (hfit s hs).2.1, List.append_nil]
    rw [hmap]

end

/-- The parser ends on every page, and the calls it makes are those of the page exactly
when every section fits its buffer. -/
theorem parser_agrees_iff {x last : List Byte} {secs : List (List Byte × List Byte)}
    (h : Page x secs last) :
    ∃ calls, Ends (parserRun x) calls ∧ (Agrees secs last calls ↔ ∀ sec ∈ secs, Fits sec) := by
  have hpre := page_content h
  cases hx : x with
  | nil =>
    rw [hx] at h
    cases h with
    | text hno =>
      have hleave : parserBody (parserReset []) = some (.leave (parserReset [])) := rfl
      refine ⟨[], (ends_leave hleave).map Parser.calls, ?_⟩
      simp [Agrees, htmlText, outside, codeCalls]
    | cons hopen hclose hrest => exact absurd hopen.split.symm (by simp [Mode.delim])
  | cons c rest =>
    have hstart : parserBody (parserReset (c :: rest)) =
        some (.again ({ parserReset (c :: rest) with prev := c }.setState .html)) := rfl
    have hat : Parser.At ({ parserReset (c :: rest) with
        prev := c }.setState .html) .html 0 (c :: rest) [] [] :=
      ⟨rfl, rfl, rfl, rfl, rfl⟩
    rw [hx] at h
    obtain ⟨r, cs, hr, hcalls, hmade⟩ := page_run h hat
    rw [List.nil_append] at hcalls
    exact ⟨cs, (hr.run_again hstart).map_eq hcalls, agrees_iff hmade hpre⟩

theorem parser_agrees_expression :
    ∃ calls, Ends (parserRun (bytes "a<%=x%>b")) calls ∧
      (Agrees [(bytes "a", bytes "=x")] (bytes "b") calls ↔ ∀ sec ∈ [(bytes "a", bytes "=x")],
        Fits sec) :=
  have hopen : FirstAt Mode.html.delim (bytes "a<%=x%>b") (bytes "a") (bytes "=x%>b") :=
    ⟨by decide, by decide⟩
  parser_agrees_iff (.cons hopen ⟨by decide, by decide⟩ (.text (by decide)))

/-- The section of `<%%>` is empty, but the parser calls `cb_code` with its `>`. -/
theorem parser_empty_section : Page (bytes "<%%>") [([], [])] [] ∧
    ∀ calls, Ends (parserRun (bytes "<%%>")) calls → ¬ Agrees [([], [])] [] calls := by
  have hopen : FirstAt Mode.html.delim (bytes "<%%>") [] (bytes "%>") := ⟨by decide, by decide⟩
  refine ⟨.cons hopen ⟨by decide, by decide⟩ (.text (by decide)), ?_⟩
  rintro calls ⟨N, hN⟩ ⟨-, hcode⟩
  have hrun : parserRun (bytes "<%%>") (N + 10) = some [.code 37 [62]] := rfl
  have hcalls := hN (N + 10) (Nat.le_add_right N 10)
  rw [hrun] at hcalls
  obtain rfl := Option.some.inj hcalls
  exact absurd hcode (by decide)

end Klone.Trans
