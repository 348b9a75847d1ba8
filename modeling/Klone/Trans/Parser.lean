import Klone.Lib.Blocks
import Klone.Lib.CString
import Klone.Lib.FirstMatch
import Klone.Lib.Loop

/-! # The page parser

A page is text with sections of code between `<%` and `%>`. The parser collects either
in a buffer and passes the buffer on at the end of the section, with the delimiter taken
off, and whenever the buffer is full.
-/
namespace Klone.Trans
open Loop Matcher Blocks

def LF : Byte := 0x0A
def CR : Byte := 0x0D

def BUFSZ : ℕ := 262144

inductive ParserState where
  | start
  | inDoubleQuote
  | inSingleQuote
  | html
  | waitPerc
  | startCode
  | code
  | waitGt
  | eatNewline
  deriving DecidableEq, Repr

inductive Call where
  | html (buf : List Byte)
  | code (cmd : Byte) (buf : List Byte)
  deriving DecidableEq, Repr

/-- `parser_t` with the locals of `parser_run`; the first byte of `input` is `c`. The counts
of lines are `int`s, for pages of fewer than `2 ^ 31` lines. -/
structure Parser where
  state : ParserState
  prevState : ParserState
  cmdCode : Byte
  line : ℕ
  codeLine : ℕ
  prev : Byte
  input : List Byte
  buf : List Byte
  calls : List Call
  deriving DecidableEq, Repr

def Parser.setState (p : Parser) (s : ParserState) : Parser :=
  { p with state := s, prevState := p.state }

def countLine (line : ℕ) (prev c : Byte) : ℕ :=
  if (c = CR ∨ c = LF) ∧ prev ≠ (if c = CR then LF else CR) then line + 1 else line

/-- Go on to the next byte; at the end of the input there is none. -/
def Parser.fetchNextChar (p : Parser) : Parser :=
  match p.input with
  | [] => p
  | [c] => { p with prev := c, input := [] }
  | c :: d :: rest => { p with prev := c, input := d :: rest, line := countLine p.line c d }

def parserReset (text : List Byte) : Parser :=
  { state := .start, prevState := .start, cmdCode := 0, codeLine := 0, prev := 0,
    input := text, buf := [], calls := []
    line := match text with
      | [] => 1
      | c :: _ => countLine 1 0 c }

/-- Pass the buffer on and empty it. In the state `eatNewline` the function does not return. -/
def parserOnBlock (p : Parser) (buf : List Byte) : Option Parser :=
  let p := match p.state with
    | .inDoubleQuote => { p with state := p.prevState }
    | .inSingleQuote => { p with state := p.prevState }
    | _ => p
  match p.state with
  | .start => some { p with buf := [] }
  | .inDoubleQuote => some { p with buf := [] }
  | .inSingleQuote => some { p with buf := [] }
  | .html => some { p with
    buf := [], calls := if buf = [] then p.calls else p.calls ++ [.html buf] }
  | .waitPerc => some { p with
    buf := [], calls := if buf = [] then p.calls else p.calls ++ [.html buf] }
  | .startCode => some { p with
    buf := [], calls := if buf = [] then p.calls else p.calls ++ [.code p.cmdCode buf] }
  | .code => some { p with
    buf := [], calls := if buf = [] then p.calls else p.calls ++ [.code p.cmdCode buf] }
  | .waitGt => some { p with
    buf := [], calls := if buf = [] then p.calls else p.calls ++ [.code p.cmdCode buf] }
  | .eatNewline => none

/-- Put the byte into the buffer, which is passed on when it is full. -/
def Parser.keep (p : Parser) (c : Byte) : Option Parser :=
  let buf := p.buf ++ [c]
  if buf.length = BUFSZ - 1 then (parserOnBlock p buf).map Parser.fetchNextChar
  else some { p with buf := buf }.fetchNextChar

/-- Take the last byte back and pass the rest of the buffer on, if there is any. -/
def Parser.erase (p : Parser) : Option Parser :=
  if p.buf.dropLast = [] then some { p with buf := [] } else parserOnBlock p p.buf.dropLast

def parserBody (p : Parser) : Option (Iter Parser Parser) :=
  match p.input with
  | [] => if p.buf = [] then some (.leave p) else (parserOnBlock p p.buf).map Iter.leave
  | c :: _ =>
    let p := { p with prev := c }
    match p.state with
    | .start => some (.again (p.setState .html))
    | .inDoubleQuote =>
      ((if c = 34 ∧ p.prev ≠ 92 then p.setState p.prevState else p).keep c).map Iter.again
    | .inSingleQuote =>
      ((if c = 39 ∧ p.prev ≠ 92 then p.setState p.prevState else p).keep c).map Iter.again
    | .html => ((if c = 60 then p.setState .waitPerc else p).keep c).map Iter.again
    | .waitPerc =>
      if c = 37 then
        p.erase.map fun p => .again { p.setState .startCode with codeLine := p.line }.fetchNextChar
      else some (.again (p.setState .html))
    | .startCode =>
      if isspace c then some (.again ({ p with cmdCode := 0 }.setState .code))
      else some (.again ({ p with cmdCode := c }.fetchNextChar.setState .code))
    | .code => ((if c = 37 then p.setState .waitGt else p).keep c).map Iter.again
    | .waitGt =>
      if c = 62 then p.erase.map fun p => .again ({ p.fetchNextChar with
        cmdCode := 0 }.setState .html)
      else some (.again (p.setState .code))
    | .eatNewline =>
      if c = CR ∨ c = LF then some (.again p.fetchNextChar) else some (.again (p.setState .html))

def parserRun (text : List Byte) (fuel : ℕ) : Option (List Call) :=
  (run parserBody fuel (parserReset text)).map Parser.calls

/-! ## Collecting text and code -/

inductive Mode where
  | html
  | code

def Mode.base : Mode → ParserState
  | .html => .html
  | .code => .code

def Mode.wait : Mode → ParserState
  | .html => .waitPerc
  | .code => .waitGt

def Mode.first : Mode → Byte
  | .html => 60
  | .code => 37

def Mode.second : Mode → Byte
  | .html => 37
  | .code => 62

def Mode.delim (m : Mode) : List Byte := [m.first, m.second]

def Mode.call (m : Mode) (cmd : Byte) (buf : List Byte) : Call :=
  match m with
  | .html => .html buf
  | .code => .code cmd buf

def Mode.after (m : Mode) (x : List Byte) : ParserState :=
  if x.getLast? = some m.first then m.wait else m.base

structure Parser.At (p : Parser) (s : ParserState) (cmd : Byte) (input buf : List Byte)
    (calls : List Call) : Prop where
  state : p.state = s
  cmdCode : p.cmdCode = cmd
  input : p.input = input
  buf : p.buf = buf
  calls : p.calls = calls

section
variable {p : Parser} {s : ParserState} {cmd c : Byte} {x y rest buf : List Byte}
    {calls : List Call} {m : Mode}

theorem Parser.At.fetch (h : p.At s cmd (c :: rest) buf calls) :
    p.fetchNextChar.At s cmd rest buf calls := by
  obtain ⟨hs, hc, hi, hb, hl⟩ := h
  cases rest with
  | nil =>
    exact ⟨by simp [fetchNextChar, hi, hs], by simp [fetchNextChar, hi, hc], by simp [fetchNextChar, hi],
      by simp [fetchNextChar, hi, hb], by simp [fetchNextChar, hi, hl]⟩
  | cons d rest =>
    exact ⟨by simp [fetchNextChar, hi, hs], by simp [fetchNextChar, hi, hc], by simp [fetchNextChar, hi],
      by simp [fetchNextChar, hi, hb], by simp [fetchNextChar, hi, hl]⟩

theorem parserOnBlock_mode (hs : p.state = m.base ∨ p.state = m.wait) (hbuf : buf ≠ []) :
    parserOnBlock p buf = some { p with
      buf := [], calls := p.calls ++ [m.call p.cmdCode buf] } := by
  cases m with
  | html =>
    rcases hs with hs | hs
    · simp [parserOnBlock, hs, Mode.base, hbuf, Mode.call]
    · simp [parserOnBlock, hs, Mode.wait, hbuf, Mode.call]
  | code =>
    rcases hs with hs | hs
    · simp [parserOnBlock, hs, Mode.base, hbuf, Mode.call]
    · simp [parserOnBlock, hs, Mode.wait, hbuf, Mode.call]

/-! What the loop does with a byte, by state. -/

theorem parserBody_html (hi : p.input = c :: rest) (hs : p.state = .html) :
    parserBody p = ((if c = 60 then { p with prev := c }.setState .waitPerc else { p with
      prev := c }).keep c).map
      Iter.again := by
  simp only [parserBody, hi, hs]

theorem parserBody_code (hi : p.input = c :: rest) (hs : p.state = .code) :
    parserBody p = ((if c = 37 then { p with prev := c }.setState .waitGt else { p with
      prev := c }).keep c).map
      Iter.again := by
  simp only [parserBody, hi, hs]

theorem parserBody_waitPerc (hi : p.input = c :: rest) (hs : p.state = .waitPerc) :
    parserBody p = if c = 37 then
        { p with prev := c }.erase.map fun q : Parser => .again { q.setState .startCode with
          codeLine := q.line }.fetchNextChar
      else some (.again ({ p with prev := c }.setState .html)) := by
  simp only [parserBody, hi, hs]

theorem parserBody_waitGt (hi : p.input = c :: rest) (hs : p.state = .waitGt) :
    parserBody p = if c = 62 then
        { p with prev := c }.erase.map fun q : Parser => .again ({ q.fetchNextChar with
          cmdCode := 0 }.setState .html)
      else some (.again ({ p with prev := c }.setState .code)) := by
  simp only [parserBody, hi, hs]

theorem parserBody_startCode (hi : p.input = c :: rest) (hs : p.state = .startCode) :
    parserBody p = if isspace c then some (.again ({ p with
      prev := c, cmdCode := 0 }.setState .code))
      else some (.again ({ p with prev := c, cmdCode := c }.fetchNextChar.setState .code)) := by
  simp only [parserBody, hi, hs]

theorem keep_mode (h : p.At s cmd (c :: rest) buf calls) (hs : s = m.base ∨ s = m.wait) :
    ∃ q, p.keep c = some q ∧
      q.At s cmd rest (fill (BUFSZ - 1) buf [c]).2
        (calls ++ (fill (BUFSZ - 1) buf [c]).1.map (m.call cmd)) := by
  by_cases hfull : buf.length + 1 = BUFSZ - 1
  · have hne : buf ++ [c] ≠ [] := by simp
    have hflush := parserOnBlock_mode (p := p) (h.state ▸ hs) hne
    refine ⟨_, by simp only [Parser.keep, h.buf, List.length_append, List.length_singleton,
        hfull, if_true, hflush]; rfl, ?_⟩
    have hat : Parser.At { p with
      buf := [], calls := p.calls ++ [m.call p.cmdCode (buf ++ [c])] } s cmd (c :: rest) []
        (calls ++ [m.call cmd (buf ++ [c])]) :=
          ⟨h.state, h.cmdCode, h.input, rfl, by simp [h.calls, h.cmdCode]⟩
    simpa [fill, hfull] using hat.fetch
  · refine ⟨_, by simp only [Parser.keep, h.buf, List.length_append, List.length_singleton,
        hfull, if_false]; rfl, ?_⟩
    have hat : Parser.At { p with buf := buf ++ [c] } s cmd (c :: rest) (buf ++ [c]) calls :=
      ⟨h.state, h.cmdCode, h.input, rfl, h.calls⟩
    simpa [fill, hfull] using hat.fetch

/-- A byte read in the base state of a mode. -/
theorem base_step (h : p.At m.base cmd (c :: rest) buf calls) :
    ∃ q, parserBody p = some (.again q) ∧ q.At (m.after [c]) cmd rest (fill (BUFSZ - 1) buf [c]).2
      (calls ++ (fill (BUFSZ - 1) buf [c]).1.map (m.call cmd)) := by
  have hafter : (m.after [c] = m.base ∨ m.after [c] = m.wait) := by
    unfold Mode.after
    split
    · exact Or.inr rfl
    · exact Or.inl rfl
  have hat : Parser.At (if c = m.first then { p with prev := c }.setState m.wait else { p with
    prev := c })
      (m.after [c]) cmd (c :: rest) buf calls := by
    by_cases hc : c = m.first
    · rw [if_pos hc]
      exact ⟨by simp [Mode.after, hc, Parser.setState], h.cmdCode, h.input, h.buf, h.calls⟩
    · rw [if_neg hc]
      exact ⟨by simp [Mode.after, hc, h.state], h.cmdCode, h.input, h.buf, h.calls⟩
  obtain ⟨q, hq, hq'⟩ := keep_mode hat hafter
  refine ⟨q, ?_, hq'⟩
  cases m with
  | html =>
    rw [parserBody_html h.input h.state]
    exact congrArg (Option.map Iter.again) hq
  | code =>
    rw [parserBody_code h.input h.state]
    exact congrArg (Option.map Iter.again) hq

/-- In the waiting state a byte that does not end the section is read again. -/
theorem wait_back (h : p.At m.wait cmd (c :: rest) buf calls) (hc : c ≠ m.second) :
    ∃ q, parserBody p = some (.again q) ∧ q.At m.base cmd (c :: rest) buf calls := by
  refine ⟨{ p with prev := c }.setState m.base, ?_, rfl, h.cmdCode, h.input, h.buf, h.calls⟩
  cases m with
  | html => exact (parserBody_waitPerc h.input h.state).trans (if_neg hc)
  | code => exact (parserBody_waitGt h.input h.state).trans (if_neg hc)

theorem mode_step (h : p.At s cmd (c :: rest) buf calls)
    (hs : s = m.base ∨ s = m.wait ∧ c ≠ m.second) :
    ∃ q, Reaches parserBody p q ∧ q.At (m.after [c]) cmd rest (fill (BUFSZ - 1) buf [c]).2
      (calls ++ (fill (BUFSZ - 1) buf [c]).1.map (m.call cmd)) := by
  rcases hs with rfl | ⟨rfl, hc⟩
  · obtain ⟨q, hq, hat⟩ := base_step h
    exact ⟨q, Relation.ReflTransGen.single hq, hat⟩
  · obtain ⟨e, he, heat⟩ := wait_back h hc
    obtain ⟨q, hq, hat⟩ := base_step heat
    exact ⟨q, Relation.ReflTransGen.head he (Relation.ReflTransGen.single hq), hat⟩

/-- A text without the delimiter is collected. -/
theorem collect (h : p.At m.base cmd (x ++ y) buf calls) (hno : ¬ m.delim <:+: x) :
    ∃ q, Reaches parserBody p q ∧ q.At (m.after x) cmd y (fill (BUFSZ - 1) buf x).2
      (calls ++ (fill (BUFSZ - 1) buf x).1.map (m.call cmd)) := by
  induction x using List.reverseRecOn generalizing y with
  | nil => exact ⟨p, Relation.ReflTransGen.refl, by simpa [Mode.after, fill] using h⟩
  | append_singleton x c ih =>
    rw [List.append_assoc] at h
    have hnox : ¬ m.delim <:+: x := fun hx => hno (hx.trans (List.prefix_append x [c]).isInfix)
    obtain ⟨q, hq, hat⟩ := ih h hnox
    have hs : m.after x = m.base ∨ m.after x = m.wait ∧ c ≠ m.second := by
      by_cases hlast : x.getLast? = some m.first
      · refine Or.inr ⟨by rw [Mode.after, if_pos hlast], ?_⟩
        rintro rfl
        obtain ⟨front, hfront⟩ := List.getLast?_eq_some_iff.mp hlast
        exact hno ⟨front, [], by simp [hfront, Mode.delim]⟩
      · exact Or.inl (by rw [Mode.after, if_neg hlast])
    obtain ⟨q', hq', hat'⟩ := mode_step hat hs
    refine ⟨q', hq.trans hq', ?_⟩
    rw [fill_append]
    simpa [Mode.after] using hat'

/-- What is left of a section when its delimiter is complete. -/
def Mode.flush (m : Mode) (cmd : Byte) (buf : List Byte) : List Call :=
  ([buf.dropLast].filter fun b => !b.isEmpty).map (m.call cmd)

theorem erase_mode (h : p.At m.wait cmd rest buf calls) :
    ∃ q, p.erase = some q ∧ q.At m.wait cmd rest [] (calls ++ m.flush cmd buf) := by
  by_cases hbuf : buf.dropLast = []
  · refine ⟨{ p with buf := [] }, by simp [Parser.erase, h.buf, hbuf], ?_⟩
    exact ⟨h.state, h.cmdCode, h.input, rfl, by simp [h.calls, hbuf, Mode.flush]⟩
  · have hflush := parserOnBlock_mode (p := p) (m := m) (Or.inr h.state) hbuf
    refine ⟨{ p with buf := [], calls := p.calls ++ [m.call p.cmdCode buf.dropLast] }, ?_, ?_⟩
    · rw [Parser.erase, h.buf, if_neg hbuf, hflush]
    · have hempty : buf.dropLast.isEmpty = false := by rwa [List.isEmpty_eq_false_iff]
      exact ⟨h.state, h.cmdCode, h.input, rfl, by simp [h.calls, h.cmdCode, hempty, Mode.flush]⟩

theorem html_close (h : p.At .waitPerc cmd (37 :: rest) buf calls) :
    ∃ q, parserBody p = some (.again q) ∧
    q.At .startCode cmd rest [] (calls ++ Mode.html.flush cmd buf) := by
  have hat : Parser.At { p with prev := 37 } Mode.html.wait cmd (37 :: rest) buf calls :=
    ⟨h.state, h.cmdCode, h.input, h.buf, h.calls⟩
  obtain ⟨e, he, heat⟩ := erase_mode hat
  have hstart : Parser.At { e.setState .startCode with
    codeLine := e.line } .startCode cmd (37 :: rest) []
      (calls ++ Mode.html.flush cmd buf) := ⟨rfl, heat.cmdCode, heat.input, heat.buf, heat.calls⟩
  refine ⟨_, ?_, hstart.fetch⟩
  rw [parserBody_waitPerc h.input h.state, if_pos rfl, he]
  rfl

theorem code_close (h : p.At .waitGt cmd (62 :: rest) buf calls) :
    ∃ q, parserBody p = some (.again q) ∧
    q.At .html 0 rest [] (calls ++ Mode.code.flush cmd buf) := by
  have hat : Parser.At { p with prev := 62 } Mode.code.wait cmd (62 :: rest) buf calls :=
    ⟨h.state, h.cmdCode, h.input, h.buf, h.calls⟩
  obtain ⟨e, he, heat⟩ := erase_mode hat
  have hfetch := heat.fetch
  refine ⟨{ e.fetchNextChar with
    cmdCode := 0 }.setState .html, ?_, rfl, rfl, hfetch.input, hfetch.buf, hfetch.calls⟩
  rw [parserBody_waitGt h.input h.state, if_pos rfl, he]
  rfl

def command : List Byte → Byte × List Byte
  | [] => (0, [])
  | c :: body => if isspace c then (0, c :: body) else (c, body)

theorem start_code (h : p.At .startCode cmd (c :: rest) buf calls) :
    ∃ q, parserBody p = some (.again q) ∧
    q.At .code (command (c :: rest)).1 (command (c :: rest)).2 buf calls := by
  by_cases hc : isspace c
  · refine ⟨{ p with prev := c, cmdCode := 0 }.setState .code, ?_, ?_⟩
    · exact (parserBody_startCode h.input h.state).trans (if_pos hc)
    · simp only [command, if_pos hc]
      exact ⟨rfl, rfl, h.input, h.buf, h.calls⟩
  · have hat : Parser.At { p with prev := c, cmdCode := c } .startCode c (c :: rest) buf calls :=
      ⟨h.state, rfl, h.input, h.buf, h.calls⟩
    have hfetch := hat.fetch
    refine ⟨{ p with prev := c, cmdCode := c }.fetchNextChar.setState .code, ?_, ?_⟩
    · exact (parserBody_startCode h.input h.state).trans (if_neg hc)
    · simp only [command, if_neg hc]
      exact ⟨rfl, hfetch.cmdCode, hfetch.input, hfetch.buf, hfetch.calls⟩

/-- A section up to its delimiter. -/
theorem mode_section {text : List Byte} (h : p.At m.base cmd text [] calls)
    (hfirst : FirstAt m.delim text x rest) :
    ∃ q, Reaches parserBody p q ∧
    q.At m.wait cmd (m.second :: rest) (fill (BUFSZ - 1) [] (x ++ [m.first])).2
      (calls ++ (fill (BUFSZ - 1) [] (x ++ [m.first])).1.map (m.call cmd)) := by
  have hsplit : text = (x ++ [m.first]) ++ (m.second :: rest) := by simp [hfirst.split, Mode.delim]
  rw [hsplit] at h
  obtain ⟨q, hq, hat⟩ := collect h hfirst.first
  exact ⟨q, hq, by simpa [Mode.after] using hat⟩

/-- The text up to the next `<%`. -/
theorem html_section {text : List Byte} (h : p.At .html cmd text [] calls)
    (hfirst : FirstAt Mode.html.delim text x rest) :
    ∃ q, Reaches parserBody p q ∧
    q.At .startCode cmd rest [] (calls ++ (closed (BUFSZ - 1) x 60).map Call.html) := by
  obtain ⟨e, he, heat⟩ := mode_section (m := .html) h hfirst
  obtain ⟨q, hq, hat⟩ := html_close heat
  refine ⟨q, he.tail hq, ?_⟩
  rw [closed, List.map_append, ← List.append_assoc]
  exact hat

/-- The code up to the next `%>`. -/
theorem code_section {text : List Byte} (h : p.At .code cmd text [] calls)
    (hfirst : FirstAt Mode.code.delim text x rest) :
    ∃ q, Reaches parserBody p q ∧
    q.At .html 0 rest [] (calls ++ (closed (BUFSZ - 1) x 37).map (Call.code cmd)) := by
  obtain ⟨e, he, heat⟩ := mode_section (m := .code) h hfirst
  obtain ⟨q, hq, hat⟩ := code_close heat
  refine ⟨q, he.tail hq, ?_⟩
  rw [closed, List.map_append, ← List.append_assoc]
  exact hat

/-! ## Runs to the end of the text -/

/-- The states of a parser that was started with `parserReset`. -/
def Parser.Live (p : Parser) : Prop :=
  p.state = .start ∨ p.state = .startCode ∨ ∃ m : Mode, p.state = m.base ∨ p.state = m.wait

theorem mode_live (hs : p.state = m.base ∨ p.state = m.wait) : p.Live := Or.inr (Or.inr ⟨m, hs⟩)

theorem Mode.after_cases (m : Mode) (x : List Byte) : m.after x = m.base ∨ m.after x = m.wait := by
  unfold Mode.after
  split
  · exact Or.inr rfl
  · exact Or.inl rfl

/-- The rounds that are left: a byte is read at most twice. -/
def Parser.weight (p : Parser) : ℕ :=
  2 * p.input.length + if p.state = .html ∨ p.state = .code then 0 else 1

theorem weight_read {q : Parser} (hp : p.input = c :: rest) (hq : q.input = rest) :
    q.weight < p.weight := by
  simp only [Parser.weight, hp, hq, List.length_cons]
  split <;> split <;> omega

theorem weight_again {q : Parser} (hi : q.input = p.input) (hq : q.state = .html ∨ q.state = .code)
    (hp : ¬ (p.state = .html ∨ p.state = .code)) : q.weight < p.weight := by
  simp only [Parser.weight, hi, if_pos hq, if_neg hp]
  omega

theorem live_step (h : p.Live) (hi : p.input = c :: rest) :
    ∃ q, parserBody p = some (.again q) ∧ q.Live ∧ p.calls <+: q.calls ∧ q.weight < p.weight := by
  rcases h with hs | hs | ⟨m, hs | hs⟩
  · refine ⟨{ p with prev := c }.setState .html, by simp [parserBody, hi,
      hs], ?_, List.prefix_refl _, ?_⟩
    · exact mode_live (m := .html) (Or.inl rfl)
    · exact weight_again rfl (Or.inl rfl) (by simp [hs])
  · have hat : p.At .startCode p.cmdCode (c :: rest) p.buf p.calls := ⟨hs, rfl, hi, rfl, rfl⟩
    obtain ⟨q, hq, hat'⟩ := start_code hat
    refine ⟨q, hq, mode_live (m := .code) (Or.inl hat'.state), by rw [hat'.calls], ?_⟩
    by_cases hc : isspace c
    · have hinput : q.input = p.input := by simp [hat'.input, command, hc, hi]
      exact weight_again hinput (Or.inr hat'.state) (by simp [hs])
    · exact weight_read hi (by simp [hat'.input, command, hc])
  · have hat : p.At m.base p.cmdCode (c :: rest) p.buf p.calls := ⟨hs, rfl, hi, rfl, rfl⟩
    obtain ⟨q, hq, hat'⟩ := base_step hat
    refine ⟨q, hq, mode_live (hat'.state ▸ m.after_cases [c]), ?_, weight_read hi hat'.input⟩
    rw [hat'.calls]
    exact List.prefix_append _ _
  · have hat : p.At m.wait p.cmdCode (c :: rest) p.buf p.calls := ⟨hs, rfl, hi, rfl, rfl⟩
    by_cases hc : c = m.second
    · cases m with
      | html =>
        obtain rfl : c = 37 := hc
        obtain ⟨q, hq, hat'⟩ := html_close hat
        refine ⟨q, hq, Or.inr (Or.inl hat'.state), ?_, weight_read hi hat'.input⟩
        rw [hat'.calls]
        exact List.prefix_append _ _
      | code =>
        obtain rfl : c = 62 := hc
        obtain ⟨q, hq, hat'⟩ := code_close hat
        refine ⟨q, hq, mode_live (m := .html) (Or.inl hat'.state), ?_, weight_read hi hat'.input⟩
        rw [hat'.calls]
        exact List.prefix_append _ _
    · obtain ⟨q, hq, hat'⟩ := wait_back hat hc
      refine ⟨q, hq, mode_live (Or.inl hat'.state), by rw [hat'.calls], ?_⟩
      refine weight_again (by rw [hat'.input, hi]) ?_ ?_
      · rw [hat'.state]
        cases m
        · exact Or.inl rfl
        · exact Or.inr rfl
      · rw [hs]
        cases m <;> simp [Mode.wait]

theorem parserBody_end {r : Parser} (hi : p.input = []) (hbuf : p.buf ≠ [])
    (hflush : parserOnBlock p p.buf = some r) :
    parserBody p = some (.leave r) := by
  simp [parserBody, hi, hbuf, hflush]

theorem live_leave (h : p.Live) (hi : p.input = []) :
    ∃ r, parserBody p = some (.leave r) ∧ p.calls <+: r.calls := by
  by_cases hbuf : p.buf = []
  · exact ⟨p, by simp [parserBody, hi, hbuf], List.prefix_refl _⟩
  · rcases h with hs | hs | ⟨m, hs⟩
    · have hflush : parserOnBlock p p.buf = some { p with buf := [] } := by simp [parserOnBlock, hs]
      exact ⟨_, parserBody_end hi hbuf hflush, List.prefix_refl _⟩
    · have hflush : parserOnBlock p p.buf =
          some { p with buf := [], calls := p.calls ++ [.code p.cmdCode p.buf] } := by
            simp [parserOnBlock, hs, hbuf]
      exact ⟨_, parserBody_end hi hbuf hflush, List.prefix_append _ _⟩
    · exact ⟨_, parserBody_end hi hbuf (parserOnBlock_mode hs hbuf), List.prefix_append _ _⟩

/-- The parser always ends, and what it has passed on stays. -/
theorem parser_total (h : p.Live) :
    ∃ r, Ends (fun n => run parserBody n p) r ∧ p.calls <+: r.calls := by
  obtain ⟨w, hw⟩ : ∃ w, p.weight = w := ⟨_, rfl⟩
  induction w using Nat.strong_induction_on generalizing p with
  | h w ih =>
    cases hi : p.input with
    | nil =>
      obtain ⟨r, hr, hpre⟩ := live_leave h hi
      exact ⟨r, ends_leave hr, hpre⟩
    | cons c rest =>
      obtain ⟨q, hq, hlive, hpre, hlt⟩ := live_step h hi
      obtain ⟨r, hr, hpre'⟩ := ih q.weight (hw ▸ hlt) hlive rfl
      exact ⟨r, hr.run_again hq, hpre.trans hpre'⟩

/-- Once code has been passed on, the rest of the run does not matter. -/
theorem passed_on {q : Parser} {cd : Call} (hlive : q.Live) (hcalls : q.calls = calls ++ [cd])
    (hreach : Reaches parserBody p q) :
    ∃ r more, Ends (fun n => run parserBody n p) r ∧ r.calls = calls ++ cd :: more := by
  obtain ⟨r, hr, more, hmore⟩ := parser_total hlive
  refine ⟨r, more, hr.reaches hreach, ?_⟩
  rw [← hmore, hcalls, List.append_assoc, List.singleton_append]

/-- Code that is collected after `>` is passed on with it. -/
theorem code_first {input : List Byte} (h : p.At s 37 input (62 :: buf) calls)
    (hs : s = .code ∨ s = .waitGt ∧ buf ≠ []) :
    ∃ body r more, Ends (fun n => run parserBody n p) r ∧
    r.calls = calls ++ .code 37 (62 :: body) :: more := by
  induction input generalizing p s buf with
  | nil =>
    have hmode : p.state = Mode.code.base ∨ p.state = Mode.code.wait := by
      rw [h.state]
      rcases hs with rfl | ⟨rfl, -⟩
      · exact Or.inl rfl
      · exact Or.inr rfl
    have hne : p.buf ≠ [] := by simp [h.buf]
    refine ⟨buf, _, [], ends_leave (parserBody_end h.input hne (parserOnBlock_mode hmode hne)), ?_⟩
    simp [h.calls, h.cmdCode, h.buf, Mode.call]
  | cons c rest ih =>
    by_cases hend : s = .waitGt ∧ c = 62
    · obtain ⟨rfl, rfl⟩ := hend
      obtain ⟨-, hbuf⟩ := hs.resolve_left (by simp)
      obtain ⟨q, hq, hat⟩ := code_close h
      refine ⟨buf.dropLast, passed_on (mode_live (m := .html) (Or.inl hat.state)) ?_
        (Relation.ReflTransGen.single hq)⟩
      simp [hat.calls, Mode.flush, List.dropLast_cons_of_ne_nil hbuf, Mode.call]
    · have hs' : s = Mode.code.base ∨ s = Mode.code.wait ∧ c ≠ Mode.code.second := by
        rcases hs with rfl | ⟨rfl, -⟩
        · exact Or.inl rfl
        · exact Or.inr ⟨rfl, fun hc => hend ⟨rfl, hc⟩⟩
      obtain ⟨q, hq, hat⟩ := mode_step h hs'
      by_cases hfull : (62 :: buf).length + 1 = BUFSZ - 1
      · refine ⟨buf ++ [c], passed_on (mode_live (hat.state ▸ Mode.code.after_cases [c])) ?_ hq⟩
        rw [hat.calls, fill, if_pos hfull]
        rfl
      · have hat' : q.At (Mode.code.after [c]) 37 rest (62 :: (buf ++ [c])) calls := by
          rw [fill, if_neg hfull, fill] at hat
          simpa using hat
        have hstate : Mode.code.after [c] = .code ∨ Mode.code.after [c] = .waitGt ∧
            buf ++ [c] ≠ [] := by
          rcases Mode.code.after_cases [c] with hbase | hwait
          · exact Or.inl hbase
          · exact Or.inr ⟨hwait, by simp⟩
        obtain ⟨body, r, more, hr, hcalls⟩ := ih hat' hstate
        exact ⟨body, r, more, hr.reaches hq, hcalls⟩

/-- A section without content takes the `%` of its end as its command. -/
theorem empty_section {text : List Byte} (h : p.At .startCode cmd (37 :: 62 :: text) [] calls) :
    ∃ body r more, Ends (fun n => run parserBody n p) r ∧
    r.calls = calls ++ .code 37 (62 :: body) :: more := by
  obtain ⟨e, he, heat⟩ := start_code h
  have hcommand : command (37 :: 62 :: text) = (37, 62 :: text) := by simp [command, isspace]
  rw [hcommand] at heat
  obtain ⟨q, hq, hat⟩ := base_step (m := .code) heat
  have hone : (fill (BUFSZ - 1) [] [62] : List (List Byte) × List Byte) = ([], [62]) := by
    rw [fill, if_neg (by decide)]
    rfl
  rw [hone, show Mode.code.after [62] = .code from rfl] at hat
  obtain ⟨body, r, more, hr, hcalls⟩ := code_first hat (Or.inl rfl)
  exact ⟨body, r, more, (hr.run_again hq).run_again he, by simpa using hcalls⟩

end

end Klone.Trans
