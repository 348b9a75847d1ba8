import Klone.Trans.Page

/-! # The line of a section

Every call of `cb_code` finds in `code_line` the line in which its section begins. The
parser counts a line end by its first byte, and takes a CR behind an LF for the second
byte of one.
-/
namespace Klone.Trans
open Loop

def Call.isCode : Call → Bool
  | .html _ => false
  | .code _ _ => true

/-- A call of `cb_code`, the value of `code_line` and the text before the `<%` of its section. -/
structure CodeCall where
  codeLine : ℕ
  opened : List Byte
  call : Call

structure Watched where
  parser : Parser
  opened : List Byte
  log : List CodeCall

def Parser.Opens (p : Parser) : Prop := p.state = .waitPerc ∧ p.input.head? = some 37

instance (p : Parser) : Decidable p.Opens := inferInstanceAs (Decidable (_ ∧ _))

def Parser.consumed (text : List Byte) (p : Parser) : List Byte :=
  text.take (text.length - p.input.length)

def Watched.next (text : List Byte) (w : Watched) (q : Parser) : Watched where
  parser := q
  opened := if w.parser.Opens then (w.parser.consumed text).dropLast else w.opened
  log := w.log ++ ((q.calls.drop w.parser.calls.length).filter Call.isCode).map fun c =>
    ⟨w.parser.codeLine, w.opened, c⟩

def watchBody (text : List Byte) (w : Watched) : Option (Iter Watched Watched) :=
  (parserBody w.parser).map fun
    | .again q => .again (w.next text q)
    | .leave q => .leave (w.next text q)

def parserLog (text : List Byte) (fuel : ℕ) : Option (List CodeCall) :=
  (run (watchBody text) fuel ⟨parserReset text, [], []⟩).map Watched.log

/-! ## What a round does to the lines -/

def counts (prev c : Byte) : ℕ :=
  if (c = CR ∨ c = LF) ∧ prev ≠ (if c = CR then LF else CR) then 1 else 0

/-- What the parser counts in a text that follows `prev`. -/
def counted : Byte → List Byte → ℕ
  | _, [] => 0
  | prev, c :: rest => counts prev c + counted c rest

theorem countLine_eq (line : ℕ) (prev c : Byte) : countLine line prev c = line + counts prev c := by
  unfold countLine counts
  by_cases h : (c = CR ∨ c = LF) ∧ prev ≠ (if c = CR then LF else CR)
  · rw [if_pos h, if_pos h]
  · rw [if_neg h, if_neg h, add_zero]

theorem counted_concat (prev : Byte) (xs : List Byte) (c d : Byte) :
    counted prev (xs ++ [c] ++ [d]) = counted prev (xs ++ [c]) + counts c d := by
  induction xs generalizing prev with
  | nil => rfl
  | cons x xs ih =>
    have hx := ih x
    simp only [List.cons_append, counted, hx, Nat.add_assoc]

theorem counted_plain (prev : Byte) (xs : List Byte) {d : Byte} (hd : d ≠ CR ∧ d ≠ LF) :
    counted prev (xs ++ [d]) = counted prev xs := by
  have hzero : ∀ c, counts c d = 0 := fun c => if_neg (by simp [hd.1, hd.2])
  induction xs generalizing prev with
  | nil => exact hzero prev
  | cons x xs ih => rw [List.cons_append, counted, counted, ih]

def nextLine (line : ℕ) : List Byte → ℕ
  | c :: d :: _ => countLine line c d
  | _ => line

def Parser.InCode (p : Parser) : Prop := p.state = .startCode ∨ p.state = .code ∨ p.state = .waitGt

structure Passed (p q : Parser) : Prop where
  state : q.state = p.state
  input : q.input = p.input
  line : q.line = p.line
  codeLine : q.codeLine = p.codeLine
  calls : ∃ new, q.calls = p.calls ++ new ∧ ∀ c ∈ new, c.isCode = true → p.InCode

structure Moves (p q : Parser) : Prop where
  moved : q.input = p.input ∧ q.line = p.line ∨ q.input = p.input.tail ∧
    q.line = nextLine p.line p.input
  opens : p.Opens → q.codeLine = p.line
  stays : ¬ p.Opens → q.codeLine = p.codeLine ∧ (q.InCode → p.InCode)
  wait : q.state = .waitPerc → p.input.head? = some 60 ∧ q.input = p.input.tail
  calls : ∃ new, q.calls = p.calls ++ new ∧ ∀ c ∈ new, c.isCode = true → p.InCode

section
variable {p q : Parser} {c : Byte} {rest buf : List Byte}

theorem fetch_fields (p : Parser) :
    p.fetchNextChar.state = p.state ∧ p.fetchNextChar.input = p.input.tail ∧
    p.fetchNextChar.line = nextLine p.line p.input ∧ p.fetchNextChar.codeLine = p.codeLine ∧
    p.fetchNextChar.calls = p.calls := by
  unfold Parser.fetchNextChar
  split <;> simp [nextLine, *]

theorem Passed.refl (p : Parser) (buf : List Byte) : Passed p { p with buf := buf } :=
  ⟨rfl, rfl, rfl, rfl, [], (List.append_nil _).symm, fun _ hc => absurd hc List.not_mem_nil⟩

theorem passed_call {call : Call} (h : call.isCode = true → p.InCode) (buf : List Byte) :
    Passed p { p with buf := [], calls := if buf = [] then p.calls else p.calls ++ [call] } := by
  refine ⟨rfl, rfl, rfl, rfl, if buf = [] then [] else [call], ?_, ?_⟩
  · dsimp only
    split
    · rw [List.append_nil]
    · rfl
  · intro c hc
    split at hc
    · cases hc
    · rw [List.mem_singleton.mp hc]
      exact h

theorem parserOnBlock_call {m : Mode} (hs : p.state = m.base ∨ p.state = m.wait) (buf : List Byte) :
    parserOnBlock p buf =
      some { p with
          buf := [], calls := if buf = [] then p.calls else p.calls ++ [m.call p.cmdCode buf] } := by
  cases m with
  | html =>
    rcases hs with hs | hs
    · simp [parserOnBlock, hs, Mode.base, Mode.call]
    · simp [parserOnBlock, hs, Mode.wait, Mode.call]
  | code =>
    rcases hs with hs | hs
    · simp [parserOnBlock, hs, Mode.base, Mode.call]
    · simp [parserOnBlock, hs, Mode.wait, Mode.call]

theorem mode_inCode {m : Mode} (hs : p.state = m.base ∨ p.state = m.wait) {cmd : Byte}
    (h : (m.call cmd buf).isCode = true) : p.InCode := by
  cases m with
  | html => exact absurd h Bool.false_ne_true
  | code => exact Or.inr hs

theorem parserOnBlock_passed (hp : p.Live) (h : parserOnBlock p buf = some q) : Passed p q := by
  rcases hp with hs | hs | ⟨m, hs⟩
  · have hb : parserOnBlock p buf = some { p with buf := [] } := by simp [parserOnBlock, hs]
    obtain rfl := Option.some.inj (hb.symm.trans h)
    exact Passed.refl p []
  · have hb : parserOnBlock p buf = some { p with
        buf := [], calls := if buf = [] then p.calls else p.calls ++ [.code p.cmdCode buf] } := by
      simp [parserOnBlock, hs]
    obtain rfl := Option.some.inj (hb.symm.trans h)
    exact passed_call (fun _ => Or.inl hs) buf
  · obtain rfl := Option.some.inj ((parserOnBlock_call hs buf).symm.trans h)
    exact passed_call (mode_inCode hs) buf

theorem keep_passed (hp : p.Live) (h : p.keep c = some q) :
    ∃ e, Passed p e ∧ q = e.fetchNextChar := by
  unfold Parser.keep at h
  dsimp only at h
  split at h
  · obtain ⟨e, he, rfl⟩ := Option.map_eq_some_iff.mp h
    exact ⟨e, parserOnBlock_passed hp he, rfl⟩
  · obtain rfl := Option.some.inj h
    exact ⟨_, Passed.refl p _, rfl⟩

theorem erase_passed (hp : p.Live) (h : p.erase = some q) : Passed p q := by
  unfold Parser.erase at h
  split at h
  · obtain rfl := Option.some.inj h
    exact Passed.refl p []
  · exact parserOnBlock_passed hp h

/-- A byte that is kept is behind the parser. -/
theorem moves_keep {p' : Parser} (h : p'.keep c = some q) (hl : p'.Live) (hi : p'.input = p.input)
    (hline : p'.line = p.line) (hcode : p'.codeLine = p.codeLine) (hcalls : p'.calls = p.calls)
    (hno : ¬ p.Opens) (hin : p'.InCode ↔ p.InCode)
    (hwait : p'.state = .waitPerc → p.input.head? = some 60) : Moves p q := by
  obtain ⟨e, he, rfl⟩ := keep_passed hl h
  obtain ⟨hs, hinput, hl', hc, hcs⟩ := fetch_fields e
  obtain ⟨new, hnew, hcalls'⟩ := he.calls
  refine ⟨Or.inr ⟨?_, ?_⟩, fun ho => absurd ho hno, fun _ => ⟨?_, ?_⟩, fun hw => ⟨?_, ?_⟩,
    new, ?_, ?_⟩
  · rw [hinput, he.input, hi]
  · rw [hl', he.input, he.line, hi, hline]
  · rw [hc, he.codeLine, hcode]
  · intro hq
    rw [Parser.InCode, hs, he.state] at hq
    exact hin.mp hq
  · rw [hs, he.state] at hw
    exact hwait hw
  · rw [hinput, he.input, hi]
  · rw [hcs, hnew, hcalls]
  · intro d hd hcd
    exact hin.mp (hcalls' d hd hcd)

/-- A byte that is looked at again. -/
theorem moves_back (hi : q.input = p.input) (hline : q.line = p.line)
    (hcode : q.codeLine = p.codeLine) (hcalls : q.calls = p.calls) (hno : ¬ p.Opens)
    (hin : q.InCode → p.InCode) (hwait : q.state ≠ .waitPerc) :
    Moves p q :=
  ⟨Or.inl ⟨hi, hline⟩, fun ho => absurd ho hno, fun _ => ⟨hcode, hin⟩, fun hw => absurd hw hwait,
    [], by rw [hcalls, List.append_nil], fun _ hc => absurd hc List.not_mem_nil⟩

theorem not_inCode {s : ParserState} (hs : p.state = s)
    (h : s ≠ .startCode ∧ s ≠ .code ∧ s ≠ .waitGt) : ¬ p.InCode := by
  rintro (hp | hp | hp)
  · exact h.1 (hs.symm.trans hp)
  · exact h.2.1 (hs.symm.trans hp)
  · exact h.2.2 (hs.symm.trans hp)

theorem not_opens (h : p.state ≠ .waitPerc) : ¬ p.Opens := fun ho => h ho.1

theorem moves_html (hi : p.input = c :: rest) (hs : p.state = .html)
    (hb : parserBody p = some (.again q)) :
    Moves p q := by
  have hno : ¬ p.Opens := not_opens (by rw [hs]; decide)
  have hcode : ¬ p.InCode := not_inCode hs (by decide)
  rw [parserBody_html hi hs] at hb
  obtain ⟨e, he, heq⟩ := Option.map_eq_some_iff.mp hb
  obtain rfl := Iter.again.inj heq
  split at he
  · next hc =>
    refine moves_keep he (mode_live (m := .html) (Or.inr rfl)) rfl rfl rfl rfl hno ?_ ?_
    · exact iff_of_false (not_inCode (s := .waitPerc) rfl (by decide)) hcode
    · intro _
      rw [hi, hc, List.head?_cons]
  · refine moves_keep he (mode_live (m := .html) (Or.inl hs)) rfl rfl rfl rfl hno Iff.rfl ?_
    intro hw
    change p.state = .waitPerc at hw
    rw [hs] at hw
    cases hw

theorem moves_waitPerc (hi : p.input = c :: rest) (hs : p.state = .waitPerc)
    (hb : parserBody p = some (.again q)) :
    Moves p q := by
  have hcode : ¬ p.InCode := not_inCode hs (by decide)
  rw [parserBody_waitPerc hi hs] at hb
  split at hb
  · next hc =>
    obtain ⟨e, he, heq⟩ := Option.map_eq_some_iff.mp hb
    obtain rfl := Iter.again.inj heq
    have hpass := erase_passed (p := { p with prev := c }) (mode_live (m := .html) (Or.inr hs)) he
    obtain ⟨hstate, hinput, hline, hcl, hcalls⟩ :=
      fetch_fields { e.setState .startCode with codeLine := e.line }
    obtain ⟨new, hnew, hcs⟩ := hpass.calls
    have hopens : p.Opens := ⟨hs, by rw [hi, hc, List.head?_cons]⟩
    refine ⟨Or.inr ⟨?_, ?_⟩, fun _ => ?_, fun hno => absurd hopens hno, fun hw => ?_, new, ?_, hcs⟩
    · rw [hinput]
      exact congrArg List.tail hpass.input
    · rw [hline]
      exact congrArg₂ nextLine hpass.line hpass.input
    · rw [hcl]
      exact hpass.line
    · rw [hstate] at hw
      cases hw
    · rw [hcalls]
      exact hnew
  · next hc =>
    obtain rfl := Iter.again.inj (Option.some.inj hb)
    refine moves_back rfl rfl rfl rfl ?_ ?_ ?_
    · rintro ⟨-, hhead⟩
      rw [hi, List.head?_cons] at hhead
      exact hc (Option.some.inj hhead)
    · exact fun hq => absurd hq (not_inCode (s := .html) rfl (by decide))
    · exact fun hw => ParserState.noConfusion hw

theorem moves_startCode (hi : p.input = c :: rest) (hs : p.state = .startCode)
    (hb : parserBody p = some (.again q)) :
    Moves p q := by
  have hno : ¬ p.Opens := not_opens (by rw [hs]; decide)
  rw [parserBody_startCode hi hs] at hb
  split at hb
  · obtain rfl := Iter.again.inj (Option.some.inj hb)
    exact moves_back rfl rfl rfl rfl hno (fun _ => Or.inl hs) (fun hw => ParserState.noConfusion hw)
  · obtain rfl := Iter.again.inj (Option.some.inj hb)
    obtain ⟨-, hinput, hline, hcl, hcalls⟩ := fetch_fields { p with prev := c, cmdCode := c }
    refine ⟨Or.inr ⟨hinput, hline⟩, fun ho => absurd ho hno, fun _ => ⟨hcl, fun _ => Or.inl hs⟩,
      fun hw => ?_,
      [], ?_, fun _ hd => absurd hd List.not_mem_nil⟩
    · cases hw
    · rw [List.append_nil]
      exact hcalls

theorem moves_code (hi : p.input = c :: rest) (hs : p.state = .code)
    (hb : parserBody p = some (.again q)) :
    Moves p q := by
  have hno : ¬ p.Opens := not_opens (by rw [hs]; decide)
  have hcode : p.InCode := Or.inr (Or.inl hs)
  rw [parserBody_code hi hs] at hb
  obtain ⟨e, he, heq⟩ := Option.map_eq_some_iff.mp hb
  obtain rfl := Iter.again.inj heq
  split at he
  · refine moves_keep he (mode_live (m := .code) (Or.inr rfl)) rfl rfl rfl rfl hno ?_ ?_
    · exact iff_of_true (Or.inr (Or.inr rfl)) hcode
    · intro hw
      cases hw
  · refine moves_keep he (mode_live (m := .code) (Or.inl hs)) rfl rfl rfl rfl hno Iff.rfl ?_
    intro hw
    change p.state = .waitPerc at hw
    rw [hs] at hw
    cases hw

theorem moves_waitGt (hi : p.input = c :: rest) (hs : p.state = .waitGt)
    (hb : parserBody p = some (.again q)) :
    Moves p q := by
  have hno : ¬ p.Opens := not_opens (by rw [hs]; decide)
  have hcode : p.InCode := Or.inr (Or.inr hs)
  rw [parserBody_waitGt hi hs] at hb
  split at hb
  · obtain ⟨e, he, heq⟩ := Option.map_eq_some_iff.mp hb
    obtain rfl := Iter.again.inj heq
    have hpass := erase_passed (p := { p with prev := c }) (mode_live (m := .code) (Or.inr hs)) he
    obtain ⟨-, hinput, hline, hcl, hcalls⟩ := fetch_fields e
    obtain ⟨new, hnew, hcs⟩ := hpass.calls
    refine ⟨Or.inr ⟨?_, ?_⟩, fun ho => absurd ho hno, fun _ => ⟨?_, fun _ => hcode⟩, fun hw => ?_,
      new, ?_, hcs⟩
    · exact hinput.trans (congrArg List.tail hpass.input)
    · exact hline.trans (congrArg₂ nextLine hpass.line hpass.input)
    · exact hcl.trans hpass.codeLine
    · cases hw
    · exact hcalls.trans hnew
  · obtain rfl := Iter.again.inj (Option.some.inj hb)
    exact moves_back rfl rfl rfl rfl hno (fun _ => hcode) (fun hw => ParserState.noConfusion hw)

theorem live_moves (hl : p.Live) (hi : p.input = c :: rest) (hb : parserBody p = some (.again q)) :
    Moves p q := by
  rcases hl with hs | hs | ⟨m, hs⟩
  · have hno : ¬ p.Opens := not_opens (by rw [hs]; decide)
    have hstart : parserBody p = some (.again ({ p with prev := c }.setState .html)) := by
      simp [parserBody, hi, hs]
    rw [hstart] at hb
    obtain rfl := Iter.again.inj (Option.some.inj hb)
    exact moves_back rfl rfl rfl rfl hno
      (fun hq => absurd hq (not_inCode (s := .html) rfl (by decide)))
      (fun hw => ParserState.noConfusion hw)
  · exact moves_startCode hi hs hb
  · cases m with
    | html =>
      rcases hs with hs | hs
      · exact moves_html hi hs hb
      · exact moves_waitPerc hi hs hb
    | code =>
      rcases hs with hs | hs
      · exact moves_code hi hs hb
      · exact moves_waitGt hi hs hb

/-- At the end of the text the rest of the buffer is passed on. -/
theorem leave_calls (hl : p.Live) (hi : p.input = []) (hb : parserBody p = some (.leave q)) :
    ∃ new, q.calls = p.calls ++ new ∧ ∀ c ∈ new, c.isCode = true → p.InCode := by
  by_cases hbuf : p.buf = []
  · have hend : parserBody p = some (.leave p) := by simp [parserBody, hi, hbuf]
    obtain rfl := Iter.leave.inj (Option.some.inj (hend.symm.trans hb))
    exact (Passed.refl p p.buf).calls
  · have hend : parserBody p = (parserOnBlock p p.buf).map Iter.leave := by
      simp [parserBody, hi, hbuf]
    rw [hend] at hb
    obtain ⟨e, he, heq⟩ := Option.map_eq_some_iff.mp hb
    obtain rfl := Iter.leave.inj heq
    exact (parserOnBlock_passed hl he).calls

end

/-! ## What is noted -/

structure Opening (text : List Byte) (line : ℕ) (opened : List Byte) : Prop where
  split : ∃ rest, text = opened ++ Mode.html.delim ++ rest
  line : line = 1 + counted 0 opened

structure Lined (text : List Byte) (w : Watched) (done : List Byte) : Prop where
  live : w.parser.Live
  split : text = done ++ w.parser.input
  line : w.parser.line = 1 + counted 0 (done ++ w.parser.input.take 1)
  wait : w.parser.state = .waitPerc → done.getLast? = some 60
  inCode : w.parser.InCode → Opening text w.parser.codeLine w.opened
  log : ∀ e ∈ w.log, Opening text e.codeLine e.opened

theorem lined_reset (text : List Byte) : Lined text ⟨parserReset text, [], []⟩ [] := by
  refine ⟨Or.inl rfl, rfl, ?_, fun hw => ParserState.noConfusion hw, ?_,
    fun e he => absurd he List.not_mem_nil⟩
  · cases text with
    | nil => rfl
    | cons c text =>
      have hone : (1 : ℕ) + counted 0 [c] = countLine 1 0 c := by
        rw [countLine_eq, counted, counted, add_zero]
      exact hone.symm
  · exact fun hin => absurd hin (not_inCode (s := .start) rfl (by decide))

section
variable {text done : List Byte} {w : Watched} {q : Parser}

theorem Lined.consumed (h : Lined text w done) : w.parser.consumed text = done := by
  have hlen := congrArg List.length h.split
  rw [List.length_append] at hlen
  rw [Parser.consumed, hlen, Nat.add_sub_cancel, h.split, List.take_left]

/-- The calls that are noted are made inside the section that is open. -/
theorem Lined.log_next (h : Lined text w done)
    (hcalls : ∃ new, q.calls = w.parser.calls ++ new ∧ ∀ c ∈ new, c.isCode = true →
      w.parser.InCode) :
    ∀ e ∈ (w.next text q).log, Opening text e.codeLine e.opened := by
  intro e he
  rcases List.mem_append.mp he with he | he
  · exact h.log e he
  · obtain ⟨new, hnew, hcs⟩ := hcalls
    obtain ⟨c, hc, rfl⟩ := List.mem_map.mp he
    rw [hnew, List.drop_left, List.mem_filter] at hc
    exact h.inCode (hcs c hc.1 hc.2)

theorem Lined.opening (h : Lined text w done) (ho : w.parser.Opens) :
    Opening text w.parser.line (w.parser.consumed text).dropLast := by
  obtain ⟨before, hdone⟩ := List.getLast?_eq_some_iff.mp (h.wait ho.1)
  obtain ⟨rest, hinput⟩ := List.head?_eq_some_iff.mp ho.2
  rw [h.consumed, hdone, List.dropLast_concat]
  refine ⟨⟨rest, ?_⟩, ?_⟩
  · rw [h.split, hdone, hinput, List.append_assoc, List.append_assoc]
    rfl
  · have hline := h.line
    rw [hdone, hinput, List.take_succ_cons, List.take_zero, counted_plain _ _ (by decide),
      counted_plain _ _ (by decide)] at hline
    exact hline

theorem Lined.step (h : Lined text w done) {c : Byte} {rest : List Byte}
    (hi : w.parser.input = c :: rest) (hlive : q.Live) (hm : Moves w.parser q) :
    ∃ done', Lined text (w.next text q) done' := by
  have hlog := h.log_next hm.calls
  have hopened : q.InCode → Opening text q.codeLine (w.next text q).opened := by
    intro hq
    by_cases ho : w.parser.Opens
    · have hopen := h.opening ho
      rw [← hm.opens ho] at hopen
      rwa [Watched.next, if_pos ho]
    · obtain ⟨hcode, hin⟩ := hm.stays ho
      rw [Watched.next, if_neg ho, hcode]
      exact h.inCode (hin hq)
  rcases hm.moved with ⟨hinput, hline⟩ | ⟨hinput, hline⟩
  · refine ⟨done, hlive, ?_, ?_, ?_, hopened, hlog⟩
    · exact h.split.trans (congrArg (done ++ ·) hinput.symm)
    · exact (hline.trans h.line).trans (by rw [← hinput]; rfl)
    · intro hw
      have htail := (hm.wait hw).2
      rw [hinput, hi, List.tail_cons] at htail
      exact absurd htail (List.cons_ne_self c rest)
  · rw [hi, List.tail_cons] at hinput
    rw [hi] at hline
    have hline' := h.line
    rw [hi, List.take_succ_cons, List.take_zero] at hline'
    refine ⟨done ++ [c], hlive, ?_, ?_, ?_, hopened, hlog⟩
    · have hsplit := h.split
      rw [hi, ← List.singleton_append, ← List.append_assoc] at hsplit
      exact hsplit.trans (congrArg (done ++ [c] ++ ·) hinput.symm)
    · change q.line = 1 + counted 0 (done ++ [c] ++ q.input.take 1)
      rw [hline, hinput]
      cases rest with
      | nil =>
        rw [List.take_nil, List.append_nil]
        exact hline'
      | cons d rest =>
        rw [nextLine, countLine_eq, hline', List.take_succ_cons, List.take_zero, counted_concat,
          Nat.add_assoc]
    · intro hw
      have hhead := (hm.wait hw).1
      rw [hi, List.head?_cons] at hhead
      rw [List.getLast?_concat, Option.some.inj hhead]

/-- The run ends, and every call it notes has the line of its section. -/
theorem watch_total (h : Lined text w done) :
    ∃ r, Ends (fun n => run (watchBody text) n w) r ∧ ∀ e ∈ r.log,
    Opening text e.codeLine e.opened := by
  obtain ⟨k, hk⟩ : ∃ k, w.parser.weight = k := ⟨_, rfl⟩
  induction k using Nat.strong_induction_on generalizing w done with
  | h k ih =>
    cases hi : w.parser.input with
    | nil =>
      obtain ⟨r, hr, -⟩ := live_leave h.live hi
      have hw : watchBody text w = some (.leave (w.next text r)) := by
        rw [watchBody, hr, Option.map_some]
      exact ⟨_, ends_leave hw, h.log_next (leave_calls h.live hi hr)⟩
    | cons c rest =>
      obtain ⟨q, hq, hlive, -, hlt⟩ := live_step h.live hi
      have hw : watchBody text w = some (.again (w.next text q)) := by
        rw [watchBody, hq, Option.map_some]
      obtain ⟨done', hl⟩ := h.step hi hlive (live_moves h.live hi hq)
      obtain ⟨r, hr, hlog⟩ := ih q.weight (hk ▸ hlt) hl rfl
      exact ⟨r, hr.run_again hw, hlog⟩

end

theorem next_calls (text : List Byte) {w : Watched} {q : Parser}
    (hw : w.log.map CodeCall.call = w.parser.calls.filter Call.isCode)
    (h : w.parser.calls <+: q.calls) :
    (w.next text q).log.map CodeCall.call = q.calls.filter Call.isCode := by
  obtain ⟨new, hnew⟩ := h
  rw [Watched.next, ← hnew, List.drop_left, List.map_append, hw, List.map_map, List.filter_append]
  exact congrArg (_ ++ ·) (List.map_id _)

theorem watch_calls {text : List Byte} {fuel : ℕ} {w r : Watched} (hlive : w.parser.Live)
    (hw : w.log.map CodeCall.call = w.parser.calls.filter Call.isCode)
    (h : run (watchBody text) fuel w = some r) :
    run parserBody fuel w.parser = some r.parser ∧
    r.log.map CodeCall.call = r.parser.calls.filter Call.isCode := by
  induction fuel generalizing w with
  | zero => cases h
  | succ fuel ih =>
    cases hi : w.parser.input with
    | nil =>
      obtain ⟨q, hq, hpre⟩ := live_leave hlive hi
      have hleave : watchBody text w = some (.leave (w.next text q)) := by
        rw [watchBody, hq, Option.map_some]
      rw [run_leave hleave] at h
      obtain rfl := Option.some.inj h
      exact ⟨run_leave hq fuel, next_calls text hw hpre⟩
    | cons c rest =>
      obtain ⟨q, hq, hlive', hpre, -⟩ := live_step hlive hi
      have hagain : watchBody text w = some (.again (w.next text q)) := by
        rw [watchBody, hq, Option.map_some]
      rw [run_again hagain] at h
      obtain ⟨hrun, hcalls⟩ := ih hlive' (next_calls text hw hpre) h
      exact ⟨(run_again hq fuel).trans hrun, hcalls⟩

/-- What is noted are the calls of `cb_code` that the parser makes, all of them. -/
theorem parserLog_calls {text : List Byte} {fuel : ℕ} {log : List CodeCall}
    (h : parserLog text fuel = some log) :
    ∃ calls, parserRun text fuel = some calls ∧
    log.map CodeCall.call = calls.filter Call.isCode := by
  obtain ⟨r, hr, rfl⟩ := Option.map_eq_some_iff.mp h
  obtain ⟨hrun, hcalls⟩ := watch_calls (lined_reset text).live rfl hr
  exact ⟨r.parser.calls, by rw [parserRun, hrun, Option.map_some], hcalls⟩

/-! ## Line ends -/

inductive LineStyle where
  | lf
  | cr
  | crlf

def LineStyle.Uniform : LineStyle → List Byte → Prop
  | .lf, text => CR ∉ text
  | .cr, text => LF ∉ text
  | .crlf, text => text.head? ≠ some LF ∧ ∀ i, text[i]? = some CR ↔ text[i + 1]? = some LF

def LineStyle.ends : LineStyle → List Byte → ℕ
  | .lf, text => text.count LF
  | .cr, text => text.count CR
  | .crlf, text => text.count LF

def Paired : Byte → List Byte → Prop
  | _, [] => True
  | prev, c :: rest => (prev = CR ↔ c = LF) ∧ Paired c rest

def adjacent : Byte → List Byte → ℕ
  | _, [] => 0
  | prev, c :: rest => (if prev = LF ∧ c = CR then 1 else 0) + adjacent c rest

theorem paired_of_uniform {text : List Byte} {prev : Byte}
    (hhead : prev = CR ↔ text.head? = some LF)
    (h : ∀ i, text[i]? = some CR ↔ text[i + 1]? = some LF) : Paired prev text := by
  induction text generalizing prev with
  | nil => trivial
  | cons c text ih =>
    refine ⟨by simpa using hhead, ih ?_ fun i => h (i + 1)⟩
    have hzero := h 0
    simpa [List.head?_eq_getElem?] using hzero

theorem Paired.left {prev : Byte} {xs ys : List Byte} (h : Paired prev (xs ++ ys)) :
    Paired prev xs := by
  induction xs generalizing prev with
  | nil => trivial
  | cons c xs ih => exact ⟨h.1, ih h.2⟩

theorem counted_lf {prev : Byte} {xs : List Byte} (hprev : prev ≠ CR) (h : CR ∉ xs) :
    counted prev xs = xs.count LF := by
  induction xs generalizing prev with
  | nil => rfl
  | cons c xs ih =>
    obtain ⟨hc, hxs⟩ := not_or.mp (fun hm => h (List.mem_cons.mpr hm))
    rw [counted, ih (Ne.symm hc) hxs, List.count_cons, counts, Nat.add_comm]
    simp [Ne.symm hc, hprev]

theorem counted_cr {prev : Byte} {xs : List Byte} (hprev : prev ≠ LF) (h : LF ∉ xs) :
    counted prev xs = xs.count CR := by
  induction xs generalizing prev with
  | nil => rfl
  | cons c xs ih =>
    obtain ⟨hc, hxs⟩ := not_or.mp (fun hm => h (List.mem_cons.mpr hm))
    rw [counted, ih (Ne.symm hc) hxs, List.count_cons, counts, Nat.add_comm]
    by_cases hcr : c = CR
    · simp [hcr, hprev]
    · simp [hcr, Ne.symm hc]

/-- A CR is counted unless it follows an LF, and an LF is not counted. -/
theorem counted_crlf {prev : Byte} {xs : List Byte} (h : Paired prev xs) :
    counted prev xs + adjacent prev xs = xs.count CR := by
  induction xs generalizing prev with
  | nil => rfl
  | cons c xs ih =>
    have hxs := ih h.2
    rw [counted, adjacent, List.count_cons, counts]
    by_cases hcr : c = CR
    · subst hcr
      by_cases hprev : prev = LF
      · simp [hprev]
        omega
      · simp [hprev]
        omega
    · by_cases hlf : c = LF
      · have hp : prev = CR := h.1.mpr hlf
        simp [hcr, hp]
        omega
      · simp [hcr, hlf]
        omega

theorem count_paired {prev d : Byte} {xs : List Byte} (hd : d ≠ LF) (h : Paired prev (xs ++ [d])) :
    xs.count LF = (if prev = CR then 1 else 0) + xs.count CR := by
  induction xs generalizing prev with
  | nil =>
    have hp : prev ≠ CR := fun hp => hd (h.1.mp hp)
    rw [if_neg hp]
    rfl
  | cons c xs ih =>
    have hxs := ih h.2
    have hc : (c = LF) = (prev = CR) := propext h.1.symm
    simp only [List.count_cons, beq_iff_eq, hc, hxs]
    omega

theorem adjacent_eq_zero {prev : Byte} {xs : List Byte} :
    adjacent prev xs = 0 ↔ ¬ [LF, CR] <:+: prev :: xs := by
  induction xs generalizing prev with
  | nil =>
    refine iff_of_true rfl fun h => ?_
    have hlen := h.length_le
    simp at hlen
  | cons c xs ih =>
    have hsplit : [LF, CR] <:+: prev :: c :: xs ↔ (prev = LF ∧ c = CR) ∨ [LF, CR] <:+: c :: xs := by
      rw [List.infix_cons_iff]
      simp [eq_comm]
    rw [adjacent, Nat.add_eq_zero_iff, ih, hsplit, not_or]
    simp

/-- The parser counts the line ends of a text, except those that directly follow another. -/
theorem counted_iff {style : LineStyle} {text opened rest : List Byte} (h : style.Uniform text)
    (hsplit : text = opened ++ Mode.html.delim ++ rest) :
    1 + counted 0 opened = 1 + style.ends opened ↔ ¬ [LF, CR] <:+: opened := by
  have hsub : ∀ c ∈ opened, c ∈ text := by
    intro c hc
    rw [hsplit, List.append_assoc]
    exact List.mem_append_left _ hc
  cases style with
  | lf =>
    have hno : CR ∉ opened := fun hm => h (hsub CR hm)
    refine iff_of_true (by rw [counted_lf (by decide) hno, LineStyle.ends]) fun hin => ?_
    exact hno (hin.subset (by simp))
  | cr =>
    have hno : LF ∉ opened := fun hm => h (hsub LF hm)
    refine iff_of_true (by rw [counted_cr (by decide) hno, LineStyle.ends]) fun hin => ?_
    exact hno (hin.subset (by simp))
  | crlf =>
    have hpaired : Paired 0 text := paired_of_uniform (iff_of_false (by decide) h.1) h.2
    have hhead : text = (opened ++ [60]) ++ (37 :: rest) := by
      rw [hsplit, List.append_assoc, List.append_assoc]
      rfl
    rw [hhead] at hpaired
    have hcount := count_paired (by decide) hpaired.left
    have hcounted := counted_crlf hpaired.left.left
    have hadj : adjacent 0 opened = 0 ↔ ¬ [LF, CR] <:+: opened := by
      rw [adjacent_eq_zero, List.infix_cons_iff, List.cons_prefix_cons]
      simp [LF]
    rw [if_neg (by decide), zero_add] at hcount
    rw [← hadj, LineStyle.ends, hcount]
    omega

/-- Every call of `cb_code` in a text with line ends of one style has the line of its
section if and only if no line end before the section directly follows another, with a CR
behind an LF. -/
theorem parserLog_lines (style : LineStyle) (text : List Byte) (h : style.Uniform text) :
    ∃ calls log, Ends (parserRun text) calls ∧ Ends (parserLog text) log ∧
      log.map CodeCall.call = calls.filter Call.isCode ∧
      ∀ e ∈ log, (∃ rest, text = e.opened ++ Mode.html.delim ++ rest) ∧
        (e.codeLine = 1 + style.ends e.opened ↔ ¬ [LF, CR] <:+: e.opened) := by
  obtain ⟨r, hr, hlog⟩ := watch_total (lined_reset text)
  obtain ⟨p, hp, -⟩ := parser_total (lined_reset text).live
  have hends := hr.map Watched.log
  have hruns := hp.map Parser.calls
  refine ⟨p.calls, r.log, hruns, hends, ?_, fun e he => ?_⟩
  · obtain ⟨n, hn⟩ := hends
    obtain ⟨m, hm⟩ := hruns
    obtain ⟨calls, hcalls, hmap⟩ := parserLog_calls (hn (max n m) (le_max_left n m))
    have heq := Option.some.inj ((hm (max n m) (le_max_right n m)).symm.trans hcalls)
    rw [hmap, heq]
  · obtain ⟨⟨rest, hsplit⟩, hline⟩ := hlog e he
    refine ⟨⟨rest, hsplit⟩, ?_⟩
    rw [hline]
    exact counted_iff h hsplit

theorem parserLog_lines_lf : ∃ calls log, Ends (parserRun (bytes "a\n\n<% x %>")) calls ∧
    Ends (parserLog (bytes "a\n\n<% x %>")) log ∧ log.map CodeCall.call = calls.filter Call.isCode ∧
    ∀ e ∈ log, (∃ rest, bytes "a\n\n<% x %>" = e.opened ++ Mode.html.delim ++ rest) ∧
      (e.codeLine = 1 + LineStyle.lf.ends e.opened ↔ ¬ [LF, CR] <:+: e.opened) :=
  parserLog_lines .lf (bytes "a\n\n<% x %>") (show CR ∉ bytes "a\n\n<% x %>" by decide)

/-- Behind an empty line and another one with CR LF the parser has counted one line end. -/
theorem parserLog_empty_line :
    ¬ ∀ (style : LineStyle) (text : List Byte), style.Uniform text → ∀ fuel log,
    parserLog text fuel = some log →
      ∀ e ∈ log, e.codeLine = 1 + style.ends e.opened := by
  intro h
  have huniform : LineStyle.crlf.Uniform (bytes "\r\n\r\n<% x %>") := by
    refine ⟨by decide, fun i => ?_⟩
    by_cases hi : i < 11
    · have hall : ∀ i < 11, (bytes "\r\n\r\n<% x %>")[i]? = some CR ↔
        (bytes "\r\n\r\n<% x %>")[i + 1]? = some LF := by
        decide
      exact hall i hi
    · have hlen : (bytes "\r\n\r\n<% x %>").length = 11 := rfl
      rw [List.getElem?_eq_none (by omega), List.getElem?_eq_none (by omega)]
      exact iff_of_false (by simp) (by simp)
  have hlog : parserLog (bytes "\r\n\r\n<% x %>") 30 =
      some [⟨2, bytes "\r\n\r\n", .code 0 (bytes " x ")⟩] := rfl
  have hline := h .crlf _ huniform 30 _ hlog _ List.mem_cons_self
  exact absurd hline (by decide)

end Klone.Trans
