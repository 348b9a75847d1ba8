import Klone.Io.CopyLoops
import Klone.Lib.Control
import Klone.Trans.CProgram
import Klone.Utils.Date

/-! # What a page does when it is run

A page is its texts and the code between them. The code decides where the page goes on: a loop
or a condition around a text is code before it and behind it. The C program of the page does
the same: it writes the arrays with the text, decompressed if they have been compressed. Code
takes a text as a whole, as in braces; a statement that ends with the first line of a text
is none of this.
-/
namespace Klone.Trans
open Loop Matcher Blocks Control Date Klone.Page Klone.Chain

/-- What the code of a page does. A section of code, which is given with its number, changes
the world, writes some text and says where the page goes on; an expression may do so too but
for the last, and has a value. It is given with the number of the sections before it. -/
structure User (W : Type*) where
  code : ℕ → Str → W → W × Str × Next
  value : ℕ → Str → W → W × Str × Str

variable {W : Type*} (user : User W)

def Item.isCode : Item → Bool
  | .code _ => true
  | _ => false

/-- A page as it is meant: its output is a text. -/
def meant : Machine Item (W × Str) where
  isCode := Item.isCode
  exec _ k a s := match a with
    | .html text => some ((s.1, s.2 ++ text), .on)
    | .print expr =>
      let r := user.value k expr s.1
      some ((r.1, s.2 ++ r.2.1 ++ cstr r.2.2), .on)
    | .code text =>
      let r := user.code k text s.1
      some ((r.1, s.2 ++ r.2.1), r.2.2)

def sectionItems (sec : List Byte × List Byte) : List Item :=
  .html sec.1 :: (sectionCode sec).flatMap (Call.item id)

def pageItems (secs : List (List Byte × List Byte)) (last : List Byte) : List Item :=
  secs.flatMap sectionItems ++ [.html last]

/-! ## Running the program -/

variable {e : Device}

def ioPrint (n : ℕ) (io : Io e) (s : Str) : Option (Io e) :=
  if s = [] then some io else (ioWrite n io s).map Prod.fst

def Stmt.isCode : Stmt → Bool
  | .code _ => true
  | _ => false

/-- The statements of a program, which write to a stream; one that names no array does not
compile. -/
def compiled (inflate : Zlib) (u : CProgram) : Machine Stmt (W × Io e) where
  isCode := Stmt.isCode
  exec n k a s := match a with
    | .write name => (u.array name).bind fun data => (ioWrite n s.2 data).map fun r => ((s.1, r.1),
      .on)
    | .unzip name =>
      (u.array name).bind fun data => (uIoUnzipCopy inflate n s.2 data).map fun r => ((s.1, r.1), .on)
    | .print expr =>
      let r := user.value k expr s.1
      (ioPrint n s.2 r.2.1).bind fun io => (ioPrint n io (cstr r.2.2)).map fun io =>
        ((r.1, io), .on)
    | .code text =>
      let r := user.code k text s.1
      (ioPrint n s.2 r.2.1).map fun io => ((r.1, io), r.2.2)

def execPage (inflate : Zlib) (u : CProgram) (n : ℕ) (s : W × Io e) : Option (W × Io e) :=
  (compiled user inflate u).runBody u.body n s

/-- The world is the same, and what is meant to be written has been written. -/
def Wrote (P : Str → Io e → Prop) (s : W × Str) (t : W × Io e) : Prop := t.1 = s.1 ∧ P s.2 t.2

variable {P : Str → Io e → Prop} {sent : Str} {io : Io e}

theorem ioPrint_ends (hp : Absorbs P) (h : P sent io) (s : Str) :
    ∃ io', Ends (fun n => ioPrint n io s) io' ∧ P (sent ++ s) io' := by
  unfold ioPrint
  by_cases hs : s = []
  · simp only [hs, if_true, List.append_nil]
    exact ⟨io, Ends.const _, h⟩
  · simp only [hs, if_false]
    obtain ⟨io', hends, h'⟩ := hp.write h s
    exact ⟨io', hends.map_eq rfl, h'⟩

section Run
variable {deflated : Str → Str} {inflate : Zlib} (comp : Bool) (u : CProgram)

def writeStmt (k : ℕ) : Stmt := if comp then .unzip (varName comp k) else .write (varName comp k)

theorem writeStmt_plain (k : ℕ) : (writeStmt comp k).isCode = false := by
  cases comp <;> rfl

/-- The statement for a block of text writes the block. -/
theorem compiled_html (hz : ∀ x, inflate.Computes false (deflated x) x) (hp : Absorbs P)
    (h : P sent io) (w : W) {k : ℕ} {buf : Str}
    (harray : u.array (varName comp k) = some (contentOf deflated comp buf)) (j : ℕ) :
    ∃ io', Ends (fun n => (compiled user inflate u).exec n j (writeStmt comp k) (w, io))
    ((w, io'), .on) ∧
      P (sent ++ buf) io' := by
  cases comp with
  | false =>
    obtain ⟨io', hends, h'⟩ := hp.write h buf
    refine ⟨io', ?_, h'⟩
    simp only [writeStmt, Bool.false_eq_true, if_false, compiled, harray, Option.bind_some]
    exact hends.map_eq rfl
  | true =>
    obtain ⟨io', hends, h'⟩ := uIoUnzipCopy_ends (hz buf) hp h
    refine ⟨io', ?_, h'⟩
    simp only [writeStmt, if_true, compiled, harray, Option.bind_some]
    exact hends.map_eq rfl

theorem block_html (hz : ∀ x, inflate.Computes false (deflated x) x) (hp : Absorbs P) {k : ℕ}
    {buf : Str} (harray : u.array (varName comp k) = some (contentOf deflated comp buf)) :
    (meant user).Block (compiled user inflate u) (Wrote P) (.html buf) [writeStmt comp k] := by
  refine ⟨rfl, fun b hb => ?_, fun n j s t r hs hr => ?_⟩
  · rw [List.mem_singleton.mp hb]
    exact writeStmt_plain comp k
  · cases hr
    obtain ⟨hw, h⟩ := hs
    obtain ⟨io', hends, h'⟩ := compiled_html user comp u hz hp h t.1 harray j
    exact ⟨rfl, (t.1, io'), ⟨hw, h'⟩, .cons hends (.nil _)⟩

theorem block_print (hp : Absorbs P) (expr : Str) :
    (meant user).Block (compiled user inflate u) (Wrote P) (.print expr) [.print expr] := by
  refine ⟨rfl, fun b hb => ?_, fun n j s t r hs hr => ?_⟩
  · rw [List.mem_singleton.mp hb]
    rfl
  · cases hr
    obtain ⟨w, io⟩ := t
    obtain ⟨rfl, h⟩ := hs
    obtain ⟨io₁, hends₁, h₁⟩ := ioPrint_ends hp h (user.value j expr s.1).2.1
    obtain ⟨io₂, hends₂, h₂⟩ := ioPrint_ends hp h₁ (cstr (user.value j expr s.1).2.2)
    exact ⟨rfl, (_, io₂), ⟨rfl, h₂⟩, .cons (hends₁.bind (hends₂.map_eq rfl)) (.nil _)⟩

theorem piece_code (hp : Absorbs P) (text : Str) :
    (meant user).Piece (compiled user inflate u) (Wrote P) (.code text) (.code text) := by
  refine ⟨rfl, rfl, fun n j s t r hs hr => ?_⟩
  cases hr
  obtain ⟨w, io⟩ := t
  obtain ⟨rfl, h⟩ := hs
  obtain ⟨io', hends, h'⟩ := ioPrint_ends hp h (user.code j text s.1).2.1
  exact ⟨(_, io'), ⟨rfl, h'⟩, hends.map_eq rfl⟩

/-- The statements for some calls translate what the calls are made for, block by block. -/
theorem translated_calls (hz : ∀ x, inflate.Computes false (deflated x) x) (hp : Absorbs P)
    (calls : List Call) (k : ℕ)
    (harray : ∀ i buf, (htmlBufs calls)[i]? = some buf →
      u.array (varName comp (k + i)) = some (contentOf deflated comp buf)) :
    (meant user).Translated (compiled user inflate u) (Wrote P) (calls.flatMap (Call.item id))
    (stmtsFrom comp k calls) := by
  induction calls generalizing k with
  | nil => exact .nil
  | cons c calls ih =>
    cases c with
    | html buf =>
      have hrest := ih (k + 1) fun i buf' hi => by
        have hnext := harray (i + 1) buf' hi
        rwa [Nat.add_comm i 1, ← Nat.add_assoc] at hnext
      exact .block (block_html user comp u hz hp (harray 0 buf rfl)) hrest
    | code cmd buf =>
      have hrest := ih k harray
      have hown : (meant user).Translated (compiled user inflate u) (Wrote P)
        (Call.item id (.code cmd buf))
          ((Call.code cmd buf).stmts comp k) := by
        unfold Call.item Call.stmts
        by_cases h0 : cmd = 0
        · simp only [h0, if_true]
          exact .piece (piece_code user u hp buf) .nil
        by_cases h61 : cmd = 61
        · simp only [h61, if_true]
          exact .block (block_print user u hp buf) .nil
        · simp only [h0, h61, if_false]
          exact .nil
      exact hown.append hrest

end Run

/-! ## Blocks of text -/

theorem through_html (bufs : List Str) (k : ℕ) (s : W × Str) :
    (meant user).Through k (bufs.map Item.html) s (s.1, s.2 ++ bufs.flatten) := by
  induction bufs generalizing s with
  | nil =>
    rw [List.map_nil, List.flatten_nil, List.append_nil]
    exact .nil s
  | cons buf bufs ih =>
    have hrest := ih (s.1, s.2 ++ buf)
    rw [List.append_assoc] at hrest
    exact .cons (Ends.const _) hrest

/-- A text may be cut into blocks. -/
theorem block_blocks {text : Str} {bufs : List Str} (h : bufs.flatten = text) :
    (meant user).Block (meant user) Eq (.html text) (bufs.map Item.html) := by
  refine ⟨rfl, fun b hb => ?_, fun n k s t r hs hr => ?_⟩
  · obtain ⟨buf, -, rfl⟩ := List.mem_map.mp hb
    rfl
  · subst hs
    cases hr
    refine ⟨rfl, _, rfl, ?_⟩
    rw [← h]
    exact through_html user bufs k s

theorem translated_self (items : List Item) :
    (meant user).Translated (meant user) Eq items items := by
  induction items with
  | nil => exact .nil
  | cons a items ih =>
    cases ha : a.isCode with
    | true =>
      refine .piece ⟨ha, ha, fun n k s t r hs hr => ?_⟩ ih
      subst hs
      cases a with
      | code text =>
        cases hr
        exact ⟨_, rfl, Ends.const _⟩
      | html text => cases ha
      | print expr => cases ha
    | false =>
      have hblock : (meant user).Block (meant user) Eq a [a] := by
        refine ⟨ha, fun b hb => List.mem_singleton.mp hb ▸ ha, fun n k s t r hs hr => ?_⟩
        subst hs
        cases a with
        | code text => cases ha
        | html text =>
          cases hr
          exact ⟨rfl, _, rfl, .cons (Ends.const _) (.nil _)⟩
        | print expr =>
          cases hr
          exact ⟨rfl, _, rfl, .cons (Ends.const _) (.nil _)⟩
      exact .block hblock ih

/-! ## The calls for a page -/

variable {secs : List (List Byte × List Byte)} {last : List Byte} {calls : List Call}

theorem items_html (bufs : List Str) :
    (bufs.map Call.html).flatMap (Call.item id) = bufs.map Item.html := by
  induction bufs with
  | nil => rfl
  | cons buf bufs ih =>
    rw [List.map_cons, List.flatMap_cons, ih]
    rfl

/-- The calls for a page that fits are made for its texts, cut into blocks, and its code. -/
theorem made_translated (h : Made secs last calls) (hfit : ∀ sec ∈ secs, Fits sec) :
    (meant user).Translated (meant user) Eq (pageItems secs last)
    (calls.flatMap (Call.item id)) := by
  induction h with
  | text last =>
    have hall := htmlText_lastCalls last
    rw [lastCalls, htmlText_map_html] at hall
    rw [lastCalls, items_html]
    have hlast := Machine.Translated.block (block_blocks user hall) .nil
    rwa [List.append_nil] at hlast
  | @cons sec secs last calls hne hrest ih =>
    obtain ⟨-, hleak, hle, hedge⟩ := hfit sec List.mem_cons_self
    have hhtml : (closed (BUFSZ - 1) sec.1 60).flatten = sec.1 := by
      rw [closed_flatten (by decide), if_neg hleak, List.append_nil]
    have hcode : (closed (BUFSZ - 1) (command sec.2).2 37).map (Call.code (command sec.2).1) =
        sectionCode sec := by
      rw [closed_fits hle hedge (by decide), sectionCode]
    have hitems : (sectionCalls sec ++ calls).flatMap (Call.item id) =
        (closed (BUFSZ - 1) sec.1 60).map Item.html ++
          ((sectionCode sec).flatMap (Call.item id) ++ calls.flatMap (Call.item id)) := by
      rw [sectionCalls, hcode, List.flatMap_append, List.flatMap_append, items_html,
        List.append_assoc]
    have hpage : pageItems (sec :: secs) last =
        .html sec.1 :: ((sectionCode sec).flatMap (Call.item id) ++ pageItems secs last) := by
      rw [pageItems, List.flatMap_cons, List.append_assoc]
      rfl
    rw [hitems, hpage]
    exact .block (block_blocks user hhtml)
      ((translated_self user _).append (ih fun s hs => hfit s (List.mem_cons_of_mem sec hs)))
  | empty html secs last body more => exact absurd rfl (hfit (html, []) List.mem_cons_self).1

/-- The parser makes of a page what it makes of its sections. -/
theorem page_made {x : List Byte} (h : Page x secs last) :
    ∃ calls, Ends (fun n => parserRun x n) calls ∧ Made secs last calls := by
  cases hx : x with
  | nil =>
    rw [hx] at h
    cases h with
    | text hno =>
      have hleave : parserBody (parserReset []) = some (.leave (parserReset [])) := rfl
      exact ⟨[], (ends_leave hleave).map Parser.calls, .text []⟩
    | cons hopen hclose hrest => exact absurd hopen.split.symm (by simp [Mode.delim])
  | cons c rest =>
    have hstart : parserBody (parserReset (c :: rest)) =
        some (.again ({ parserReset (c :: rest) with prev := c }.setState .html)) := rfl
    have hat : Parser.At ({ parserReset (c :: rest) with
        prev := c }.setState .html) .html 0 (c :: rest) [] [] :=
      ⟨rfl, rfl, rfl, rfl, rfl⟩
    rw [hx] at h
    obtain ⟨r, cs, hr, hcalls, hmade⟩ := page_run h hat
    rw [List.nil_append] at hcalls
    exact ⟨cs, (hr.run_again hstart).map_eq hcalls, hmade⟩

theorem fill_nonempty {α : Type*} (n : ℕ) (b x : List α) : ∀ y ∈ (fill n b x).1, y ≠ [] := by
  induction x generalizing b with
  | nil =>
    intro y hy
    cases hy
  | cons c x ih =>
    rw [fill]
    split
    · rw [List.forall_mem_cons]
      exact ⟨List.append_ne_nil_of_right_ne_nil b (List.cons_ne_nil c []), ih []⟩
    · exact ih (b ++ [c])

theorem closed_nonempty {α : Type*} (n : ℕ) (x : List α) (o : α) : ∀ y ∈ closed n x o, y ≠ [] := by
  intro y hy
  rcases List.mem_append.mp hy with hy | hy
  · exact fill_nonempty n [] _ y hy
  · rintro rfl
    simp at hy

/-- No more blocks of text than bytes of text. -/
theorem count_html (calls : List Call) (h : ∀ buf, Call.html buf ∈ calls → buf ≠ []) :
    calls.countP Call.isHtml ≤ (htmlText calls).length := by
  induction calls with
  | nil => exact le_rfl
  | cons c calls ih =>
    have hrest := ih fun buf hbuf => h buf (List.mem_cons_of_mem c hbuf)
    cases c with
    | html buf =>
      have hpos := List.length_pos_iff.mpr (h buf List.mem_cons_self)
      have hhtml : (Call.html buf).isHtml = true := rfl
      have htext : htmlText (.html buf :: calls) = buf ++ htmlText calls := rfl
      rw [List.countP_cons_of_pos hhtml, htext, List.length_append]
      omega
    | code cmd buf => exact hrest

/-- What is known of the calls for a page that fits: the blocks of text have bytes, and the
code is that of its sections. -/
theorem made_calls (h : Made secs last calls) (hfit : ∀ sec ∈ secs, Fits sec) :
    (∀ buf, Call.html buf ∈ calls → buf ≠ []) ∧ ∀ c ∈ calls, c.isHtml = true ∨ ∃ sec ∈ secs,
    c ∈ sectionCode sec := by
  induction h with
  | text last =>
    have hmem : ∀ c ∈ lastCalls last, ∃ buf, c = .html buf ∧ buf ≠ [] := by
      intro c hc
      obtain ⟨buf, hbuf, rfl⟩ := List.mem_map.mp hc
      rcases List.mem_append.mp hbuf with hbuf | hbuf
      · exact ⟨buf, rfl, fill_nonempty _ _ _ buf hbuf⟩
      · exact ⟨buf, rfl, by simpa using List.of_mem_filter hbuf⟩
    refine ⟨fun buf hbuf => ?_, fun c hc => ?_⟩
    · obtain ⟨buf', hbuf', hne⟩ := hmem _ hbuf
      rwa [Call.html.inj hbuf']
    · obtain ⟨buf, rfl, -⟩ := hmem c hc
      exact Or.inl rfl
  | @cons sec secs last calls hne hrest ih =>
    obtain ⟨hbufs, hcalls⟩ := ih fun s hs => hfit s (List.mem_cons_of_mem sec hs)
    obtain ⟨-, -, hle, hedge⟩ := hfit sec List.mem_cons_self
    have hown : sectionCalls sec = (closed (BUFSZ - 1) sec.1 60).map Call.html ++
        sectionCode sec := by
      rw [sectionCalls, closed_fits hle hedge (by decide), sectionCode]
    rw [hown]
    refine ⟨fun buf hbuf => ?_, fun c hc => ?_⟩
    · rcases List.mem_append.mp hbuf with hbuf | hbuf
      · rcases List.mem_append.mp hbuf with hbuf | hbuf
        · obtain ⟨buf', hbuf', he⟩ := List.mem_map.mp hbuf
          rw [← Call.html.inj he]
          exact closed_nonempty _ _ _ buf' hbuf'
        · obtain ⟨_, -, he⟩ := List.mem_map.mp hbuf
          cases he
      · exact hbufs buf hbuf
    · rcases List.mem_append.mp hc with hc | hc
      · rcases List.mem_append.mp hc with hc | hc
        · obtain ⟨buf, -, rfl⟩ := List.mem_map.mp hc
          exact Or.inl rfl
        · exact Or.inr ⟨sec, List.mem_cons_self, hc⟩
      · rcases hcalls c hc with h | ⟨sec', hsec', h⟩
        · exact Or.inl h
        · exact Or.inr ⟨sec', List.mem_cons_of_mem sec hsec', h⟩
  | empty html secs last body more => exact absurd rfl (hfit (html, []) List.mem_cons_self).1

theorem filterMap_codeCalls (calls : List Call) :
    (codeCalls calls).filterMap Call.declared = calls.filterMap Call.declared := by
  induction calls with
  | nil => rfl
  | cons c calls ih =>
    cases c with
    | html buf => exact ih
    | code cmd buf =>
      have hcons : codeCalls (.code cmd buf :: calls) = .code cmd buf :: codeCalls calls := rfl
      rw [hcons, List.filterMap_cons, List.filterMap_cons, ih]

theorem outside_length {x : List Byte} (h : Page x secs last) :
    (outside secs last).length ≤ x.length := by
  induction h with
  | text hno => exact le_rfl
  | cons hopen hclose hrest ih =>
    rw [hopen.split, hclose.split]
    simp only [outside, List.map_cons, List.flatten_cons, List.length_append] at ih ⊢
    omega

/-- The names of the arrays of a page fit their buffer. -/
theorem made_translatable {x : List Byte} (hpage : Page x secs last) (h : Made secs last calls)
    (hfit : ∀ sec ∈ secs, Fits sec) (hknown : ∀ sec ∈ secs, ∀ c ∈ sectionCode sec, c.Known)
    (hlen : x.length < 10 ^ 13) (comp : Bool) :
    Translatable comp 0 calls := by
  obtain ⟨hbufs, hcalls⟩ := made_calls h hfit
  refine ⟨fun c hc => ?_, fun j hj => ?_⟩
  · rcases hcalls c hc with hhtml | ⟨sec, hsec, hcode⟩
    · cases c with
      | html buf => exact trivial
      | code cmd buf => cases hhtml
    · exact hknown sec hsec c hcode
  · have hcount := count_html calls hbufs
    rw [((agrees_iff h (page_content hpage)).mpr hfit).1] at hcount
    have hj13 : j < 10 ^ 13 := by
      have hout := outside_length hpage
      omega
    have hdigits := decimal_length_le 13 (by decide) hj13
    rw [Nat.zero_add]
    unfold VARNSZ
    cases comp <;> simp [varName, bytes] <;> omega

/-- The translator takes every page whose sections fit its buffer and have commands that it
knows, and the program that it writes does what is meant by the page: where a run of the page
comes to an end, whatever loops the code makes around the texts, the program comes to an end in
the same world, and the stream `out`, if it takes what it is given, has been given the same
text, compressed arrays or not. -/
theorem page_translated {deflate inflate : Zlib} {deflated : Str → Str}
    (hdef : ∀ x, deflate.Computes true x (deflated x))
    (hinf : ∀ x, inflate.Computes false (deflated x) x) {x : List Byte} (hpage : Page x secs last)
    (hfit : ∀ sec ∈ secs, Fits sec) (hknown : ∀ sec ∈ secs, ∀ c ∈ sectionCode sec, c.Known)
    (hlen : x.length < 10 ^ 13) (hdr : Str) (ti : ScriptInfo) :
    ∃ (u : CProgram) (items : List Item),
      Ends (fun n => translateScriptToC hdr deflate n ti x) (some (u.text hdr ti)) ∧
      u.Reads items ((secs.flatMap sectionCode).filterMap Call.declared) ∧
      ∀ {W : Type} (user : User W) {e : Device} {P : Str → Io e → Prop}, Absorbs P →
      ∀ {sent : Str} {io : Io e} (w : W),
        P sent io → ∀ {n : ℕ} {s : W × Str},
          (meant user).runBody (pageItems secs last) n (w, sent) = some s →
          ∃ io', Ends (fun n => execPage user inflate u n (w, io)) (s.1, io') ∧ P s.2 io' := by
  obtain ⟨calls, hparse, hmade⟩ := page_made hpage
  have htranslate := translate_of_calls hdef hdr ti hparse
  rw [if_pos (made_translatable hpage hmade hfit hknown hlen ti.comp)] at htranslate
  have hreads := programOf_reads (contentOf deflated ti.comp) ti.comp calls
  have hdeclared : calls.filterMap Call.declared =
      (secs.flatMap sectionCode).filterMap Call.declared := by
    rw [← made_code hmade hfit, filterMap_codeCalls]
  rw [hdeclared] at hreads
  refine ⟨_, _, htranslate, hreads, ?_⟩
  intro W user e P hp sent io w h n s hrun
  obtain ⟨s₁, hends, rfl⟩ := (made_translated user hmade hfit).run rfl hrun
  obtain ⟨n₁, hrun₁⟩ := hends.some_run
  have hcalls := translated_calls user ti.comp
    (programOf (contentOf deflated ti.comp) ti.comp calls) hinf hp calls 0
    fun _ _ hi => array_programOf hi
  obtain ⟨⟨w', io'⟩, hends', rfl, h'⟩ := hcalls.run (t := (w, io)) ⟨rfl, h⟩ hrun₁
  exact ⟨io', hends', h'⟩

/-- A loop around a text and a number, which counts down. -/
def countdown : User ℕ where
  code _ _ w := (w, [], if w = 0 then .behind 1 else .behind 0)
  value _ _ w := (w - 1, [], decimal w)

theorem page_translated_sample :
    ∃ u : CProgram,
      Ends (fun n => translateScriptToC [] (Emb.collecting Emb.sampleDeflated) n
        ⟨bytes "/p.kl1", true⟩
        (bytes "<% while(n)\x7b %>aaaaaaaaaa<%=n--%><% \x7d %>"))
        (some (u.text [] ⟨bytes "/p.kl1", true⟩)) ∧
      ∃ io', Ends (fun n => execPage (e := fifo) countdown (Emb.collecting Emb.sampleInflated) u n
        (2, ioCreate [] [])) (0, io') ∧
        io'.sent (d := fifo) id = bytes "aaaaaaaaaa2aaaaaaaaaa1" := by
  have hsecs : ∀ sec ∈ [([], bytes " while(n)\x7b "), (bytes "aaaaaaaaaa", bytes "=n--"),
      ([], bytes " \x7d ")], Fits sec := by
    intro sec hsec
    simp only [List.mem_cons, List.not_mem_nil, or_false] at hsec
    rcases hsec with rfl | rfl | rfl
    all_goals exact ⟨by decide, by decide, by decide, by decide⟩
  have hopen₁ : FirstAt Mode.html.delim (bytes "<% while(n)\x7b %>aaaaaaaaaa<%=n--%><% \x7d %>") []
      (bytes " while(n)\x7b %>aaaaaaaaaa<%=n--%><% \x7d %>") := ⟨by decide, by decide⟩
  have hclose₁ : FirstAt Mode.code.delim (bytes " while(n)\x7b %>aaaaaaaaaa<%=n--%><% \x7d %>")
      (bytes " while(n)\x7b ")
      (bytes "aaaaaaaaaa<%=n--%><% \x7d %>") := ⟨by decide, by decide⟩
  have hopen₂ : FirstAt Mode.html.delim (bytes "aaaaaaaaaa<%=n--%><% \x7d %>") (bytes "aaaaaaaaaa")
      (bytes "=n--%><% \x7d %>") :=
    ⟨by decide, by decide⟩
  have hclose₂ : FirstAt Mode.code.delim (bytes "=n--%><% \x7d %>") (bytes "=n--")
      (bytes "<% \x7d %>") :=
    ⟨by decide, by decide⟩
  have hopen₃ : FirstAt Mode.html.delim (bytes "<% \x7d %>") [] (bytes " \x7d %>") :=
    ⟨by decide, by decide⟩
  have hclose₃ : FirstAt Mode.code.delim (bytes " \x7d %>") (bytes " \x7d ") [] := ⟨by decide, by decide⟩
  have hpage := Page.cons hopen₁ hclose₁
    (.cons hopen₂ hclose₂ (.cons hopen₃ hclose₃ (.text (by decide))))
  have hinf : ∀ x : Str, (Emb.collecting Emb.sampleInflated).Computes false
    (Emb.sampleDeflated x) x := fun x => by
    have h := Emb.collecting_computes Emb.sampleInflated false (Emb.sampleDeflated x)
    rwa [Emb.sampleInflated_deflated] at h
  obtain ⟨u, items, htranslate, -, hrun⟩ :=
    page_translated (fun x => Emb.collecting_computes Emb.sampleDeflated true x) hinf hpage
    hsecs (by decide) (by decide) [] ⟨bytes "/p.kl1", true⟩
  have hmeant : (meant countdown).runBody
      (pageItems [([], bytes " while(n)\x7b "), (bytes "aaaaaaaaaa", bytes "=n--"),
        ([], bytes " \x7d ")] []) 20 (2, []) = some (0, bytes "aaaaaaaaaa2aaaaaaaaaa1") := by decide
  obtain ⟨io', hends, -, hsent⟩ :=
    hrun countdown (plain_absorbs fifo_accepts) 2 ⟨ioCreate_plain [], rfl⟩ hmeant
  exact ⟨u, htranslate, io', hends, hsent⟩

end Klone.Trans
