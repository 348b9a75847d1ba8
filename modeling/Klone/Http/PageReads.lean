import Klone.Http.Dypage
import Klone.Io.Supply

/-! # Pages that read the request

The streams of the request and of the response are one, and the response filter is on it
while the page runs: what is read from the connection goes through the filter as well. A
read finds the request as it is when the read buffer has enough of it, or when the filter
has sent the header and passes on what it is given.
-/
namespace Klone.Page
open Chain Loop Emb

inductive IoCall where
  | read (size : ℕ)
  | getUntil (stop : Byte) (size : ℕ)
  | write (buf : Str)
  | flush

/-- The code of a page: each call depends on what the ones before it have returned. -/
inductive IoPage where
  | done
  | call (c : IoCall) (next : Option Str → IoPage)

section Run
variable {d : Device}

/-- What a call returns: the bytes that have been read, and nothing for a call that writes;
`none` for `-1`. -/
def ioCall (n : ℕ) (io : Io d) : IoCall → Option (Io d × Option Str)
  | .read size => Chain.ioRead n io size
  | .getUntil stop size => Chain.ioGetUntil n io stop size
  | .write buf => (ioWrite n io buf).map fun r => (r.1, r.2.map fun _ => [])
  | .flush => (ioFlush n io).map fun r => (r.1, if r.2 then some [] else none)

/-- The page runs, with a log of what it has been returned. -/
def pageRun (n : ℕ) : IoPage → Io d → Option (Io d × List (Option Str))
  | .done, io => some (io, [])
  | .call c next, io =>
    (ioCall n io c).bind fun r => (pageRun n (next r.2) r.1).map fun t => (t.1, r.2 :: t.2)

end Run

def IoCall.wrote : IoCall → Str
  | .write buf => buf
  | _ => []

/-- What a page has written when it has been returned `log`. -/
def pageWrote : IoPage → List (Option Str) → Str
  | .call c next, r :: log => c.wrote ++ pageWrote (next r) log
  | _, _ => []

def IoCall.Enough (bs : Str) : IoCall → Prop
  | .read size => size ≤ bs.length
  | .getUntil stop size => size < 2 ∨ stop ∈ bs ∨ size - 1 < bs.length
  | _ => True

def IoCall.answer (rest : Str) : IoCall → Option Str
  | .read size => some (rest.take size)
  | .getUntil stop size => if size < 2 then none else some (takeThrough stop (size - 1) rest)
  | _ => some []

theorem takeThrough_append {stop : Byte} {n : ℕ} {bs : Str} (h : stop ∈ bs ∨ n ≤ bs.length)
    (more : Str) :
    takeThrough stop n (bs ++ more) = takeThrough stop n bs := by
  induction n generalizing bs with
  | zero => rfl
  | succ n ih =>
    cases bs with
    | nil => simp at h
    | cons b bs =>
      by_cases hb : b = stop
      · simp [takeThrough, hb]
      · have h' : stop ∈ bs ∨ n ≤ bs.length := by simpa [Ne.symm hb] using h
        simp [takeThrough, hb, ih h']

theorem IoCall.answer_append {bs : Str} {c : IoCall} (h : c.Enough bs) (more : Str) :
    c.answer (bs ++ more) = c.answer bs := by
  cases c with
  | read size => exact congrArg some (List.take_append_of_le_length h)
  | getUntil stop size =>
    simp only [IoCall.answer]
    split
    · rfl
    · next hsize =>
      rcases h with h | h | h
      · exact absurd h hsize
      · rw [takeThrough_append (Or.inl h)]
      · rw [takeThrough_append (Or.inr h.le)]
  | write buf => rfl
  | flush => rfl

theorem IoCall.answer_prefix (c : IoCall) (rest : Str) : (c.answer rest).getD [] <+: rest := by
  cases c with
  | read size => exact List.take_prefix _ _
  | getUntil stop size =>
    simp only [IoCall.answer]
    split
    · exact List.nil_prefix
    · exact (takeThrough_shortest stop _ rest).begins
  | write buf => exact List.nil_prefix
  | flush => exact List.nil_prefix

theorem IoCall.Enough.append {bs : Str} {c : IoCall} (h : c.Enough bs) (more : Str) :
    c.Enough (bs ++ more) := by
  cases c with
  | read size =>
    change size ≤ (bs ++ more).length
    rw [List.length_append]
    exact Nat.le_add_right_of_le h
  | getUntil stop size =>
    rcases h with h | h | h
    · exact Or.inl h
    · exact Or.inr (Or.inl (List.mem_append_left _ h))
    · refine Or.inr (Or.inr ?_)
      rw [List.length_append]
      exact Nat.lt_add_right _ h
  | write buf => trivial
  | flush => trivial

/-! ## The filter after the header -/

section Filter
variable {setId : Header → Option Header} {rs : Response} {needsId : Bool}

theorem rfRead_iob (rf : Filter) (room : ℕ) (h : (rfRead rf room).2 = []) :
    (rfRead rf room).1.iob = none := by
  unfold rfRead at h ⊢
  split
  · assumption
  · next rest hi =>
    simp only [hi] at h
    split
    · rfl
    · next hne =>
      rw [if_neg hne] at h
      exact absurd h hne

theorem rfRead_some {rf : Filter} {room : ℕ} (h : (rfRead rf room).2 ≠ []) : rf.iob ≠ none := by
  intro hi
  unfold rfRead at h
  simp [hi] at h

theorem Fed.buffering_length {total inp out : Str} {rf : Filter} (hm : rs.method ≠ .head)
    (h : Fed setId rs needsId total inp out rf) (hs : rf.state = .buffering) :
    inp.length = rf.off ∧ inp.length < RFBUFSZ := by
  rcases h with ⟨-, hb⟩ | ⟨-, -, hf⟩
  · have hoff := hb.off
    rw [hb.length_eq hm] at hoff ⊢
    exact ⟨rfl, hoff⟩
  · cases hf.state.symm.trans hs

/-- Nothing is left of the header once more has been taken than fits in the buffer. -/
theorem open_iob {total : Str} (hid : needsId = true → (setId rs.header).isSome = true)
    (hm : rs.method ≠ .head) {inp out : Str} {s : (responseFilterCreate setId rs needsId).State}
    (h : (responseFilterCreate setId rs needsId).Open False total s inp out)
    (hlen : RFBUFSZ ≤ inp.length) :
    Filter.iob s = none := by
  induction h with
  | init => exact absurd hlen (by decide)
  | @transform s inp out room src k h hroom _ hsrc htotal hret ih =>
    have hfed := (open_fed hid h).1.feeded
    change (rfFeed setId { s with feeded := true } room src).ret = some k at hret
    change (rfFeed setId { s with feeded := true } room src).state.iob = none
    unfold rfFeed at hret ⊢
    have hmethod : ({ s with feeded := true } : Filter).rs.method ≠ .head := by
      rcases hfed with ⟨-, hb⟩ | ⟨-, -, hf⟩
      · rwa [hb.response]
      · rwa [hf.method]
    rw [if_neg hmethod] at hret ⊢
    split at hret
    · next hfit =>
      -- all of it is still in the buffer
      have hoff : inp.length = Filter.off s := (hfed.buffering_length hm hfit.1).1
      have hfits : Filter.off s + src.length < RFBUFSZ := hfit.2
      rw [List.length_append, List.length_take] at hlen
      omega
    · next hfit =>
      rw [if_neg hfit]
      cases hover : Filter.overflow setId { s with feeded := true } with
      | none =>
        rw [hover] at hret
        cases hret
      | some rf =>
        rw [hover] at hret
        simp only [rfCopy] at hret ⊢
        by_cases hnil : (rfRead rf room).2 = []
        · rw [if_pos hnil]
          exact rfRead_iob rf room hnil
        · rw [if_neg hnil] at hret
          obtain rfl : 0 = k := Option.some.inj hret
          rw [List.take_zero, List.append_nil] at hlen
          have hstate : ({ s with feeded := true } : Filter).state ≠ .buffering := by
            intro hs
            have hlt := (hfed.buffering_length hm hs).2
            omega
          rw [Filter.overflow, if_neg hstate] at hover
          obtain rfl := Option.some.inj hover
          have hsome := rfRead_some hnil
          exact absurd (ih hlen) hsome

/-- From then on the filter passes on what it is given. -/
theorem open_passing {total : Str} (hid : needsId = true → (setId rs.header).isSome = true)
    (hm : rs.method ≠ .head) {inp out : Str} {s : (responseFilterCreate setId rs needsId).State}
    (h : (responseFilterCreate setId rs needsId).Open False total s inp out)
    (hlen : RFBUFSZ ≤ inp.length) :
    Passing (responseFilterCreate setId rs needsId) s := by
  have hiob := open_iob hid hm h hlen
  have hfeeded : Filter.feeded s = true :=
    open_feeded h (by rintro rfl; exact absurd hlen (by decide))
  have hsame : ({ s with feeded := true } : Filter) = s := by
    rw [← hfeeded]
    rfl
  rcases (open_fed hid h).1 with ⟨-, hb⟩ | ⟨-, -, hf⟩
  · have hoff := hb.off
    rw [hb.length_eq hm] at hoff
    omega
  · have hstate : ¬ Filter.state s = .buffering := by
      rw [hf.state]
      decide
    have hmethod : ¬ (Filter.rs s).method = .head := hf.method ▸ hm
    intro room src hroom hsrc
    change rfFeed setId { s with feeded := true } room src = _
    rw [hsame]
    simp [rfFeed, hmethod, hstate, Filter.overflow, rfCopy, rfRead, hiob, Nat.min_comm]
    rfl

end Filter

/-! ## One call, with the filter and without it -/

section Calls
variable {d : Device} {pending received : d.State → Str} {setId : Header → Option Header}
    {rs : Response} {needsId : Bool}

def IoCall.reads : IoCall → Bool
  | .read _ => true
  | .getUntil _ _ => true
  | _ => false

theorem ioCall_supply {P : Str → Io d → Prop} (hp : Supply P) {rest : Str} {io : Io d}
    (h : P rest io) {c : IoCall} (hc : c.reads = true) (he : c.Enough rest) :
    ∃ io', Ends (fun n => ioCall n io c) (io', c.answer rest) ∧
    P (rest.drop ((c.answer rest).getD []).length) io' := by
  cases c with
  | read size =>
    obtain ⟨io', hends, h'⟩ := ioRead_supply hp h he
    have hlen : (rest.take size).length = size := List.length_take_of_le he
    refine ⟨io', hends, ?_⟩
    change P (rest.drop (rest.take size).length) io'
    rwa [hlen]
  | getUntil stop size =>
    by_cases hsize : size < 2
    · simp only [ioCall, Chain.ioGetUntil, IoCall.answer, if_pos hsize]
      exact ⟨io, Ends.const _, h⟩
    · simp only [IoCall.answer, if_neg hsize]
      exact ioGetUntil_supply hp h (Nat.le_of_not_lt hsize) (he.resolve_left hsize)
  | write buf => cases hc
  | flush => cases hc

/-- The stream of a page with the filter and without it: the page has written `inp`, and
`rest` is still to be read. -/
structure Twin (setId : Header → Option Header) (rs : Response) (needsId : Bool)
    (pending received : d.State → Str) (pre inp rest : Str) (rf : Filter) (io io₀ : Io d) :
    Prop where
  putting : Putting setId rs needsId received pre inp rf io
  aside : Input pending rest (io.setChain [])
  input : Input pending rest io₀
  ok : io₀.WriteOk

variable {pre inp rest : Str} {rf : Filter} {io io₀ : Io d}

theorem Putting.read (h : Putting setId rs needsId received pre inp rf io) {io' : Io d}
    (h' : Aside pending received io rest io') :
    Putting setId rs needsId received pre inp rf io' := by
  obtain ⟨out, ho, hsent⟩ := h.fed
  refine ⟨h'.chain.trans h.through, h'.writes.writeOk h.ok, ?_, out, ho, ?_⟩
  · rw [h'.writes.wbuf]
    exact h.wbuf
  · rw [h'.writes.sent, hsent]

/-- The next call finds the request as it is: it finds enough of it in the read buffer, or
the filter has sent the header and there is enough of the request. -/
def Undisturbed (pending : d.State → Str) (rs : Response) (inp : Str) (io : Io d) (c : IoCall) :
    Prop :=
  c.Enough io.readable ∨
    rs.method ≠ .head ∧ RFBUFSZ ≤ inp.length ∧
    c.Enough (io.readable ++ (io.fetched ++ pending io.dev))

theorem Twin.read (hd : Duplex d pending received)
    (hid : needsId = true → (setId rs.header).isSome = true)
    (h : Twin setId rs needsId pending received pre inp rest rf io io₀) {c : IoCall}
    (hc : c.reads = true) (hu : Undisturbed pending rs inp io c) :
    ∃ io' io₀', Ends (fun n => ioCall n io c) (io', c.answer rest) ∧
      Ends (fun n => ioCall n io₀ c) (io₀', c.answer rest) ∧
      Twin setId rs needsId pending received pre inp
        (rest.drop ((c.answer rest).getD []).length) rf io' io₀' := by
  have hrest : io.readable ++ (io.fetched ++ pending io.dev) = rest := h.aside.rest
  have hself : Aside pending received io rest io := ⟨h.aside, rfl, SameWrites.refl io⟩
  have hall : c.Enough rest := by
    rw [← hrest]
    exact hu.elim (fun hb => hb.append _) fun hb => hb.2.2
  obtain ⟨io₀', hends₀, hin, hok⟩ := ioCall_supply (plain_supply hd) ⟨h.input, h.ok⟩ hc hall
  obtain ⟨io', hends, haside⟩ : ∃ io', Ends (fun n => ioCall n io c) (io', c.answer rest) ∧
      Aside pending received io (rest.drop ((c.answer rest).getD []).length) io' := by
    rcases hu with hbuf | ⟨hm, hlen, -⟩
    · have hsupply : Supply fun rest (io' : Io d) =>
        Aside pending received io (rest ++ (io.fetched ++ pending io.dev)) io' ∧
          io'.readable = rest := buffered_supply io (io.fetched ++ pending io.dev)
      have hstart : Aside pending received io (io.readable ++ (io.fetched ++ pending io.dev)) io :=
        hrest.symm ▸ hself
      obtain ⟨io', hends, hnext, -⟩ := ioCall_supply hsupply ⟨hstart, rfl⟩ hc hbuf
      have hanswer : c.answer rest = c.answer io.readable := by
        rw [← hrest, IoCall.answer_append hbuf]
      have hle : ((c.answer io.readable).getD []).length ≤ io.readable.length :=
        (c.answer_prefix _).length_le
      rw [← List.drop_append_of_le_length hle, hrest] at hnext
      rw [hanswer]
      exact ⟨io', hends, hnext⟩
    · obtain ⟨out, ho, -⟩ := h.putting.fed
      have hpass := open_passing hid hm ho hlen
      exact ioCall_supply (passing_supply hd hpass h.putting.through) hself hc hall
  exact ⟨io', io₀', hends, hends₀, h.putting.read haside, haside.input, hin, hok⟩

theorem Twin.write (hd : Duplex d pending received)
    (hid : needsId = true → (setId rs.header).isSome = true)
    (h : Twin setId rs needsId pending received pre inp rest rf io io₀) (buf : Str) :
    ∃ io' rf' io₀', Ends (fun n => ioCall n io (.write buf)) (io', some []) ∧
      Ends (fun n => ioCall n io₀ (.write buf)) (io₀', some []) ∧
      Twin setId rs needsId pending received pre (inp ++ buf) rest rf' io' io₀' := by
  obtain ⟨io', rf', hends, -, hput⟩ := h.putting.write hd.accepts hid buf
  obtain ⟨io₀', hends₀, hkept⟩ := ioWrite_accepted hd.accepts ⟨h.ok, h.input.chain⟩ buf
  obtain ⟨n, hrun⟩ := hends.some_run
  obtain ⟨m, hrun₀⟩ := hends₀.some_run
  have hplain : Input pending rest (io₀.setChain []) := h.input.setChain_nil.symm ▸ h.input
  have hin := (ioWrite_sameReads hd hrun₀).input hplain
  have hback : io₀'.setChain [] = io₀' := by
    rw [← hkept.plain.chain]
    rfl
  rw [hback] at hin
  exact ⟨io', rf', io₀', hends.map_eq rfl, hends₀.map_eq rfl, hput,
    (ioWrite_sameReads hd hrun).input h.aside, hin,
    hkept.plain.ok⟩

theorem Twin.flush (hd : Duplex d pending received)
    (h : Twin setId rs needsId pending received pre inp rest rf io io₀) :
    ∃ io' io₀', Ends (fun n => ioCall n io .flush) (io', some []) ∧
    Ends (fun n => ioCall n io₀ .flush) (io₀', some []) ∧
      Twin setId rs needsId pending received pre inp rest rf io' io₀' := by
  obtain ⟨dev', hends, hput⟩ := h.putting.flush hd.accepts
  obtain ⟨dev₀', hends₀, -⟩ := ioFlush_ends hd.accepts h.ok
  obtain ⟨n, hrun⟩ := hends.some_run
  obtain ⟨m, hrun₀⟩ := hends₀.some_run
  have hplain : Input pending rest (io₀.setChain []) := h.input.setChain_nil.symm ▸ h.input
  have hin := (ioFlush_sameReads hd hrun₀).input hplain
  have hback : ({ io₀ with dev := dev₀', wcount := 0 } : Io d).setChain [] = { io₀ with
      dev := dev₀', wcount := 0 } := by
    rw [← h.input.chain]
    rfl
  rw [hback] at hin
  exact ⟨_, _, hends.map_eq rfl, hends₀.map_eq rfl, hput,
    (ioFlush_sameReads hd hrun).input h.aside, hin,
    ⟨Nat.zero_le _, h.ok.size, fun _ => rfl⟩⟩

theorem Twin.call (hd : Duplex d pending received)
    (hid : needsId = true → (setId rs.header).isSome = true)
    (h : Twin setId rs needsId pending received pre inp rest rf io io₀) {c : IoCall}
    (hu : Undisturbed pending rs inp io c) :
    ∃ io' rf' io₀' rest', Ends (fun n => ioCall n io c) (io', c.answer rest) ∧
      Ends (fun n => ioCall n io₀ c) (io₀', c.answer rest) ∧
      Twin setId rs needsId pending received pre (inp ++ c.wrote) rest' rf' io' io₀' := by
  cases hc : c.reads with
  | true =>
    obtain ⟨io', io₀', hends, hends₀, h'⟩ := h.read hd hid hc hu
    have hwrote : c.wrote = [] := by
      cases c with
      | write buf => cases hc
      | read size => rfl
      | getUntil stop size => rfl
      | flush => rfl
    rw [hwrote, List.append_nil]
    exact ⟨io', rf, io₀', _, hends, hends₀, h'⟩
  | false =>
    cases c with
    | read size => cases hc
    | getUntil stop size => cases hc
    | write buf =>
      obtain ⟨io', rf', io₀', hends, hends₀, h'⟩ := h.write hd hid buf
      exact ⟨io', rf', io₀', rest, hends, hends₀, h'⟩
    | flush =>
      obtain ⟨io', io₀', hends, hends₀, h'⟩ := h.flush hd
      have hwrote : IoCall.flush.wrote = [] := rfl
      rw [hwrote, List.append_nil]
      exact ⟨io', rf, io₀', rest, hends, hends₀, h'⟩

inductive SafeRun (pending : d.State → Str) (rs : Response) : Str → Io d → IoPage → Prop
  | done (inp : Str) (io : Io d) : SafeRun pending rs inp io .done
  | call {inp : Str} {io : Io d} {c : IoCall} {next : Option Str → IoPage} :
    Undisturbed pending rs inp io c →
    (∀ io' r, Ends (fun n => ioCall n io c) (io', r) →
      SafeRun pending rs (inp ++ c.wrote) io' (next r)) →
    SafeRun pending rs inp io (.call c next)

/-- With the filter and without it the page is returned the same. -/
theorem Twin.run (hd : Duplex d pending received)
    (hid : needsId = true → (setId rs.header).isSome = true) {p : IoPage}
    (hsafe : SafeRun pending rs inp io p)
    (h : Twin setId rs needsId pending received pre inp rest rf io io₀) :
    ∃ io' rf' io₀' log, Ends (fun n => pageRun n p io) (io', log) ∧
    Ends (fun n => pageRun n p io₀) (io₀', log) ∧
      Putting setId rs needsId received pre (inp ++ pageWrote p log) rf' io' := by
  induction hsafe generalizing rest rf io₀ with
  | done inp io =>
    refine ⟨io, rf, io₀, [], Ends.const _, Ends.const _, ?_⟩
    rw [pageWrote, List.append_nil]
    exact h.putting
    all_goals simp
  | @call inp io c next hu _ ih =>
    obtain ⟨io₁, rf₁, io₁₀, rest₁, hends, hends₀, h₁⟩ := h.call hd hid hu
    obtain ⟨io', rf', io₀', log, hrun, hrun₀, hput⟩ := ih _ _ hends h₁
    refine ⟨io', rf', io₀', c.answer rest :: log, hends.bind (hrun.map_eq rfl),
      hends₀.bind (hrun₀.map_eq rfl), ?_⟩
    rw [pageWrote, ← List.append_assoc]
    exact hput

/-! ## The response -/

/-- `dypage_serve` of a page without a session, and the end of the connection: the page, a
byte if it has written none, a last change of the header, and the stream is freed. -/
def PageServed (setId : Header → Option Header) (rs : Response) (needsId : Bool) (header : Header)
    (p : IoPage) (io : Io d) (log : List (Option Str)) (io' : Io d) : Prop :=
  let f := responseFilterCreate setId rs needsId
  ∃ io₁ io₂ io₃ : Io d, ∃ rf₂ rf₃ : Filter,
    Ends (fun n => pageRun n p (io.setChain [codecCreate f])) (io₁, log) ∧
    Ends (fun n => ioFlush n io₁) (io₂, true) ∧
    io₂.Through f rf₂ ∧ Ends (fun n => writeDummy n rf₂ io₂) io₃ ∧ io₃.Through f rf₃ ∧
    Ends (fun n => ioFree n (io₃.setChain [codecCreate (f.from (withHeader rf₃ header))])) io'

theorem PageServed.unique {header : Header} {p : IoPage} {log log' : List (Option Str)}
    {io' io'' : Io d} (h : PageServed setId rs needsId header p io log io')
    (h' : PageServed setId rs needsId header p io log' io'') :
    log = log' ∧ io' = io'' := by
  obtain ⟨io₁, io₂, io₃, rf₂, rf₃, hrun, hflush, hrf₂, hdummy, hrf₃, hfree⟩ := h
  obtain ⟨jo₁, jo₂, jo₃, sf₂, sf₃, hrun', hflush', hsf₂, hdummy', hsf₃, hfree'⟩ := h'
  obtain ⟨rfl, rfl⟩ := Prod.mk.inj (hrun.unique hrun')
  obtain rfl : io₂ = jo₂ := congrArg Prod.fst (hflush.unique hflush')
  obtain rfl : rf₂ = sf₂ := hrf₂.unique hsf₂
  obtain rfl : io₃ = jo₃ := hdummy.unique hdummy'
  obtain rfl : rf₃ = sf₃ := hrf₃.unique hsf₃
  exact ⟨rfl, hfree.unique hfree'⟩

/-- A page none of whose calls is disturbed reads with the filter what it reads without
it, and what is sent is the header and what the page has written. -/
theorem page_reads_agree (hd : Duplex d pending received) (setId : Header → Option Header)
    {rs : Response} {needsId : Bool} (hid : needsId = true → (setId rs.header).isSome = true)
    (header : Header) (p : IoPage) {io : Io d} (hio : Unwritten io) {rest : Str}
    (hin : Input pending rest io)
    (hsafe : SafeRun pending rs []
      (io.setChain [codecCreate (responseFilterCreate setId rs needsId)]) p) :
    (∃ log io', PageServed setId rs needsId header p io log io') ∧
      ∀ log io', PageServed setId rs needsId header p io log io' →
        (∃ io₀, Ends (fun n => pageRun n p io) (io₀, log)) ∧
        received io'.dev = received io.dev ++
          ((freedResponse setId rs needsId (pageBody (pageWrote p log)) header).printed ++
            rs.body (pageBody (pageWrote p log))) := by
  have hback : io.setChain [] = io := by
    rw [← hio.chain]
    rfl
  have haside : Input pending rest
      ((io.setChain [codecCreate (responseFilterCreate setId rs needsId)]).setChain []) := by
    change Input pending rest (io.setChain [])
    rwa [hback]
  have hok : io.WriteOk := by
    refine ⟨?_, ?_, fun _ => hio.wcount⟩
    · rw [hio.wcount]
      exact Nat.zero_le _
    · intro mem hm
      cases hio.wbuf.symm.trans hm
  have htwin : Twin setId rs needsId pending received (received io.dev) [] rest
      (responseFilterCreate setId rs needsId).init
        (io.setChain [codecCreate (responseFilterCreate setId rs needsId)]) io :=
    ⟨Putting.start hio, haside, hin, hok⟩
  obtain ⟨io₁, rf₁, io₀, log, hrun, hrun₀, hput⟩ := htwin.run hd hid hsafe
  obtain ⟨dev₂, hflush, hput₂⟩ := hput.flush hd.accepts
  obtain ⟨io₃, rf₃, hdummy, hw, hput₃⟩ := hput₂.dummy hd.accepts hid
  obtain ⟨io', hfree, hrec⟩ := hput₃.freed hd.accepts hid hw header
  have hserved : PageServed setId rs needsId header p io log io' :=
    ⟨io₁, _, io₃, rf₁, rf₃, hrun, hflush, hput₂.through, hdummy, hput₃.through, hfree⟩
  refine ⟨⟨log, io', hserved⟩, ?_⟩
  intro log' io'' h
  obtain ⟨rfl, rfl⟩ := hserved.unique h
  exact ⟨⟨io₀, hrun₀⟩, hrec⟩

end Calls

/-- What has come from the client and is not read yet, and what has been sent to it. -/
def socket : Device where
  State := Str × Str
  read s size := ((s.1.drop size, s.2), some (s.1.take size))
  write s bs := ((s.1, s.2 ++ bs), some bs.length)

theorem socket_duplex : Duplex socket Prod.fst Prod.snd where
  delivers _ size hsize := ⟨size, rfl, rfl, le_refl _, fun _ => hsize⟩
  accepts := by
    intro s bs hbs
    exact ⟨bs.length, rfl, List.length_pos_iff.mpr hbs, le_refl _, by simp [socket]⟩
  read_received _ _ := rfl
  write_pending _ _ := rfl

def plainResponse : Response :=
  responseFor false .get (bytes "klone/2.2.0") (bytes "Sun, 13 Mar 2011 07:06:40 GMT")

def bodyStream : Io socket := ioCreate (d := socket) (bytes "body", []) []

/-- A page that fills the buffer of the filter and then reads. -/
def latePage : IoPage :=
  .call (.write (List.replicate 4096 120)) fun _ => .call (.read 4) fun _ => .done

theorem latePage_safe : SafeRun (d := socket) Prod.fst plainResponse []
    (bodyStream.setChain [codecCreate (responseFilterCreate some plainResponse false)])
      latePage := by
  refine .call (Or.inl trivial) ?_
  intro io' r hends
  refine .call (Or.inr ⟨by decide +kernel, by decide +kernel, ?_⟩) fun _ _ _ => .done _ _
  obtain ⟨n, hrun⟩ := hends.some_run
  obtain ⟨w, hwrite, hw⟩ := Option.map_eq_some_iff.mp hrun
  obtain rfl : w.1 = io' := congrArg Prod.fst hw
  have hpending : Prod.fst w.1.dev = bytes "body" :=
    (ioWrite_sameReads socket_duplex hwrite).pending
  change 4 ≤ (w.1.readable ++ (w.1.fetched ++ Prod.fst w.1.dev)).length
  have hlen : (bytes "body").length = 4 := by decide +kernel
  rw [hpending, List.length_append, List.length_append]
  omega

theorem page_reads_agree_late :
    (∃ log io', PageServed some plainResponse false plainResponse.header latePage
      bodyStream log io') ∧
      ∀ log io', PageServed some plainResponse false plainResponse.header latePage
        bodyStream log io' →
        (∃ io₀, Ends (fun n => pageRun n latePage bodyStream) (io₀, log)) ∧
        io'.dev.2 = bodyStream.dev.2 ++
          ((freedResponse some plainResponse false (pageBody (pageWrote latePage log))
            plainResponse.header).printed ++
            plainResponse.body (pageBody (pageWrote latePage log))) := by
  have hin : Input Prod.fst (bytes "body") bodyStream :=
    ioCreate_input (d := socket) Prod.fst (bytes "body", [])
  exact page_reads_agree socket_duplex some (fun _ => rfl) plainResponse.header latePage
    ⟨rfl, rfl, rfl⟩ hin
    latePage_safe

def earlyPage : IoPage := .call (.read 4) fun _ => .done

set_option maxRecDepth 100000 in
/-- The filter takes the body of the request for a part of the page, and the page reads the
header of its own response. -/
theorem page_reads_header :
    Ends (fun n => (pageRun n earlyPage
      (bodyStream.setChain [codecCreate (responseFilterCreate some plainResponse false)])).map
        Prod.snd)
      [some (bytes "HTTP")] ∧
    Ends (fun n => (pageRun n earlyPage bodyStream).map Prod.snd) [some (bytes "body")] := by
  refine ⟨⟨6, fun n hn => ?_⟩, ⟨6, fun n hn => ?_⟩⟩
  · obtain ⟨k, rfl⟩ : ∃ k, n = k + 6 := ⟨n - 6, by omega⟩
    rfl
  · obtain ⟨k, rfl⟩ : ∃ k, n = k + 6 := ⟨n - 6, by omega⟩
    rfl

end Klone.Page
