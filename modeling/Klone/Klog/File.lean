import Klone.Lib.CString
import Klone.Lib.PageRing

/-! # File logs

A file log is a ring of page files and a head file, which is dumped when the log is closed
and says at the next open where to go on. If the sizes of the ring are then others than
those of the head, writing starts again at page zero. The page files are opened for
appending and only a shift truncates one.
-/
namespace Klone.Klog
open PageRing

def KLOG_DEBUG : ℤ := 0
def KLOG_EMERG : ℤ := 7

def KLOG_LN_SZ : ℕ := 512

def kloglev : List Str := ["DBG", "INF", "NTC", "WRN", "ERR", "CRT", "ALR", "EMR"].map bytes

def klogToStr (lev : ℤ) : Str :=
  if lev < KLOG_DEBUG ∨ KLOG_EMERG < lev then bytes "?" else kloglev.getD lev.toNat []

/-- `klog_file_t`. The stream `wfp` is the number of the page file it writes to. -/
structure KlogFile where
  npages : ℕ
  nlines : ℕ
  wpageid : ℕ
  offset : ℕ
  wfp : Option ℕ
  deriving DecidableEq, Repr

/-- The files of one log; `page i` has the lines of the file with the suffix `i`. -/
structure Files where
  page : ℕ → Option (List Str)
  head : Option KlogFile

def Files.none : Files := ⟨fun _ => .none, .none⟩

/-- The lines of a page file, of which there are none if it does not exist. -/
def Files.lines (d : Files) (i : ℕ) : List Str := (d.page i).getD []

def Files.write (d : Files) (i : ℕ) (ls : List Str) : Files :=
  { d with page := Function.update d.page i (some ls) }

@[simp] theorem Files.write_head (d : Files) (i : ℕ) (ls : List Str) :
    (d.write i ls).head = d.head := rfl

@[simp] theorem Files.write_lines (d : Files) (i : ℕ) (ls : List Str) :
    (d.write i ls).lines = Function.update d.lines i ls := by
  funext j
  by_cases hj : j = i
  · simp [hj, Files.lines, Files.write]
  · simp [hj, Files.lines, Files.write]

def klogFileHeadNew (npages nlines wpageid offset : ℕ) : KlogFile :=
  ⟨npages, nlines, wpageid, offset, none⟩

def klogFileHeadLoad (d : Files) : Option KlogFile :=
  d.head.map fun hfs => klogFileHeadNew hfs.npages hfs.nlines hfs.wpageid hfs.offset

def klogFileHeadDump (d : Files) (klf : KlogFile) : Files := { d with head := some klf }

/-- The page is opened for appending and created if it does not exist. -/
def klogFileOpenPage (d : Files) (klf : KlogFile) : Files × KlogFile :=
  (d.write klf.wpageid (d.lines klf.wpageid), { klf with wfp := some klf.wpageid })

def klogOpenFile (d : Files) (npages nlines : ℕ) : Files × KlogFile :=
  match klogFileHeadLoad d with
  | none => klogFileOpenPage d (klogFileHeadNew npages nlines 0 0)
  | some klf =>
    if klf.npages ≠ npages ∨ klf.nlines ≠ nlines then
      klogFileOpenPage d { klf with npages := npages, nlines := nlines, wpageid := 0, offset := 0 }
    else klogFileOpenPage d klf

def klogPageFull (klf : KlogFile) : Bool := decide (klf.nlines ≤ klf.offset)

/-- The next page is opened for writing, which truncates it. -/
def klogFileShiftPage (d : Files) (klf : KlogFile) : Files × KlogFile :=
  let wf := (klf.wpageid + 1) % klf.npages
  (d.write wf [], { klf with wfp := some wf, offset := 0, wpageid := wf })

structure Message where
  ident : Str
  level : ℤ
  ct : Str
  text : Str

def Message.line (msg : Message) : Str :=
  bytes "[" ++ klogToStr msg.level ++ bytes "] " ++ msg.ct ++ bytes " <" ++ msg.ident ++
    bytes ">: " ++
    msg.text.take KLOG_LN_SZ

def klogFileAppend (d : Files) (klf : KlogFile) (msg : Message) : Files × KlogFile :=
  match klf.wfp with
  | none => (d, klf)
  | some i => (d.write i (d.lines i ++ [msg.line]), { klf with offset := klf.offset + 1 })

def klogFile (d : Files) (klf : KlogFile) (msg : Message) : Files × KlogFile :=
  if klogPageFull klf then
    let s := klogFileShiftPage d klf
    klogFileAppend s.1 s.2 msg
  else klogFileAppend d klf msg

def klogCloseFile (d : Files) (klf : KlogFile) : Files :=
  klogFileHeadDump d { klf with wfp := none }

inductive Op where
  | openFile (npages nlines : ℕ)
  | log (msg : Message)
  | close

structure State where
  files : Files
  kl : Option KlogFile

def State.init : State := ⟨Files.none, none⟩

def step (s : State) : Op → Option State
  | .openFile npages nlines =>
    match s.kl with
    | none =>
      let r := klogOpenFile s.files npages nlines
      some ⟨r.1, some r.2⟩
    | some _ => none
  | .log msg => s.kl.map fun klf =>
      let r := klogFile s.files klf msg
      ⟨r.1, some r.2⟩
  | .close => s.kl.map fun klf => ⟨klogCloseFile s.files klf, none⟩

def run (ops : List Op) : Option State := ops.foldlM step State.init

/-- The position in the ring: that of the open log or the one in the head file. -/
def State.current (s : State) : Option KlogFile := s.kl.or s.files.head

/-- The sizes of the ring in use and the lines logged since they last changed. -/
structure Past where
  sizes : Option (ℕ × ℕ)
  lines : List Str

def Past.step (p : Past) : Op → Past
  | .openFile npages nlines =>
    if p.sizes = some (npages, nlines) then p else ⟨some (npages, nlines), []⟩
  | .log msg => { p with lines := p.lines ++ [msg.line] }
  | .close => p

def past (ops : List Op) : Past := ops.foldl Past.step ⟨none, []⟩

def logged (ops : List Op) : List Str := ops.filterMap fun
  | .log msg => some msg.line
  | _ => none

/-- What the pages promise for a history: they are a ring with the last lines. -/
def State.IsRing (s : State) (ops : List Op) : Prop :=
  ∀ klf ∈ s.current, Holds klf.npages klf.nlines klf.wpageid s.files.lines (past ops).lines

@[simp] theorem past_append (ops : List Op) (o : Op) : past (ops ++ [o]) = (past ops).step o := by
  simp [past]

@[simp] theorem run_append (ops : List Op) (o : Op) :
    run (ops ++ [o]) = (run ops).bind fun s => step s o := by
  simp [run]

/-- What one operation does. -/
theorem step_cases {s s' : State} {o : Op} (h : step s o = some s') :
    (∃ npages nlines, o = .openFile npages nlines ∧ s.kl = none ∧
      s' = ⟨(klogOpenFile s.files npages nlines).1, some (klogOpenFile s.files npages nlines).2⟩) ∨
    (∃ msg klf, o = .log msg ∧ s.kl = some klf ∧
      s' = ⟨(klogFile s.files klf msg).1, some (klogFile s.files klf msg).2⟩) ∨
    ∃ klf, o = .close ∧ s.kl = some klf ∧ s' = ⟨klogCloseFile s.files klf, none⟩ := by
  rcases s with ⟨d, kl⟩
  cases o with
  | openFile npages nlines =>
    cases kl with
    | none => exact Or.inl ⟨npages, nlines, rfl, rfl, (Option.some.inj h).symm⟩
    | some klf => simp [step] at h
  | log msg =>
    cases kl with
    | none => simp [step] at h
    | some klf => exact Or.inr (Or.inl ⟨msg, klf, rfl, rfl, (Option.some.inj h).symm⟩)
  | close =>
    cases kl with
    | none => simp [step] at h
    | some klf => exact Or.inr (Or.inr ⟨klf, rfl, rfl, (Option.some.inj h).symm⟩)

theorem run_append_cases {ops : List Op} {o : Op} {s' : State} (h : run (ops ++ [o]) = some s') :
    ∃ s, run ops = some s ∧ step s o = some s' := by
  rw [run_append] at h
  exact Option.bind_eq_some_iff.mp h

/-- A part of a history is one too. -/
theorem run_part {pre ops : List Op} (hpre : pre <+: ops) (hops : (run ops).isSome) :
    (run pre).isSome := by
  obtain ⟨rest, rfl⟩ := hpre
  cases h : run pre with
  | none =>
    have hrun : run (pre ++ rest) = (run pre).bind fun s => rest.foldlM step s := by simp [run]
    simp [hrun, h] at hops
  | some s => rfl

def KlogFile.sizes (klf : KlogFile) : ℕ × ℕ := (klf.npages, klf.nlines)

theorem klogOpenFile_lines (d : Files) (npages nlines : ℕ) :
    (klogOpenFile d npages nlines).1.lines = d.lines := by
  simp only [klogOpenFile]
  split
  · simp [klogFileOpenPage]
  · split
    · simp [klogFileOpenPage]
    · simp [klogFileOpenPage]

theorem klogOpenFile_fresh {d : Files} {npages nlines : ℕ}
    (h : d.head.map KlogFile.sizes ≠ some (npages, nlines)) :
    (klogOpenFile d npages nlines).2 = ⟨npages, nlines, 0, 0, some 0⟩ := by
  cases hd : d.head with
  | none => simp [klogOpenFile, klogFileHeadLoad, hd, klogFileOpenPage, klogFileHeadNew]
  | some hfs =>
    have hne : hfs.npages ≠ npages ∨ hfs.nlines ≠ nlines := by
      by_contra hcon
      push Not at hcon
      exact h (by simp [hd, KlogFile.sizes, hcon])
    simp [klogOpenFile, klogFileHeadLoad, hd, klogFileHeadNew, hne, klogFileOpenPage]

theorem klogOpenFile_again {d : Files} {hfs : KlogFile} (h : d.head = some hfs) :
    (klogOpenFile d hfs.npages hfs.nlines).2 = { hfs with wfp := some hfs.wpageid } := by
  simp [klogOpenFile, klogFileHeadLoad, h, klogFileHeadNew, klogFileOpenPage]

section
variable {d : Files} {klf : KlogFile} (hwfp : klf.wfp = some klf.wpageid)
include hwfp

theorem klogFile_room (msg : Message) (h : klf.offset < klf.nlines) :
    (klogFile d klf msg).1.lines =
        Function.update d.lines klf.wpageid (d.lines klf.wpageid ++ [msg.line]) ∧
      (klogFile d klf msg).2 = { klf with offset := klf.offset + 1 } := by
  simp [klogFile, klogPageFull, Nat.not_le.mpr h, klogFileAppend, hwfp]

omit hwfp in
theorem klogFile_full (msg : Message) (h : klf.nlines ≤ klf.offset) :
    (klogFile d klf msg).1.lines = Function.update d.lines ((klf.wpageid + 1) % klf.npages)
    [msg.line] ∧
      (klogFile d klf msg).2 =
        { klf with wpageid := (klf.wpageid + 1) % klf.npages, offset := 1,
                   wfp := some ((klf.wpageid + 1) % klf.npages) } := by
  simp [klogFile, klogPageFull, h, klogFileShiftPage, klogFileAppend]

theorem klogFile_frame (msg : Message) :
    (klogFile d klf msg).2.sizes = klf.sizes ∧
      (klogFile d klf msg).2.wfp = some (klogFile d klf msg).2.wpageid := by
  rcases lt_or_ge klf.offset klf.nlines with h | h
  · simp [(klogFile_room hwfp (d := d) msg h).2, KlogFile.sizes, hwfp]
  · simp [(klogFile_full (d := d) msg h).2, KlogFile.sizes]

end

def WellSized (ops : List Op) : Prop :=
  ∀ npages nlines, .openFile npages nlines ∈ ops → 2 ≤ npages ∧ 1 ≤ nlines

structure Placed (ops : List Op) (s : State) : Prop where
  wfp : ∀ klf ∈ s.kl, klf.wfp = some klf.wpageid
  sizes : s.current.map KlogFile.sizes = (past ops).sizes
  sized : ∀ klf ∈ s.current, 2 ≤ klf.npages ∧ 1 ≤ klf.nlines
  before : logged ops = [] → (∀ i, s.files.lines i = []) ∧ ∀ klf ∈ s.current, klf.wpageid = 0 ∧
    klf.offset = 0
  after : logged ops ≠ [] → s.files.lines 0 ≠ []

theorem placed_init : Placed [] State.init where
  wfp := by simp [State.init]
  sizes := by simp [State.init, State.current, Files.none, past]
  sized := by simp [State.init, State.current, Files.none]
  before := by simp [State.init, State.current, Files.none, Files.lines]
  after := by simp [logged]

/-- The position after an open: that of the head if it has the same sizes. -/
theorem klogOpenFile_cases (d : Files) (npages nlines : ℕ) :
    (d.head.map KlogFile.sizes ≠ some (npages, nlines) ∧
        (klogOpenFile d npages nlines).2 = ⟨npages, nlines, 0, 0, some 0⟩) ∨
      ∃ hfs, d.head = some hfs ∧ hfs.sizes = (npages, nlines) ∧
        (klogOpenFile d npages nlines).2 = { hfs with wfp := some hfs.wpageid } := by
  by_cases h : d.head.map KlogFile.sizes = some (npages, nlines)
  · obtain ⟨hfs, hd, hsizes⟩ := Option.map_eq_some_iff.mp h
    obtain ⟨rfl, rfl⟩ := Prod.mk.inj hsizes
    exact Or.inr ⟨hfs, hd, rfl, klogOpenFile_again hd⟩
  · exact Or.inl ⟨h, klogOpenFile_fresh h⟩

/-- A log only adds a line, and the first one goes to page zero. -/
theorem Placed.log {ops : List Op} {s : State} (h : Placed ops s) {klf : KlogFile}
    (hkl : s.kl = some klf) (msg : Message) :
    Placed (ops ++ [.log msg])
    ⟨(klogFile s.files klf msg).1, some (klogFile s.files klf msg).2⟩ := by
  have hwfp := h.wfp klf hkl
  have hcur : s.current = some klf := by simp [State.current, hkl]
  have hsizes := h.sizes
  rw [hcur] at hsizes
  have hsized := h.sized klf hcur
  obtain ⟨hframe, hwfp'⟩ := klogFile_frame hwfp (d := s.files) msg
  refine ⟨?_, ?_, ?_, ?_, ?_⟩
  · rintro k ⟨⟩
    exact hwfp'
  · simpa [State.current, hframe, Past.step] using hsizes
  · rintro k ⟨⟩
    obtain ⟨hn, hm⟩ := Prod.mk.inj hframe
    rwa [hn, hm]
  · simp [logged]
  · intro _
    by_cases hlogged : logged ops = []
    · obtain ⟨-, hzero⟩ := h.before hlogged
      obtain ⟨hw, ho⟩ := hzero klf hcur
      have hlines := (klogFile_room hwfp (d := s.files) msg (by omega)).1
      simp [hlines, hw]
    · have hpage := h.after hlogged
      rcases lt_or_ge klf.offset klf.nlines with hroom | hfull
      · rw [(klogFile_room hwfp msg hroom).1, Function.update_apply]
        split
        · simp
        · exact hpage
      · rw [(klogFile_full msg hfull).1, Function.update_apply]
        split
        · simp
        · exact hpage

theorem Placed.open {ops : List Op} {s : State} (h : Placed ops s) (hkl : s.kl = none)
    {npages nlines : ℕ} (hsized : 2 ≤ npages ∧ 1 ≤ nlines) :
    Placed (ops ++ [.openFile npages nlines])
      ⟨(klogOpenFile s.files npages nlines).1, some (klogOpenFile s.files npages nlines).2⟩ := by
  have hcur : s.current = s.files.head := by simp [State.current, hkl]
  have hlines := klogOpenFile_lines s.files npages nlines
  have hlogged : logged (ops ++ [.openFile npages nlines]) = logged ops := by simp [logged]
  have hsizes := h.sizes
  have hbefore := h.before
  rw [hcur] at hsizes
  rcases klogOpenFile_cases s.files npages nlines with ⟨hne, hk⟩ | ⟨hfs, hd, hsame, hk⟩
  · refine ⟨?_, ?_, ?_, ?_, ?_⟩
    · rintro k ⟨⟩
      simp [hk]
    · rw [hsizes] at hne
      simp [State.current, hk, KlogFile.sizes, Past.step, hne]
    · rintro k ⟨⟩
      simpa [hk] using hsized
    · rw [hlogged]
      intro hnone
      refine ⟨fun i => by rw [hlines]; exact (hbefore hnone).1 i, ?_⟩
      rintro k ⟨⟩
      simp [hk]
    · rw [hlogged, hlines]
      exact h.after
  · have hcur' : s.current = some hfs := by rw [hcur, hd]
    refine ⟨?_, ?_, ?_, ?_, ?_⟩
    · rintro k ⟨⟩
      simp [hk]
    · rw [hd, Option.map_some, hsame] at hsizes
      rw [past_append, Past.step, if_pos hsizes.symm, ← hsizes, ← hsame]
      simp [State.current, hk, KlogFile.sizes]
    · rintro k ⟨⟩
      simpa [hk] using h.sized hfs hcur'
    · rw [hlogged]
      intro hnone
      refine ⟨fun i => by rw [hlines]; exact (hbefore hnone).1 i, ?_⟩
      rintro k ⟨⟩
      simpa [hk] using (hbefore hnone).2 hfs hcur'
    · rw [hlogged, hlines]
      exact h.after

theorem Placed.close {ops : List Op} {s : State} (h : Placed ops s) {klf : KlogFile}
    (hkl : s.kl = some klf) :
    Placed (ops ++ [.close]) ⟨klogCloseFile s.files klf, none⟩ := by
  have hcur : s.current = some klf := by simp [State.current, hkl]
  have hlogged : logged (ops ++ [.close]) = logged ops := by simp [logged]
  have hcur' : State.current ⟨klogCloseFile s.files klf, none⟩ = some { klf with
    wfp := none } := rfl
  have hlines : (klogCloseFile s.files klf).lines = s.files.lines := rfl
  refine ⟨by simp, ?_, ?_, ?_, ?_⟩
  · have hsizes := h.sizes
    rw [hcur] at hsizes
    rw [hcur', past_append]
    exact hsizes
  · rintro k ⟨⟩
    exact h.sized klf hcur
  · rw [hlogged]
    intro hnone
    refine ⟨(h.before hnone).1, ?_⟩
    rintro k ⟨⟩
    exact (h.before hnone).2 klf hcur
  · rw [hlogged]
    exact h.after

theorem placed_run {ops : List Op} (hops : WellSized ops) {s : State} (h : run ops = some s) :
    Placed ops s := by
  induction ops using List.reverseRecOn generalizing s with
  | nil =>
    obtain rfl : State.init = s := by simpa [run] using h
    exact placed_init
  | append_singleton ops o ih =>
    obtain ⟨s₀, h₀, hstep⟩ := run_append_cases h
    have hp := ih (fun n m hmem => hops n m (List.mem_append_left _ hmem)) h₀
    rcases step_cases hstep with ⟨npages, nlines, rfl, hkl, rfl⟩ | ⟨msg, klf, rfl, hkl, rfl⟩ |
      ⟨klf, rfl, hkl, rfl⟩
    · exact hp.open hkl (hops npages nlines (by simp))
    · exact hp.log hkl msg
    · exact hp.close hkl

/-- The sizes of the ring change only while nothing has been logged. -/
def Steady (ops : List Op) : Prop :=
  ∀ pre npages nlines, pre ++ [.openFile npages nlines] <+: ops →
    (past pre).sizes = some (npages, nlines) ∨ logged pre = []

def InRing (ops : List Op) (s : State) : Prop :=
  ∀ klf ∈ s.current, (s.files.lines klf.wpageid).length = klf.offset ∧
    Kept klf.npages klf.nlines klf.wpageid s.files.lines (past ops).lines

theorem InRing.log {ops : List Op} {s : State} (h : InRing ops s) (hp : Placed ops s)
    {klf : KlogFile} (hkl : s.kl = some klf) (msg : Message) :
    InRing (ops ++ [.log msg])
    ⟨(klogFile s.files klf msg).1, some (klogFile s.files klf msg).2⟩ := by
  have hwfp := hp.wfp klf hkl
  have hcur : s.current = some klf := by simp [State.current, hkl]
  obtain ⟨hn, hm⟩ := hp.sized klf hcur
  obtain ⟨hoffset, hkept⟩ := h klf hcur
  rintro k ⟨⟩
  rw [past_append]
  rcases lt_or_ge klf.offset klf.nlines with hroom | hfull
  · obtain ⟨hlines, hk⟩ := klogFile_room hwfp (d := s.files) msg hroom
    rw [hlines, hk]
    exact ⟨by simp [hoffset], hkept.append (hoffset ▸ hroom)⟩
  · obtain ⟨hlines, hk⟩ := klogFile_full (d := s.files) msg hfull
    rw [hlines, hk]
    have hlen : (s.files.lines klf.wpageid).length = klf.nlines :=
      le_antisymm hkept.room (hoffset ▸ hfull)
    exact ⟨by simp, hkept.shift hn hlen hm⟩

theorem InRing.open {ops : List Op} {s : State} (h : InRing ops s) (hp : Placed ops s)
    (hkl : s.kl = none) {npages nlines : ℕ} (hsized : 2 ≤ npages ∧ 1 ≤ nlines)
    (hsteady : (past ops).sizes = some (npages, nlines) ∨ logged ops = []) :
    InRing (ops ++ [.openFile npages nlines])
      ⟨(klogOpenFile s.files npages nlines).1, some (klogOpenFile s.files npages nlines).2⟩ := by
  have hcur : s.current = s.files.head := by simp [State.current, hkl]
  have hsizes := hp.sizes
  rw [hcur] at hsizes
  rintro k ⟨⟩
  rw [klogOpenFile_lines, past_append, Past.step]
  rcases klogOpenFile_cases s.files npages nlines with ⟨hne, hk⟩ | ⟨hfs, hd, hsame, hk⟩
  · rw [hsizes] at hne
    have hblank := (hp.before (hsteady.resolve_left hne)).1
    rw [hk, if_neg hne]
    have hpos : 0 < npages := by have := hsized.1; omega
    exact ⟨by simp [hblank], kept_empty hpos fun i _ => hblank i⟩
  · rw [hd, Option.map_some, hsame] at hsizes
    rw [hk, if_pos hsizes.symm]
    exact h hfs (by rw [hcur, hd]; rfl)

theorem InRing.close {ops : List Op} {s : State} (h : InRing ops s) {klf : KlogFile}
    (hkl : s.kl = some klf) :
    InRing (ops ++ [.close]) ⟨klogCloseFile s.files klf, none⟩ := by
  have hcur : s.current = some klf := by simp [State.current, hkl]
  rintro k ⟨⟩
  rw [past_append]
  exact h klf hcur

theorem inRing_run {ops : List Op} (hops : WellSized ops) (hsteady : Steady ops) {s : State}
    (h : run ops = some s) : InRing ops s := by
  induction ops using List.reverseRecOn generalizing s with
  | nil =>
    obtain rfl : State.init = s := by simpa [run] using h
    simp [InRing, State.init, State.current, Files.none]
  | append_singleton ops o ih =>
    obtain ⟨s₀, h₀, hstep⟩ := run_append_cases h
    have hops₀ : WellSized ops := fun n m hmem => hops n m (List.mem_append_left _ hmem)
    have hp := placed_run hops₀ h₀
    have hr := ih hops₀ (fun pre n m hpre =>
      hsteady pre n m (hpre.trans (List.prefix_append ops [o]))) h₀
    rcases step_cases hstep with ⟨npages, nlines, rfl, hkl, rfl⟩ | ⟨msg, klf, rfl, hkl, rfl⟩ |
      ⟨klf, rfl, hkl, rfl⟩
    · exact hr.open hp hkl (hops npages nlines (by simp))
        (hsteady ops npages nlines (List.prefix_refl _))
    · exact hr.log hp hkl msg
    · exact hr.close hkl

/-- After a change of the sizes the ring starts with no lines, but page zero still has
what was logged. -/
theorem changed_not_isRing {ops : List Op} {npages nlines : ℕ} {s : State}
    (hops : WellSized (ops ++ [.openFile npages nlines]))
    (hrun : run (ops ++ [.openFile npages nlines]) = some s)
    (hne : (past ops).sizes ≠ some (npages, nlines)) (hlogged : logged ops ≠ []) :
    ¬ s.IsRing (ops ++ [.openFile npages nlines]) := by
  intro hring
  obtain ⟨s₀, hs₀, hstep⟩ := run_append_cases hrun
  have hp := placed_run (fun n m hmem => hops n m (List.mem_append_left _ hmem)) hs₀
  rcases step_cases hstep with ⟨n, m, ⟨⟩, hkl, rfl⟩ | ⟨msg, klf, hop, -, -⟩ | ⟨klf, hop, -, -⟩
  · have hcur : s₀.current = s₀.files.head := by simp [State.current, hkl]
    have hsizes := hp.sizes
    rw [hcur] at hsizes
    have hholds := hring _ rfl
    rw [klogOpenFile_fresh (hsizes ▸ hne), klogOpenFile_lines, past_append, Past.step,
      if_neg hne] at hholds
    have hwin := List.suffix_nil.mp hholds.recent
    have hpos : 0 < npages := hholds.inside
    exact hp.after hlogged ((window_eq_nil_iff hholds.inside).mp hwin 0 hpos)
  · exact absurd hop (by simp)
  · exact absurd hop (by simp)

/-- The pages are a ring with the last lines at every moment of a history exactly when
the sizes never change after something was logged: the page files are not emptied when
the past log is to be discarded. -/
theorem file_log_ring_iff {ops : List Op} (hops : WellSized ops) (hrun : (run ops).isSome) :
    (∀ pre s, pre <+: ops → run pre = some s → s.IsRing pre) ↔ Steady ops := by
  constructor
  · intro hring pre npages nlines hpre
    by_contra hcon
    push Not at hcon
    obtain ⟨s, hs⟩ := Option.isSome_iff_exists.mp (run_part hpre hrun)
    have hops' : WellSized (pre ++ [.openFile npages nlines]) :=
      fun n m hmem => hops n m (hpre.subset hmem)
    exact changed_not_isRing hops' hs hcon.1 hcon.2 (hring _ s hpre hs)
  · intro hsteady pre s hpre hs klf hklf
    have hops' : WellSized pre := fun n m hmem => hops n m (hpre.subset hmem)
    have hr := inRing_run hops' (fun p n m hp => hsteady p n m (hp.trans hpre)) hs
    exact (hr klf hklf).2.holds

def sampleMessage (text : String) : Message :=
  { ident := bytes "kloned", level := 1, ct := bytes "Mon Jan  1 00:00:00 2007", text := bytes text }

def sampleHistory : List Op :=
  [.openFile 2 1, .log (sampleMessage "a"), .log (sampleMessage "b"), .log (sampleMessage "c")]

theorem file_log_ring_three :
    WellSized sampleHistory ∧ ∀ pre s, pre <+: sampleHistory → run pre = some s → s.IsRing pre := by
  have hops : WellSized sampleHistory := by
    intro n m hmem
    simp only [sampleHistory, List.mem_cons, List.not_mem_nil, or_false, Op.openFile.injEq,
      reduceCtorEq] at hmem
    omega
  refine ⟨hops, (file_log_ring_iff hops rfl).mpr fun pre n m hpre => Or.inr ?_⟩
  obtain ⟨rest, hrest⟩ := hpre
  cases pre with
  | nil => rfl
  | cons o pre =>
    have htail : pre ++ [.openFile n m] ++ rest = sampleHistory.tail := (List.cons.inj hrest).2
    have hmem : .openFile n m ∈ pre ++ [.openFile n m] ++ rest := by simp
    rw [htail] at hmem
    simp [sampleHistory] at hmem

/-- One line is logged, and then the log is opened with three pages. -/
def changedHistory : List Op := [.openFile 2 2, .log (sampleMessage "a"), .close, .openFile 3 2]

theorem file_log_stale_page :
    ¬ ∀ pre s, pre <+: changedHistory → run pre = some s → s.IsRing pre := by
  intro hring
  have hops : WellSized ([.openFile 2 2, .log (sampleMessage "a"), .close] ++ [.openFile 3 2]) := by
    intro n m hmem
    simp only [List.cons_append, List.nil_append, List.mem_cons, List.not_mem_nil, or_false,
      Op.openFile.injEq, reduceCtorEq,
      false_or] at hmem
    omega
  obtain ⟨s, hs⟩ : ∃ s, run changedHistory = some s := ⟨_, rfl⟩
  have hne : (past [.openFile 2 2, .log (sampleMessage "a"), .close]).sizes ≠
    some (3, 2) := by decide
  exact changed_not_isRing hops hs hne (by simp [logged]) (hring _ s (List.prefix_refl _) hs)

end Klone.Klog
