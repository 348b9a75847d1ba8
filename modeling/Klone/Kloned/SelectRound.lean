import Klone.Kloned.ParentLoop

/-! # The rounds of select

The parent watches the sockets that listen for it and its ends of the channels, and no others.
Serving a descriptor adds new ones or closes it, so the ones still to be served stay watched
below the highest descriptor, and the loop comes to each of them.
-/
namespace Klone.Daemon
open Klone.Ppc
open Klone.Kloned (FdSets serverWatchFd watchFdRead watchFdWrite watchFdExcp Highest InSetsize
      ModeNonempty highest_init mem_fdSet)

structure Watched (s : Server) (fds : FdSets) (chan : ℤ → Option ℕ) (n : ℕ) : Prop where
  rd : ∀ fd, fd ∈ fds.rdfds ↔ (∃ be ∈ s.bes, be.ld = fd ∧ be.model ≠ .prefork) ∨
    (chan fd).isSome = true
  wr : fds.wrfds = ∅
  ex : fds.exfds = ∅
  highest : Highest fds
  apart : ∀ fd, (chan fd).isSome = true → s.listener fd = none
  inj : ∀ fd fd' c, chan fd = some c → chan fd' = some c → fd = fd'
  known : ∀ fd c, chan fd = some c → c < n

section
variable {s : Server} {fds : FdSets} {chan : ℤ → Option ℕ} {n : ℕ} {fd : ℤ}

theorem listener_none : s.listener fd = none ↔ ∀ be ∈ s.bes, be.ld ≠ fd := by
  simp [Server.listener]

theorem listener_some {be : Backend} (h : s.listener fd = some be) : be ∈ s.bes ∧ be.ld = fd :=
  ⟨List.mem_of_find?_eq_some h, by simpa using List.find?_some h⟩

theorem Watched.nonneg (h : Watched s fds chan n) (hfd : fd ∈ fds.rdfds) : 0 ≤ fd := by
  refine h.highest.inRange fd ?_
  unfold FdSets.watched
  exact Finset.mem_union_left _ (Finset.mem_union_left _ hfd)

theorem Watched.le_hfd (h : Watched s fds chan n) (hfd : fd ∈ fds.rdfds) : fd ≤ fds.hfd := by
  refine h.highest.upper fd ?_
  unfold FdSets.watched
  exact Finset.mem_union_left _ (Finset.mem_union_left _ hfd)

theorem modeNonempty_read : ModeNonempty watchFdRead := by
  unfold ModeNonempty
  decide

theorem mem_watch (h : 0 ≤ fd) (x : ℤ) :
    x ∈ (serverWatchFd fds fd watchFdRead).rdfds ↔ x ∈ fds.rdfds ∨ x = fd := by
  rw [serverWatchFd, if_neg (not_lt.mpr h)]
  simp [mem_fdSet, watchFdRead]

theorem watch_others (h : 0 ≤ fd) : (serverWatchFd fds fd watchFdRead).wrfds = fds.wrfds ∧
    (serverWatchFd fds fd watchFdRead).exfds = fds.exfds := by
  rw [serverWatchFd, if_neg (not_lt.mpr h)]
  exact ⟨rfl, rfl⟩

theorem close_sets (h : 0 ≤ fd) : (Kloned.serverCloseFd fds fd).rdfds = fds.rdfds.erase fd ∧
    (Kloned.serverCloseFd fds fd).wrfds = fds.wrfds.erase fd ∧
    (Kloned.serverCloseFd fds fd).exfds = fds.exfds.erase fd := by
  rw [Kloned.serverCloseFd, if_neg (not_lt.mpr h)]
  exact ⟨rfl, rfl, rfl⟩

theorem Watched.close (h : Watched s fds chan n) (hfd : 0 ≤ fd) (hlisten : s.listener fd = none) :
    Watched s (Kloned.serverCloseFd fds fd) (Function.update chan fd none) n := by
  have hsets : (Kloned.serverCloseFd fds fd).rdfds = _ ∧ (Kloned.serverCloseFd fds fd).wrfds = _ ∧
      (Kloned.serverCloseFd fds fd).exfds = _ := close_sets hfd
  obtain ⟨hrd, hwr, hex⟩ := hsets
  have hchan : ∀ x c, Function.update chan fd none x = some c → chan x = some c := by
    intro x c hx
    by_cases he : x = fd
    · rw [he, Function.update_self] at hx
      cases hx
    · rwa [Function.update_of_ne he] at hx
  constructor
  · intro x
    rw [hrd, Finset.mem_erase, h.rd]
    by_cases he : x = fd
    · subst he
      simp only [ne_eq, not_true, false_and, Function.update_self, Option.isSome_none,
        Bool.false_eq_true, or_false, false_iff]
      rintro ⟨be, hbe, hld, -⟩
      exact listener_none.mp hlisten be hbe hld
    · rw [Function.update_of_ne he, and_iff_right he]
  · rw [hwr, h.wr, Finset.erase_empty]
  · rw [hex, h.ex, Finset.erase_empty]
  · rw [Kloned.serverCloseFd, if_neg (not_lt.mpr hfd)]
    exact h.highest.clear fd _
  · intro x hx
    obtain ⟨c, hc⟩ := Option.isSome_iff_exists.mp hx
    exact h.apart x (by rw [hchan x c hc, Option.isSome_some])
  · intro x y c hx hy
    exact h.inj x y c (hchan x c hx) (hchan y c hy)
  · intro x c hx
    exact h.known x c (hchan x c hx)

/-- A new channel belongs to a new child. -/
theorem Watched.fork (h : Watched s fds chan n) (hfd : 0 ≤ fd) (hnone : chan fd = none)
    (hlisten : s.listener fd = none) :
    Watched s (serverWatchFd fds fd watchFdRead) (Function.update chan fd (some n)) (n + 1) := by
  have hother : ∀ x c, Function.update chan fd (some n) x = some c → (x = fd ∧ c = n) ∨
      (chan x = some c ∧ c < n) := by
    intro x c hx
    by_cases he : x = fd
    · rw [he, Function.update_self] at hx
      exact .inl ⟨he, (Option.some.inj hx).symm⟩
    · rw [Function.update_of_ne he] at hx
      exact .inr ⟨hx, h.known x c hx⟩
  constructor
  · intro x
    rw [mem_watch hfd, h.rd]
    by_cases he : x = fd
    · simp [he]
    · simp [he]
  · rw [(watch_others hfd).1, h.wr]
  · rw [(watch_others hfd).2, h.ex]
  · exact h.highest.watch hfd modeNonempty_read
  · intro x hx
    obtain ⟨c, hc⟩ := Option.isSome_iff_exists.mp hx
    rcases hother x c hc with ⟨rfl, -⟩ | ⟨hc, -⟩
    · exact hlisten
    · exact h.apart x (by rw [hc, Option.isSome_some])
  · intro x y c hx hy
    rcases hother x c hx with ⟨rfl, rfl⟩ | ⟨hx, hlt⟩
    · rcases hother y c hy with ⟨rfl, -⟩ | ⟨-, hlt⟩
      · rfl
      · exact absurd hlt (lt_irrefl _)
    · rcases hother y c hy with ⟨-, rfl⟩ | ⟨hy, -⟩
      · exact absurd hlt (lt_irrefl _)
      · exact h.inj x y c hx hy
  · intro x c hx
    rcases hother x c hx with ⟨-, rfl⟩ | ⟨-, hlt⟩
    · exact Nat.lt_succ_self _
    · exact hlt.trans (Nat.lt_succ_self _)

/-- At first the sockets that listen are watched, but those of the backends that prefork. -/
theorem serverListen_watched (s : Server) : Watched s (serverListen s) (fun _ => none) 0 := by
  have hfold : ∀ (bes : List Backend) (fds : FdSets), (∀ be ∈ bes, 0 ≤ be.ld) → Highest fds →
    fds.wrfds = ∅ → fds.exfds = ∅ →
      let fds' := bes.foldl (fun fds be => if be.model ≠ .prefork then
        serverWatchFd fds be.ld watchFdRead else fds) fds
      Highest fds' ∧ fds'.wrfds = ∅ ∧ fds'.exfds = ∅ ∧
        ∀ x, x ∈ fds'.rdfds ↔ x ∈ fds.rdfds ∨ ∃ be ∈ bes, be.ld = x ∧ be.model ≠ .prefork := by
    intro bes
    induction bes with
    | nil =>
      intro fds _ hhigh hwr hex
      exact ⟨hhigh, hwr, hex, fun x => by simp⟩
    | cons be bes ih =>
      intro fds hld hhigh hwr hex
      obtain ⟨hbe, hbes⟩ := List.forall_mem_cons.mp hld
      rw [List.foldl_cons]
      by_cases hm : be.model ≠ .prefork
      · rw [if_pos hm]
        obtain ⟨h₁, h₂, h₃, hmem⟩ :=
          ih _ hbes (hhigh.watch hbe modeNonempty_read) ((watch_others hbe).1.trans hwr)
          ((watch_others hbe).2.trans hex)
        refine ⟨h₁, h₂, h₃, fun x => ?_⟩
        rw [hmem x, mem_watch hbe, List.exists_mem_cons_iff, and_iff_left hm, or_assoc, eq_comm]
      · rw [if_neg hm]
        obtain ⟨h₁, h₂, h₃, hmem⟩ := ih _ hbes hhigh hwr hex
        refine ⟨h₁, h₂, h₃, fun x => ?_⟩
        rw [hmem x, List.exists_mem_cons_iff]
        simp [hm]
  obtain ⟨hhigh, hwr, hex, hmem⟩ := hfold s.bes FdSets.init s.open_ld highest_init rfl rfl
  refine ⟨fun fd => ?_, hwr, hex, hhigh, ?_, ?_, ?_⟩
  · rw [serverListen, hmem fd]
    simp [FdSets.init]
  all_goals simp

end

/-! ## The descriptors of a round -/

structure Swept (fds : FdSets) (ready : Finset ℤ) (served : List ℤ) (rc : ℕ) (fd : ℤ) : Prop where
  rc : rc = (ready.filter (fd ≤ ·)).card
  left : ∀ x ∈ ready, fd ≤ x → x ∈ fds.rdfds
  sorted : served.Pairwise (· < ·)
  mem : ∀ x, x ∈ served ↔ x ∈ ready ∧ x < fd
  nonneg : 0 ≤ fd

section
variable {fds fds' : FdSets} {ready : Finset ℤ} {served : List ℤ} {rc : ℕ} {fd : ℤ}

theorem Swept.of_left (h : Swept fds ready served rc fd)
    (hleft : ∀ x, fd ≤ x → x ∈ fds.rdfds → x ∈ fds'.rdfds) :
    Swept fds' ready served rc fd :=
  ⟨h.rc, fun x hx hle => hleft x hle (h.left x hx hle), h.sorted, h.mem, h.nonneg⟩

theorem Swept.init (h : ∀ x ∈ ready, 0 ≤ x ∧ x ∈ fds.rdfds) : Swept fds ready [] ready.card 0 := by
  refine ⟨?_, fun x hx _ => (h x hx).2, List.Pairwise.nil, fun x => ?_, le_rfl⟩
  · rw [Finset.filter_true_of_mem fun x hx => (h x hx).1]
  · constructor
    · intro hx
      exact absurd hx List.not_mem_nil
    · rintro ⟨hx, hlt⟩
      exact absurd hlt (not_lt.mpr (h x hx).1)

theorem Swept.skip (h : Swept fds ready served rc fd) (hfd : fd ∉ ready) :
    Swept fds ready served rc (fd + 1) := by
  have hne : ∀ x ∈ ready, x ≠ fd := fun x hx he => hfd (he ▸ hx)
  refine ⟨?_, fun x hx hle => h.left x hx (by omega), h.sorted,
    fun x => ?_, by have := h.nonneg; omega⟩
  · rw [h.rc]
    refine congrArg Finset.card (Finset.filter_congr fun x hx => ?_)
    have := hne x hx
    omega
  · rw [h.mem x, and_congr_right_iff]
    intro hx
    have := hne x hx
    omega

theorem Swept.serve (h : Swept fds ready served rc fd) (hfd : fd ∈ ready) :
    Swept fds ready (served ++ [fd]) (rc - 1) (fd + 1) := by
  have hsplit : ready.filter (fd ≤ ·) = insert fd (ready.filter (fd + 1 ≤ ·)) := by
    ext x
    simp only [Finset.mem_insert, Finset.mem_filter]
    constructor
    · rintro ⟨hx, hle⟩
      by_cases he : x = fd
      · exact .inl he
      · exact .inr ⟨hx, by omega⟩
    · rintro (rfl | ⟨hx, hle⟩)
      · exact ⟨hfd, le_rfl⟩
      · exact ⟨hx, by omega⟩
  refine ⟨?_, fun x hx hle => h.left x hx (by omega), ?_, fun x => ?_, by have := h.nonneg; omega⟩
  · rw [h.rc, hsplit, Finset.card_insert_of_notMem (by simp), Nat.add_sub_cancel]
  · rw [List.pairwise_append]
    refine ⟨h.sorted, List.pairwise_singleton _ _, fun x hx y hy => ?_⟩
    rw [List.mem_singleton.mp hy]
    exact ((h.mem x).mp hx).2
  · rw [List.mem_append, List.mem_singleton, h.mem x]
    constructor
    · rintro (⟨hx, hlt⟩ | rfl)
      · exact ⟨hx, by omega⟩
      · exact ⟨hfd, by omega⟩
    · rintro ⟨hx, hlt⟩
      by_cases he : x = fd
      · exact .inr he
      · exact .inl ⟨hx, by omega⟩

/-- When the loop ends none is left. -/
theorem Swept.all_served (h : Swept fds ready served rc fd)
    (hend : rc = 0 ∨ ∀ x ∈ fds.rdfds, x < fd) (x : ℤ) :
    x ∈ served ↔ x ∈ ready := by
  rw [h.mem x, and_iff_left_iff_imp]
  intro hx
  rcases hend with hrc | hall
  · have hempty : ready.filter (fd ≤ ·) = ∅ := Finset.card_eq_zero.mp (h.rc.symm.trans hrc)
    by_contra hle
    exact Finset.eq_empty_iff_forall_notMem.mp hempty x (Finset.mem_filter.mpr ⟨hx, not_lt.mp hle⟩)
  · by_contra hle
    exact hle (hall x (h.left x hx (not_lt.mp hle)))

end

/-! ## What the parent does to them -/

def Round (w : World) : Prop :=
  match w.phase with
  | .top => w.served.Pairwise (· < ·) ∧ ∀ x, x ∈ w.served ↔ x ∈ w.ready
  | .scan rc fd => Swept w.fds w.ready w.served rc fd
  | .read rc fd _ _ =>
    Swept w.fds w.ready w.served rc (fd + 1) ∧ 0 ≤ fd ∧ (w.chan fd).isSome = true ∧ fd ∈ w.served
  | .serve rc fd => Swept w.fds w.ready w.served rc (fd + 1)
  | .crashed => True

structure Sound (s : Server) (w : World) : Prop where
  watched : Watched s w.fds w.chan w.kids.length
  round : Round w

section
variable {s : Server} {m : Frame PPC_MAX_DATA_SIZE} {w w' : World} {rc : ℕ} {fd : ℤ}
    {socks : Option ℤ}

theorem Sound.congr (h : Sound s w) (hfds : w'.fds = w.fds) (hchan : w'.chan = w.chan)
    (hkids : w'.kids.length = w.kids.length) (hphase : w'.phase = w.phase)
    (hready : w'.ready = w.ready) (hserved : w'.served = w.served) : Sound s w' := by
  refine ⟨?_, ?_⟩
  · rw [hfds, hchan, hkids]
    exact h.watched
  · have hround := h.round
    unfold Round at hround ⊢
    rwa [hfds, hchan, hphase, hready, hserved]

theorem sound_start (s : Server) :
    Sound s (start s) := ⟨serverListen_watched s, List.Pairwise.nil, fun x => by simp [start]⟩

theorem serverForkChild_cases {listen : ℤ → Option Backend} {be : Backend}
    {round : Option LoopState} (h : serverForkChild listen w be round socks = some w') :
    w' = w ∨ ∃ fd, socks = some fd ∧ 0 ≤ fd ∧ w.chan fd = none ∧ listen fd = none ∧
    w' = w.forked be round fd := by
  cases socks with
  | none => exact .inl (Option.some.inj h).symm
  | some fd =>
    rw [serverForkChild] at h
    by_cases hf : InSetsize fd ∧ w.chan fd = none ∧ listen fd = none
    · rw [if_pos hf] at h
      exact .inr ⟨fd, rfl, hf.1.1, hf.2.1, hf.2.2, (Option.some.inj h).symm⟩
    · rw [if_neg hf] at h
      cases h

theorem forkRequested_cases {listen : ℤ → Option Backend} {round : Option LoopState} {cmd : Byte}
    {data : List Byte} (h : forkRequested s listen w round cmd data socks = some w') :
    w' = w ∨ ∃ be ∈ s.bes, serverForkChild listen w be round socks = some w' := by
  unfold forkRequested at h
  split at h
  · split at h
    · exact .inl (Option.some.inj h).symm
    · next be hbe => exact .inr ⟨be, List.mem_of_find?_eq_some hbe, h⟩
  · exact .inl (Option.some.inj h).symm

/-- The sets and the ends of the channels after a descriptor has been served: at most one
new channel, or this one closed. -/
inductive Served (s : Server) (w : World) (fd : ℤ) : World → Prop
  | same {w' : World} (hfds : w'.fds = w.fds) (hchan : w'.chan = w.chan)
    (hkids : w'.kids.length = w.kids.length) :
      Served s w fd w'
  | forked {w' : World} (new : ℤ) (hnew : 0 ≤ new ∧ w.chan new = none ∧ s.listener new = none)
      (hfds : w'.fds = serverWatchFd w.fds new watchFdRead)
      (hchan : w'.chan = Function.update w.chan new (some w.kids.length))
        (hkids : w'.kids.length = w.kids.length + 1) :
      Served s w fd w'
  | closed {w' : World} (hlisten : s.listener fd = none)
    (hfds : w'.fds = Kloned.serverCloseFd w.fds fd) 
      (hchan : w'.chan = Function.update w.chan fd none) (hkids : w'.kids.length = w.kids.length) :
        Served s w fd w'

theorem Served.of_fork {be : Backend} {round : Option LoopState} {w₀ : World}
    (hfds : w₀.fds = w.fds) (hchan : w₀.chan = w.chan) (hkids : w₀.kids.length = w.kids.length)
    (h : serverForkChild s.listener w₀ be round socks = some w') (phase : Phase) :
    Served s w fd (w'.go phase) := by
  rcases serverForkChild_cases h with rfl | ⟨new, -, h₀, h₁, h₂, rfl⟩
  · exact .same hfds hchan hkids
  · refine .forked new ⟨h₀, by rwa [← hchan], h₂⟩ ?_ ?_ ?_
    · rw [← hfds]
      rfl
    · rw [← hchan, ← hkids]
      rfl
    · rw [← hkids]
      exact List.length_append

theorem Served.watched (h : Served s w fd w') (hw : Watched s w.fds w.chan w.kids.length)
    (hfd : 0 ≤ fd) :
    Watched s w'.fds w'.chan w'.kids.length := by
  cases h with
  | same hfds hchan hkids =>
    rw [hfds, hchan, hkids]
    exact hw
  | forked new hnew hfds hchan hkids =>
    rw [hfds, hchan, hkids]
    exact hw.fork hnew.1 hnew.2.1 hnew.2.2
  | closed hlisten hfds hchan hkids =>
    rw [hfds, hchan, hkids]
    exact hw.close hfd hlisten

theorem Served.left (h : Served s w fd w') (hfd : 0 ≤ fd) {x : ℤ} (hlt : fd < x)
    (hx : x ∈ w.fds.rdfds) : x ∈ w'.fds.rdfds := by
  cases h with
  | same hfds => rwa [hfds]
  | forked new hnew hfds =>
    rw [hfds, mem_watch hnew.1]
    exact .inl hx
  | closed hlisten hfds =>
    rw [hfds, (close_sets hfd).1, Finset.mem_erase]
    exact ⟨hlt.ne', hx⟩

/-- The loop goes on behind the descriptor that has been served. -/
theorem Served.sound (h : Served s w fd w') (hw : Watched s w.fds w.chan w.kids.length)
    (hfd : 0 ≤ fd) (hswept : Swept w.fds w.ready w.served rc (fd + 1))
    (hphase : w'.phase = .scan rc (fd + 1)) (hready : w'.ready = w.ready)
    (hserved : w'.served = w.served) : Sound s w' := by
  refine ⟨h.watched hw hfd, ?_⟩
  unfold Round
  rw [hphase, hready, hserved]
  exact hswept.of_left fun x hle hx => h.left hfd (by omega) hx

theorem readHeader_cases (h : readHeader m w rc fd = some w') :
    ((∀ c kid, w.chan fd = some c → w.kids[c]? = some kid → kid.wire = [] ∧ kid.gone = true) ∧
      w' = (serverCloseFd w fd).go (.scan rc (fd + 1))) ∨
    ∃ c kid, w.chan fd = some c ∧ w.kids[c]? = some kid ∧ kid.wire ≠ [] ∧
      w' = if PPC_MAX_DATA_SIZE < hSize (store m.header (kid.wire.take headerSize)) then
          (serverCloseFd (w.setKid c { kid with
            wire := kid.wire.drop (kid.wire.take headerSize).length }) fd).go (.scan rc (fd + 1))
        else (w.setKid c { kid with wire := kid.wire.drop (kid.wire.take headerSize).length }).go
          (.read rc fd (headerCmd (store m.header (kid.wire.take headerSize)))
            (hSize (store m.header (kid.wire.take headerSize)))) := by
  unfold readHeader at h
  cases hchan : w.chan fd with
  | none =>
    rw [hchan] at h
    exact .inl ⟨fun c kid hc => (by cases hc), (Option.some.inj h).symm⟩
  | some c =>
    simp only [hchan] at h
    obtain ⟨kid, hkid, h⟩ := Option.bind_eq_some_iff.mp h
    by_cases hw : kid.wire = []
    · rw [if_pos hw] at h
      by_cases hg : kid.gone = true
      · rw [if_pos hg] at h
        refine .inl ⟨fun c' kid' hc' hkid' => ?_, (Option.some.inj h).symm⟩
        cases hc'
        rw [hkid] at hkid'
        cases hkid'
        exact ⟨hw, hg⟩
      · rw [if_neg hg] at h
        cases h
    · rw [if_neg hw] at h
      refine .inr ⟨c, kid, rfl, hkid, hw, ?_⟩
      split at h
      · next hlt => rw [if_pos hlt, Option.some.inj h]
      · next hlt => rw [if_neg hlt, Option.some.inj h]

theorem readData_cases {listen : ℤ → Option Backend} {cmd : Byte} {size : ℕ}
    (h : readData s listen m w rc fd cmd size socks = some w') :
    ((∀ c kid, w.chan fd = some c → w.kids[c]? = some kid → kid.wire.take size = [] ∧
      (size = 0 ∨ kid.gone = true)) ∧
      w' = (serverCloseFd w fd).go (.scan rc (fd + 1))) ∨
    ∃ c kid, w.chan fd = some c ∧ w.kids[c]? = some kid ∧ kid.wire.take size ≠ [] ∧
      ((ppcDispatch s cmd (store m.buf (kid.wire.take size)) = none ∧
        w' = (w.setKid c { kid with
          wire := kid.wire.drop (kid.wire.take size).length }).go .crashed) ∨
      ∃ entry w₂, ppcDispatch s cmd (store m.buf (kid.wire.take size)) = some entry ∧
        forkRequested s listen ((w.setKid c { kid with
          wire := kid.wire.drop (kid.wire.take size).length }).append entry)
          (some ((w.setKid c { kid with
            wire := kid.wire.drop (kid.wire.take size).length }).roundAt rc (fd + 1))) cmd
          (store m.buf (kid.wire.take size)) socks = some w₂ ∧ w' = w₂.go (.scan rc (fd + 1))) := by
  unfold readData at h
  cases hchan : w.chan fd with
  | none =>
    rw [hchan] at h
    exact .inl ⟨fun c kid hc => (by cases hc), (Option.some.inj h).symm⟩
  | some c =>
    simp only [hchan] at h
    obtain ⟨kid, hkid, h⟩ := Option.bind_eq_some_iff.mp h
    by_cases hgot : kid.wire.take size = []
    · rw [if_pos hgot] at h
      by_cases hg : size = 0 ∨ kid.gone = true
      · rw [if_pos hg] at h
        refine .inl ⟨fun c' kid' hc' hkid' => ?_, (Option.some.inj h).symm⟩
        cases hc'
        rw [hkid] at hkid'
        cases hkid'
        exact ⟨hgot, hg⟩
      · rw [if_neg hg] at h
        cases h
    · rw [if_neg hgot] at h
      refine .inr ⟨c, kid, rfl, hkid, hgot, ?_⟩
      cases hd : ppcDispatch s cmd (store m.buf (kid.wire.take size)) with
      | none =>
        rw [hd] at h
        exact .inl ⟨rfl, (Option.some.inj h).symm⟩
      | some entry =>
        rw [hd] at h
        obtain ⟨w₂, hfork, rfl⟩ := Option.map_eq_some_iff.mp h
        exact .inr ⟨entry, w₂, rfl, hfork, rfl⟩

@[simp] theorem setKid_length (c : ℕ) (kid : Child) :
    (w.setKid c kid).kids.length = w.kids.length := List.length_set

theorem readHeader_sound (hw : Watched s w.fds w.chan w.kids.length) (hfd : 0 ≤ fd)
    (hlisten : s.listener fd = none) (hswept : Swept w.fds w.ready w.served rc (fd + 1))
    (hserved : fd ∈ w.served) (h : readHeader m w rc fd = some w') :
    Sound s w' := by
  rcases readHeader_cases h with ⟨-, rfl⟩ | ⟨c, kid, hchan, -, -, hw'⟩
  · have hclosed : Served s w fd ((serverCloseFd w fd).go (.scan rc (fd + 1))) :=
      .closed hlisten rfl rfl rfl
    exact hclosed.sound hw hfd hswept rfl rfl rfl
  · split at hw'
    · have hclosed : Served s w fd w' := by
        subst hw'
        exact .closed hlisten rfl rfl (setKid_length c _)
      subst hw'
      exact hclosed.sound hw hfd hswept rfl rfl rfl
    · subst hw'
      refine ⟨?_, hswept, hfd, Option.isSome_iff_exists.mpr ⟨c, hchan⟩, hserved⟩
      have hlen := setKid_length (w := w) c { kid with
        wire := kid.wire.drop (kid.wire.take headerSize).length }
      exact hlen.symm ▸ hw

theorem readData_sound {cmd : Byte} {size : ℕ} (hw : Watched s w.fds w.chan w.kids.length)
    (hfd : 0 ≤ fd) (hlisten : s.listener fd = none)
    (hswept : Swept w.fds w.ready w.served rc (fd + 1))
    (h : readData s s.listener m w rc fd cmd size socks = some w') : Sound s w' := by
  rcases readData_cases h with ⟨-, rfl⟩ | ⟨c, kid, -, -, -, ⟨-, rfl⟩ | ⟨entry, w₂, -, hfork, rfl⟩⟩
  · have hclosed : Served s w fd ((serverCloseFd w fd).go (.scan rc (fd + 1))) :=
      .closed hlisten rfl rfl rfl
    exact hclosed.sound hw hfd hswept rfl rfl rfl
  · have hlen := setKid_length (w := w) c { kid with
      wire := kid.wire.drop (kid.wire.take size).length }
    exact ⟨hlen.symm ▸ hw, trivial⟩
  · rcases forkRequested_cases hfork with rfl | ⟨be, -, hfork⟩
    · have hsame : Served s w fd (((w.setKid c { kid with
        wire := kid.wire.drop (kid.wire.take size).length }).append entry).go
          (.scan rc (fd + 1))) := .same rfl rfl (setKid_length c _)
      exact hsame.sound hw hfd hswept rfl rfl rfl
    · have hserved : Served s w fd (w₂.go (.scan rc (fd + 1))) := by
        refine .of_fork ?_ ?_ ?_ hfork _
        · rfl
        · rfl
        · exact setKid_length c _
      rcases serverForkChild_cases hfork with rfl | ⟨new, -, -, -, -, rfl⟩
      · exact hserved.sound hw hfd hswept rfl rfl rfl
      · exact hserved.sound hw hfd hswept rfl rfl rfl

theorem serverDispatch_sound (hw : Watched s w.fds w.chan w.kids.length) (hfd : 0 ≤ fd)
    (hswept : Swept w.fds w.ready w.served rc (fd + 1)) (hserved : fd ∈ w.served)
    (h : serverDispatch s.listener m w rc fd socks = some w') : Sound s w' := by
  unfold serverDispatch at h
  cases hlisten : s.listener fd with
  | none =>
    rw [hlisten] at h
    exact readHeader_sound hw hfd hlisten hswept hserved h
  | some be =>
    simp only [hlisten] at h
    by_cases hm : be.model = .fork
    · rw [if_pos hm] at h
      obtain ⟨w₁, hfork, rfl⟩ := Option.map_eq_some_iff.mp h
      have hserved : Served s w fd (w₁.go (.scan rc (fd + 1))) := .of_fork rfl rfl rfl hfork _
      rcases serverForkChild_cases hfork with rfl | ⟨new, -, -, -, -, rfl⟩
      · exact hserved.sound hw hfd hswept rfl rfl rfl
      · exact hserved.sound hw hfd hswept rfl rfl rfl
    · rw [if_neg hm] at h
      cases h
      exact ⟨hw, hswept⟩

theorem turn_sound (h : Sound s w) (ht : turn s s.listener m w socks = some w') : Sound s w' := by
  obtain ⟨hw, hround⟩ := h
  unfold Round at hround
  unfold turn at ht
  cases hphase : w.phase with
  | top =>
    rw [hphase] at ht
    cases ht
  | crashed =>
    rw [hphase] at ht
    cases ht
  | serve rc fd =>
    rw [hphase] at ht
    cases ht
  | read rc fd cmd size =>
    rw [hphase] at ht hround
    exact readData_sound hw hround.2.1 (hw.apart fd hround.2.2.1) hround.1 ht
  | scan rc fd =>
    rw [hphase] at ht hround
    have hswept : Swept w.fds w.ready w.served rc fd := hround
    simp only at ht
    by_cases hend : rc = 0 ∨ w.fds.hfd < fd
    · rw [if_pos hend] at ht
      cases ht
      exact ⟨hw, hswept.sorted,
        hswept.all_served (hend.imp_right fun hlt x hx => (hw.le_hfd hx).trans_lt hlt)⟩
    · rw [if_neg hend] at ht
      by_cases hmem : fd ∈ w.ready
      · rw [if_pos hmem] at ht
        exact serverDispatch_sound (w := { w with
          phase := .scan rc fd, served := w.served ++ [fd] }) hw hswept.nonneg
          (hswept.serve hmem) (List.mem_append_right _ (List.mem_singleton.mpr rfl)) ht
      · rw [if_neg hmem] at ht
        cases ht
        exact ⟨hw, hswept.skip hmem⟩

theorem select_cases {ready : Finset ℤ} (h : select w ready = some w') :
    w.phase = .top ∧ ready ⊆ w.fds.rdfds ∧ (∀ fd ∈ ready, w.readable fd = true) ∧
      w' = { w with phase := .scan ready.card 0, ready := ready, served := [] } := by
  unfold select at h
  split at h
  · next hphase =>
    split at h
    · next hready =>
      cases h
      exact ⟨hphase, hready.1, hready.2, rfl⟩
    · cases h
  · cases h

theorem spawn_cases {k : ℕ} (h : spawn s w k socks = some w') :
    ∃ be ∈ s.bes, w.phase = .top ∧ be.model = .prefork ∧
      serverForkChild s.listener w be none socks = some w' := by
  unfold spawn at h
  split at h
  · next be hphase hbe =>
    split at h
    · next hmodel => exact ⟨be, List.mem_of_getElem? hbe, hphase, hmodel, h⟩
    · cases h
  · cases h

theorem pageServed_cases (h : pageServed w = some w') :
    ∃ rc fd, w.phase = .serve rc fd ∧ w' = w.go (.scan rc (fd + 1)) := by
  unfold pageServed at h
  split at h
  · next rc fd hphase =>
    cases h
    exact ⟨rc, fd, hphase, rfl⟩
  · cases h

theorem own_cases {l : Logged} (h : own w l = some w') :
    (∃ entry, l = .done entry ∧ w' = w.append entry) ∨ w' = w.go .crashed := by
  unfold own at h
  split at h
  · next entry =>
    cases h
    exact .inl ⟨entry, rfl, rfl⟩
  · cases h
    exact .inr rfl

theorem select_sound {ready : Finset ℤ} (h : Sound s w) (hs : select w ready = some w') :
    Sound s w' := by
  obtain ⟨-, hsub, -, rfl⟩ := select_cases hs
  exact ⟨h.watched, Swept.init fun x hx => ⟨h.watched.nonneg (hsub hx), hsub hx⟩⟩

theorem spawn_sound {k : ℕ} (h : Sound s w) (hs : spawn s w k socks = some w') : Sound s w' := by
  obtain ⟨be, -, hphase, -, hfork⟩ := spawn_cases hs
  rcases serverForkChild_cases hfork with rfl | ⟨new, -, h₀, h₁, h₂, rfl⟩
  · exact h
  · have hround := h.round
    unfold Round at hround
    rw [hphase] at hround
    refine ⟨?_, ?_⟩
    · have hlen : (w.forked be none new).kids.length = w.kids.length + 1 := List.length_append
      rw [hlen]
      exact h.watched.fork h₀ h₁ h₂
    · unfold Round World.forked
      rw [hphase]
      exact hround

theorem pageServed_sound (h : Sound s w) (hs : pageServed w = some w') : Sound s w' := by
  obtain ⟨rc, fd, hphase, rfl⟩ := pageServed_cases hs
  have hround := h.round
  unfold Round at hround
  rw [hphase] at hround
  exact ⟨h.watched, hround⟩

theorem own_sound {l : Logged} (h : Sound s w) (hs : own w l = some w') : Sound s w' := by
  rcases own_cases hs with ⟨entry, -, rfl⟩ | rfl
  · exact h.congr rfl rfl rfl rfl rfl rfl
  · exact ⟨h.watched, trivial⟩

/-- A child does nothing to the loop. -/
theorem setKid_sound (h : Sound s w) (c : ℕ) (kid : Child) : Sound s (w.setKid c kid) :=
  h.congr rfl rfl (setKid_length c kid) rfl rfl rfl

theorem begin_sound {kid : Child} (h : Sound s w) (c : ℕ) (call : Call) :
    Sound s (begin s w c kid call) := by
  unfold begin
  split
  · exact h.congr rfl rfl rfl rfl rfl rfl
  · exact setKid_sound h c _
  · exact setKid_sound h c _

theorem finish_sound {kid : Child} (h : Sound s w) (c : ℕ) : Sound s (finish w c kid) := by
  unfold finish
  split
  · exact h
  · exact setKid_sound h c _

theorem alarm_sound {kid : Child} {c : ℕ} (h : Sound s w) (ha : alarm w c kid = some w') :
    Sound s w' := by
  unfold alarm at ha
  split at ha
  · cases ha
    exact setKid_sound h c _
  · cases ha

/-! ## The rest of a round in a child -/

/-- No channel is left in a copy of a round. -/
def LoopState.Harmless (r : LoopState) : Prop :=
  match r.phase with
  | .scan _ fd => ∀ x ∈ r.ready, fd ≤ x → r.chan x = none
  | .top => True
  | _ => False

def Harmless (w : World) : Prop := ∀ kid ∈ w.kids, ∀ r, kid.round = some r → r.Harmless

theorem Harmless.setKid (h : Harmless w) (c : ℕ) {kid : Child}
    (hkid : ∀ r, kid.round = some r → r.Harmless) :
    Harmless (w.setKid c kid) := by
  intro kid' hkid' r hr
  rcases List.mem_or_eq_of_mem_set hkid' with hmem | rfl
  · exact h kid' hmem r hr
  · exact hkid r hr

/-- A child that keeps its copy. -/
theorem Harmless.keep (h : Harmless w) {c : ℕ} {kid : Child} (kid' : Child)
    (hkid : w.kids[c]? = some kid) (hround : kid'.round = kid.round) : Harmless (w.setKid c kid') :=
  h.setKid c fun r hr => h kid (List.mem_of_getElem? hkid) r (hround ▸ hr)

theorem Harmless.forkChild {listen : ℤ → Option Backend} {be : Backend} {round : Option LoopState}
    (h : Harmless w) (hround : ∀ new r, socks = some new → round = some r → r.Harmless)
    (hf : serverForkChild listen w be round socks = some w') : Harmless w' := by
  rcases serverForkChild_cases hf with rfl | ⟨new, hsocks, -, -, -, rfl⟩
  · exact h
  · intro kid hkid r hr
    rcases List.mem_append.mp hkid with hmem | hmem
    · exact h kid hmem r hr
    · rw [List.mem_singleton.mp hmem] at hr
      exact hround new r hsocks hr

theorem roundAt_harmless (h : ∀ x ∈ w.ready, fd < x → w.chan x = none) (rc : ℕ) :
    (w.roundAt rc (fd + 1)).Harmless :=
  fun x hx hle => h x hx (by omega)

theorem readHeader_harmless (h : Harmless w) (hread : readHeader m w rc fd = some w') :
    Harmless w' := by
  rcases readHeader_cases hread with ⟨-, rfl⟩ | ⟨c, kid, -, hkid, -, rfl⟩
  · exact h
  · have hset := h.keep { kid with
      wire := kid.wire.drop (kid.wire.take headerSize).length } hkid rfl
    split
    · exact hset
    · exact hset

theorem readData_harmless {listen : ℤ → Option Backend} {cmd : Byte} {size : ℕ} (h : Harmless w)
    (hlast : ∀ new, socks = some new → ∀ x ∈ w.ready, fd < x → w.chan x = none)
    (hread : readData s listen m w rc fd cmd size socks = some w') : Harmless w' := by
  rcases readData_cases hread with ⟨-, rfl⟩ | ⟨c, kid, -, hkid, -, hend⟩
  · exact h
  · have hset := h.keep { kid with wire := kid.wire.drop (kid.wire.take size).length } hkid rfl
    rcases hend with ⟨-, rfl⟩ | ⟨entry, w₂, -, hfork, rfl⟩
    · exact hset
    · rcases forkRequested_cases hfork with rfl | ⟨be, -, hfork⟩
      · exact hset
      · have hforked : Harmless w₂ := by
          refine Harmless.forkChild (w := (w.setKid c _).append entry) hset ?_ hfork
          rintro new r hsocks ⟨⟩
          exact roundAt_harmless (w := w.setKid c _) (hlast new hsocks) rc
        exact hforked

theorem turn_harmless {listen : ℤ → Option Backend} (h : Harmless w)
    (hlast : ∀ new, socks = some new → w.Last w.phase) (ht : turn s listen m w socks = some w') :
    Harmless w' := by
  unfold turn at ht
  cases hphase : w.phase with
  | top =>
    rw [hphase] at ht
    cases ht
  | crashed =>
    rw [hphase] at ht
    cases ht
  | serve rc fd =>
    rw [hphase] at ht
    cases ht
  | read rc fd cmd size =>
    rw [hphase] at ht hlast
    exact readData_harmless h hlast ht
  | scan rc fd =>
    rw [hphase] at ht hlast
    simp only at ht
    split at ht
    · cases ht
      exact h
    · split at ht
      · unfold serverDispatch at ht
        split at ht
        · exact readHeader_harmless (w := { w with
            phase := .scan rc fd, served := w.served ++ [fd] }) h ht
        · split at ht
          · obtain ⟨w₁, hfork, rfl⟩ := Option.map_eq_some_iff.mp ht
            have hforked : Harmless w₁ := by
              refine Harmless.forkChild (w := { w with
                phase := .scan rc fd, served := w.served ++ [fd] }) h ?_ hfork
              rintro new r hsocks ⟨⟩
              exact roundAt_harmless (w := { w with
                phase := .scan rc fd, served := w.served ++ [fd] }) (hlast new hsocks) _
            exact hforked
          · cases ht
            exact h
      · cases ht
        exact h

/-- In a harmless round a child closes its descriptors and does nothing else. -/
theorem turn_of_harmless (h : w.toLoopState.Harmless)
    (ht : turn s (fun _ => none) m w socks = some w') :
    w'.toLoopState.Harmless ∧ w'.kids = w.kids ∧ w'.log = w.log := by
  unfold LoopState.Harmless at h
  unfold turn at ht
  cases hphase : w.phase with
  | top =>
    rw [hphase] at ht
    cases ht
  | crashed =>
    rw [hphase] at ht
    cases ht
  | serve rc fd =>
    rw [hphase] at ht
    cases ht
  | read rc fd cmd size =>
    rw [hphase] at h
    exact h.elim
  | scan rc fd =>
    rw [hphase] at ht h
    simp only at ht
    split at ht
    · cases ht
      exact ⟨trivial, rfl, rfl⟩
    · split at ht
      · next hmem =>
        have hnone : w.chan fd = none := h fd hmem le_rfl
        simp only [serverDispatch, readHeader, hnone] at ht
        cases ht
        refine ⟨fun x hx hle => ?_, rfl, rfl⟩
        have hne : x ≠ fd := by
          have hlt : fd + 1 ≤ x := hle
          omega
        change Function.update w.chan fd none x = none
        rw [Function.update_of_ne hne]
        exact h x hx (by have hlt : fd + 1 ≤ x := hle; omega)
      · cases ht
        exact ⟨fun x hx hle => h x hx (by have hlt : fd + 1 ≤ x := hle; omega), rfl, rfl⟩

theorem childTurn_cases {c : ℕ} (h : Harmless w) (ht : childTurn s m w c socks = some w') :
    ∃ kid r gone, w.child c false = some kid ∧ r.Harmless ∧
    w' = w.setKid c { kid with gone := gone, round := some r } := by
  obtain ⟨kid, hkid, ht⟩ := Option.bind_eq_some_iff.mp ht
  obtain ⟨round, hround, ht⟩ := Option.bind_eq_some_iff.mp ht
  obtain ⟨w₁, hturn, rfl⟩ := Option.map_eq_some_iff.mp ht
  have hget : w.kids[c]? = some kid := (Option.filter_eq_some_iff.mp hkid).1
  have hround := h kid (List.mem_of_getElem? hget) round hround
  obtain ⟨hharmless, hkids, hlog⟩ :=
    turn_of_harmless (w := { w with toLoopState := round }) hround hturn
  refine ⟨kid, w₁.toLoopState, w₁.phase.over, hkid, hharmless, ?_⟩
  have hkids : w₁.kids = w.kids := hkids
  have hlog : w₁.log = w.log := hlog
  unfold World.back World.setKid
  rw [hkids, hlog, @List.modify_eq_set _ ⟨kid⟩, hget]
  rfl

theorem step_sound (h : Sound s w) (hharmless : Harmless w) {e : Event}
    (hs : step s m w e = some w') : Sound s w' := by
  cases e with
  | select ready => exact select_sound h hs
  | spawn k socks => exact spawn_sound h hs
  | turn socks => exact turn_sound h hs
  | served => exact pageServed_sound h hs
  | ownHook level str => exact own_sound h hs
  | ownAccess k n buf =>
    obtain ⟨be, -, hs⟩ := Option.bind_eq_some_iff.mp hs
    exact own_sound h hs
  | begin c call =>
    obtain ⟨kid, -, rfl⟩ := Option.map_eq_some_iff.mp hs
    exact begin_sound h c call
  | finish c =>
    obtain ⟨kid, -, rfl⟩ := Option.map_eq_some_iff.mp hs
    exact finish_sound h c
  | alarm c =>
    obtain ⟨kid, -, hs⟩ := Option.bind_eq_some_iff.mp hs
    exact alarm_sound h hs
  | childTurn c socks =>
    obtain ⟨kid, r, gone, -, -, rfl⟩ := childTurn_cases hharmless hs
    exact setKid_sound h c _
  | exit c =>
    obtain ⟨kid, -, rfl⟩ := Option.map_eq_some_iff.mp hs
    exact setKid_sound h c _

theorem World.child_some {c : ℕ} {writing : Bool} {kid : Child} (h : w.child c writing = some kid) :
    w.kids[c]? = some kid ∧ kid.gone = false ∧ kid.pending.isSome = writing := by
  obtain ⟨hget, hkid⟩ := Option.filter_eq_some_iff.mp h
  refine ⟨hget, ?_⟩
  simpa using hkid

theorem alarm_impossible {c : ℕ} (he : Unshared w (.alarm c)) : step s m w (.alarm c) = none := by
  have hnone : w.child c true = none := Option.isNone_iff_eq_none.mp he
  exact congrArg (Option.bind · (alarm w c)) hnone

theorem step_harmless (h : Harmless w) {e : Event} (he : Unshared w e)
    (hs : step s m w e = some w') : Harmless w' := by
  cases e with
  | select ready =>
    obtain ⟨-, -, -, rfl⟩ := select_cases hs
    exact h
  | spawn k socks =>
    obtain ⟨be, -, -, -, hfork⟩ := spawn_cases hs
    exact h.forkChild (fun _ _ _ hr => (by cases hr)) hfork
  | turn socks =>
    refine turn_harmless h ?_ hs
    rintro new rfl
    exact he
  | served =>
    obtain ⟨rc, fd, -, rfl⟩ := pageServed_cases hs
    exact h
  | ownHook level str =>
    rcases own_cases hs with ⟨entry, -, rfl⟩ | rfl
    · exact h
    · exact h
  | ownAccess k n buf =>
    obtain ⟨be, -, hs⟩ := Option.bind_eq_some_iff.mp hs
    rcases own_cases hs with ⟨entry, -, rfl⟩ | rfl
    · exact h
    · exact h
  | begin c call =>
    obtain ⟨kid, hkid, rfl⟩ := Option.map_eq_some_iff.mp hs
    obtain ⟨hget, -⟩ := World.child_some hkid
    unfold begin
    split
    · exact h
    · exact h.keep _ hget rfl
    · exact h.keep _ hget rfl
  | finish c =>
    obtain ⟨kid, hkid, rfl⟩ := Option.map_eq_some_iff.mp hs
    obtain ⟨hget, -⟩ := World.child_some hkid
    unfold finish
    split
    · exact h
    · exact h.keep _ hget rfl
  | alarm c => cases (alarm_impossible he).symm.trans hs
  | childTurn c socks =>
    obtain ⟨kid, r, gone, -, hr, rfl⟩ := childTurn_cases h hs
    refine h.setKid c ?_
    rintro r' ⟨⟩
    exact hr
  | exit c =>
    obtain ⟨kid, hget, rfl⟩ := Option.map_eq_some_iff.mp hs
    exact h.keep _ hget rfl

end

/-- What holds at first and after every step holds after every run of such steps. -/
theorem run_induction {P : World → Prop} (s : Server) (m : Frame PPC_MAX_DATA_SIZE)
    (h₀ : P (start s)) (hstep : ∀ w e w', P w → Unshared w e → step s m w e = some w' → P w')
    {es : List Event} (hes : UnsharedRun s m (start s) es) : P (run s m es) := by
  have hfrom : ∀ w, P w → UnsharedRun s m w es →
      P (es.foldl (fun w e => (step s m w e).getD w) w) := by
    clear hes
    induction es with
    | nil => exact fun w hw _ => hw
    | cons e es ih =>
      rintro w hw ⟨he, hes⟩
      refine ih _ ?_ hes
      change P ((step s m w e).getD w)
      cases hs : step s m w e with
      | none => exact hw
      | some w' => exact hstep w e w' hw he hs
  exact hfrom (start s) h₀ hes

/-- The descriptors that have been served in the round, and those that have not. -/
theorem Sound.round_of {s : Server} {w : World} (h : Sound s w) (hphase : w.phase ≠ .crashed) :
    w.served.Pairwise (· < ·) ∧ (∀ x ∈ w.served, x ∈ w.ready) ∧
      ∀ x ∈ w.ready, x ∉ w.served → w.phase ≠ .top ∧ x ∈ w.fds.rdfds := by
  have hround := h.round
  unfold Round at hround
  have hswept : ∀ {rc fd}, Swept w.fds w.ready w.served rc fd → w.served.Pairwise (· < ·) ∧
    (∀ x ∈ w.served, x ∈ w.ready) ∧
      ∀ x ∈ w.ready, x ∉ w.served → x ∈ w.fds.rdfds := by
    intro rc fd hs
    refine ⟨hs.sorted, fun x hx => ((hs.mem x).mp hx).1, fun x hx hnot => hs.left x hx ?_⟩
    by_contra hlt
    exact hnot ((hs.mem x).mpr ⟨hx, not_le.mp hlt⟩)
  cases hp : w.phase with
  | top =>
    rw [hp] at hround
    exact ⟨hround.1, fun x hx => (hround.2 x).mp hx,
      fun x hx hnot => absurd ((hround.2 x).mpr hx) hnot⟩
  | scan rc fd =>
    rw [hp] at hround
    obtain ⟨h₁, h₂, h₃⟩ := hswept hround
    exact ⟨h₁, h₂, fun x hx hnot => ⟨by simp, h₃ x hx hnot⟩⟩
  | read rc fd cmd size =>
    rw [hp] at hround
    obtain ⟨h₁, h₂, h₃⟩ := hswept hround.1
    exact ⟨h₁, h₂, fun x hx hnot => ⟨by simp, h₃ x hx hnot⟩⟩
  | serve rc fd =>
    rw [hp] at hround
    obtain ⟨h₁, h₂, h₃⟩ := hswept hround
    exact ⟨h₁, h₂, fun x hx hnot => ⟨by simp, h₃ x hx hnot⟩⟩
  | crashed => exact absurd hp hphase

end Klone.Daemon
