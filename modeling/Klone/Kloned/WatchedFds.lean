import Mathlib

/-! # The watched descriptors

The server watches descriptors for reading, for writing and for exceptions, and keeps
the highest of them for `select`. A descriptor that is added raises it; after one has
been removed it is found again by a scan downwards from its old value.
-/
namespace Klone.Kloned

def fdSetsize : ℤ := 1024

def watchFdRead : BitVec 32 := 1#32 <<< 1
def watchFdWrite : BitVec 32 := 1#32 <<< 2
def watchFdExcp : BitVec 32 := 1#32 <<< 3

structure FdSets where
  rdfds : Finset ℤ
  wrfds : Finset ℤ
  exfds : Finset ℤ
  hfd : ℤ

def FdSets.init : FdSets := ⟨∅, ∅, ∅, 0⟩

def FdSets.watched (s : FdSets) : Finset ℤ := s.rdfds ∪ s.wrfds ∪ s.exfds

/-- The scan of `server_recalc_hfd`, which does not look at descriptor zero. -/
def scanHfd (watched : Finset ℤ) : ℕ → ℤ
  | 0 => 0
  | i + 1 => if ((i + 1 : ℕ) : ℤ) ∈ watched then ((i + 1 : ℕ) : ℤ) else scanHfd watched i

def serverRecalcHfd (s : FdSets) : FdSets := { s with hfd := scanHfd s.watched s.hfd.toNat }

def fdClr (mode bit : BitVec 32) (fd : ℤ) (fds : Finset ℤ) : Finset ℤ :=
  if mode &&& bit ≠ 0 then fds.erase fd else fds

def fdSet (mode bit : BitVec 32) (fd : ℤ) (fds : Finset ℤ) : Finset ℤ :=
  if mode &&& bit ≠ 0 then insert fd fds else fds

def serverClearFd (s : FdSets) (fd : ℤ) (mode : BitVec 32) : FdSets :=
  serverRecalcHfd { s with
    rdfds := fdClr mode watchFdRead fd s.rdfds
    wrfds := fdClr mode watchFdWrite fd s.wrfds
    exfds := fdClr mode watchFdExcp fd s.exfds }

def serverWatchFd (s : FdSets) (fd : ℤ) (mode : BitVec 32) : FdSets :=
  if fd < 0 then s
  else
    { rdfds := fdSet mode watchFdRead fd s.rdfds
      wrfds := fdSet mode watchFdWrite fd s.wrfds
      exfds := fdSet mode watchFdExcp fd s.exfds
      hfd := max s.hfd fd }

def serverCloseFd (s : FdSets) (fd : ℤ) : FdSets :=
  if fd < 0 then s else serverClearFd s fd (watchFdRead ||| watchFdWrite ||| watchFdExcp)

inductive FdCall where
  | watch (fd : ℤ) (mode : BitVec 32)
  | clear (fd : ℤ) (mode : BitVec 32)
  | close (fd : ℤ)

def fdStep (s : FdSets) : FdCall → FdSets
  | .watch fd mode => serverWatchFd s fd mode
  | .clear fd mode => serverClearFd s fd mode
  | .close fd => serverCloseFd s fd

def fdRun (calls : List FdCall) : FdSets := calls.foldl fdStep FdSets.init

def InSetsize (fd : ℤ) : Prop := 0 ≤ fd ∧ fd < fdSetsize

instance (fd : ℤ) : Decidable (InSetsize fd) :=
  inferInstanceAs (Decidable (0 ≤ fd ∧ fd < fdSetsize))

def ModeNonempty (mode : BitVec 32) : Prop :=
  mode &&& (watchFdRead ||| watchFdWrite ||| watchFdExcp) ≠ 0

def FdCall.Proper : FdCall → Prop
  | .watch fd mode => InSetsize fd ∧ ModeNonempty mode
  | .clear fd mode => InSetsize fd ∧ ModeNonempty mode
  | .close fd => InSetsize fd

instance : DecidablePred FdCall.Proper
  | .watch fd mode => inferInstanceAs (Decidable ((0 ≤ fd ∧ fd < fdSetsize) ∧
      mode &&& (watchFdRead ||| watchFdWrite ||| watchFdExcp) ≠ 0))
  | .clear fd mode => inferInstanceAs (Decidable ((0 ≤ fd ∧ fd < fdSetsize) ∧
      mode &&& (watchFdRead ||| watchFdWrite ||| watchFdExcp) ≠ 0))
  | .close fd => inferInstanceAs (Decidable (0 ≤ fd ∧ fd < fdSetsize))

/-! ## The highest one -/

structure Highest (s : FdSets) : Prop where
  nonneg : 0 ≤ s.hfd
  inRange : ∀ fd ∈ s.watched, 0 ≤ fd
  upper : ∀ fd ∈ s.watched, fd ≤ s.hfd
  attained : s.hfd = 0 ∨ s.hfd ∈ s.watched

theorem highest_init : Highest FdSets.init :=
  ⟨le_rfl, fun _ h => absurd h (Finset.notMem_empty _),
    fun _ h => absurd h (Finset.notMem_empty _), Or.inl rfl⟩

theorem scanHfd_spec (watched : Finset ℤ) (i : ℕ) :
    0 ≤ scanHfd watched i ∧ (scanHfd watched i = 0 ∨ scanHfd watched i ∈ watched) ∧
      ∀ fd ∈ watched, fd ≤ i → fd ≤ scanHfd watched i := by
  induction i with
  | zero => exact ⟨le_rfl, Or.inl rfl, fun fd _ h => h⟩
  | succ i ih =>
    unfold scanHfd
    by_cases hi : ((i + 1 : ℕ) : ℤ) ∈ watched
    · rw [if_pos hi]
      exact ⟨Int.natCast_nonneg _, Or.inr hi, fun fd _ h => h⟩
    · rw [if_neg hi]
      refine ⟨ih.1, ih.2.1, fun fd hfd hle => ih.2.2 fd hfd ?_⟩
      have hne : fd ≠ ((i + 1 : ℕ) : ℤ) := fun he => hi (he ▸ hfd)
      push_cast at hle hne
      omega

theorem fdClr_subset (mode bit : BitVec 32) (fd : ℤ) (fds : Finset ℤ) :
    fdClr mode bit fd fds ⊆ fds := by
  unfold fdClr
  split
  · exact Finset.erase_subset fd fds
  · exact Finset.Subset.refl fds

/-- Every descriptor left is below the old maximum, so the scan finds the new one. -/
theorem Highest.recalc {s t : FdSets} (h : Highest s) (hsub : t.watched ⊆ s.watched)
    (hhfd : t.hfd = s.hfd) :
    Highest (serverRecalcHfd t) := by
  obtain ⟨hpos, hat, hup⟩ := scanHfd_spec t.watched t.hfd.toNat
  refine ⟨hpos, fun fd hfd => h.inRange fd (hsub hfd), fun fd hfd => hup fd hfd ?_, hat⟩
  have hle := h.upper fd (hsub hfd)
  have hnn := h.nonneg
  rw [hhfd]
  omega

theorem Highest.clear {s : FdSets} (h : Highest s) (fd : ℤ) (mode : BitVec 32) :
    Highest (serverClearFd s fd mode) := by
  apply h.recalc
  · exact Finset.union_subset_union
      (Finset.union_subset_union (fdClr_subset _ _ _ _) (fdClr_subset _ _ _ _))
        (fdClr_subset _ _ _ _)
  · rfl

theorem mem_fdSet {mode bit : BitVec 32} {fd : ℤ} {fds : Finset ℤ} {x : ℤ} :
    x ∈ fdSet mode bit fd fds ↔ x ∈ fds ∨ x = fd ∧ mode &&& bit ≠ 0 := by
  unfold fdSet
  split
  · next hb => rw [Finset.mem_insert, or_comm, and_iff_left hb]
  · next hb => rw [or_iff_left (fun hx => hb hx.2)]

theorem ModeNonempty.some_bit {mode : BitVec 32} (h : ModeNonempty mode) :
    mode &&& watchFdRead ≠ 0 ∨ mode &&& watchFdWrite ≠ 0 ∨ mode &&& watchFdExcp ≠ 0 := by
  by_contra hno
  push Not at hno
  obtain ⟨hr, hw, he⟩ := hno
  apply h
  rw [BitVec.and_or_distrib_left, BitVec.and_or_distrib_left, hr, hw, he]
  rfl

/-- A mode that names no set would raise the maximum without a descriptor. -/
theorem mem_watched_watch {s : FdSets} {fd : ℤ} {mode : BitVec 32} (hfd : 0 ≤ fd)
    (hm : ModeNonempty mode) (x : ℤ) :
    x ∈ (serverWatchFd s fd mode).watched ↔ x ∈ s.watched ∨ x = fd := by
  have hsome := hm.some_bit
  rw [serverWatchFd, if_neg (not_lt.mpr hfd)]
  simp only [FdSets.watched, Finset.mem_union, mem_fdSet]
  tauto

theorem Highest.watch {s : FdSets} (h : Highest s) {fd : ℤ} {mode : BitVec 32} (hfd : 0 ≤ fd)
    (hm : ModeNonempty mode) : Highest (serverWatchFd s fd mode) := by
  have hmem := mem_watched_watch (s := s) hfd hm
  have hmax : (serverWatchFd s fd mode).hfd = max s.hfd fd := by
    rw [serverWatchFd, if_neg (not_lt.mpr hfd)]
  refine ⟨?_, ?_, ?_, ?_⟩
  · rw [hmax]
    exact h.nonneg.trans (le_max_left _ _)
  · intro x hx
    rcases (hmem x).mp hx with hx | rfl
    · exact h.inRange x hx
    · exact hfd
  · intro x hx
    rw [hmax]
    rcases (hmem x).mp hx with hx | rfl
    · exact (h.upper x hx).trans (le_max_left _ _)
    · exact le_max_right _ _
  · rw [hmax, hmem]
    rcases le_total s.hfd fd with hle | hle
    · exact Or.inr (Or.inr (max_eq_right hle))
    · rw [max_eq_left hle]
      exact h.attained.imp_right Or.inl

theorem Highest.step {s : FdSets} (h : Highest s) {c : FdCall} (hc : c.Proper) :
    Highest (fdStep s c) := by
  cases c with
  | watch fd mode => exact h.watch hc.1.1 hc.2
  | clear fd mode => exact h.clear fd mode
  | close fd =>
    change Highest (serverCloseFd s fd)
    unfold serverCloseFd
    split
    · exact h
    · exact h.clear fd _

theorem fdRun_highest (calls : List FdCall) (h : ∀ c ∈ calls, c.Proper) :
    Highest (fdRun calls) := by
  induction calls using List.reverseRecOn with
  | nil => exact highest_init
  | append_singleton calls c ih =>
    rw [fdRun, List.foldl_append]
    exact (ih fun d hd => h d (List.mem_append_left _ hd)).step
      (h c (List.mem_append_right _ List.mem_cons_self))

/-- After all calls, the highest descriptor is the one that is kept, and `select` with
one more than that looks at every descriptor that is watched. -/
theorem hfd_isGreatest (calls : List FdCall) (h : ∀ c ∈ calls, c.Proper) :
    ((fdRun calls).watched = ∅ → (fdRun calls).hfd = 0) ∧
      ((fdRun calls).watched.Nonempty →
        IsGreatest ((fdRun calls).watched : Set ℤ) (fdRun calls).hfd) ∧
      ∀ fd ∈ (fdRun calls).watched, 0 ≤ fd ∧ fd < 1 + (fdRun calls).hfd := by
  have hh := fdRun_highest calls h
  refine ⟨?_, ?_, ?_⟩
  · intro hempty
    rcases hh.attained with hz | hm
    · exact hz
    · rw [hempty] at hm
      exact absurd hm (Finset.notMem_empty _)
  · rintro ⟨fd, hfd⟩
    refine ⟨?_, fun x hx => hh.upper x (Finset.mem_coe.mp hx)⟩
    rcases hh.attained with hz | hm
    · -- only descriptor zero is left, which the scan does not look at
      have hle := hh.upper fd hfd
      have hnn := hh.inRange fd hfd
      have hfz : fd = (fdRun calls).hfd := by omega
      exact hfz ▸ hfd
    · exact hm
  · intro fd hfd
    have hle := hh.upper fd hfd
    exact ⟨hh.inRange fd hfd, by omega⟩

/-- Two sockets are watched and the higher one is closed. -/
theorem hfd_after_close :
    IsGreatest ((fdRun [.watch 5 watchFdRead, .watch 9 watchFdRead, .close 9]).watched : Set ℤ) 5 :=
  (hfd_isGreatest [.watch 5 watchFdRead, .watch 9 watchFdRead, .close 9] (by decide)).2.1
    ⟨5, by decide⟩

end Klone.Kloned
