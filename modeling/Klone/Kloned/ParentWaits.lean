import Klone.Kloned.LogOrder

/-! # Where the parent waits

A channel that can be read stays so until the parent reads it, if nobody else does. So the
parent waits for a child only where the child has written the header of a message and not yet
the rest, and until the child does that or exits. Otherwise it comes to the head of its loop
in a number of turns that the round bounds, but for the pages that it serves itself.
-/
namespace Klone.Daemon
open Klone.Ppc

def Child.Readable (kid : Child) : Prop := kid.wire ≠ [] ∨ kid.gone = true

/-- The channels of the round that have not been served can be read. -/
def Waiting (w : World) : Prop :=
  ∀ x ∈ w.ready, x ∉ w.served → ∀ c kid, w.chan x = some c → w.kids[c]? = some kid → kid.Readable

section
variable {s : Server} {m : Frame PPC_MAX_DATA_SIZE} {w w' : World} {rc : ℕ} {fd : ℤ}
    {socks : Option ℤ}

theorem readable_iff {x : ℤ} :
    w.readable x = true ↔ ∀ c kid, w.chan x = some c → w.kids[c]? = some kid → kid.Readable := by
  unfold World.readable Child.Readable
  cases hchan : w.chan x with
  | none => simp
  | some c =>
    rw [Option.bind_some]
    cases hkid : w.kids[c]? with
    | none =>
      refine iff_of_true rfl fun c' kid hc hkid' => ?_
      cases hc
      rw [hkid] at hkid'
      cases hkid'
    | some kid =>
      constructor
      · intro hread c' kid' hc hkid'
        cases hc
        rw [hkid] at hkid'
        cases hkid'
        simpa using hread
      · intro hread
        simpa using hread c kid rfl hkid

/-- A child that changes can still be read, or it has just been served. -/
theorem Waiting.setKid (h : Waiting w) (c : ℕ) (kid' : Child) (phase : Phase)
    (hread : ∀ kid x, x ∈ w.ready → x ∉ w.served → w.chan x = some c → w.kids[c]? = some kid →
      kid.Readable → kid'.Readable) :
    Waiting ((w.setKid c kid').go phase) := by
  intro x hx hnot c' k' hchan hk'
  by_cases he : c' = c
  · subst he
    obtain ⟨hlt, heq⟩ := List.getElem?_eq_some_iff.mp hk'
    have hlt' : c' < w.kids.length := (setKid_length c' kid').symm ▸ hlt
    have hself : (w.setKid c' kid').kids[c']? = some kid' := List.getElem?_set_self hlt'
    cases hself.symm.trans hk'
    have hkid : w.kids[c']? = some w.kids[c'] := List.getElem?_eq_getElem hlt'
    exact hread _ x hx hnot hchan hkid (h x hx hnot c' _ hchan hkid)
  · have hother : (w.setKid c kid').kids[c']? = w.kids[c']? := List.getElem?_set_ne (Ne.symm he)
    exact h x hx hnot c' k' hchan (hother.symm.trans hk')

theorem Waiting.close (h : Waiting w) (fd : ℤ) (phase : Phase) :
    Waiting ((serverCloseFd w fd).go phase) := by
  intro x hx hnot c kid hchan hkid
  change Function.update w.chan fd none x = some c at hchan
  by_cases he : x = fd
  · rw [he, Function.update_self] at hchan
    cases hchan
  · rw [Function.update_of_ne he] at hchan
    exact h x hx hnot c kid hchan hkid

/-- The new channel is none of those of the round. -/
theorem Waiting.forkChild {be : Backend} {round : Option LoopState} (h : Waiting w)
    (hw : Watched s w.fds w.chan w.kids.length)
    (hleft : ∀ x ∈ w.ready, x ∉ w.served → x ∈ w.fds.rdfds)
    (hf : serverForkChild s.listener w be round socks = some w') :
    Waiting w' := by
  rcases serverForkChild_cases hf with rfl | ⟨new, -, -, hnone, hlisten, rfl⟩
  · exact h
  · intro x hx hnot c kid hchan hkid
    change Function.update w.chan new (some w.kids.length) x = some c at hchan
    have hne : x ≠ new := by
      rintro rfl
      rcases (hw.rd x).mp (hleft x hx hnot) with ⟨be', hbe', hld, -⟩ | hsome
      · exact listener_none.mp hlisten be' hbe' hld
      · rw [hnone] at hsome
        cases hsome
    rw [Function.update_of_ne hne] at hchan
    have hlt : c < w.kids.length := hw.known x c hchan
    refine h x hx hnot c kid hchan ?_
    exact (List.getElem?_append_left hlt).symm.trans hkid

theorem Waiting.forkRequested {round : Option LoopState} {cmd : Byte} {data : List Byte}
    (h : Waiting w) (hw : Watched s w.fds w.chan w.kids.length)
    (hleft : ∀ x ∈ w.ready, x ∉ w.served → x ∈ w.fds.rdfds)
    (hf : forkRequested s s.listener w round cmd data socks = some w') : Waiting w' := by
  rcases forkRequested_cases hf with rfl | ⟨be, -, hf⟩
  · exact h
  · exact h.forkChild hw hleft hf

theorem readHeader_waiting (hw : Watched s w.fds w.chan w.kids.length) (h : Waiting w)
    (hserved : fd ∈ w.served) (hread : readHeader m w rc fd = some w') : Waiting w' := by
  rcases readHeader_cases hread with ⟨-, rfl⟩ | ⟨c, kid, hchan, -, -, hw'⟩
  · exact h.close fd _
  · have hset : ∀ phase, Waiting ((w.setKid c { kid with
      wire := kid.wire.drop (kid.wire.take headerSize).length }).go phase) :=
      fun phase => h.setKid c _ phase fun _ x _ hnot hx _ _ =>
        absurd (hw.inj fd x c hchan hx ▸ hserved) hnot
    split at hw'
    · subst hw'
      exact (hset w.phase).close fd _
    · subst hw'
      exact hset _

theorem readData_waiting {cmd : Byte} {size : ℕ} (hw : Watched s w.fds w.chan w.kids.length)
    (h : Waiting w) (hleft : ∀ x ∈ w.ready, x ∉ w.served → x ∈ w.fds.rdfds)
    (hserved : fd ∈ w.served) (hread : readData s s.listener m w rc fd cmd size socks = some w') :
    Waiting w' := by
  rcases readData_cases hread with ⟨-, rfl⟩ | ⟨c, kid, hchan, -, -, hend⟩
  · exact h.close fd _
  · have hset : ∀ phase, Waiting ((w.setKid c { kid with
      wire := kid.wire.drop (kid.wire.take size).length }).go phase) :=
      fun phase => h.setKid c _ phase fun _ x _ hnot hx _ _ =>
        absurd (hw.inj fd x c hchan hx ▸ hserved) hnot
    rcases hend with ⟨-, rfl⟩ | ⟨entry, w₂, -, hfork, rfl⟩
    · exact hset _
    · have hfork' := Waiting.forkRequested (w := (w.setKid c _).append entry) (hset w.phase)
        ((setKid_length c _).symm ▸ hw) hleft hfork
      exact hfork'

theorem serverDispatch_waiting (hw : Watched s w.fds w.chan w.kids.length) (h : Waiting w)
    (hleft : ∀ x ∈ w.ready, x ∉ w.served → x ∈ w.fds.rdfds) (hserved : fd ∈ w.served)
    (hd : serverDispatch s.listener m w rc fd socks = some w') : Waiting w' := by
  unfold serverDispatch at hd
  cases hlisten : s.listener fd with
  | none =>
    rw [hlisten] at hd
    exact readHeader_waiting hw h hserved hd
  | some be =>
    simp only [hlisten] at hd
    split at hd
    · obtain ⟨w₁, hfork, rfl⟩ := Option.map_eq_some_iff.mp hd
      have hfork' : Waiting w₁ := h.forkChild hw hleft hfork
      exact hfork'
    · cases hd
      exact h

theorem turn_waiting (hs : Sound s w) (h : Waiting w) (ht : turn s s.listener m w socks = some w') :
    Waiting w' := by
  have hround := hs.round
  unfold Round at hround
  unfold turn at ht
  cases hphase : w.phase with
  | top =>
    rw [hphase] at ht
    cases ht
  | crashed =>
    rw [hphase] at ht
    cases ht
  | serve rc fd =>
    rw [hphase] at ht
    cases ht
  | read rc fd cmd size =>
    rw [hphase] at ht hround
    have hleft := (hs.round_of (by rw [hphase]; exact nofun)).2.2
    exact readData_waiting hs.watched h (fun x hx hnot => (hleft x hx hnot).2) hround.2.2.2 ht
  | scan rc fd =>
    have hleft := (hs.round_of (by rw [hphase]; exact nofun)).2.2
    rw [hphase] at ht
    simp only at ht
    split at ht
    · cases ht
      exact h
    · split at ht
      · have hsub : ∀ x, x ∉ w.served ++ [fd] → x ∉ w.served :=
          fun x hx hmem => hx (List.mem_append_left _ hmem)
        exact serverDispatch_waiting (w := { w with
          phase := .scan rc fd, served := w.served ++ [fd] }) hs.watched
          (fun x hx hnot => h x hx (hsub x hnot)) (fun x hx hnot => (hleft x hx (hsub x hnot)).2)
          (List.mem_append_right _ (List.mem_singleton.mpr rfl)) ht
      · cases ht
        exact h

theorem begin_waiting (h : Waiting w) {c : ℕ} {kid : Child} (call : Call)
    (hkid : w.kids[c]? = some kid) :
    Waiting (begin s w c kid call) := by
  unfold begin
  split
  · exact h
  · refine h.setKid c _ w.phase fun kid' x _ _ _ hkid' hread => ?_
    rw [hkid] at hkid'
    cases hkid'
    exact hread.imp_left fun hne he => hne (List.append_eq_nil_iff.mp he).1
  · exact h.setKid c _ w.phase fun _ _ _ _ _ _ _ => .inr rfl

theorem finish_waiting (h : Waiting w) {c : ℕ} {kid : Child} (hkid : w.kids[c]? = some kid) :
    Waiting (finish w c kid) := by
  unfold finish
  split
  · exact h
  · refine h.setKid c _ w.phase fun kid' x _ _ _ hkid' hread => ?_
    rw [hkid] at hkid'
    cases hkid'
    exact hread.imp_left fun hne he => hne (List.append_eq_nil_iff.mp he).1

theorem alarm_waiting (h : Waiting w) {c : ℕ} {kid : Child} (hkid : w.kids[c]? = some kid)
    (ha : alarm w c kid = some w') : Waiting w' := by
  unfold alarm at ha
  split at ha
  · cases ha
    refine h.setKid c _ w.phase fun kid' x _ _ _ hkid' hread => ?_
    rw [hkid] at hkid'
    cases hkid'
    refine hread.imp_left fun hne he => hne ?_
    exact (List.append_eq_nil_iff.mp (List.append_eq_nil_iff.mp he).1).1
  · cases ha

theorem step_waiting {e : Event} (hs : Sound s w) (hharmless : Harmless w)
    (halive : w.phase ≠ .crashed) (h : Waiting w) (he : step s m w e = some w') : Waiting w' := by
  cases e with
  | select ready =>
    obtain ⟨-, -, hready, rfl⟩ := select_cases he
    intro x hx _
    exact readable_iff.mp (hready x hx)
  | spawn k socks =>
    obtain ⟨be, -, -, -, hfork⟩ := spawn_cases he
    exact h.forkChild hs.watched (fun x hx hnot => ((hs.round_of halive).2.2 x hx hnot).2) hfork
  | turn socks => exact turn_waiting hs h he
  | served =>
    obtain ⟨rc, fd, -, rfl⟩ := pageServed_cases he
    exact h
  | ownHook level str =>
    obtain ⟨entry, hdone⟩ := ownHook_done (s := s) level str
    change own w _ = some w' at he
    rw [hdone] at he
    cases he
    exact h
  | ownAccess k n buf =>
    obtain ⟨be, -, he⟩ := Option.bind_eq_some_iff.mp he
    obtain ⟨entry, hdone⟩ := ownAccess_done (s := s) be n buf
    rw [hdone] at he
    cases he
    exact h
  | begin c call =>
    obtain ⟨kid, hkid, rfl⟩ := Option.map_eq_some_iff.mp he
    exact begin_waiting h call (World.child_some hkid).1
  | finish c =>
    obtain ⟨kid, hkid, rfl⟩ := Option.map_eq_some_iff.mp he
    exact finish_waiting h (World.child_some hkid).1
  | alarm c =>
    obtain ⟨kid, hkid, he⟩ := Option.bind_eq_some_iff.mp he
    exact alarm_waiting h (World.child_some hkid).1 he
  | childTurn c socks =>
    obtain ⟨kid, r, gone, hkid, -, rfl⟩ := childTurn_cases hharmless he
    obtain ⟨hget, hgone, -⟩ := World.child_some hkid
    refine h.setKid c _ w.phase fun kid' x _ _ _ hkid' hread => ?_
    rw [hget] at hkid'
    cases hkid'
    exact .inl (hread.resolve_right (by rw [hgone]; exact Bool.false_ne_true))
  | exit c =>
    obtain ⟨kid, hkid, rfl⟩ := Option.map_eq_some_iff.mp he
    exact h.setKid c _ w.phase fun _ _ _ _ _ _ _ => .inr rfl

/-! ## Where it goes on -/

theorem forkRequested_fails (round : Option LoopState) (cmd : Byte) (data : List Byte) :
    forkRequested s s.listener w round cmd data none = some w := by
  unfold forkRequested
  split
  · split
    · rfl
    · rfl
  · rfl

theorem Watched.kid (hw : Watched s w.fds w.chan w.kids.length) {c : ℕ}
    (hchan : w.chan fd = some c) :
    ∃ kid, w.kids[c]? = some kid := by
  have hlt : c < w.kids.length := hw.known fd c hchan
  exact ⟨_, List.getElem?_eq_getElem hlt⟩

theorem readHeader_goes (hw : Watched s w.fds w.chan w.kids.length)
    (h : ∀ c kid, w.chan fd = some c → w.kids[c]? = some kid → kid.Readable) :
    (readHeader m w rc fd).isSome = true := by
  unfold readHeader
  cases hchan : w.chan fd with
  | none => rfl
  | some c =>
    obtain ⟨kid, hkid⟩ := hw.kid hchan
    have hread := h c kid hchan hkid
    simp only [hkid, Option.bind_some]
    by_cases hwire : kid.wire = []
    · rw [if_pos hwire, if_pos (hread.resolve_left (not_not_intro hwire))]
      rfl
    · rw [if_neg hwire]
      split
      · rfl
      · rfl

/-- The read of the rest of a message waits for its child alone. -/
theorem readData_goes {tagged : Tagged} {handled inflight : ℕ → List Call} {cmd : Byte} {size : ℕ}
    (hw : Watched s w.fds w.chan w.kids.length) (h : Delivered s w tagged handled inflight)
    (hphase : w.phase = .read rc fd cmd size) :
    (readData s s.listener m w rc fd cmd size none).isSome = true ∨
      ∃ c kid call data, w.chan fd = some c ∧ w.kids[c]? = some kid ∧ kid.wire = [] ∧
      kid.gone = false ∧
        kid.pending = some (call, data) := by
  unfold readData
  cases hchan : w.chan fd with
  | none => exact .inl rfl
  | some c =>
    obtain ⟨kid, hkid⟩ := hw.kid hchan
    have htaken : w.taken c = header cmd size := by
      unfold World.taken
      rw [hphase]
      exact if_pos hchan
    have hkept := (h.kept c kid hkid).1
    have hs := h.stream fd c kid hchan hkid
    rw [htaken] at hs
    have hpos := hkept.size_pos hs ((h.size rc fd cmd size hphase).trans_lt (by decide))
    simp only [hkid, Option.bind_some]
    by_cases hgot : kid.wire.take size = []
    · have hwire : kid.wire = [] := (List.take_eq_nil_iff.mp hgot).resolve_left hpos.ne'
      rw [if_pos hgot]
      by_cases hgone : kid.gone = true
      · rw [if_pos (.inr hgone)]
        exact .inl rfl
      · right
        have hnil := hkept.none_left hs (header_length cmd size).le hwire
        unfold Child.Streams at hs
        rw [hwire, hnil, List.append_nil, List.flatMap_nil, List.nil_append] at hs
        cases hp : kid.pending with
        | none => exact absurd (hs.trans (half_none hp)) (header_ne_nil cmd size)
        | some p => exact ⟨c, kid, p.1, p.2, rfl, hkid, hwire, Bool.eq_false_iff.mpr hgone, hp⟩
    · rw [if_neg hgot]
      left
      split
      · rfl
      · rw [forkRequested_fails]
        rfl

/-- The parent has read the header of a message of which the child has not yet written the rest. -/
def World.AwaitsRest (w : World) : Prop :=
  ∃ rc fd cmd size c kid call data, w.phase = .read rc fd cmd size ∧ w.chan fd = some c ∧
    w.kids[c]? = some kid ∧
    kid.wire = [] ∧ kid.gone = false ∧ kid.pending = some (call, data)

theorem turn_goes {tagged : Tagged} {handled inflight : ℕ → List Call} (hs : Sound s w)
    (halive : w.phase ≠ .crashed) (hd : Delivered s w tagged handled inflight) (h : Waiting w) :
    (turn s s.listener m w none).isSome = true ∨ w.phase = .top ∨
    (∃ rc fd, w.phase = .serve rc fd) ∨ w.AwaitsRest := by
  unfold turn
  have hround := hs.round
  unfold Round at hround
  cases hphase : w.phase with
  | top => exact .inr (.inl rfl)
  | crashed => exact absurd hphase halive
  | serve rc fd => exact .inr (.inr (.inl ⟨rc, fd, rfl⟩))
  | read rc fd cmd size =>
    rcases readData_goes (m := m) hs.watched hd hphase with hgo | ⟨c, kid, call, data, hwait⟩
    · exact .inl hgo
    · exact .inr (.inr (.inr ⟨rc, fd, cmd, size, c, kid, call, data, hphase, hwait⟩))
  | scan rc fd =>
    rw [hphase] at hround
    left
    simp only
    split
    · rfl
    · split
      · next hmem =>
        have hnot : fd ∉ w.served := fun hin => absurd ((hround.mem fd).mp hin).2 (lt_irrefl _)
        unfold serverDispatch
        cases s.listener fd with
        | none =>
          exact readHeader_goes (w := { w with
            phase := .scan rc fd, served := w.served ++ [fd] }) hs.watched (h fd hmem hnot)
        | some be =>
          simp only
          split
          · rfl
          · rfl
      · rfl

/-! ## How many turns there are -/

/-- What is left of a round whose descriptors are below `b`. -/
def Phase.left (b : ℤ) : Phase → ℕ
  | .scan _ fd => 2 * (b - fd).toNat + 1
  | .read _ fd _ _ => 2 * (b - (fd + 1)).toNat + 2
  | .serve _ fd => 2 * (b - (fd + 1)).toNat + 2
  | _ => 0

theorem readHeader_left {b : ℤ} (h : readHeader m w rc fd = some w') :
    w'.phase.left b ≤ 2 * (b - (fd + 1)).toNat + 2 ∧ w'.ready = w.ready := by
  rcases readHeader_cases h with ⟨-, rfl⟩ | ⟨c, kid, -, -, -, rfl⟩
  · exact ⟨Nat.le_succ _, rfl⟩
  · split
    · exact ⟨Nat.le_succ _, rfl⟩
    · exact ⟨le_rfl, rfl⟩

theorem serverForkChild_ready {listen : ℤ → Option Backend} {be : Backend}
    {round : Option LoopState} (h : serverForkChild listen w be round socks = some w') :
    w'.ready = w.ready := by
  rcases serverForkChild_cases h with rfl | ⟨new, -, -, -, -, rfl⟩
  · rfl
  · rfl

theorem readData_left {listen : ℤ → Option Backend} {cmd : Byte} {size : ℕ} {b : ℤ}
    (h : readData s listen m w rc fd cmd size socks = some w') :
    w'.phase.left b ≤ 2 * (b - (fd + 1)).toNat + 1 ∧ w'.ready = w.ready := by
  rcases readData_cases h with ⟨-, rfl⟩ | ⟨c, kid, -, -, -, ⟨-, rfl⟩ | ⟨entry, w₂, -, hfork, rfl⟩⟩
  · exact ⟨le_rfl, rfl⟩
  · exact ⟨Nat.zero_le _, rfl⟩
  · have hready : w₂.ready = w.ready := by
      rcases forkRequested_cases hfork with rfl | ⟨be, -, hfork⟩
      · rfl
      · exact serverForkChild_ready (w := (w.setKid c _).append entry) hfork
    exact ⟨le_rfl, hready⟩

theorem serverDispatch_left {listen : ℤ → Option Backend} {b : ℤ}
    (h : serverDispatch listen m w rc fd socks = some w') :
    w'.phase.left b ≤ 2 * (b - (fd + 1)).toNat + 2 ∧ w'.ready = w.ready := by
  unfold serverDispatch at h
  split at h
  · exact readHeader_left h
  · split at h
    · obtain ⟨w₁, hfork, rfl⟩ := Option.map_eq_some_iff.mp h
      have hready : w₁.ready = w.ready := serverForkChild_ready hfork
      exact ⟨Nat.le_succ _, hready⟩
    · cases h
      exact ⟨le_rfl, rfl⟩

/-- The step: a turn leaves less of the round. -/
theorem turn_left {b : ℤ} (hs : Sound s w) (hb : ∀ x ∈ w.ready, x < b)
    (ht : turn s s.listener m w socks = some w') :
    w'.phase.left b < w.phase.left b ∧ w'.ready = w.ready := by
  have hround := hs.round
  unfold Round at hround
  unfold turn at ht
  cases hphase : w.phase with
  | top =>
    rw [hphase] at ht
    cases ht
  | crashed =>
    rw [hphase] at ht
    cases ht
  | serve rc fd =>
    rw [hphase] at ht
    cases ht
  | read rc fd cmd size =>
    rw [hphase] at ht
    obtain ⟨hleft, hready⟩ := readData_left (b := b) ht
    exact ⟨Nat.lt_succ_of_le hleft, hready⟩
  | scan rc fd =>
    rw [hphase] at ht hround
    simp only at ht
    split at ht
    · cases ht
      exact ⟨Nat.succ_pos _, rfl⟩
    · next hend =>
      -- As some descriptor is still to be found, the loop is below the bound.
      have hlt : fd < b := by
        have hpos : 0 < (w.ready.filter (fd ≤ ·)).card :=
          hround.rc ▸ Nat.pos_of_ne_zero fun h => hend (.inl h)
        obtain ⟨x, hx⟩ := Finset.card_pos.mp hpos
        rw [Finset.mem_filter] at hx
        exact hx.2.trans_lt (hb x hx.1)
      have hdown : 2 * (b - (fd + 1)).toNat + 2 < 2 * (b - fd).toNat + 1 := by omega
      split at ht
      · obtain ⟨hleft, hready⟩ := serverDispatch_left (b := b) ht
        exact ⟨hleft.trans_lt hdown, hready⟩
      · cases ht
        exact ⟨(Nat.lt_succ_self _).trans hdown, rfl⟩

def parentTurns (s : Server) (m : Frame PPC_MAX_DATA_SIZE) : World → List (Option ℤ) → Option World
  | w, [] => some w
  | w, socks :: rest => (turn s s.listener m w socks).bind fun w' => parentTurns s m w' rest

/-- The run: the turns that the parent can take. -/
theorem parentTurns_left {b : ℤ} (ss : List (Option ℤ)) (hs : Sound s w) (hb : ∀ x ∈ w.ready, x < b)
    (ht : parentTurns s m w ss = some w') : ss.length ≤ w.phase.left b := by
  induction ss generalizing w with
  | nil => exact Nat.zero_le _
  | cons socks ss ih =>
    obtain ⟨w₁, hturn, hrest⟩ := Option.bind_eq_some_iff.mp ht
    obtain ⟨hleft, hready⟩ := turn_left hs hb hturn
    have hmore := ih (turn_sound hs hturn) (hready ▸ hb) hrest
    rw [List.length_cons]
    omega

/-- In such a run the parent can go on by itself, unless it is at the head of its loop, serves a
page itself, or has read the header of a message whose rest the child, which is alive, has not
yet written. And whatever its forks do, it has only so many turns before it is in one of these
places. -/
theorem parent_waits_for_rest (s : Server) (m : Frame PPC_MAX_DATA_SIZE) (es : List Event)
    (hes : UnsharedRun s m (start s) es) :
    let w := run s m es
    ((turn s s.listener m w none).isSome = true ∨ w.phase = .top ∨
      (∃ rc fd, w.phase = .serve rc fd) ∨ w.AwaitsRest) ∧
      ∃ n, ∀ ss w', parentTurns s m w ss = some w' → ss.length ≤ n := by
  have hrun : Sound s (run s m es) ∧ Harmless (run s m es) ∧ Ordered s (run s m es) ∧
      Waiting (run s m es) := by
    refine run_induction (P := fun w => Sound s w ∧ Harmless w ∧ Ordered s w ∧
      Waiting w) s m ?_ ?_ hes
    · exact ⟨sound_start s, fun kid hkid => absurd hkid List.not_mem_nil,
        (delivered_start s).ordered nofun,
        fun x hx => absurd hx (Finset.notMem_empty x)⟩
    · rintro w e w' ⟨hs, hharmless, ho, hwait⟩ he hstep
      exact ⟨step_sound hs hharmless hstep, step_harmless hharmless he hstep,
        step_ordered hs.watched hharmless ho he hstep,
        step_waiting hs hharmless ho.alive hwait hstep⟩
  obtain ⟨hs, -, ⟨halive, tagged, handled, inflight, hd⟩, hwait⟩ := hrun
  obtain ⟨b, hb⟩ := (run s m es).ready.bddAbove
  exact ⟨turn_goes hs halive hd hwait, _, fun ss w' => parentTurns_left ss hs fun x hx =>
    Int.lt_add_one_of_le (hb hx)⟩

/-- A child has written the header of its message and nothing else. -/
def sampleHalf : List Event :=
  [[.select {3}, .turn none, .turn none, .turn none, .turn (some 5), .turn none],
    [.begin 0 (.hook 6 (bytes "one")), .select {5}], List.replicate 6 (.turn none)].flatten

theorem parent_waits_for_rest_half :
    let w := run sampleServer (Frame.zero _) sampleHalf
    w.AwaitsRest ∧
      ((turn sampleServer sampleServer.listener (Frame.zero _) w none).isSome = true ∨
        w.phase = .top ∨
        (∃ rc fd, w.phase = .serve rc fd) ∨ w.AwaitsRest) ∧
      ∃ n, ∀ ss w', parentTurns sampleServer (Frame.zero _) w ss = some w' → ss.length ≤ n :=
  ⟨⟨_, _, _, _, _, _, _, _, rfl, rfl, rfl, rfl, rfl, rfl⟩,
    parent_waits_for_rest sampleServer (Frame.zero _) sampleHalf (by decide +kernel)⟩

end

end Klone.Daemon
