import Klone.Utils.Timer

/-! # Waking up for an alarm

`next` stands for the pending alarm of the operating system. A child inherits it
without the alarm, and then does not set one for an alarm that is not earlier. A
process is woken up in time as long as it does not set an alarm in this situation.
-/
namespace Klone.Timer
open Loop

variable {κ : Type*} {p q : Process κ}

/-- An alarm is pending that goes off in time for every listed alarm of the process. -/
def Wakes (p : Process κ) : Prop :=
  (∃ al ∈ p.alist, al.owner = p.pid) →
    ∃ a, p.osAlarm = some a ∧ ∀ al ∈ p.alist, al.owner = p.pid → a ≤ max (p.now + 1) al.expire

/-- There is a timestamp, but no alarm that it stands for. -/
def Stale (p : Process κ) : Prop := p.next ≠ 0 ∧ p.osAlarm = none

/-- In how many seconds a call lets an alarm of the process expire. -/
def Op.sets (p : Process κ) : Op κ → Option ℤ
  | .add id secs _ => if p.Free id then some secs else none
  | .reschedule id secs _ =>
    (p.idleAlarm id).bind fun al => if al.owner = p.pid then some secs else none
  | _ => none

/-- An alarm that is set without a pending one is earlier than the timestamp. -/
def InTime (p : Process κ) : Event κ → Prop
  | .op o => ∀ secs, o.sets p = some secs → Stale p → max (p.now + 1) (p.now + secs) < p.next
  | _ => True

def AllInTime : Process κ → List (Event κ × Process κ) → Prop
  | _, [] => True
  | p, (e, q) :: t => InTime p e ∧ AllInTime q t

/-! ## The timestamp -/

structure Clocked (p : Process κ) : Prop where
  now : 0 ≤ p.now
  backed : ∀ a, p.osAlarm = some a → p.next ≠ 0 → a ≤ p.next

def Covered (p : Process κ) : Prop :=
  ∀ al rest, p.alist = al :: rest → p.next ≠ 0 ∧ p.next ≤ max (p.now + 1) al.expire

/-- The alarm is set for the first of the list, unless the timestamp is early enough. -/
theorem timermSetNext_cases {al : Alarm κ} {rest : List (Alarm κ)} (hl : p.alist = al :: rest) :
    (p.next = 0 ∨ max (p.now + 1) al.expire < p.next) ∧
        timermSetNext p = { p with
          next := max (p.now + 1) al.expire, osAlarm := some (max (p.now + 1) al.expire) } ∨
      p.next ≠ 0 ∧ p.next ≤ max (p.now + 1) al.expire ∧ timermSetNext p = p := by
  have hn : p.now + max 1 (al.expire - p.now) = max (p.now + 1) al.expire := by omega
  have hne : max 1 (al.expire - p.now) ≠ 0 := by omega
  unfold timermSetNext timermSetAlarm
  rw [hl]
  dsimp only
  rw [hn]
  by_cases hc : p.next = 0 ∨ max (p.now + 1) al.expire < p.next
  · rw [if_pos ⟨hne, hc⟩]
    exact Or.inl ⟨hc, rfl⟩
  · rw [if_neg fun h => hc h.2]
    obtain ⟨hz, hlt⟩ := not_or.mp hc
    exact Or.inr ⟨hz, not_lt.mp hlt, rfl⟩

theorem timermSetNext_nil (hl : p.alist = []) : timermSetNext p = p := by
  unfold timermSetNext
  rw [hl]

theorem timermSetNext_clocked (h : Clocked p) : Clocked (timermSetNext p) := by
  cases hl : p.alist with
  | nil =>
    rw [timermSetNext_nil hl]
    exact h
  | cons al rest =>
    rcases timermSetNext_cases hl with ⟨-, he⟩ | ⟨-, -, he⟩
    · rw [he]
      refine ⟨h.now, fun a ha _ => ?_⟩
      obtain rfl := Option.some.inj ha
      exact le_refl _
    · rw [he]
      exact h

theorem timermSetNext_covered (h : Clocked p) : Covered (timermSetNext p) := by
  intro al rest hl
  rw [(timermSetNext_same p).alist] at hl
  rw [(timermSetNext_same p).now]
  have hnow := h.now
  rcases timermSetNext_cases hl with ⟨-, he⟩ | ⟨hz, hle, he⟩
  · rw [he]
    refine ⟨?_, le_refl _⟩
    change max (p.now + 1) al.expire ≠ 0
    omega
  · rw [he]
    exact ⟨hz, hle⟩

theorem timermSetNext_live (h : ¬ Stale p) : ¬ Stale (timermSetNext p) := by
  cases hl : p.alist with
  | nil =>
    rw [timermSetNext_nil hl]
    exact h
  | cons al rest =>
    rcases timermSetNext_cases hl with ⟨-, he⟩ | ⟨-, -, he⟩
    · rw [he]
      rintro ⟨-, hnone⟩
      cases hnone
    · rw [he]
      exact h

structure SameAlarm (p q : Process κ) : Prop where
  now : q.now = p.now
  pid : q.pid = p.pid
  alist : q.alist = p.alist
  next : q.next = p.next
  osAlarm : q.osAlarm = p.osAlarm

theorem SameAlarm.setNext (h : SameAlarm p q) : SameAlarm (timermSetNext p) (timermSetNext q) := by
  have hp := timermSetNext_same p
  have hq := timermSetNext_same q
  refine ⟨hq.now.trans (h.now.trans hp.now.symm), hq.pid.trans (h.pid.trans hp.pid.symm),
    hq.alist.trans (h.alist.trans hp.alist.symm), ?_, ?_⟩
  · unfold timermSetNext timermSetAlarm
    simp only [h.alist, h.now, h.next]
    split
    · exact h.next
    · split
      · rfl
      · exact h.next
  · unfold timermSetNext timermSetAlarm
    simp only [h.alist, h.now, h.next]
    split
    · exact h.osAlarm
    · split
      · rfl
      · exact h.osAlarm

theorem timermUnblockAlarms_alarm (p : Process κ) : SameAlarm p (timermUnblockAlarms p) := by
  unfold timermUnblockAlarms
  split <;> exact ⟨rfl, rfl, rfl, rfl, rfl⟩

theorem timermBlockAlarms_alarm (p : Process κ) : SameAlarm p (timermBlockAlarms p) := by
  unfold timermBlockAlarms
  split <;> exact ⟨rfl, rfl, rfl, rfl, rfl⟩

theorem SameAlarm.trans {r : Process κ} (h : SameAlarm p q) (h' : SameAlarm q r) : SameAlarm p r :=
  ⟨h'.now.trans h.now, h'.pid.trans h.pid, h'.alist.trans h.alist, h'.next.trans h.next,
    h'.osAlarm.trans h.osAlarm⟩

theorem timermReschedule_alarm (p : Process κ) (al : Alarm κ) (secs : ℤ) (cb : κ) :
    SameAlarm (timermSetNext (p.insert (p.stamped al secs cb)))
    (timermReschedule p al secs cb) := by
  have hblock := timermBlockAlarms_alarm p
  have hinsert : SameAlarm (p.insert (p.stamped al secs cb))
      ((timermBlockAlarms p).insert (p.stamped al secs cb)) := by
    refine ⟨hblock.now, hblock.pid, ?_, hblock.next, hblock.osAlarm⟩
    simp only [Process.insert, hblock.alist]
  exact hinsert.setNext.trans (timermUnblockAlarms_alarm _)

theorem timermDel_alarm (p : Process κ) (id : ℕ) :
    SameAlarm (timermSetNext (p.remove id)) (timermDel p id) := by
  have hblock := timermBlockAlarms_alarm p
  have hremove : SameAlarm (p.remove id) ((timermBlockAlarms p).remove id) := by
    refine ⟨hblock.now, hblock.pid, ?_, hblock.next, hblock.osAlarm⟩
    simp only [Process.remove, hblock.alist]
  have h := hremove.setNext.trans (timermUnblockAlarms_alarm _)
  exact ⟨h.now, h.pid, h.alist, h.next, h.osAlarm⟩

/-- What a call does to the alarm: nothing, apart from the time that passes, or the
alarm is set for a list with one more or one less. -/
theorem perform_alarm (p : Process κ) (o : Op κ) :
    (∃ al secs cb, (o.sets p = some secs ∧ al.owner = p.pid ∨ o.sets p = none ∧ al.owner ≠ p.pid) ∧
        SameAlarm (timermSetNext (p.insert (p.stamped al secs cb))) (perform p o)) ∨
      o.sets p = none ∧ ((∃ id, SameAlarm (timermSetNext (p.remove id)) (perform p o)) ∨
        ∃ secs : ℕ, SameAlarm { p with now := p.now + secs } (perform p o)) := by
  have hrefl : SameAlarm { p with now := p.now + (0 : ℕ) } p := ⟨by simp, rfl, rfl, rfl, rfl⟩
  cases o with
  | add id secs cb =>
    by_cases hf : p.Free id
    · have hp : perform p (.add id secs cb) = timermReschedule p ⟨id, 0, cb, p.pid, 0⟩ secs cb :=
        if_pos hf
      refine Or.inl ⟨⟨id, 0, cb, p.pid, 0⟩, secs, cb, Or.inl ⟨if_pos hf, rfl⟩, ?_⟩
      rw [hp]
      exact timermReschedule_alarm p _ secs cb
    · have hp : perform p (.add id secs cb) = p := if_neg hf
      refine Or.inr ⟨if_neg hf, Or.inr ⟨0, ?_⟩⟩
      rw [hp]
      exact hrefl
  | del id => exact Or.inr ⟨rfl, Or.inl ⟨id, timermDel_alarm p id⟩⟩
  | reschedule id secs cb =>
    cases hi : p.idleAlarm id with
    | none =>
      have hp : perform p (.reschedule id secs cb) = p := by simp only [perform, hi]
      refine Or.inr ⟨by simp [Op.sets, hi], Or.inr ⟨0, ?_⟩⟩
      rw [hp]
      exact hrefl
    | some al =>
      have hp : perform p (.reschedule id secs cb) = timermReschedule (p.free id) al secs cb := by
        simp only [perform, hi]
      have hfree : SameAlarm (p.insert (p.stamped al secs cb))
          ((p.free id).insert (p.stamped al secs cb)) :=
        ⟨rfl, rfl, rfl, rfl, rfl⟩
      refine Or.inl ⟨al, secs, cb, ?_, ?_⟩
      · by_cases ho : al.owner = p.pid
        · exact Or.inl ⟨by simp [Op.sets, hi, ho], ho⟩
        · exact Or.inr ⟨by simp [Op.sets, hi, ho], ho⟩
      · rw [hp]
        exact hfree.setNext.trans (timermReschedule_alarm (p.free id) al secs cb)
  | tick secs => exact Or.inr ⟨rfl, Or.inr ⟨secs, ⟨rfl, rfl, rfl, rfl, rfl⟩⟩⟩

theorem Clocked.same (h : Clocked p) (hs : SameAlarm p q) : Clocked q := by
  refine ⟨?_, ?_⟩
  · rw [hs.now]
    exact h.now
  · rw [hs.osAlarm, hs.next]
    exact h.backed

theorem Covered.same (h : Covered p) (hs : SameAlarm p q) : Covered q := by
  unfold Covered
  rw [hs.alist, hs.next, hs.now]
  exact h

theorem SameAlarm.stale_iff (hs : SameAlarm p q) : Stale q ↔ Stale p := by
  unfold Stale
  rw [hs.next, hs.osAlarm]

theorem perform_clocked (h : Clocked p) (o : Op κ) : Clocked (perform p o) := by
  rcases perform_alarm p o with ⟨al, secs, cb, -, hs⟩ | ⟨-, ⟨id, hs⟩ | ⟨secs, hs⟩⟩
  · exact (timermSetNext_clocked (p := p.insert _) ⟨h.now, h.backed⟩).same hs
  · exact (timermSetNext_clocked (p := p.remove id) ⟨h.now, h.backed⟩).same hs
  · have hnow := h.now
    have htick : Clocked { p with now := p.now + secs } := ⟨by dsimp only; omega, h.backed⟩
    exact htick.same hs

theorem perform_covered (h : Clocked p) (hc : Covered p) (o : Op κ) : Covered (perform p o) := by
  rcases perform_alarm p o with ⟨al, secs, cb, -, hs⟩ | ⟨-, ⟨id, hs⟩ | ⟨secs, hs⟩⟩
  · exact (timermSetNext_covered (p := p.insert _) ⟨h.now, h.backed⟩).same hs
  · exact (timermSetNext_covered (p := p.remove id) ⟨h.now, h.backed⟩).same hs
  · have htick : Covered { p with now := p.now + secs } := by
      intro al rest hl
      obtain ⟨hz, hle⟩ := hc al rest hl
      refine ⟨hz, ?_⟩
      change p.next ≤ max (p.now + secs + 1) al.expire
      omega
    exact htick.same hs

theorem perform_live (h : ¬ Stale p) (o : Op κ) : ¬ Stale (perform p o) := by
  rcases perform_alarm p o with ⟨al, secs, cb, -, hs⟩ | ⟨-, ⟨id, hs⟩ | ⟨secs, hs⟩⟩
  · rw [hs.stale_iff]
    exact timermSetNext_live (p := p.insert _) h
  · rw [hs.stale_iff]
    exact timermSetNext_live (p := p.remove id) h
  · rw [hs.stale_iff]
    exact h

theorem performAll_clocked (h : Clocked p) (ops : List (Op κ)) : Clocked (performAll p ops) := by
  induction ops generalizing p with
  | nil => exact h
  | cons o ops ih => exact ih (perform_clocked h o)

theorem performAll_live (h : ¬ Stale p) (ops : List (Op κ)) : ¬ Stale (performAll p ops) := by
  induction ops generalizing p with
  | nil => exact h
  | cons o ops ih => exact ih (perform_live h o)

/-! ## The handler -/

/-- The handler begins without timestamp. -/
theorem deliver_live (p : Process κ) : ¬ Stale p.deliver := fun h => h.1 rfl

theorem deliver_clocked (h : Clocked p) : Clocked p.deliver := ⟨h.now, fun _ _ hz => absurd rfl hz⟩

theorem sigalrmBody_live {cbs : Callbacks κ} {now : ℤ} {s t : Firing κ}
    (h : Clocked s.p ∧ ¬ Stale s.p) (hb : sigalrmBody cbs now s = some (.again t)) :
    Clocked t.p ∧ ¬ Stale t.p := by
  unfold sigalrmBody at hb
  split at hb
  · cases hb
  · next al rest hl =>
    have hpop : Clocked (s.p.pop al rest) := ⟨h.1.now, h.1.backed⟩
    split at hb
    · cases hb
      exact ⟨hpop, h.2⟩
    · split at hb
      · cases hb
      · cases hb
        have hall := performAll_clocked (p := (s.p.pop al rest).setRunning true)
          ⟨hpop.now, hpop.backed⟩
          (cbs al ((s.p.pop al rest).setRunning true))
        exact ⟨⟨hall.now, hall.backed⟩,
          performAll_live (p := (s.p.pop al rest).setRunning true) h.2 _⟩

theorem timermSigalrm_live {n : ℕ} {cbs : Callbacks κ} {s : Firing κ} (h : Clocked p)
    (hr : timermSigalrm n cbs p = some s) : Clocked s.p ∧ Covered s.p ∧ ¬ Stale s.p := by
  obtain ⟨t, ht, rfl⟩ := Option.map_eq_some_iff.mp hr
  obtain ⟨u, hu, hl⟩ := run_reaches ht
  obtain ⟨hclocked, hlive⟩ := hu.invariant (I := fun s => Clocked s.p ∧ ¬ Stale s.p)
    (fun _ _ hs hb => sigalrmBody_live hs hb) ⟨deliver_clocked h, deliver_live p⟩
  obtain ⟨-, -, hlast⟩ := sigalrmBody_leave hl
  have hc := timermSetNext_clocked hclocked
  have hcov := timermSetNext_covered hclocked
  have hn := timermSetNext_live hlive
  rw [← hlast] at hc hcov hn
  exact ⟨⟨hc.now, hc.backed⟩, hcov, hn⟩

/-! ## Runs -/

structure Sound (p : Process κ) : Prop where
  ordered : Ordered p
  ready : Ready p
  clocked : Clocked p
  covered : Covered p

theorem start_sound (now pid : ℕ) : Sound (start κ now pid) := by
  refine ⟨start_ordered now pid, ⟨rfl, rfl⟩, ⟨Int.natCast_nonneg now, fun a ha => ?_⟩,
    fun al rest hl => ?_⟩
  · cases ha
  · cases hl

theorem step_sound {n : ℕ} {e : Event κ} (h : Sound p) (hs : step n p e = some q) : Sound q := by
  suffices hc : Clocked q ∧
    Covered q from ⟨step_ordered h.ordered hs, step_ready h.ready hs, hc.1, hc.2⟩
  cases e with
  | op o =>
    obtain rfl := Option.some.inj hs
    exact ⟨perform_clocked h.clocked o, perform_covered h.clocked h.covered o⟩
  | sigalrm cbs =>
    simp only [step, h.ready.blocked, Bool.false_eq_true, if_false] at hs
    obtain ⟨s, hr, rfl⟩ := Option.map_eq_some_iff.mp hs
    obtain ⟨hc, hcov, -⟩ := timermSigalrm_live h.clocked hr
    exact ⟨hc, hcov⟩
  | fork pid =>
    obtain rfl := Option.some.inj hs
    unfold Process.fork
    split
    · exact ⟨⟨h.clocked.now, fun a ha => by cases ha⟩, h.covered⟩
    · exact ⟨h.clocked, h.covered⟩

/-- The first alarm of the list is the earliest. -/
theorem Ordered.head_le (h : Ordered p) {al b : Alarm κ} {rest : List (Alarm κ)}
    (hl : p.alist = al :: rest) (hb : b ∈ p.alist) : al.expire ≤ b.expire := by
  have hs := h.sorted
  rw [hl] at hs hb
  rcases List.mem_cons.mp hb with rfl | hb
  · exact le_refl _
  · rcases (List.pairwise_cons.mp hs).1 b hb with h' | ⟨h', -⟩ <;> omega

/-- Without a pending alarm a process must not have alarms of its own. -/
theorem Sound.wakes_iff (h : Sound p) : Wakes p ↔ (Stale p → ∀ al ∈ p.alist, al.owner ≠ p.pid) := by
  constructor
  · rintro hw ⟨-, hnone⟩ al hal howner
    obtain ⟨a, ha, -⟩ := hw ⟨al, hal, howner⟩
    rw [hnone] at ha
    cases ha
  · rintro hq ⟨al, hal, howner⟩
    obtain ⟨first, rest, hl⟩ := List.exists_cons_of_ne_nil (List.ne_nil_of_mem hal)
    obtain ⟨hz, hle⟩ := h.covered first rest hl
    cases hos : p.osAlarm with
    | none => exact absurd howner (hq ⟨hz, hos⟩ al hal)
    | some a =>
      refine ⟨a, rfl, fun b hb _ => ?_⟩
      have hbacked := h.clocked.backed a hos hz
      have hfirst := h.ordered.head_le hl hb
      omega

theorem insert_head (p : Process κ) (al : Alarm κ) :
    ∃ first rest, (p.insert al).alist = first :: rest ∧
    (first = al ∨ first.expire ≤ al.expire ∧ ∃ l, p.alist = first :: l) := by
  unfold Process.insert
  dsimp only
  cases p.alist with
  | nil => exact ⟨al, [], rfl, Or.inl rfl⟩
  | cons b l =>
    by_cases hlt : al.expire < b.expire
    · exact ⟨al, b :: l, by simp [List.orderedInsert, hlt], Or.inl rfl⟩
    · exact ⟨b, l.orderedInsert (fun a b => a.expire < b.expire)
        al, by simp [List.orderedInsert, hlt],
        Or.inr ⟨not_lt.mp hlt, l, rfl⟩⟩

/-- Without a pending alarm one is set exactly for an alarm before the timestamp. -/
theorem Stale.insert_iff (hs : Stale p) (hc : Covered p) (al : Alarm κ) :
    Stale (timermSetNext (p.insert al)) ↔ ¬ max (p.now + 1) al.expire < p.next := by
  obtain ⟨first, rest, hl, hfirst⟩ := insert_head p al
  have hz : (p.insert al).next ≠ 0 := hs.1
  have hle : p.next ≤ max (p.now + 1) first.expire ∨ first = al := by
    rcases hfirst with rfl | ⟨-, l, hpl⟩
    · exact Or.inr rfl
    · exact Or.inl (hc first l hpl).2
  have hmin : first.expire ≤ al.expire := by
    rcases hfirst with rfl | ⟨h, -⟩
    · exact le_refl _
    · exact h
  rcases timermSetNext_cases hl with ⟨hcase, he⟩ | ⟨-, hcase, he⟩
  · have hlt : max (p.now + 1) first.expire < p.next := hcase.resolve_left hz
    rw [he]
    constructor
    · rintro ⟨-, hnone⟩
      cases hnone
    · intro hn
      rcases hle with hle | rfl
      · omega
      · exact absurd hlt hn
  · have hcase : p.next ≤ max (p.now + 1) first.expire := hcase
    rw [he]
    constructor
    · intro _
      omega
    · exact fun _ => hs

/-- A call wakes the process up exactly if it is in time. -/
theorem perform_wakes_iff (h : Sound p) (hw : Wakes p) (o : Op κ) :
    Wakes (perform p o) ↔ InTime p (.op o) := by
  have hsound : Sound (perform p o) := step_sound (n := 0) (e := .op o) h rfl
  rw [hsound.wakes_iff]
  by_cases hst : Stale p
  · have hown := h.wakes_iff.mp hw hst
    rcases perform_alarm p o with ⟨al, secs, cb, hsets, hs⟩ | ⟨hsets, hs⟩
    · have hlist : (perform p o).alist = (p.insert (p.stamped al secs cb)).alist :=
        hs.alist.trans (timermSetNext_same _).alist
      have hpid : (perform p o).pid = p.pid := hs.pid.trans (timermSetNext_same _).pid
      have hmem : ∀ b, b ∈ (perform p o).alist ↔ b = p.stamped al secs cb ∨ b ∈ p.alist := by
        intro b
        rw [hlist]
        exact (List.perm_orderedInsert _ _ _).mem_iff.trans List.mem_cons
      rcases hsets with ⟨hsets, howner⟩ | ⟨hsets, howner⟩
      · have hstale := hst.insert_iff h.covered (p.stamped al secs cb)
        rw [hs.stale_iff, hstale, hpid]
        constructor
        · intro hq secs' hs' _
          obtain rfl := Option.some.inj (hsets.symm.trans hs')
          by_contra hn
          exact hq hn (p.stamped al secs cb) ((hmem _).mpr (Or.inl rfl)) howner
        · intro hin hn
          exact absurd (hin secs hsets hst) hn
      · constructor
        · intro _ secs' hs'
          rw [hsets] at hs'
          cases hs'
        · intro _ _ b hb
          rw [hpid]
          rcases (hmem b).mp hb with rfl | hb
          · exact howner
          · exact hown b hb
    · constructor
      · intro _ secs' hs'
        rw [hsets] at hs'
        cases hs'
      · intro _ _ b hb
        rcases hs with ⟨id, hs⟩ | ⟨secs, hs⟩
        · rw [hs.alist, (timermSetNext_same _).alist] at hb
          rw [hs.pid, (timermSetNext_same _).pid]
          exact hown b (List.mem_of_mem_filter hb)
        · rw [hs.alist] at hb
          rw [hs.pid]
          exact hown b hb
  · constructor
    · exact fun _ _ _ hst' => absurd hst' hst
    · exact fun _ hst' => absurd hst' (perform_live hst o)

theorem step_wakes_iff {n : ℕ} {e : Event κ} (h : Sound p) (hw : Wakes p)
    (hs : step n p e = some q) :
    Wakes q ↔ InTime p e := by
  cases e with
  | op o =>
    obtain rfl := Option.some.inj hs
    exact perform_wakes_iff h hw o
  | sigalrm cbs =>
    have hq := step_sound h hs
    simp only [step, h.ready.blocked, Bool.false_eq_true, if_false] at hs
    obtain ⟨s, hr, rfl⟩ := Option.map_eq_some_iff.mp hs
    obtain ⟨-, -, hlive⟩ := timermSigalrm_live h.clocked hr
    exact iff_of_true (hq.wakes_iff.mpr fun hst => absurd hst hlive) trivial
  | fork pid =>
    have hq := step_sound h hs
    obtain rfl := Option.some.inj hs
    refine iff_of_true ?_ trivial
    unfold Process.fork at hq ⊢
    split
    · next hfresh =>
      rintro ⟨al, hal, howner⟩
      exact absurd howner (hfresh.1 al hal)
    · exact hw

theorem Trace.wakes_iff {t : List (Event κ × Process κ)} (ht : Trace p t) (h : Sound p)
    (hw : Wakes p) :
    (∀ q ∈ p :: t.map Prod.snd, Wakes q) ↔ AllInTime p t := by
  induction t generalizing p with
  | nil =>
    refine iff_of_true ?_ trivial
    intro q hq
    obtain rfl := List.mem_singleton.mp hq
    exact hw
  | cons eq t ih =>
    obtain ⟨e, q⟩ := eq
    obtain ⟨⟨N, hN⟩, ht'⟩ := ht
    have hstep := hN N (le_refl N)
    have hiff := step_wakes_iff h hw hstep
    have hmap : ((e, q) :: t).map Prod.snd = q :: t.map Prod.snd := rfl
    constructor
    · intro hall
      rw [hmap] at hall
      have hq := hall q (List.mem_cons_of_mem p List.mem_cons_self)
      exact ⟨hiff.mp hq, (ih ht' (step_sound h hstep) hq).mp fun r hr =>
        hall r (List.mem_cons_of_mem p hr)⟩
    · rintro ⟨hin, hall⟩ r hr
      rw [hmap] at hr
      rcases List.mem_cons.mp hr with rfl | hr
      · exact hw
      · exact (ih ht' (step_sound h hstep) (hiff.mpr hin)).mpr hall r hr

/-- A process is woken up in time in every state of a run exactly if it never sets an
alarm that is not earlier than a timestamp without pending alarm. -/
theorem timer_wakes_iff {now pid : ℕ} {t : List (Event κ × Process κ)}
    (ht : Trace (start κ now pid) t) :
    (∀ p ∈ start κ now pid :: t.map Prod.snd, Wakes p) ↔ AllInTime (start κ now pid) t := by
  refine ht.wakes_iff (start_sound now pid) ?_
  rintro ⟨al, hal, -⟩
  exact absurd hal List.not_mem_nil

def sampleChild : Process Unit := (perform (start Unit 100 1) (.add 1 5 ())).fork 2

/-- The parent sets an alarm, and the child one of its own, which is earlier. -/
def sampleForked : List (Event Unit × Process Unit) :=
  [(.op (.add 1 5 ()), perform (start Unit 100 1) (.add 1 5 ())), (.fork 2, sampleChild),
    (.op (.add 2 2 ()), perform sampleChild (.add 2 2 ()))]

theorem timer_wakes_iff_two :
    (∀ p ∈ start Unit 100 1 :: sampleForked.map Prod.snd, Wakes p) ↔
    AllInTime (start Unit 100 1) sampleForked :=
  timer_wakes_iff ⟨Ends.const _, Ends.const _, Ends.const _, trivial⟩

/-- The alarm of a child that is later than that of its parent never goes off. -/
theorem timer_child_sleeps :
    ¬ ∀ (now pid : ℕ) (t : List (Event Unit × Process Unit)), Trace (start Unit now pid) t →
    ∀ p ∈ start Unit now pid :: t.map Prod.snd, Wakes p := by
  intro h
  have ht : Trace (start Unit 100 1) [(.op (.add 1 5 ()), perform (start Unit 100 1) (.add 1 5 ())),
      (.fork 2, sampleChild), (.op (.add 2 60 ()), perform sampleChild (.add 2 60 ()))] :=
    ⟨Ends.const _, Ends.const _, Ends.const _, trivial⟩
  have hw : Wakes (perform sampleChild (.add 2 60 ())) := h 100 1 _ ht _ (by simp)
  have hown : ∃ al ∈ (perform sampleChild (.add 2 60 ())).alist,
      al.owner = (perform sampleChild (.add 2 60 ())).pid := by
    decide
  obtain ⟨a, ha, -⟩ := hw hown
  have hnone : (perform sampleChild (.add 2 60 ())).osAlarm = none := by decide
  rw [hnone] at ha
  cases ha

end Klone.Timer
