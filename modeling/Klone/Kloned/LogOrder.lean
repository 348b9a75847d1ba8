import Klone.Kloned.SelectRound

/-! # The order of the log

However the processes take turns, the log is what one sequence of their calls would make of
it. What comes through a channel is in the order in which the child has sent it; nothing is
lost or made twice, and when the parent has closed a channel nothing was left in it.
-/
namespace Klone.Daemon
open Klone.Ppc

def frame (s : Server) (be : Backend) (call : Call) : List Byte :=
  match childCall s be call with
  | .message cmd data => header cmd data.length ++ data
  | _ => []

def Child.half (s : Server) (kid : Child) : List Byte :=
  match kid.pending with
  | none => []
  | some (call, data) =>
    match childCall s kid.be call with
    | .message cmd _ => header cmd data.length
    | _ => []

/-- The header that the parent has read from a child without the rest. -/
def World.taken (w : World) (c : ℕ) : List Byte :=
  match w.phase with
  | .read _ fd cmd size => if w.chan fd = some c then header cmd size else []
  | _ => []

structure Child.Kept (s : Server) (kid : Child) (handled inflight : List Call) : Prop where
  be : kid.be ∈ s.bes
  said : kid.said = handled ++ inflight
  sends : ∀ call ∈ inflight, ∃ cmd data, Sends s kid.be call cmd data
  pending : ∀ call data, kid.pending = some (call, data) → ∃ cmd, Sends s kid.be call cmd data

/-- What is on the wire, behind what the parent has taken, are the messages on their way. -/
def Child.Streams (s : Server) (kid : Child) (taken : List Byte) (inflight : List Call) : Prop :=
  taken ++ kid.wire = inflight.flatMap (frame s kid.be) ++ kid.half s

section
variable {s : Server} {be : Backend} {call : Call} {cmd : Byte} {data : List Byte} {kid : Child}
  {handled inflight : List Call}

theorem Sends.frame_eq (h : Sends s be call cmd data) :
    frame s be call = header cmd data.length ++ data := by
  rw [frame, h.call]

theorem Sends.half_eq (hp : kid.pending = some (call, data)) (h : Sends s kid.be call cmd data) :
    kid.half s = header cmd data.length := by
  simp only [Child.half, hp, h.call]

theorem half_none (hp : kid.pending = none) : kid.half s = [] := by
  simp only [Child.half, hp]

theorem Sends.lt_sizeMod (h : Sends s be call cmd data) :
    data.length < sizeMod := h.fits.trans_lt (by decide)

theorem header_inj {cmd cmd' : Byte} {size size' : ℕ} (hlt : size < sizeMod)
    (hlt' : size' < sizeMod) (h : header cmd size = header cmd' size') :
    cmd = cmd' ∧ size = size' := by
  refine ⟨(List.cons.inj h).1, ?_⟩
  rw [← hSize_header cmd hlt, h, hSize_header cmd' hlt']

/-- Where there is something to read there is a whole header. -/
theorem Child.Kept.header_first (hk : kid.Kept s handled inflight) (hs : kid.Streams s [] inflight)
    (hw : kid.wire ≠ []) :
    ∃ cmd size, 0 < size ∧ size ≤ PPC_MAX_DATA_SIZE ∧ ∃ rest,
    kid.wire = header cmd size ++ rest := by
  unfold Child.Streams at hs
  rw [List.nil_append] at hs
  have hpos : ∀ {call cmd data}, Sends s kid.be call cmd data → 0 < data.length ∧
      data.length ≤ PPC_MAX_DATA_SIZE :=
    fun h => ⟨List.length_pos_iff.mpr h.nonempty, h.fits⟩
  cases inflight with
  | nil =>
    rw [List.flatMap_nil, List.nil_append] at hs
    cases hp : kid.pending with
    | none => exact absurd (hs.trans (half_none hp)) hw
    | some p =>
      obtain ⟨cmd, hsend⟩ := hk.pending p.1 p.2 hp
      exact ⟨cmd, p.2.length, (hpos hsend).1, (hpos hsend).2,
        [], by rw [hs, hsend.half_eq hp, List.append_nil]⟩
  | cons call inflight =>
    obtain ⟨cmd, data, hsend⟩ := hk.sends call List.mem_cons_self
    refine ⟨cmd, data.length, (hpos hsend).1, (hpos hsend).2,
      data ++ (inflight.flatMap (frame s kid.be) ++ kid.half s), ?_⟩
    rw [hs, List.flatMap_cons, hsend.frame_eq]
    simp only [List.append_assoc]

/-- Behind a header that has been read, what can be read is the rest of that message. -/
theorem Child.Kept.data_first {size : ℕ} (hk : kid.Kept s handled inflight)
    (hs : kid.Streams s (header cmd size) inflight) (hsize : size < sizeMod) (hw : kid.wire ≠ []) :
    ∃ call calls data rest, inflight = call :: calls ∧ Sends s kid.be call cmd data ∧
    data.length = size ∧
      kid.wire = data ++ rest ∧ rest = calls.flatMap (frame s kid.be) ++ kid.half s := by
  unfold Child.Streams at hs
  cases inflight with
  | nil =>
    rw [List.flatMap_nil, List.nil_append] at hs
    have hlen := congrArg List.length hs
    have hwire := List.length_pos_iff.mpr hw
    rw [List.length_append, header_length] at hlen
    cases hp : kid.pending with
    | none =>
      rw [half_none hp, List.length_nil] at hlen
      omega
    | some p =>
      obtain ⟨cmd', hsend⟩ := hk.pending p.1 p.2 hp
      rw [hsend.half_eq hp, header_length] at hlen
      omega
  | cons call calls =>
    obtain ⟨cmd', data, hsend⟩ := hk.sends call List.mem_cons_self
    rw [List.flatMap_cons, hsend.frame_eq, List.append_assoc, List.append_assoc] at hs
    obtain ⟨hhead, hrest⟩ := List.append_inj hs (by rw [header_length, header_length])
    obtain ⟨rfl, rfl⟩ := header_inj hsize hsend.lt_sizeMod hhead
    exact ⟨call, calls, data, _, rfl, hsend, rfl, hrest, rfl⟩

/-- At the end of the wire no whole message is left. -/
theorem Child.Kept.none_left {taken : List Byte} (hk : kid.Kept s handled inflight)
    (hs : kid.Streams s taken inflight) (htaken : taken.length ≤ headerSize) (hw : kid.wire = []) :
    inflight = [] := by
  unfold Child.Streams at hs
  cases inflight with
  | nil => rfl
  | cons call calls =>
    obtain ⟨cmd, data, hsend⟩ := hk.sends call List.mem_cons_self
    have hlen := congrArg List.length hs
    have hdata := List.length_pos_iff.mpr hsend.nonempty
    rw [hw, List.append_nil, List.flatMap_cons, hsend.frame_eq] at hlen
    simp only [List.length_append, header_length] at hlen
    omega

/-- A header stands for a message that is not empty. -/
theorem Child.Kept.size_pos {size : ℕ} (hk : kid.Kept s handled inflight)
    (hs : kid.Streams s (header cmd size) inflight) (hsize : size < sizeMod) : 0 < size := by
  by_cases hw : kid.wire = []
  · have hnil := hk.none_left hs (header_length cmd size).le hw
    unfold Child.Streams at hs
    rw [hw, hnil, List.append_nil, List.flatMap_nil, List.nil_append] at hs
    cases hp : kid.pending with
    | none => exact absurd (hs.trans (half_none hp)) (header_ne_nil cmd size)
    | some p =>
      obtain ⟨cmd', hsend⟩ := hk.pending p.1 p.2 hp
      rw [hsend.half_eq hp] at hs
      rw [(header_inj hsize hsend.lt_sizeMod hs).2]
      exact List.length_pos_iff.mpr hsend.nonempty
  · obtain ⟨call, calls, data, rest, -, hsend, rfl, -⟩ := hk.data_first hs hsize hw
    exact List.length_pos_iff.mpr hsend.nonempty

end

/-! ## The sequence of the calls -/

/-- Entries with the child whose message they have come with. -/
abbrev Tagged := List (Option ℕ × Device × Entry)

def entriesFrom (c : ℕ) (tagged : Tagged) : List (Device × Entry) :=
  (tagged.filter (·.1 = some c)).map Prod.snd

structure Delivered (s : Server) (w : World) (tagged : Tagged) (handled inflight : ℕ → List Call) :
    Prop where
  log : tagged.map Prod.snd = w.log
  kept : ∀ c kid, w.kids[c]? = some kid →
    kid.Kept s (handled c) (inflight c) ∧
    entriesFrom c tagged = (handled c).filterMap (goal s kid.be)
  fresh : ∀ c, w.kids.length ≤ c → handled c = [] ∧ inflight c = [] ∧ entriesFrom c tagged = []
  stream : ∀ fd c kid, w.chan fd = some c → w.kids[c]? = some kid →
    kid.Streams s (w.taken c) (inflight c)
  closed : ∀ c kid, w.kids[c]? = some kid → (∀ fd, w.chan fd ≠ some c) → kid.gone = true ∧
    inflight c = []
  size : ∀ rc fd cmd size, w.phase = .read rc fd cmd size → size ≤ PPC_MAX_DATA_SIZE

/-- The parent is not between a header and the rest of its message. -/
def Phase.Idle : Phase → Prop
  | .read _ _ _ _ => False
  | _ => True

theorem taken_idle {w : World} (h : w.phase.Idle) (c : ℕ) : w.taken c = [] := by
  unfold World.taken
  split
  · next hp =>
    rw [hp] at h
    exact h.elim
  · rfl

theorem entriesFrom_append (c : ℕ) (tagged tagged' : Tagged) :
    entriesFrom c (tagged ++ tagged') = entriesFrom c tagged ++ entriesFrom c tagged' := by
  unfold entriesFrom
  rw [List.filter_append, List.map_append]

theorem entriesFrom_tag (c : ℕ) (tag : Option ℕ) (es : List (Device × Entry)) :
    entriesFrom c (es.map (Prod.mk tag)) = if tag = some c then es else [] := by
  unfold entriesFrom
  induction es with
  | nil =>
    split
    · rfl
    · rfl
  | cons e es ih =>
    rw [List.map_cons, List.filter_cons]
    by_cases h : tag = some c
    · simp only [h, decide_true, if_true, List.map_cons] at ih ⊢
      rw [ih]
    · simp only [h, decide_false, Bool.false_eq_true, if_false] at ih ⊢
      exact ih

section
variable {s : Server} {w w' : World} {tagged : Tagged} {handled inflight : ℕ → List Call}

theorem delivered_start (s : Server) : Delivered s (start s) [] (fun _ => []) (fun _ => []) := by
  constructor <;> simp [start, entriesFrom]

theorem Delivered.go (h : Delivered s w tagged handled inflight) (phase : Phase)
    (hidle : w.phase.Idle) (hidle' : phase.Idle) :
    Delivered s (w.go phase) tagged handled inflight := by
  refine ⟨h.log, h.kept, h.fresh, fun fd c kid hc hkid => ?_, h.closed, fun rc fd cmd size hp => ?_⟩
  · have hs := h.stream fd c kid hc hkid
    rwa [taken_idle hidle, ← taken_idle (w := w.go phase) hidle' c] at hs
  · change phase = _ at hp
    rw [hp] at hidle'
    exact hidle'.elim

/-- The descriptors of the round are of no matter. -/
theorem Delivered.round (h : Delivered s w tagged handled inflight) (ready : Finset ℤ)
    (served : List ℤ) :
    Delivered s { w with ready := ready, served := served } tagged handled inflight :=
  ⟨h.log, h.kept, h.fresh, h.stream, h.closed, h.size⟩

/-- An entry that is made without a message. -/
theorem Delivered.append (h : Delivered s w tagged handled inflight)
    (entry : Option (Device × Entry)) :
    Delivered s (w.append entry) (tagged ++ entry.toList.map (Prod.mk none)) handled inflight := by
  have hfrom : ∀ c, entriesFrom c (tagged ++ entry.toList.map (Prod.mk none)) =
      entriesFrom c tagged := by
    intro c
    rw [entriesFrom_append, entriesFrom_tag, if_neg nofun, List.append_nil]
  refine ⟨?_, fun c kid hkid => ?_, fun c hc => ?_, h.stream, h.closed, h.size⟩
  · rw [List.map_append, h.log, List.map_map]
    exact congrArg (w.log ++ ·) (List.map_id _)
  · rw [hfrom]
    exact h.kept c kid hkid
  · rw [hfrom]
    exact h.fresh c hc

/-- One child changes, and the parent makes the entry of a message of it or none. -/
theorem Delivered.setKid (h : Delivered s w tagged handled inflight) {c : ℕ} {kid : Child}
    (hkid : w.kids[c]? = some kid) (kid' : Child) (hbe : kid'.be = kid.be)
    (entry : Option (Device × Entry)) (phase : Phase) (hs is : List Call)
    (hkept : kid'.Kept s hs is)
    (hgoal : hs.filterMap (goal s kid.be) = (handled c).filterMap (goal s kid.be) ++ entry.toList)
    (hstream : ∀ fd, w.chan fd = some c → kid'.Streams s ((w.go phase).taken c) is)
    (hclosed : (∀ fd, w.chan fd ≠ some c) → kid'.gone = true ∧ is = [])
    (htaken : ∀ c' ≠ c, (w.go phase).taken c' = w.taken c')
    (hsize : ∀ rc fd cmd size, phase = .read rc fd cmd size → size ≤ PPC_MAX_DATA_SIZE) :
    Delivered s (((w.setKid c kid').append entry).go phase)
    (tagged ++ entry.toList.map (Prod.mk (some c)))
      (Function.update handled c hs) (Function.update inflight c is) := by
  have hlt : c < w.kids.length := (List.getElem?_eq_some_iff.mp hkid).1
  have hself : (w.setKid c kid').kids[c]? = some kid' := List.getElem?_set_self hlt
  have hne : ∀ c' ≠ c, some c ≠ some c' := fun c' he hc => he (Option.some.inj hc).symm
  have hother : ∀ c' ≠ c, (w.setKid c kid').kids[c']? = w.kids[c']? :=
    fun c' hne => List.getElem?_set_ne (Ne.symm hne)
  constructor
  · rw [List.map_append, h.log, List.map_map]
    exact congrArg (w.log ++ ·) (List.map_id _)
  · intro c' k' hk'
    by_cases he : c' = c
    · subst he
      cases hself.symm.trans hk'
      rw [Function.update_self, Function.update_self, entriesFrom_append, entriesFrom_tag,
        if_pos rfl, hbe, hgoal,
        (h.kept c' kid hkid).2]
      exact ⟨hkept, rfl⟩
    · rw [Function.update_of_ne he, Function.update_of_ne he, entriesFrom_append, entriesFrom_tag,
        if_neg (hne c' he), List.append_nil]
      exact h.kept c' k' ((hother c' he).symm.trans hk')
  · intro c' hc'
    have hc' : w.kids.length ≤ c' := (setKid_length c kid').symm.trans_le hc'
    have he : c' ≠ c := (hlt.trans_le hc').ne'
    rw [Function.update_of_ne he, Function.update_of_ne he, entriesFrom_append, entriesFrom_tag,
      if_neg (hne c' he), List.append_nil]
    exact h.fresh c' hc'
  · intro fd c' k' hchan hk'
    by_cases he : c' = c
    · subst he
      cases hself.symm.trans hk'
      rw [Function.update_self]
      exact hstream fd hchan
    · rw [Function.update_of_ne he]
      have hs := h.stream fd c' k' hchan ((hother c' he).symm.trans hk')
      rwa [← htaken c' he] at hs
  · intro c' k' hk' hno
    by_cases he : c' = c
    · subst he
      cases hself.symm.trans hk'
      rw [Function.update_self]
      exact hclosed hno
    · rw [Function.update_of_ne he]
      exact h.closed c' k' ((hother c' he).symm.trans hk') hno
  · exact hsize

/-- A channel is closed whose child has exited and has nothing left on its way. -/
theorem Delivered.close (h : Delivered s w tagged handled inflight) (fd : ℤ) {phase : Phase}
    (hidle : phase.Idle)
    (hgone : ∀ c kid, w.chan fd = some c → w.kids[c]? = some kid → kid.gone = true ∧
      inflight c = [])
    (htaken : ∀ fd' c, fd' ≠ fd → w.chan fd' = some c → w.taken c = []) :
    Delivered s ((serverCloseFd w fd).go phase) tagged handled inflight := by
  have hchan : ∀ x c, Function.update w.chan fd none x = some c → x ≠ fd ∧ w.chan x = some c := by
    intro x c hx
    by_cases he : x = fd
    · rw [he, Function.update_self] at hx
      cases hx
    · rw [Function.update_of_ne he] at hx
      exact ⟨he, hx⟩
  refine ⟨h.log, h.kept, h.fresh, fun x c kid hc hkid => ?_, fun c kid hkid hno => ?_,
    fun rc fd cmd size hp => ?_⟩
  · obtain ⟨hne, hc⟩ := hchan x c hc
    have hs := h.stream x c kid hc hkid
    rwa [htaken x c hne hc, ← taken_idle (w := (serverCloseFd w fd).go phase) hidle c] at hs
  · by_cases hfd : w.chan fd = some c
    · exact hgone c kid hfd hkid
    · refine h.closed c kid hkid fun x hx => ?_
      by_cases he : x = fd
      · exact hfd (he ▸ hx)
      · refine hno x ?_
        change Function.update w.chan fd none x = some c
        rw [Function.update_of_ne he, hx]
  · change phase = _ at hp
    rw [hp] at hidle
    exact hidle.elim

/-- A new child has sent nothing. -/
theorem Delivered.fork (h : Delivered s w tagged handled inflight) {be : Backend} (hbe : be ∈ s.bes)
    (round : Option LoopState) {fd : ℤ} (hnone : w.chan fd = none) (hidle : w.phase.Idle) :
    Delivered s (w.forked be round fd) tagged handled inflight := by
  obtain ⟨hhandled, hinflight, hentries⟩ := h.fresh _ le_rfl
  have hget : ∀ c kid, (w.forked be round fd).kids[c]? = some kid →
      (c = w.kids.length ∧ kid = ⟨be, [], none, [], false, round⟩) ∨ w.kids[c]? = some kid := by
    intro c kid hkid
    by_cases hlt : c < w.kids.length
    · exact .inr ((List.getElem?_append_left hlt).symm.trans hkid)
    · obtain ⟨hlt', heq⟩ := List.getElem?_eq_some_iff.mp hkid
      have hlen : (w.forked be round fd).kids.length = w.kids.length + 1 := List.length_append
      have hc : c = w.kids.length := by omega
      subst hc
      refine .inl ⟨rfl, heq.symm.trans ?_⟩
      exact List.getElem_concat_length rfl _
  have hlt : ∀ c kid, w.kids[c]? = some kid → c < w.kids.length :=
    fun c kid hkid => (List.getElem?_eq_some_iff.mp hkid).1
  refine ⟨h.log, fun c kid hkid => ?_, fun c hc => ?_, fun x c kid hc hkid => ?_,
    fun c kid hkid hno => ?_, h.size⟩
  · rcases hget c kid hkid with ⟨rfl, rfl⟩ | hkid
    · rw [hhandled, hinflight, hentries]
      exact ⟨⟨hbe, rfl, by simp, by simp⟩, rfl⟩
    · exact h.kept c kid hkid
  · refine h.fresh c ?_
    have hlen : (w.forked be round fd).kids.length = w.kids.length + 1 := List.length_append
    omega
  · have htaken : (w.forked be round fd).taken c = [] :=
      taken_idle (w := w.forked be round fd) hidle c
    rw [htaken]
    rcases hget c kid hkid with ⟨rfl, rfl⟩ | hkid
    · rw [hinflight]
      rfl
    · change Function.update w.chan fd (some w.kids.length) x = some c at hc
      by_cases he : x = fd
      · rw [he, Function.update_self] at hc
        cases hc
        exact absurd (hlt _ _ hkid) (lt_irrefl _)
      · rw [Function.update_of_ne he] at hc
        have hs := h.stream x c kid hc hkid
        rwa [taken_idle hidle] at hs
  · rcases hget c kid hkid with ⟨rfl, rfl⟩ | hkid
    · refine absurd ?_ (hno fd)
      change Function.update w.chan fd (some w.kids.length) fd = some w.kids.length
      rw [Function.update_self]
    · refine h.closed c kid hkid fun x hx => ?_
      have he : x ≠ fd := fun he => by
        rw [he, hnone] at hx
        cases hx
      refine hno x ?_
      change Function.update w.chan fd (some w.kids.length) x = some c
      rw [Function.update_of_ne he, hx]

theorem append_none (w : World) : w.append none = w := by
  unfold World.append
  rw [Option.toList_none, List.append_nil]

structure Ordered (s : Server) (w : World) : Prop where
  alive : w.phase ≠ .crashed
  order : ∃ tagged handled inflight, Delivered s w tagged handled inflight

theorem Delivered.ordered (h : Delivered s w tagged handled inflight)
    (halive : w.phase ≠ .crashed) : Ordered s w :=
  ⟨halive, tagged, handled, inflight, h⟩

variable {m : Frame PPC_MAX_DATA_SIZE} {rc : ℕ} {fd : ℤ} {socks : Option ℤ}

theorem Delivered.forkChild (h : Delivered s w tagged handled inflight) {be : Backend}
    (hbe : be ∈ s.bes) {round : Option LoopState} (hidle : w.phase.Idle)
    (hf : serverForkChild s.listener w be round socks = some w') :
    Delivered s w' tagged handled inflight ∧ w'.phase = w.phase := by
  rcases serverForkChild_cases hf with rfl | ⟨new, -, -, hnone, -, rfl⟩
  · exact ⟨h, rfl⟩
  · exact ⟨h.fork hbe round hnone hidle, rfl⟩

theorem readHeader_ordered (h : Delivered s w tagged handled inflight)
    (hidle : w.phase.Idle) (hread : readHeader m w rc fd = some w') : Ordered s w' := by
  rcases readHeader_cases hread with ⟨hend, rfl⟩ | ⟨c, kid, hchan, hkid, hne, hw'⟩
  · have hclosed : Delivered s
      ((serverCloseFd w fd).go (.scan rc (fd + 1))) tagged handled inflight :=
      h.close fd trivial (fun c kid hchan hkid => ?_) fun _ c _ _ => taken_idle hidle c
    · exact hclosed.ordered nofun
    obtain ⟨hwire, hgone⟩ := hend c kid hchan hkid
    have hs := h.stream fd c kid hchan hkid
    exact ⟨hgone, (h.kept c kid hkid).1.none_left hs
      (by rw [taken_idle hidle]; exact Nat.zero_le _) hwire⟩
  · obtain ⟨hkept, -⟩ := h.kept c kid hkid
    have hs := h.stream fd c kid hchan hkid
    rw [taken_idle hidle] at hs
    obtain ⟨cmd, size, -, hmax, rest, hwire⟩ := hkept.header_first hs hne
    have hgot : kid.wire.take headerSize = header cmd size := by
      rw [hwire, List.take_left' (header_length cmd size)]
    have hstore : store m.header (header cmd size) = header cmd size :=
      store_full (by rw [m.header_length, header_length])
    have hsize : hSize (header cmd size) = size := hSize_header cmd (hmax.trans_lt (by decide))
    have hdrop : kid.wire.drop (header cmd size).length = rest := by rw [hwire, List.drop_left]
    have hcmd : headerCmd (header cmd size) = cmd := rfl
    rw [hgot, hstore, hsize, hcmd, hdrop, if_neg (not_lt.mpr hmax)] at hw'
    have hset := h.setKid hkid { kid with
      wire := rest } rfl none (.read rc fd cmd size) (handled c) (inflight c)
      ⟨hkept.be, hkept.said, hkept.sends, hkept.pending⟩ (List.append_nil _).symm ?_ ?_ ?_ ?_
    · rw [append_none, ← hw'] at hset
      exact hset.ordered (by rw [hw']; exact nofun)
    · intro fd' hfd'
      have htaken : (w.go (.read rc fd cmd size)).taken c = header cmd size := if_pos hchan
      unfold Child.Streams at hs ⊢
      rw [htaken, ← hwire]
      exact hs
    · intro hno
      exact absurd hchan (hno fd)
    · intro c' hc'
      rw [taken_idle hidle]
      exact if_neg fun hfd => hc' (Option.some.inj (hfd.symm.trans hchan))
    · intro rc' fd' cmd' size' hp
      cases hp
      exact hmax

theorem readData_ordered {cmd : Byte} {size : ℕ} (hw : Watched s w.fds w.chan w.kids.length)
    (h : Delivered s w tagged handled inflight) (hphase : w.phase = .read rc fd cmd size)
    (hread : readData s s.listener m w rc fd cmd size socks = some w') : Ordered s w' := by
  have htaken : ∀ c, w.chan fd = some c → w.taken c = header cmd size := fun c hc => by
    unfold World.taken
    rw [hphase]
    exact if_pos hc
  have hothers : ∀ c, w.chan fd ≠ some c → w.taken c = [] := fun c hc => by
    unfold World.taken
    rw [hphase]
    exact if_neg hc
  have hsize : size < sizeMod := (h.size rc fd cmd size hphase).trans_lt (by decide)
  rcases readData_cases hread with ⟨hend, rfl⟩ | ⟨c, kid, hchan, hkid, hne, hserved⟩
  · have hclosed : Delivered s
      ((serverCloseFd w fd).go (.scan rc (fd + 1))) tagged handled inflight :=
      h.close fd trivial (fun c kid hchan hkid => ?_) fun fd' c hne hc => ?_
    · exact hclosed.ordered nofun
    · obtain ⟨hkept, -⟩ := h.kept c kid hkid
      have hs := h.stream fd c kid hchan hkid
      rw [htaken c hchan] at hs
      obtain ⟨hwire, hgone⟩ := hend c kid hchan hkid
      have hpos := hkept.size_pos hs hsize
      have hwire : kid.wire = [] := (List.take_eq_nil_iff.mp hwire).resolve_left hpos.ne'
      exact ⟨hgone.resolve_left hpos.ne', hkept.none_left hs (header_length cmd size).le hwire⟩
    · exact hothers c fun hfd => hne (hw.inj fd' fd c hc hfd)
  · obtain ⟨hkept, -⟩ := h.kept c kid hkid
    have hs := h.stream fd c kid hchan hkid
    rw [htaken c hchan] at hs
    have hwire : kid.wire ≠ [] := fun he => hne (by rw [he, List.take_nil])
    obtain ⟨call, calls, data, rest, hinflight, hsend, rfl, hwire, hrest⟩ :=
      hkept.data_first hs hsize hwire
    have hgot : kid.wire.take data.length = data := by rw [hwire, List.take_left]
    have hdrop : kid.wire.drop data.length = rest := by rw [hwire, List.drop_left]
    have hdispatch : ppcDispatch s cmd (store m.buf data) = some (goal s kid.be call) :=
      hsend.served _
    rw [hgot, hdrop, hdispatch] at hserved
    rcases hserved with ⟨hnone, -⟩ | ⟨entry, w₂, hentry, hfork, rfl⟩
    · cases hnone
    · cases hentry
      have hset := h.setKid hkid { kid with
        wire := rest } rfl (goal s kid.be call) (.scan rc (fd + 1)) (handled c ++ [call]) calls
        ⟨hkept.be, ?_, ?_, hkept.pending⟩ ?_ ?_ ?_ ?_ nofun
      · rcases forkRequested_cases hfork with rfl | ⟨be, hbe, hfork⟩
        · exact hset.ordered nofun
        · rcases serverForkChild_cases hfork with rfl | ⟨new, -, -, hnone, -, rfl⟩
          · exact hset.ordered nofun
          · exact (hset.fork hbe _ hnone trivial).ordered nofun
      · rw [hkept.said, hinflight, List.append_assoc]
        rfl
      · intro call' hcall'
        exact hkept.sends call' (hinflight ▸ List.mem_cons_of_mem _ hcall')
      · rw [List.filterMap_append]
        cases hg : goal s kid.be call <;> simp [hg]
      · intro fd' hfd'
        exact hrest
      · intro hno
        exact absurd hchan (hno fd)
      · intro c' hc'
        exact (hothers c' fun hfd => hc' (Option.some.inj (hfd.symm.trans hchan))).symm

theorem serverDispatch_ordered (h : Delivered s w tagged handled inflight) (hidle : w.phase.Idle)
    (hd : serverDispatch s.listener m w rc fd socks = some w') : Ordered s w' := by
  unfold serverDispatch at hd
  cases hlisten : s.listener fd with
  | none =>
    rw [hlisten] at hd
    exact readHeader_ordered h hidle hd
  | some be =>
    simp only [hlisten] at hd
    split at hd
    · obtain ⟨w₁, hfork, rfl⟩ := Option.map_eq_some_iff.mp hd
      obtain ⟨hfork, hphase⟩ := h.forkChild (listener_some hlisten).1 hidle hfork
      exact (hfork.go (.scan rc (fd + 1)) (hphase ▸ hidle) trivial).ordered nofun
    · cases hd
      exact (h.go (.serve rc fd) hidle trivial).ordered nofun

theorem turn_ordered (hw : Watched s w.fds w.chan w.kids.length)
    (h : Delivered s w tagged handled inflight) (ht : turn s s.listener m w socks = some w') :
    Ordered s w' := by
  unfold turn at ht
  cases hphase : w.phase with
  | top =>
    rw [hphase] at ht
    cases ht
  | crashed =>
    rw [hphase] at ht
    cases ht
  | serve rc fd =>
    rw [hphase] at ht
    cases ht
  | read rc fd cmd size =>
    rw [hphase] at ht
    exact readData_ordered hw h hphase ht
  | scan rc fd =>
    have hidle : w.phase.Idle := hphase ▸ trivial
    rw [hphase] at ht
    simp only at ht
    split at ht
    · cases ht
      exact (h.go .top hidle trivial).ordered nofun
    · split at ht
      · have hserved : Delivered s { w with
          phase := .scan rc fd, served := w.served ++ [fd] } tagged handled inflight :=
          (h.go (.scan rc fd) hidle trivial).round _ _
        exact serverDispatch_ordered hserved trivial ht
      · cases ht
        exact (h.go (.scan rc (fd + 1)) hidle trivial).ordered nofun

theorem select_ordered {ready : Finset ℤ} (h : Delivered s w tagged handled inflight)
    (hs : select w ready = some w') :
    Ordered s w' := by
  obtain ⟨hphase, -, -, rfl⟩ := select_cases hs
  exact ((h.go (.scan ready.card 0) (hphase ▸ trivial) trivial).round ready []).ordered nofun

theorem spawn_ordered {k : ℕ} (h : Delivered s w tagged handled inflight)
    (hs : spawn s w k socks = some w') :
    Ordered s w' := by
  obtain ⟨be, hbe, hphase, -, hs⟩ := spawn_cases hs
  obtain ⟨hfork, hsame⟩ := h.forkChild hbe (hphase ▸ trivial) hs
  exact hfork.ordered (by rw [hsame, hphase]; exact nofun)

/-- The parent makes its entries itself and does not crash. -/
theorem ownHook_done (level : BitVec 32) (str : Str) :
    ∃ entry, serverLogHook s none level str = .done entry := by
  unfold serverLogHook
  cases s.klog with
  | none => exact ⟨none, by simp⟩
  | some kl => exact ⟨some (kl, ⟨syslogToKlog level, cstr str⟩), by simp⟩

theorem ownAccess_done (be : Backend) (n : ℕ) (buf : Str) :
    ∃ entry, accessLog s true be n buf = .done entry := by
  unfold accessLog
  cases be.vhosts[n]?.bind Vhost.klog with
  | none => exact ⟨none, rfl⟩
  | some kl => exact ⟨some (kl, ⟨KLOG_INFO, cstr buf⟩), by simp⟩

theorem own_ordered {l : Logged} (h : Delivered s w tagged handled inflight)
    (halive : w.phase ≠ .crashed) (hl : ∃ entry, l = .done entry) (hs : own w l = some w') :
    Ordered s w' := by
  obtain ⟨entry, rfl⟩ := hl
  cases hs
  exact (h.append entry).ordered halive

theorem pageServed_ordered (h : Delivered s w tagged handled inflight)
    (hs : pageServed w = some w') : Ordered s w' := by
  obtain ⟨rc, fd, hphase, rfl⟩ := pageServed_cases hs
  exact (h.go (.scan rc (fd + 1)) (hphase ▸ trivial) trivial).ordered nofun

/-- A child changes without anything for the parent to do. -/
theorem Delivered.child (h : Delivered s w tagged handled inflight) {c : ℕ} {kid : Child}
    (hkid : w.kids[c]? = some kid) (kid' : Child) (hbe : kid'.be = kid.be) (is : List Call)
    (hkept : kid'.Kept s (handled c) is)
    (hstream : kid.Streams s (w.taken c) (inflight c) → kid'.Streams s (w.taken c) is)
    (hclosed : kid.gone = true ∧ inflight c = [] → kid'.gone = true ∧ is = []) :
    Delivered s (w.setKid c kid') tagged handled (Function.update inflight c is) := by
  have hset := h.setKid hkid kid' hbe none w.phase (handled c) is hkept (List.append_nil _).symm
    (fun fd hfd => hstream (h.stream fd c kid hfd hkid))
      (fun hno => hclosed (h.closed c kid hkid hno)) (fun _ _ => rfl) h.size
  rw [append_none, Option.toList_none, List.map_nil, List.append_nil,
    Function.update_eq_self] at hset
  exact hset

theorem begin_ordered {c : ℕ} {kid : Child} (call : Call)
    (h : Delivered s w tagged handled inflight) (halive : w.phase ≠ .crashed)
    (hkid : w.child c false = some kid) : Ordered s (begin s w c kid call) := by
  obtain ⟨hget, hgone, hpending⟩ := World.child_some hkid
  obtain ⟨hkept, -⟩ := h.kept c kid hget
  have hnone : kid.pending = none := Option.isNone_iff_eq_none.mp (by simpa using hpending)
  unfold begin
  cases hcall : childCall s kid.be call with
  | done entry => exact (h.append entry).ordered halive
  | message cmd data =>
    have hsend := childCall_sends hkept.be hcall
    have hhalf : Child.half s { kid with
      wire := kid.wire ++ header cmd data.length, pending := some (call, data) } =
        header cmd data.length := Sends.half_eq rfl hsend
    refine (h.child hget { kid with
      wire := kid.wire ++ header cmd data.length, pending := some (call, data) } rfl (inflight c)
      ⟨hkept.be, hkept.said, hkept.sends, ?_⟩ ?_ ?_).ordered halive
    · intro call' data' hp
      cases hp
      exact ⟨cmd, hsend⟩
    · intro hs
      unfold Child.Streams at hs ⊢
      rw [half_none hnone, List.append_nil] at hs
      rw [hhalf, ← List.append_assoc, hs]
    · rintro ⟨hg, -⟩
      rw [hgone] at hg
      cases hg
  | faults =>
    exact (h.child hget { kid with
      gone := true } rfl (inflight c) ⟨hkept.be, hkept.said, hkept.sends, hkept.pending⟩ id
      fun hc => ⟨rfl, hc.2⟩).ordered halive

theorem finish_ordered {c : ℕ} {kid : Child} (h : Delivered s w tagged handled inflight)
    (halive : w.phase ≠ .crashed) (hkid : w.child c true = some kid) :
    Ordered s (finish w c kid) := by
  obtain ⟨hget, hgone, hpending⟩ := World.child_some hkid
  obtain ⟨hkept, -⟩ := h.kept c kid hget
  obtain ⟨⟨call, data⟩, hp⟩ := Option.isSome_iff_exists.mp hpending
  obtain ⟨cmd, hsend⟩ := hkept.pending call data hp
  unfold finish
  simp only [hp]
  refine (h.child hget { kid with
    wire := kid.wire ++ data, pending := none, said := kid.said ++ [call] } rfl
    (inflight c ++ [call]) ⟨hkept.be, ?_, ?_, nofun⟩ ?_ ?_).ordered halive
  · rw [hkept.said, List.append_assoc]
  · intro call' hcall'
    rcases List.mem_append.mp hcall' with hmem | hmem
    · exact hkept.sends call' hmem
    · rw [List.mem_singleton.mp hmem]
      exact ⟨cmd, data, hsend⟩
  · intro hs
    unfold Child.Streams at hs ⊢
    rw [half_none rfl, ← List.append_assoc, hs, hsend.half_eq hp, List.flatMap_append,
      List.flatMap_singleton, hsend.frame_eq]
    simp only [List.append_assoc, List.append_nil]
  · rintro ⟨hg, -⟩
    rw [hgone] at hg
    cases hg

theorem exit_ordered {c : ℕ} {kid : Child} (h : Delivered s w tagged handled inflight)
    (halive : w.phase ≠ .crashed) (hget : w.kids[c]? = some kid) :
    Ordered s (w.setKid c { kid with gone := true }) := by
  obtain ⟨hkept, -⟩ := h.kept c kid hget
  exact (h.child hget { kid with
    gone := true } rfl (inflight c) ⟨hkept.be, hkept.said, hkept.sends, hkept.pending⟩ id
    fun hc => ⟨rfl, hc.2⟩).ordered halive

theorem childTurn_ordered {c : ℕ} (h : Delivered s w tagged handled inflight)
    (halive : w.phase ≠ .crashed) (hharmless : Harmless w)
    (hs : childTurn s m w c socks = some w') : Ordered s w' := by
  obtain ⟨kid, r, gone, hkid, -, rfl⟩ := childTurn_cases hharmless hs
  obtain ⟨hget, hgone, -⟩ := World.child_some hkid
  obtain ⟨hkept, -⟩ := h.kept c kid hget
  refine (h.child hget { kid with gone := gone, round := some r } rfl (inflight c)
    ⟨hkept.be, hkept.said, hkept.sends, hkept.pending⟩ id ?_).ordered halive
  rintro ⟨hg, -⟩
  rw [hgone] at hg
  cases hg

theorem step_ordered {e : Event} (hw : Watched s w.fds w.chan w.kids.length)
    (hharmless : Harmless w) (h : Ordered s w) (he : Unshared w e)
    (hs : step s m w e = some w') : Ordered s w' := by
  obtain ⟨halive, tagged, handled, inflight, hd⟩ := h
  cases e with
  | select ready => exact select_ordered hd hs
  | spawn k socks => exact spawn_ordered hd hs
  | turn socks => exact turn_ordered hw hd hs
  | served => exact pageServed_ordered hd hs
  | ownHook level str => exact own_ordered hd halive (ownHook_done level str) hs
  | ownAccess k n buf =>
    obtain ⟨be, -, hs⟩ := Option.bind_eq_some_iff.mp hs
    exact own_ordered hd halive (ownAccess_done be n buf) hs
  | begin c call =>
    obtain ⟨kid, hkid, rfl⟩ := Option.map_eq_some_iff.mp hs
    exact begin_ordered call hd halive hkid
  | finish c =>
    obtain ⟨kid, hkid, rfl⟩ := Option.map_eq_some_iff.mp hs
    exact finish_ordered hd halive hkid
  | alarm c => cases (alarm_impossible he).symm.trans hs
  | childTurn c socks => exact childTurn_ordered hd halive hharmless hs
  | exit c =>
    obtain ⟨kid, hkid, rfl⟩ := Option.map_eq_some_iff.mp hs
    exact exit_ordered hd halive hkid

theorem run_ordered {es : List Event} (hes : UnsharedRun s m (start s) es) :
    Sound s (run s m es) ∧ Harmless (run s m es) ∧ Ordered s (run s m es) := by
  refine run_induction (P := fun w => Sound s w ∧ Harmless w ∧ Ordered s w) s m ?_ ?_ hes
  · exact ⟨sound_start s, fun kid hkid => absurd hkid List.not_mem_nil,
      (delivered_start s).ordered nofun⟩
  · rintro w e w' ⟨hsound, hharmless, hordered⟩ he hs
    exact ⟨step_sound hsound hharmless hs, step_harmless hharmless he hs,
      step_ordered hsound.watched hharmless hordered he hs⟩

def sampleServer : Server where
  bes := [⟨0, 3, .fork, none, [], by decide⟩]
  klog := some ⟨0, false⟩
  maxLog := 4
  distinct := List.nodup_singleton _
  open_ld := by decide
  pos := by decide
  fits := by decide

/-- Two children, of which the second is the first to write the rest of its message. -/
def sampleRun : List Event :=
  [[.select {3}, .turn none, .turn none, .turn none, .turn (some 5), .turn none],
    [.select {3}, .turn none, .turn none, .turn none, .turn (some 6), .turn none],
    [.begin 0 (.hook 6 (bytes "one")), .begin 1 (.hook 3 (bytes "other")), .select {5, 6}],
    List.replicate 7 (.turn none), [.finish 1, .finish 0], List.replicate 5 (.turn none),
    [.childTurn 0 none, .select {5}], List.replicate 8 (.turn none)].flatten

/-- In such a run the parent is alive and watches the sockets that it listens on and the open
channels; in each of its rounds it serves the descriptors that select has reported in their
order and each of them once, whatever it forks and closes on the way. Those still to come
are watched, and at the head of the loop none is left. -/
theorem every_round_complete (s : Server) (m : Frame PPC_MAX_DATA_SIZE) (es : List Event)
    (hes : UnsharedRun s m (start s) es) :
    let w := run s m es
    w.phase ≠ .crashed ∧
      (∀ fd, fd ∈ w.fds.rdfds ↔ (∃ be ∈ s.bes, be.ld = fd ∧ be.model ≠ .prefork) ∨
        (w.chan fd).isSome = true) ∧
      w.served.Pairwise (· < ·) ∧ (∀ x ∈ w.served, x ∈ w.ready) ∧
      ∀ x ∈ w.ready, x ∉ w.served → w.phase ≠ .top ∧ x ∈ w.fds.rdfds := by
  obtain ⟨hsound, -, hordered⟩ := run_ordered hes
  exact ⟨hordered.alive, hsound.watched.rd, hsound.round_of hordered.alive⟩

theorem every_round_complete_two :
    let w := run sampleServer (Frame.zero _) sampleRun
    w.phase ≠ .crashed ∧
      (∀ fd, fd ∈ w.fds.rdfds ↔
        (∃ be ∈ sampleServer.bes, be.ld = fd ∧ be.model ≠ .prefork) ∨ (w.chan fd).isSome = true) ∧
      w.served.Pairwise (· < ·) ∧ (∀ x ∈ w.served, x ∈ w.ready) ∧
      ∀ x ∈ w.ready, x ∉ w.served → w.phase ≠ .top ∧ x ∈ w.fds.rdfds :=
  every_round_complete sampleServer (Frame.zero _) sampleRun (by decide +kernel)

end

end Klone.Daemon
