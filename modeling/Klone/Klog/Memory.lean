import Klone.Klog.File

/-! # Memory logs

A memory log has the last messages, the newest one first. When there are as many as the
bound allows, the oldest one makes room for the next one. The messages are counted apart
from the list that holds them.
-/
namespace Klone.Klog

/-- `klog_mem_msg_t`. There is no line when the memory for its copy was missing. -/
structure KlogMemMsg where
  level : ℤ
  timestamp : ℤ
  line : Option Str
  deriving DecidableEq, Repr

structure KlogMem where
  bound : ℕ
  nmsgs : ℕ
  msgs : List KlogMemMsg
  deriving DecidableEq, Repr

structure KlogT where
  threshold : ℤ
  ident : Str
  m : KlogMem
  deriving DecidableEq, Repr

def klogOpenMem (lnMax : UInt64) : KlogMem :=
  { bound := if lnMax ≠ 0 then lnMax.toNat else 1, nmsgs := 0, msgs := [] }

/-- What the memory for the message and for the copy of its line is there for. -/
structure Granted where
  msg : Bool
  line : Bool
  deriving DecidableEq, Repr

def klogMemMsgNew (s : Str) (level now : ℤ) (granted : Granted) : Option KlogMemMsg :=
  if granted.msg then
    some {
        level := level, timestamp := now, line := if granted.line then some (s.take KLOG_LN_SZ) else none }
  else none

def klogMemFull (klm : KlogMem) : Bool := decide (klm.bound ≤ klm.nmsgs)

def klogMemMsgPush (klm : KlogMem) (mmsg : KlogMemMsg) : KlogMem :=
  let klm := if klogMemFull klm ∧ klm.msgs ≠ [] then
      { klm with msgs := klm.msgs.dropLast, nmsgs := sizeDec klm.nmsgs }
    else klm
  { klm with msgs := mmsg :: klm.msgs, nmsgs := (klm.nmsgs + 1) % sizeMod }

/-- The text is what the format and its arguments give. -/
def klogMem (klm : KlogMem) (level : ℤ) (text : Str) (now : ℤ) (granted : Granted) :
    KlogMem × Bool :=
  match klogMemMsgNew (text.take KLOG_LN_SZ) level now granted with
  | none => (klm, false)
  | some mmsg => (klogMemMsgPush klm mmsg, true)

/-- A message below the threshold is not logged, which is no error. -/
def klog (kl : KlogT) (level : ℤ) (text : Str) (now : ℤ) (granted : Granted) : KlogT × Bool :=
  if level < KLOG_DEBUG ∨ KLOG_EMERG < level then (kl, true)
  else if level < kl.threshold then (kl, true)
  else
    let r := klogMem kl.m level text now granted
    ({ kl with m := r.1 }, r.2)

def klogMemMsgsFree (klm : KlogMem) : KlogMem :=
  { klm with msgs := [], nmsgs := sizeDec^[klm.msgs.length] klm.nmsgs }

def klogClearMem (kl : KlogT) : KlogT :=
  { kl with m := { klogMemMsgsFree kl.m with nmsgs := 0, msgs := [] } }

def countdown : ℕ → List KlogMemMsg → Option KlogMemMsg
  | _, [] => none
  | i, cur :: rest => if i = 1 then some cur else countdown (sizeDec i) rest

/-- What `klog_getln` does: it stores a line, it fails, or it reads from the end of the
list where there is no message. -/
inductive Getln
  | line (ln : Str)
  | fails
  | faults
  deriving DecidableEq, Repr

section
variable (ctime : ℤ → Str)

/-- A missing line is printed as `(null)`. -/
def KlogMemMsg.print (ident : Str) (cur : KlogMemMsg) : Str :=
  (bytes "[" ++ klogToStr cur.level ++ bytes "] " ++ (ctime cur.timestamp).take 24 ++ bytes " <" ++
    ident ++ bytes ">: " ++
    cur.line.getD (bytes "(null)")).take KLOG_LN_SZ

def klogGetlnMem (kl : KlogT) (nth : ℕ) : Getln :=
  if kl.m.nmsgs < nth then .fails
  else if nth = 0 then .fails
  else
    match countdown nth kl.m.msgs with
    | none => .faults
    | some cur => .line (cur.print ctime kl.ident)

end

/-! ## Histories -/

inductive MemOp
  | log (level : ℤ) (text : Str) (now : ℤ) (granted : Granted)
  | clear

def memStep (kl : KlogT) : MemOp → KlogT
  | .log level text now granted => (klog kl level text now granted).1
  | .clear => klogClearMem kl

def memRun (threshold : ℤ) (ident : Str) (lnMax : UInt64) (ops : List MemOp) : KlogT :=
  ops.foldl memStep ⟨threshold, ident, klogOpenMem lnMax⟩

/-- The message that is logged, if the log wants it and there is memory for it. -/
def logMessage (threshold level : ℤ) (text : Str) (now : ℤ) (granted : Granted) :
    Option KlogMemMsg :=
  if level < KLOG_DEBUG ∨ KLOG_EMERG < level ∨ level < threshold ∨ granted.msg = false then none
  else some ⟨level, now, if granted.line then some (text.take KLOG_LN_SZ) else none⟩

/-- The messages logged since the last clear, the newest one first, with one more step. -/
def sentStep (threshold : ℤ) (sent : List KlogMemMsg) : MemOp → List KlogMemMsg
  | .log level text now granted => (logMessage threshold level text now granted).toList ++ sent
  | .clear => []

def loggedSince (threshold : ℤ) (ops : List MemOp) : List KlogMemMsg :=
  ops.foldl (sentStep threshold) []

structure Recent (klm : KlogMem) (sent : List KlogMemMsg) : Prop where
  msgs : klm.msgs = sent.take klm.bound
  nmsgs : klm.nmsgs = klm.msgs.length
  pos : 0 < klm.bound
  lt : klm.bound < sizeMod

section
variable {klm : KlogMem} {kl : KlogT} {sent : List KlogMemMsg}

theorem Recent.nmsgs_eq (h : Recent klm sent) : klm.nmsgs = min klm.bound sent.length := by
  rw [h.nmsgs, h.msgs, List.length_take]

theorem klogOpenMem_bound (lnMax : UInt64) : (klogOpenMem lnMax).bound = max lnMax.toNat 1 := by
  unfold klogOpenMem
  by_cases hz : lnMax = 0
  · simp [hz]
  · have hpos : lnMax.toNat ≠ 0 := fun he => hz (UInt64.toNat_inj.mp he)
    simp only [ne_eq, hz, not_false_eq_true, if_true]
    omega

theorem klogOpenMem_recent (lnMax : UInt64) : Recent (klogOpenMem lnMax) [] := by
  have hlt : lnMax.toNat < sizeMod := lnMax.toNat_lt
  have hone := one_lt_sizeMod
  have hbound := klogOpenMem_bound lnMax
  exact ⟨List.take_nil.symm, rfl, by omega, by omega⟩

/-- A full log loses its oldest message to a new one. -/
theorem klogMemMsgPush_recent (h : Recent klm sent) (mmsg : KlogMemMsg) :
    Recent (klogMemMsgPush klm mmsg) (mmsg :: sent) ∧
    (klogMemMsgPush klm mmsg).bound = klm.bound := by
  obtain ⟨bound, nmsgs, msgs⟩ := klm
  obtain ⟨hmsgs, hn, hpos, hlt⟩ := h
  dsimp only at hmsgs hn hpos hlt
  obtain ⟨b, rfl⟩ : ∃ b, bound = b + 1 := ⟨bound - 1, by omega⟩
  unfold klogMemMsgPush klogMemFull
  dsimp only
  by_cases hfull : b + 1 ≤ nmsgs
  · have hlen : msgs.length = b + 1 := by
      have hle : msgs.length ≤ b + 1 := hmsgs ▸ List.length_take_le _ _
      omega
    have hne : msgs ≠ [] := List.ne_nil_of_length_pos (by omega)
    have hdrop : msgs.dropLast = sent.take b := by
      rw [List.dropLast_eq_take, hlen, hmsgs, List.take_take, Nat.add_sub_cancel,
        Nat.min_eq_left (Nat.le_succ b)]
    have hdec : sizeDec nmsgs = b := by
      rw [sizeDec_pos (by omega) (by omega)]
      omega
    rw [if_pos ⟨decide_eq_true hfull, hne⟩, hdec, hdrop]
    refine ⟨⟨rfl, ?_, hpos, hlt⟩, rfl⟩
    have hsent : b ≤ sent.length := by
      have hle := congrArg List.length hmsgs
      rw [List.length_take] at hle
      omega
    simp [List.length_take, hsent, Nat.mod_eq_of_lt hlt]
  · have hlen := congrArg List.length hmsgs
    rw [List.length_take] at hlen
    have hall : sent.length ≤ b := by omega
    rw [if_neg (fun hf => hfull (of_decide_eq_true hf.1))]
    refine ⟨⟨?_, ?_, hpos, hlt⟩, rfl⟩
    · change mmsg :: msgs = (mmsg :: sent).take (b + 1)
      rw [hmsgs, List.take_succ_cons, List.take_of_length_le hall,
        List.take_of_length_le (by omega)]
    · change (nmsgs + 1) % sizeMod = msgs.length + 1
      rw [hn, Nat.mod_eq_of_lt (by omega)]

theorem klogClearMem_recent (h : Recent kl.m sent) : Recent (klogClearMem kl).m [] :=
  ⟨List.take_nil.symm, rfl, h.pos, h.lt⟩

theorem klog_message (kl : KlogT) (level : ℤ) (text : Str) (now : ℤ) (granted : Granted) :
    (klog kl level text now granted).1 =
      { kl with
          m := (logMessage kl.threshold level text now granted).elim kl.m (klogMemMsgPush kl.m) } := by
  unfold klog logMessage
  by_cases hlevel : level < KLOG_DEBUG ∨ KLOG_EMERG < level
  · have hskip : level < KLOG_DEBUG ∨ KLOG_EMERG < level ∨ level < kl.threshold ∨
      granted.msg = false :=
      hlevel.imp_right Or.inl
    rw [if_pos hlevel, if_pos hskip]
    rfl
  rw [if_neg hlevel]
  obtain ⟨hdebug, hemerg⟩ := not_or.mp hlevel
  by_cases hthreshold : level < kl.threshold
  · rw [if_pos hthreshold, if_pos (Or.inr (Or.inr (Or.inl hthreshold)))]
    rfl
  obtain ⟨msg, line⟩ := granted
  cases msg with
  | false => simp [hthreshold, klogMem, klogMemMsgNew]
  | true => simp [hthreshold, klogMem, klogMemMsgNew, hdebug, hemerg, List.take_take]

/-- What one step of a history keeps. -/
theorem memStep_recent (h : Recent kl.m sent) (op : MemOp) :
    Recent (memStep kl op).m (sentStep kl.threshold sent op) ∧
    (memStep kl op).m.bound = kl.m.bound ∧
      (memStep kl op).threshold = kl.threshold ∧ (memStep kl op).ident = kl.ident := by
  cases op with
  | clear => exact ⟨klogClearMem_recent h, rfl, rfl, rfl⟩
  | log level text now granted =>
    rw [memStep, sentStep, klog_message]
    cases logMessage kl.threshold level text now granted with
    | none => exact ⟨h, rfl, rfl, rfl⟩
    | some mmsg => exact ⟨(klogMemMsgPush_recent h mmsg).1,
      (klogMemMsgPush_recent h mmsg).2, rfl, rfl⟩

theorem memRun_recent (threshold : ℤ) (ident : Str) (lnMax : UInt64) (ops : List MemOp) :
    Recent (memRun threshold ident lnMax ops).m (loggedSince threshold ops) ∧
      (memRun threshold ident lnMax ops).m.bound = max lnMax.toNat 1 ∧
        (memRun threshold ident lnMax ops).threshold = threshold ∧
        (memRun threshold ident lnMax ops).ident = ident := by
  induction ops using List.reverseRecOn with
  | nil => exact ⟨klogOpenMem_recent lnMax, klogOpenMem_bound lnMax, rfl, rfl⟩
  | append_singleton ops op ih =>
    obtain ⟨hrecent, hbound, hthreshold, hident⟩ := ih
    obtain ⟨hrecent', hbound', hthreshold', hident'⟩ := memStep_recent hrecent op
    rw [hthreshold] at hrecent' hthreshold'
    have hrun : memRun threshold ident lnMax (ops ++ [op]) =
        memStep (memRun threshold ident lnMax ops) op := by
      simp [memRun]
    have hsent : loggedSince threshold (ops ++ [op]) =
        sentStep threshold (loggedSince threshold ops) op := by
      simp [loggedSince]
    rw [hrun, hsent]
    exact ⟨hrecent', hbound'.trans hbound, hthreshold', hident'.trans hident⟩

/-! ## Reading -/

theorem countdown_eq {msgs : List KlogMemMsg} {nth : ℕ} (h : 1 ≤ nth) (hlt : nth < sizeMod) :
    countdown nth msgs = msgs[nth - 1]? := by
  induction msgs generalizing nth with
  | nil => rfl
  | cons cur rest ih =>
    rw [countdown]
    by_cases hone : nth = 1
    · rw [if_pos hone, hone]
      rfl
    · obtain ⟨k, rfl⟩ : ∃ k, nth = k + 2 := ⟨nth - 2, by omega⟩
      rw [if_neg hone, sizeDec_pos (by omega) hlt, ih (by omega) (by omega)]
      rfl

/-- The lines that can be read are the last messages, and no read goes past the list. -/
theorem klogGetlnMem_eq (ctime : ℤ → Str) (h : Recent kl.m sent) (nth : ℕ) :
    klogGetlnMem ctime kl nth =
      if 1 ≤ nth ∧ nth ≤ min kl.m.bound sent.length then
        (sent[nth - 1]?).elim .faults fun msg => .line (msg.print ctime kl.ident)
      else .fails := by
  have hn := h.nmsgs_eq
  have hlt := h.lt
  unfold klogGetlnMem
  by_cases hin : 1 ≤ nth ∧ nth ≤ min kl.m.bound sent.length
  · have hget : kl.m.msgs[nth - 1]? = sent[nth - 1]? := by
      rw [h.msgs]
      exact List.getElem?_take_of_lt (by omega)
    rw [if_pos hin, if_neg (by omega), if_neg (by omega), countdown_eq hin.1 (by omega), hget]
    cases sent[nth - 1]? <;> rfl
  · rw [if_neg hin]
    by_cases hbeyond : kl.m.nmsgs < nth
    · rw [if_pos hbeyond]
    · rw [if_neg hbeyond, if_pos (by omega)]

end

/-- After any history the log has the last messages since it was cleared, the newest one
first, as many as its bound allows. Its counter is their number, the lines that can be read
are theirs, and reading any other one fails. -/
theorem memory_log_ring (ctime : ℤ → Str) (threshold : ℤ) (ident : Str) (lnMax : UInt64)
    (ops : List MemOp) :
    let kl := memRun threshold ident lnMax ops
    let sent := loggedSince threshold ops
    let bound := max lnMax.toNat 1
    kl.m.msgs = sent.take bound ∧ kl.m.msgs.length = min bound sent.length ∧
    kl.m.nmsgs = kl.m.msgs.length ∧
      kl.m.nmsgs ≤ bound ∧
      (∀ n, 1 ≤ n → n ≤ kl.m.nmsgs → ∃ msg, sent[n - 1]? = some msg ∧
        klogGetlnMem ctime kl n = .line (msg.print ctime ident)) ∧
        ∀ n, n = 0 ∨ kl.m.nmsgs < n → klogGetlnMem ctime kl n = .fails := by
  obtain ⟨hrecent, hbound, -, hident⟩ := memRun_recent threshold ident lnMax ops
  have hn := hrecent.nmsgs_eq
  have hmsgs := hrecent.msgs
  rw [hbound] at hn hmsgs
  refine ⟨hmsgs, ?_, hrecent.nmsgs, ?_, ?_, ?_⟩
  · rw [← hn, hrecent.nmsgs]
  · omega
  · intro n hpos hle
    have hlt : n - 1 < (loggedSince threshold ops).length := by omega
    refine ⟨_, List.getElem?_eq_getElem hlt, ?_⟩
    rw [klogGetlnMem_eq ctime hrecent n, if_pos (by omega), List.getElem?_eq_getElem hlt, hident]
    rfl
  · intro n hout
    rw [klogGetlnMem_eq ctime hrecent n, if_neg (by omega)]

end Klone.Klog
