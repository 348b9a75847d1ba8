import Klone.Klog.File
import Klone.Kloned.Children
import Klone.Lib.Keyed
import Klone.Ppc.Channel
import Klone.Session.Messages

/-! # Log messages for the parent

A process writes to a log itself if it is the parent or if the log is the one of syslog. Any
other log is written by the parent: the child sends a record with its backend, a number and
the text, cut to the size of its field.
-/
namespace Klone.Daemon
open Klone.Klog Klone.Ppc

def PPC_CMD_FORK_CHILD : Byte := 2
def PPC_CMD_LOG_ADD : Byte := 9
def PPC_CMD_ACCESS_LOG : Byte := 11

def KLOG_INFO : ℤ := 1
def KLOG_ALERT : ℤ := 6

/-- A `klog_t`: which one it is, and whether its type is `KLOG_TYPE_SYSLOG`. -/
structure Device where
  id : ℕ
  syslog : Bool
  deriving DecidableEq

/-- What `klog` is called with. -/
structure Entry where
  level : ℤ
  text : Str
  deriving DecidableEq

structure Vhost where
  klog : Option Device

/-- `backend_t`, with the virtual hosts of its `http_t`, which are numbered by `int`s. -/
structure Backend where
  id : BitVec 32
  ld : ℤ
  model : Kloned.Model
  klog : Option Device
  vhosts : List Vhost
  few : vhosts.length < 2 ^ 31

/-- `server_t`, with `U_MAX_LOG_LENGTH`. -/
structure Server where
  bes : List Backend
  klog : Option Device
  maxLog : ℕ
  distinct : Keyed.Unique Backend.id bes
  open_ld : ∀ be ∈ bes, 0 ≤ be.ld
  pos : 0 < maxLog
  fits : 8 + maxLog ≤ PPC_MAX_DATA_SIZE

/-- What comes of a call: at most one entry in a log, a message, or a crash. -/
inductive Logged
  | done (entry : Option (Device × Entry))
  | message (cmd : Byte) (data : List Byte)
  | faults

def syslogToKlog (level : BitVec 32) : ℤ :=
  if level.toInt < 0 ∨ 7 < level.toInt then KLOG_ALERT
  else [7, 6, 5, 4, 3, 2, 1, 0].getD level.toInt.toNat 0

/-- `ppc_log_add_t` and `ppc_access_log_t`, which have the same fields. -/
def logRecord (maxLog : ℕ) (bid n : BitVec 32) (str : Str) : List Byte :=
  leBytes 4 bid.toNat ++ (leBytes 4 n.toNat ++
    store (List.replicate maxLog 0) ((strlcpy (cstr str) maxLog).2 ++ [0]))

def recordBid (data : List Byte) : BitVec 32 := BitVec.ofNat 32 (leNat (data.take 4))

def recordNum (data : List Byte) : BitVec 32 := BitVec.ofNat 32 (leNat ((data.drop 4).take 4))

def recordLog (data : List Byte) : Str := cstr (data.drop 8)

/-! ## Calls -/

section
variable (s : Server)

/-- The hook in the process of a backend; the parent has none. -/
def serverLogHook (be : Option Backend) (level : BitVec 32) (str : Str) : Logged :=
  if s.klog = none ∧ be.bind Backend.klog = none then .done none
  else
    match s.klog, be with
    | none, _ => .faults
    | some kl, none => .done (some (kl, ⟨syslogToKlog level, cstr str⟩))
    | some kl, some be =>
      if kl.syslog then .done (some (kl, ⟨syslogToKlog level, cstr str⟩))
      else .message PPC_CMD_LOG_ADD (logRecord s.maxLog be.id level str)

/-- The end of `access_log` for the virtual host with this number, in the parent or not. -/
def accessLog (parent : Bool) (be : Backend) (n : ℕ) (buf : Str) : Logged :=
  match be.vhosts[n]?.bind Vhost.klog with
  | none => .done none
  | some kl =>
    if kl.syslog ∨ parent then .done (some (kl, ⟨KLOG_INFO, cstr buf⟩))
    else .message PPC_CMD_ACCESS_LOG (logRecord s.maxLog be.id (BitVec.ofNat 32 n) buf)

/-! ## Callbacks of the parent

A callback makes at most one entry; it may also crash.
-/

def serverGetBackendById (id : BitVec 32) : Option Backend := Keyed.lookup Backend.id id s.bes

def vhostListGetN (vs : List Vhost) (n : BitVec 32) : Option Vhost :=
  if n.toInt < 0 then none else vs[n.toInt.toNat]?

def serverPpcCbLogAdd (data : List Byte) : Option (Option (Device × Entry)) :=
  let kl := ((serverGetBackendById s (recordBid data)).bind Backend.klog).or s.klog
  some (kl.map fun kl => (kl, ⟨syslogToKlog (recordNum data), recordLog data⟩))

/-- The `http_t` of a backend that is not found has no value. -/
def serverPpcCbAccessLog (data : List Byte) : Option (Option (Device × Entry)) :=
  (serverGetBackendById s (recordBid data)).map fun be =>
    ((vhostListGetN be.vhosts (recordNum data)).bind Vhost.klog).map fun kl =>
      (kl, ⟨KLOG_INFO, recordLog data⟩)

/-- Only two of the commands log. -/
def ppcDispatch (cmd : Byte) (data : List Byte) : Option (Option (Device × Entry)) :=
  if cmd = PPC_CMD_LOG_ADD then serverPpcCbLogAdd s data
  else if cmd = PPC_CMD_ACCESS_LOG then serverPpcCbAccessLog s data
  else some none

end

/-! ## From the call to the log -/

/-- A message with another command. -/
structure Request where
  cmd : Byte
  data : List Byte
  noLog : cmd ≠ PPC_CMD_LOG_ADD ∧ cmd ≠ PPC_CMD_ACCESS_LOG
  nonempty : data ≠ []
  fits : data.length ≤ PPC_MAX_DATA_SIZE

inductive Call
  | hook (level : BitVec 32) (str : Str)
  | access (n : ℕ) (buf : Str)
  | other (r : Request)

def childCall (s : Server) (be : Backend) : Call → Logged
  | .hook level str => serverLogHook s (some be) level str
  | .access n buf => accessLog s false be n buf
  | .other r => .message r.cmd r.data

/-- The entry that a call of a child is for, with the text that is left of it. -/
def goal (s : Server) (be : Backend) : Call → Option (Device × Entry)
  | .hook level str => s.klog.map fun kl =>
      if kl.syslog then (kl, ⟨syslogToKlog level, cstr str⟩)
      else (be.klog.getD kl, ⟨syslogToKlog level, (cstr str).take (s.maxLog - 1)⟩)
  | .access n buf => (be.vhosts[n]?.bind Vhost.klog).map fun kl =>
      (kl, ⟨KLOG_INFO, if kl.syslog then cstr buf else (cstr buf).take (s.maxLog - 1)⟩)
  | .other _ => none

section
variable {s : Server} {be : Backend} {maxLog : ℕ} {bid n : BitVec 32} {str : Str} {rest : List Byte}

theorem logRecord_length (h : 0 < maxLog) : (logRecord maxLog bid n str).length = 8 + maxLog := by
  have hcopy := Session.strlcpy_length_le (cstr str) maxLog
  simp only [logRecord, List.length_append, leBytes_length, store_length, List.length_replicate,
    List.length_singleton]
  omega

theorem recordBid_logRecord : recordBid (logRecord maxLog bid n str ++ rest) = bid := by
  rw [recordBid, logRecord, List.append_assoc, List.take_left' (leBytes_length 4 _),
    leNat_leBytes bid.isLt]
  exact BitVec.ofNat_toNat 32 bid

theorem logRecord_drop : (logRecord maxLog bid n str ++ rest).drop 4 =
    leBytes 4 n.toNat ++ (store (List.replicate maxLog 0)
      ((strlcpy (cstr str) maxLog).2 ++ [0]) ++ rest) := by
  rw [logRecord, List.append_assoc, List.drop_left' (leBytes_length 4 _), List.append_assoc]

theorem recordNum_logRecord : recordNum (logRecord maxLog bid n str ++ rest) = n := by
  rw [recordNum, logRecord_drop, List.take_left' (leBytes_length 4 _), leNat_leBytes n.isLt]
  exact BitVec.ofNat_toNat 32 n

/-- The text ends at the NUL of its field, whatever the buffer has behind it. -/
theorem recordLog_logRecord :
    recordLog (logRecord maxLog bid n str ++ rest) = (cstr str).take (maxLog - 1) := by
  have hnul : (0 : Byte) ∉ (cstr str).take (maxLog - 1) := fun h => by
    simpa using List.mem_takeWhile_imp (List.mem_of_mem_take h)
  have hdrop : (logRecord maxLog bid n str ++ rest).drop 8 =
      store (List.replicate maxLog 0) ((strlcpy (cstr str) maxLog).2 ++ [0]) ++ rest := by
    rw [← List.drop_drop (i := 4) (j := 4), logRecord_drop, List.drop_left' (leBytes_length 4 _)]
  rw [recordLog, hdrop, store, strlcpy, List.append_assoc, List.append_assoc]
  exact Session.cstr_append_nul hnul _

theorem serverGetBackendById_mem (h : be ∈ s.bes) :
    serverGetBackendById s be.id = some be := s.distinct.lookup_of_mem h

theorem vhostListGetN_ofNat {vs : List Vhost} {n : ℕ} (hn : n < 2 ^ 31) :
    vhostListGetN vs (BitVec.ofNat 32 n) = vs[n]? := by
  have hint : (BitVec.ofNat 32 n).toInt = n := by
    rw [BitVec.toInt_ofNat', Int.bmod_eq_of_le] <;> omega
  rw [vhostListGetN, hint, if_neg (Int.not_lt.mpr (Int.natCast_nonneg n)), Int.toNat_natCast]

theorem serverLogHook_some {kl : Device} (h : s.klog = some kl) (level : BitVec 32) :
    serverLogHook s (some be) level str =
    if kl.syslog then .done (some (kl, ⟨syslogToKlog level, cstr str⟩))
    else .message PPC_CMD_LOG_ADD (logRecord s.maxLog be.id level str) := by
  simp [serverLogHook, h]

/-- Without a log of the server a backend with a log of its own crashes. -/
theorem serverLogHook_none (h : s.klog = none) (level : BitVec 32) :
    serverLogHook s (some be) level str = if be.klog = none then .done none else .faults := by
  simp [serverLogHook, h]

/-- What a call of a child does: it makes its entry, or its message has the parent make it,
or there is none to make. -/
structure Sends (s : Server) (be : Backend) (c : Call) (cmd : Byte) (data : List Byte) : Prop where
  call : childCall s be c = .message cmd data
  nonempty : data ≠ []
  fits : data.length ≤ PPC_MAX_DATA_SIZE
  served : ∀ rest, ppcDispatch s cmd (data ++ rest) = some (goal s be c)

theorem Sends.of_record {c : Call} (cmd : Byte) (n : BitVec 32) (str : Str)
    (hcall : childCall s be c = .message cmd (logRecord s.maxLog be.id n str))
    (hserved : ∀ rest, ppcDispatch s cmd (logRecord s.maxLog be.id n str ++ rest) =
      some (goal s be c)) :
    Sends s be c cmd (logRecord s.maxLog be.id n str) := by
  have hlen : (logRecord s.maxLog be.id n str).length = 8 + s.maxLog := logRecord_length s.pos
  refine ⟨hcall, ?_, ?_, hserved⟩
  · intro h
    rw [h, List.length_nil] at hlen
    omega
  · rw [hlen]
    exact s.fits

theorem childCall_sends (hbe : be ∈ s.bes) {c : Call} {cmd : Byte} {data : List Byte}
    (h : childCall s be c = .message cmd data) : Sends s be c cmd data := by
  cases c with
  | hook level str =>
    rw [childCall] at h
    cases hkl : s.klog with
    | none =>
      rw [serverLogHook_none hkl] at h
      split at h <;> cases h
    | some kl =>
      rw [serverLogHook_some hkl] at h
      by_cases hsys : kl.syslog = true
      · rw [if_pos hsys] at h
        cases h
      · rw [if_neg hsys, Logged.message.injEq] at h
        obtain ⟨rfl, rfl⟩ := h
        refine .of_record _ level str ?_ fun rest => ?_
        · rw [childCall, serverLogHook_some hkl, if_neg hsys]
        · simp only [ppcDispatch, if_true, serverPpcCbLogAdd, recordBid_logRecord,
            recordNum_logRecord, recordLog_logRecord,
            serverGetBackendById_mem hbe, Option.bind_some, hkl, goal, Option.map_some, if_neg hsys]
          cases be.klog <;> rfl
  | access n buf =>
    rw [childCall, accessLog] at h
    cases hv : be.vhosts[n]?.bind Vhost.klog with
    | none =>
      rw [hv] at h
      cases h
    | some kl =>
      simp only [hv, Bool.false_eq_true, or_false] at h
      by_cases hsys : kl.syslog = true
      · rw [if_pos hsys] at h
        cases h
      · rw [if_neg hsys, Logged.message.injEq] at h
        obtain ⟨rfl, rfl⟩ := h
        have hn : n < 2 ^ 31 := by
          obtain ⟨v, hget, -⟩ := Option.bind_eq_some_iff.mp hv
          obtain ⟨hlt, -⟩ := List.getElem?_eq_some_iff.mp hget
          exact hlt.trans be.few
        refine .of_record _ (BitVec.ofNat 32 n) buf ?_ fun rest => ?_
        · simp [childCall, accessLog, hv, hsys]
        · simp only [ppcDispatch, (by decide : PPC_CMD_ACCESS_LOG ≠ PPC_CMD_LOG_ADD), if_false,
            if_true, serverPpcCbAccessLog,
            recordBid_logRecord, recordNum_logRecord, recordLog_logRecord,
              serverGetBackendById_mem hbe, Option.map_some,
            vhostListGetN_ofNat hn, hv, goal, if_neg hsys]
  | other r =>
    rw [childCall, Logged.message.injEq] at h
    obtain ⟨rfl, rfl⟩ := h
    refine ⟨rfl, r.nonempty, r.fits, fun rest => ?_⟩
    rw [ppcDispatch, if_neg r.noLog.1, if_neg r.noLog.2]
    rfl

end

end Klone.Daemon
