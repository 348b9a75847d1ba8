import Klone.Klog.Memory
import Klone.Lib.Keyed
import Klone.Session.Messages

/-! # Memory logs of the parent

The children of the prefork model ask the parent for the lines of a memory log. A line
goes through the record of the message, and the child copies it to its caller with the
size of a pointer.
-/
namespace Klone.Klog
open Klone.Ppc
open Klone.Session (Msg send receive receive_send)

def PPC_CMD_LOG_GET : Byte := 10

inductive Model
  | fork
  | iterative
  | prefork
  deriving DecidableEq, Repr

structure Backend where
  id : UInt32
  model : Model
  klog : Option KlogT

structure Server where
  bes : List Backend
  klog : Option KlogT
  distinct : Keyed.Unique Backend.id bes

def serverGetBackendById (s : Server) (id : UInt32) : Option Backend :=
  Keyed.lookup Backend.id id s.bes

def serverGetLogger (s : Server) (be : Backend) : Option KlogT := be.klog.or s.klog

def storeAt (mem : List Byte) (off : ℕ) (new : List Byte) : List Byte :=
  mem.take off ++ store (mem.drop off) new

/-- `ppc_log_get_t`: the backend, four bytes of padding, the index and the line. -/
def plg (bid : UInt32) (i : ℕ) (line : List Byte) : List Byte :=
  leBytes 4 bid.toNat ++ (List.replicate 4 0 ++ (leBytes 8 i ++ line))

/-- `sizeof(ppc_log_get_t)`; its field `line` is at offset 16. -/
def sizeofPlg : ℕ := 16 + KLOG_LN_SZ

/-- The size of the pointer with which the child copies the line. -/
def sizeofLine : ℕ := 8

/-- What a call has done: the bytes that it stored for its caller, and those that were
stored in the field of the message. -/
structure Fetched where
  ok : Bool
  line : List Byte
  field : List Byte
  deriving DecidableEq, Repr

section
variable (ctime : ℤ → Str)

def klogGetln (kl : KlogT) (i : ℕ) : Option Fetched :=
  match klogGetlnMem ctime kl i with
  | .line ln => some ⟨true, ln ++ [0], []⟩
  | .fails => some ⟨false, [], []⟩
  | .faults => none

/-- The reply, and what has been stored in the field of the record. -/
def serverPpcCbLogGet (s : Server) (data : List Byte) : Option (Msg × List Byte) :=
  let bid := UInt32.ofNat (leNat (data.take 4))
  let i := leNat ((data.drop 8).take 8)
  let failed := storeAt data 8 (leBytes 8 (sizeMod - 1))
  match ((serverGetBackendById s bid).bind Backend.klog).or s.klog with
  | none => some ((PPC_CMD_LOG_GET, failed.take sizeofPlg), [])
  | some kl =>
    (klogGetln ctime kl i).map fun r =>
      if r.ok then ((PPC_CMD_LOG_GET, (storeAt data 16 r.line).take sizeofPlg), r.line)
      else ((PPC_CMD_LOG_GET, failed.take sizeofPlg), [])

def serverProcessLogGet (s : Server) (m : Frame PPC_MAX_DATA_SIZE) (wire : List Byte) :
    Option (Option (Msg × List Byte)) :=
  let r := receive m wire
  if 0 < r.ret ∧ r.cmd = PPC_CMD_LOG_GET then (serverPpcCbLogGet ctime s r.buf).map some
  else some none

/-- A child asks the parent. What it has on its stack is in `m'`. -/
def serverPpcCmdLogGet (s : Server) (be : Backend) (i : ℕ) (m : Frame PPC_MAX_DATA_SIZE)
    (m' : Frame sizeofPlg) : Option Fetched :=
  (serverProcessLogGet ctime s m
    (send (PPC_CMD_LOG_GET, plg be.id i (List.replicate KLOG_LN_SZ 0))).2).map fun
    | none => ⟨false, [], []⟩
    | some (reply, field) =>
      let r := receive m' (send reply).2
      if r.ret < 0 then ⟨false, [], field⟩
      else if r.cmd ≠ PPC_CMD_LOG_GET then ⟨false, [], field⟩
      else if 2 ^ 63 ≤ leNat ((r.buf.drop 8).take 8) then ⟨false, [], field⟩
      else ⟨true, (strlcpy (cstr (r.buf.drop 16)) sizeofLine).2 ++ [0], field⟩

def serverGetKlogLine (s : Server) (be : Backend) (kl : KlogT) (i : ℕ) (m : Frame PPC_MAX_DATA_SIZE)
    (m' : Frame sizeofPlg) : Option Fetched :=
  if be.model ≠ .prefork then klogGetln ctime kl i else serverPpcCmdLogGet ctime s be i m m'

/-- Both ways end in the same way with the same line, and keep to the buffers. -/
def LinesAgree (s : Server) (be : Backend) (kl : KlogT) (i : ℕ) (m : Frame PPC_MAX_DATA_SIZE)
    (m' : Frame sizeofPlg) :
    Prop :=
  ∃ direct fetched, klogGetln ctime kl i = some direct ∧
    serverGetKlogLine ctime s be kl i m m' = some fetched ∧
    fetched.ok = direct.ok ∧ (direct.ok → fetched.line = direct.line) ∧
    direct.line.length ≤ KLOG_LN_SZ ∧
      fetched.line.length ≤ KLOG_LN_SZ ∧ fetched.field.length ≤ KLOG_LN_SZ

end

/-! ## The record in memory -/

section
variable {bid : UInt32} {i j : ℕ} {line rest new : List Byte}

theorem plg_length : (plg bid i line).length = 16 + line.length := by
  simp only [plg, List.length_append, leBytes_length, List.length_replicate]
  omega

theorem plg_append : plg bid i line ++ rest = plg bid i (line ++ rest) := by simp [plg]

theorem plg_bid : UInt32.ofNat (leNat ((plg bid i line).take 4)) = bid := by
  have htake : (plg bid i line).take 4 = leBytes 4 bid.toNat :=
    List.take_left' (leBytes_length 4 bid.toNat)
  have hlt : bid.toNat < 256 ^ 4 := bid.toNat_lt
  rw [htake, leNat_leBytes hlt, UInt32.ofNat_toNat]

theorem plg_drop : (plg bid i line).drop 8 = leBytes 8 i ++ line := by
  unfold plg
  rw [← List.append_assoc]
  exact List.drop_left' (by simp)

theorem plg_index (h : i < sizeMod) : leNat (((plg bid i line).drop 8).take 8) = i := by
  rw [plg_drop, List.take_left' (leBytes_length 8 i), leNat_leBytes h]

theorem plg_line : (plg bid i line).drop 16 = line := by
  have hdrop : (plg bid i line).drop 16 = ((plg bid i line).drop 8).drop 8 := by rw [List.drop_drop]
  rw [hdrop, plg_drop]
  exact List.drop_left' (leBytes_length 8 i)

theorem storeAt_index : storeAt (plg bid i line) 8 (leBytes 8 j) = plg bid j line := by
  have htake : (plg bid i line).take 8 = leBytes 4 bid.toNat ++ List.replicate 4 0 := by
    unfold plg
    rw [← List.append_assoc]
    exact List.take_left' (by simp)
  have hstore : store (leBytes 8 i ++ line) (leBytes 8 j) = leBytes 8 j ++ line := by
    rw [store, leBytes_length, List.drop_left' (leBytes_length 8 i)]
  rw [storeAt, htake, plg_drop, hstore, plg, List.append_assoc]

theorem storeAt_line : storeAt (plg bid i line) 16 new = plg bid i (store line new) := by
  have htake : (plg bid i line).take 16 =
      leBytes 4 bid.toNat ++ (List.replicate 4 0 ++ leBytes 8 i) := by
    have hplg : plg bid i line = leBytes 4 bid.toNat ++ (List.replicate 4 0 ++ leBytes 8 i) ++
      line := by simp [plg]
    rw [hplg]
    exact List.take_left' (by simp)
  rw [storeAt, htake, plg_line, plg]
  simp

theorem plg_take : (plg bid i line).take sizeofPlg = plg bid i (line.take KLOG_LN_SZ) := by
  have hplg : plg bid i line = leBytes 4 bid.toNat ++ (List.replicate 4 0 ++ leBytes 8 i) ++
    line := by simp [plg]
  have hlen : (leBytes 4 bid.toNat ++ (List.replicate 4 0 ++ leBytes 8 i)).length = 16 := by simp
  have htake : (plg bid i line).take sizeofPlg =
      leBytes 4 bid.toNat ++ (List.replicate 4 0 ++ leBytes 8 i) ++ line.take KLOG_LN_SZ := by
    rw [hplg, sizeofPlg, ← hlen]
    exact List.take_length_add_append KLOG_LN_SZ
  rw [htake]
  simp [plg]

end

/-! ## The way through the parent -/

section
variable {ctime : ℤ → Str} {s : Server} {be : Backend} {kl : KlogT} {i j : ℕ} {line : List Byte}

theorem serverGetBackendById_mem (h : be ∈ s.bes) : serverGetBackendById s be.id = some be :=
  s.distinct.lookup_of_mem h

/-- What the child makes of a reply. -/
theorem receive_reply (m' : Frame sizeofPlg) (bid : UInt32) (hline : line.length = KLOG_LN_SZ) :
    receive m' (send (PPC_CMD_LOG_GET, plg bid i line)).2 =
    ⟨sizeofPlg, PPC_CMD_LOG_GET, plg bid i line, []⟩ := by
  have hlen : (plg bid i line).length = sizeofPlg := by rw [plg_length, hline, sizeofPlg]
  have hne : plg bid i line ≠ [] := List.ne_nil_of_length_pos (by rw [hlen]; decide)
  rw [receive_send m' hne (Nat.le_of_eq hlen) (by rw [hlen]; decide)]
  dsimp only
  rw [hlen, store_full (by rw [m'.buf_length, hlen])]

variable (ctime) in
/-- The reply of the parent to a request. -/
theorem serverProcessLogGet_eq (hbe : be ∈ s.bes) (hkl : serverGetLogger s be = some kl)
    (m : Frame PPC_MAX_DATA_SIZE) (hi : i < sizeMod) :
    ∃ rest, KLOG_LN_SZ ≤ rest.length ∧
      serverProcessLogGet ctime s m
        (send (PPC_CMD_LOG_GET, plg be.id i (List.replicate KLOG_LN_SZ 0))).2 =
        (klogGetln ctime kl i).map fun r =>
          if r.ok then some ((PPC_CMD_LOG_GET, plg be.id i ((store rest r.line).take KLOG_LN_SZ)),
            r.line)
          else some ((PPC_CMD_LOG_GET, plg be.id (sizeMod - 1) (rest.take KLOG_LN_SZ)), []) := by
  have hlen : (plg be.id i (List.replicate KLOG_LN_SZ 0)).length = sizeofPlg := by
    rw [plg_length, List.length_replicate, sizeofPlg]
  have hne : plg be.id i (List.replicate KLOG_LN_SZ 0) ≠ [] :=
    List.ne_nil_of_length_pos (by rw [hlen]; decide)
  have hmax : (plg be.id i (List.replicate KLOG_LN_SZ 0)).length ≤ PPC_MAX_DATA_SIZE := by
    rw [hlen]
    decide
  have hrecv := receive_send m
    (show (PPC_CMD_LOG_GET, plg be.id i (List.replicate KLOG_LN_SZ 0)).2 ≠ [] from hne) hmax hmax
  refine ⟨List.replicate KLOG_LN_SZ 0 ++ m.buf.drop sizeofPlg, by simp, ?_⟩
  have hlogger : ((some be).bind Backend.klog).or s.klog = some kl := hkl
  have hpos : (0 : ℤ) < sizeofPlg := by decide
  unfold serverProcessLogGet
  rw [hrecv]
  dsimp only
  rw [hlen, if_pos ⟨hpos, rfl⟩, store, hlen, plg_append, serverPpcCbLogGet]
  simp only [plg_bid, plg_index hi, serverGetBackendById_mem hbe, hlogger, storeAt_index,
    storeAt_line, plg_take]
  cases klogGetln ctime kl i with
  | none => rfl
  | some r =>
    obtain ⟨ok, ln, field⟩ := r
    cases ok <;> rfl

variable (ctime) in
theorem print_length (cur : KlogMemMsg) (ident : Str) :
    sizeofLine ≤ (cur.print ctime ident).length := by
  unfold KlogMemMsg.print
  have hsize : sizeofLine = 8 := rfl
  have hmax : KLOG_LN_SZ = 512 := rfl
  have hopen : (bytes "[").length = 1 := by decide
  have hclose : (bytes "] ").length = 2 := by decide
  have hbefore : (bytes " <").length = 2 := by decide
  have hafter : (bytes ">: ").length = 3 := by decide
  simp only [List.length_take, List.length_append, hopen, hclose, hbefore, hafter]
  omega

/-- A line that there is comes back cut. -/
theorem serverPpcCmdLogGet_line (hbe : be ∈ s.bes) (hkl : serverGetLogger s be = some kl)
    (m : Frame PPC_MAX_DATA_SIZE) (m' : Frame sizeofPlg) (hi : i < sizeMod) {ln : Str}
    (hln : klogGetlnMem ctime kl i = .line ln) :
    ∃ fetched, serverPpcCmdLogGet ctime s be i m m' = some fetched ∧
    fetched.line.length ≤ sizeofLine := by
  obtain ⟨rest, hrest, hreply⟩ := serverProcessLogGet_eq ctime hbe hkl m hi
  have hdirect : klogGetln ctime kl i = some ⟨true, ln ++ [0], []⟩ := by rw [klogGetln, hln]
  have hstored : ((store rest (ln ++ [0])).take KLOG_LN_SZ).length = KLOG_LN_SZ := by
    rw [List.length_take, store_length]
    omega
  rw [serverPpcCmdLogGet, hreply, hdirect]
  simp only [Option.map_some, if_true, receive_reply m' be.id hstored]
  refine ⟨_, rfl, ?_⟩
  have hret : ¬ ((sizeofPlg : ℕ) : ℤ) < 0 := by decide
  rw [if_neg hret, if_neg (not_not.mpr rfl)]
  split
  · exact Nat.zero_le _
  · have hle := Klone.Session.strlcpy_length_le
      (cstr (((plg be.id i ((store rest (ln ++ [0])).take KLOG_LN_SZ))).drop 16)) sizeofLine
    rw [List.length_append, List.length_singleton]
    exact Nat.add_le_of_le_sub (by decide) hle

theorem serverPpcCmdLogGet_fails (hbe : be ∈ s.bes) (hkl : serverGetLogger s be = some kl)
    (m : Frame PPC_MAX_DATA_SIZE) (m' : Frame sizeofPlg) (hi : i < sizeMod)
    (hfails : klogGetlnMem ctime kl i = .fails) :
    serverPpcCmdLogGet ctime s be i m m' = some ⟨false, [], []⟩ := by
  obtain ⟨rest, hrest, hreply⟩ := serverProcessLogGet_eq ctime hbe hkl m hi
  have hdirect : klogGetln ctime kl i = some ⟨false, [], []⟩ := by rw [klogGetln, hfails]
  have hlen : (rest.take KLOG_LN_SZ).length = KLOG_LN_SZ := by
    rw [List.length_take, Nat.min_eq_left hrest]
  have hlast : sizeMod - 1 < sizeMod := by decide
  have hneg : 2 ^ 63 ≤ sizeMod - 1 := by decide
  have hret : ¬ ((sizeofPlg : ℕ) : ℤ) < 0 := by decide
  rw [serverPpcCmdLogGet, hreply, hdirect]
  simp only [Option.map_some, Bool.false_eq_true, if_false, receive_reply m' be.id hlen,
    plg_index hlast]
  rw [if_neg hret, if_neg (not_not.mpr rfl), if_pos hneg]

end

/-- A child of the prefork model gets what the direct call gets exactly when there is no
such line: of a line that there is it gets the first seven bytes. -/
theorem klog_line_agrees_iff (ctime : ℤ → Str) (threshold : ℤ) (ident : Str) (lnMax : UInt64)
    (ops : List MemOp) (s : Server) (be : Backend) (hbe : be ∈ s.bes) (hmodel : be.model = .prefork)
    (hkl : serverGetLogger s be = some (memRun threshold ident lnMax ops)) (i : UInt64)
    (m : Frame PPC_MAX_DATA_SIZE) (m' : Frame sizeofPlg) :
    LinesAgree ctime s be (memRun threshold ident lnMax ops) i.toNat m m' ↔
      i.toNat = 0 ∨ (memRun threshold ident lnMax ops).m.nmsgs < i.toNat := by
  have hi : i.toNat < sizeMod := i.toNat_lt
  obtain ⟨hrecent, -, -, -⟩ := memRun_recent threshold ident lnMax ops
  have hget := klogGetlnMem_eq ctime hrecent i.toNat
  have hn := hrecent.nmsgs_eq
  generalize memRun threshold ident lnMax ops = kl at *
  have hway : serverGetKlogLine ctime s be kl i.toNat m m' =
      serverPpcCmdLogGet ctime s be i.toNat m m' := by
    rw [serverGetKlogLine, if_neg (not_not.mpr hmodel)]
  unfold LinesAgree
  rw [hway]
  by_cases hin : 1 ≤ i.toNat ∧ i.toNat ≤ min kl.m.bound (loggedSince threshold ops).length
  · have hlt : i.toNat - 1 < (loggedSince threshold ops).length := by omega
    rw [if_pos hin, List.getElem?_eq_getElem hlt, Option.elim_some] at hget
    obtain ⟨fetched, hfetched, hshort⟩ := serverPpcCmdLogGet_line hbe hkl m m' hi hget
    refine iff_of_false ?_ (by omega)
    rintro ⟨direct, fetched', hdirect, hfetched', -, hline, -⟩
    obtain rfl := Option.some.inj (hfetched.symm.trans hfetched')
    rw [klogGetln, hget] at hdirect
    obtain rfl := Option.some.inj hdirect
    have hlong := print_length ctime ((loggedSince threshold ops)[i.toNat - 1]) kl.ident
    have hlen := congrArg List.length (hline rfl)
    rw [List.length_append, List.length_singleton] at hlen
    omega
  · rw [if_neg hin] at hget
    refine iff_of_true ?_ (by omega)
    refine ⟨⟨false, [], []⟩, ⟨false, [], []⟩, ?_, serverPpcCmdLogGet_fails hbe hkl m m' hi hget,
      rfl, fun _ => rfl, ?_⟩
    · rw [klogGetln, hget]
    · exact ⟨Nat.zero_le _, Nat.zero_le _, Nat.zero_le _⟩

def sampleCtime (_ : ℤ) : Str := bytes "Mon Jan  1 00:00:00 2007" ++ [10]

def sampleServer (kl : KlogT) : Server := ⟨[⟨0, .prefork, some kl⟩], none, List.nodup_singleton _⟩

def shortLog : KlogT :=
  memRun 0 (bytes "kloned") 250
    [.log 1 (bytes "one") 0 ⟨true, true⟩, .log 3 (bytes "two") 5 ⟨true, true⟩]

/-- Nobody gets a third line of it. -/
theorem klog_line_agrees_beyond :
    shortLog.m.nmsgs = 2 ∧
      LinesAgree sampleCtime (sampleServer shortLog) ⟨0, .prefork, some shortLog⟩ shortLog 3
        (Frame.zero _) (Frame.zero _) :=
  ⟨by decide,
    (klog_line_agrees_iff sampleCtime 0 (bytes "kloned") 250
      _ (sampleServer shortLog) _ List.mem_cons_self rfl rfl 3
    _ _).mpr (Or.inr (by decide))⟩

def longLog : KlogT :=
  memRun 0 (bytes "kloned") 250 [.log 1 (List.replicate 512 120) 0 ⟨true, true⟩]

/-- The direct call writes past the end of a buffer for a line, and so does the parent in
the record; the child gets the start of the line. -/
theorem klog_line_cut :
    ∃ direct fetched, klogGetln sampleCtime longLog 1 = some direct ∧
    direct.line.length = KLOG_LN_SZ + 1 ∧
      serverGetKlogLine sampleCtime (sampleServer longLog) ⟨0, .prefork, some longLog⟩ longLog 1
        (Frame.zero _) (Frame.zero _) =
        some fetched ∧ fetched.ok = true ∧ fetched.line = bytes "[INF] M" ++ [0] ∧
        fetched.field.length = KLOG_LN_SZ + 1 ∧
          ¬ LinesAgree sampleCtime (sampleServer longLog) ⟨0, .prefork, some longLog⟩ longLog 1
            (Frame.zero _) (Frame.zero _) := by
  have hdirect : (klogGetln sampleCtime longLog 1).map (fun r => (r.ok, r.line.length)) =
      some (true, KLOG_LN_SZ + 1) := by
    decide +kernel
  have hfetched : (serverGetKlogLine sampleCtime (sampleServer longLog) ⟨0, .prefork, some longLog⟩
    longLog 1 (Frame.zero _)
      (Frame.zero _)).map (fun r => (r.ok, r.line, r.field.length)) =
        some (true, bytes "[INF] M" ++ [0], KLOG_LN_SZ + 1) := by
    decide +kernel
  obtain ⟨direct, hd, hd'⟩ := Option.map_eq_some_iff.mp hdirect
  obtain ⟨fetched, hf, hf'⟩ := Option.map_eq_some_iff.mp hfetched
  obtain ⟨-, hlen⟩ := Prod.mk.inj hd'
  obtain ⟨hok, hline⟩ := Prod.mk.inj hf'
  obtain ⟨hline, hfield⟩ := Prod.mk.inj hline
  refine ⟨direct, fetched, hd, hlen, hf, hok, hline, hfield, ?_⟩
  rintro ⟨direct', -, hdirect', -, -, -, hle, -⟩
  obtain rfl := Option.some.inj (hd.symm.trans hdirect')
  rw [hlen] at hle
  exact absurd hle (by decide)

end Klone.Klog
