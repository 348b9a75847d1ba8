import Klone.Ppc.Channel
import Klone.Session.MemStore

/-! # Session messages

What a child sends to the parent to save, fetch and drop sessions, how the parent
handles each message, and the child's own functions. A record `enc_ses_mem_t` is
built in memory that held `junk` before.
-/
namespace Klone.Session
open Ppc

def SESSION_FILENAME_MAX_LENGTH : ℕ := 256

def PPC_CMD_RESPONSE_OK : Byte := 3
def PPC_CMD_RESPONSE_ERROR : Byte := 4
def PPC_CMD_MSES_SAVE : Byte := 5
def PPC_CMD_MSES_GET : Byte := 6
def PPC_CMD_MSES_DELOLD : Byte := 7
def PPC_CMD_MSES_REMOVE : Byte := 8

/-- `sizeof(enc_ses_mem_t)`; its field `data` is at offset 272. -/
def sizeofEsm : ℕ := 280

structure Esm where
  mtime : ℕ
  filename : Str
  data : List Byte

def filenameField (junk : ℕ → Byte) (filename : Str) : List Byte :=
  let copy := (strlcpy filename SESSION_FILENAME_MAX_LENGTH).2
  copy ++ 0 :: (List.range (SESSION_FILENAME_MAX_LENGTH - (copy.length + 1))).map junk

def encodeEsm (junk : ℕ → Byte) (mtime : ℕ) (filename : Str) (data : List Byte) : List Byte :=
  leBytes 8 mtime ++ (filenameField junk filename ++ (leBytes 8 data.length ++
    (data ++ (List.range 8).map junk)))

def decodeEsm (mem : List Byte) : Esm :=
  ⟨leNat (mem.take 8), cstr (mem.drop 8), (mem.drop 272).take (leNat ((mem.drop 264).take 8))⟩

abbrev Msg := Byte × List Byte

def whole (n : ℕ) : Answer := ⟨0, some n⟩

def send (msg : Msg) : ℤ × List Byte := ppcWrite (whole headerSize) (whole msg.2.length) msg.1 msg.2

def receive {size : ℕ} (m : Frame size) (wire : List Byte) : ReadMsg :=
  ppcRead (whole headerSize) (whole PPC_MAX_DATA_SIZE) m wire

/-! ## The parent -/

def sessionCmdSave (so : SessionOpt) (data : List Byte) (granted : Bool) : SessionOpt :=
  let esm := decodeEsm data
  (soAtomAdd .parent so ⟨esm.filename, esm.data, esm.mtime⟩ granted).so

def sessionCmdDelold (so : SessionOpt) : SessionOpt := (soAtomDeleteOldest so).getD so

def sessionCmdRemove (so : SessionOpt) (data : List Byte) : SessionOpt :=
  soAtomRemove so (cstr data)

def sessionCmdGet (so : SessionOpt) (data : List Byte) (granted : Bool) (junk : ℕ → Byte) : Msg :=
  let error : Msg := (PPC_CMD_RESPONSE_ERROR, [0])
  if SESSION_FILENAME_MAX_LENGTH < (cstr data).length then error
  else
    match atomsGet so.atoms (cstr data) with
    | none => error
    | some p =>
      let atom := so.atoms.cell p
      if 4096 < sizeofEsm + atom.size ∧ ¬ granted then error
      else (PPC_CMD_RESPONSE_OK, encodeEsm junk atom.arg (cstr data) atom.data)

structure Processed where
  so : SessionOpt
  reply : Option Msg
  closed : Bool

def ppcDispatch (so : SessionOpt) (cmd : Byte) (data : List Byte) (granted : Bool)
    (junk : ℕ → Byte) :
    Processed :=
  if cmd = PPC_CMD_MSES_SAVE then ⟨sessionCmdSave so data granted, none, false⟩
  else if cmd = PPC_CMD_MSES_GET then ⟨so, some (sessionCmdGet so data granted junk), false⟩
  else if cmd = PPC_CMD_MSES_DELOLD then ⟨sessionCmdDelold so, none, false⟩
  else if cmd = PPC_CMD_MSES_REMOVE then ⟨sessionCmdRemove so data, none, false⟩
  else ⟨so, none, false⟩

def serverProcessPpc (so : SessionOpt) (m : Frame PPC_MAX_DATA_SIZE) (wire : List Byte)
    (granted : Bool) (junk : ℕ → Byte) : Processed :=
  let r := receive m wire
  if 0 < r.ret then ppcDispatch so r.cmd r.buf granted junk else ⟨so, none, true⟩

/-! ## A child -/

structure AddCall where
  filename : Str
  filename_ok : 0 ∉ filename
  buf : List Byte
  buf_lt : sizeofEsm + buf.length < sizeMod
  mtime : ℕ
  now : ℕ
  now_lt : now < sizeMod
  junk : ℕ → Byte
  esmGranted : Bool
  granted : Bool

structure AddResult where
  ok : Bool
  so : SessionOpt
  sent : List Msg

def delold : Msg := (PPC_CMD_MSES_DELOLD, [0])

def AddCall.atom (c : AddCall) : Atom := ⟨c.filename, c.buf, c.now⟩

def AddCall.message (c : AddCall) : Msg :=
  (PPC_CMD_MSES_SAVE, encodeEsm c.junk c.now c.filename c.buf)

def AddCall.sends (c : AddCall) : Bool :=
  c.esmGranted && decide (c.filename.length ≤ SESSION_FILENAME_MAX_LENGTH)

/-- `session_mem_add` in a child whose channel is `writable` or not. -/
def sessionMemAdd (so : SessionOpt) (writable : Bool) (c : AddCall) : AddResult :=
  if c.sends && writable then
    let r := soAtomAdd (.child writable) so ⟨c.filename, c.buf, c.mtime⟩ c.granted
    ⟨r.ok, r.so, c.message :: List.replicate r.delold delold⟩
  else ⟨false, so, []⟩

/-! ## The records on the wire -/

theorem strlcpy_length_le (s : Str) (size : ℕ) : (strlcpy s size).2.length ≤ size - 1 :=
  List.length_take_le _ _

theorem filenameField_length (junk : ℕ → Byte) (filename : Str) :
    (filenameField junk filename).length = SESSION_FILENAME_MAX_LENGTH := by
  have hle := strlcpy_length_le filename SESSION_FILENAME_MAX_LENGTH
  have hs : SESSION_FILENAME_MAX_LENGTH = 256 := rfl
  simp only [filenameField, List.length_append, List.length_cons, List.length_map,
    List.length_range]
  omega

theorem encodeEsm_length (junk : ℕ → Byte) (mtime : ℕ) (filename : Str) (data : List Byte) :
    (encodeEsm junk mtime filename data).length = sizeofEsm + data.length := by
  simp only [encodeEsm, List.length_append, leBytes_length, filenameField_length, List.length_map,
    List.length_range]
  have hs : SESSION_FILENAME_MAX_LENGTH = 256 := rfl
  have he : sizeofEsm = 280 := rfl
  omega

theorem cstr_append_nul {s : Str} (h : 0 ∉ s) (rest : List Byte) : cstr (s ++ 0 :: rest) = s := by
  have hs : ∀ b ∈ s, decide (b ≠ 0) = true := fun b hb => decide_eq_true (fun he => h (he ▸ hb))
  rw [cstr, List.takeWhile_append_of_pos hs, List.takeWhile_cons_of_neg (by decide),
    List.append_nil]

theorem decode_encode (junk : ℕ → Byte) {mtime : ℕ} {filename : Str} {data : List Byte}
    (hm : mtime < sizeMod) (hf : 0 ∉ filename) (hd : data.length < sizeMod) (rest : List Byte) :
    decodeEsm (encodeEsm junk mtime filename data ++ rest) = ⟨mtime, filename.take 255, data⟩ := by
  have hl₁ : (leBytes 8 mtime).length = 8 := leBytes_length 8 mtime
  have hl₂ : (filenameField junk filename).length = 256 := filenameField_length junk filename
  have hl₃ : (leBytes 8 data.length).length = 8 := leBytes_length 8 data.length
  have h₀ : (encodeEsm junk mtime filename data ++ rest).take 8 = leBytes 8 mtime := by
    rw [encodeEsm, List.append_assoc]
    exact List.take_left' hl₁
  have h₁ : (encodeEsm junk mtime filename data ++ rest).drop 8 = filenameField junk filename ++
      (leBytes 8 data.length ++ (data ++ (List.range 8).map junk)) ++ rest := by
    rw [encodeEsm, List.append_assoc]
    exact List.drop_left' hl₁
  have h₂ : (encodeEsm junk mtime filename data ++ rest).drop 264 =
      leBytes 8 data.length ++ (data ++ (List.range 8).map junk ++ rest) := by
    rw [show 264 = 8 + 256 from rfl, ← List.drop_drop, h₁, List.append_assoc, List.drop_left' hl₂,
      List.append_assoc]
  have h₃ : (encodeEsm junk mtime filename data ++ rest).drop 272 =
      data ++ ((List.range 8).map junk ++ rest) := by
    rw [show 272 = 264 + 8 from rfl, ← List.drop_drop, h₂, List.drop_left' hl₃, List.append_assoc]
  have hname : cstr (filenameField junk filename ++ (leBytes 8 data.length ++
      (data ++ (List.range 8).map junk)) ++ rest) = filename.take 255 := by
    rw [filenameField, List.append_assoc, List.append_assoc]
    exact cstr_append_nul (fun hmem => hf (List.mem_of_mem_take hmem)) _
  rw [decodeEsm, h₀, h₁, h₂, h₃, hname, leNat_leBytes hm, List.take_left' hl₃, leNat_leBytes hd,
    List.take_left]

theorem send_eq {msg : Msg} (h : msg.2 ≠ []) :
    send msg = (1, header msg.1 msg.2.length ++ msg.2) := by
  have hh : (header msg.1 msg.2.length).take headerSize = header msg.1 msg.2.length :=
    List.take_of_length_le (header_length _ _).le
  simp only [send, ppcWrite, ppcDoWrite_eq, whole, Option.map_some, hh, List.take_length,
    if_neg (header_ne_nil _ _), if_neg h]

theorem send_eq_snd {msg : Msg} (h : msg.2 ≠ []) :
    (send msg).2 = header msg.1 msg.2.length ++ msg.2 := by
  rw [send_eq h]

theorem receive_send {size : ℕ} (m : Frame size) {msg : Msg} (h : msg.2 ≠ [])
    (hs : msg.2.length ≤ size) (hmax : msg.2.length ≤ PPC_MAX_DATA_SIZE) :
    receive m (send msg).2 = ⟨msg.2.length, msg.1, store m.buf msg.2, []⟩ := by
  have hr : receive m (header msg.1 msg.2.length ++ (msg.2 ++ [])) =
      ⟨msg.2.length, msg.1, store m.buf msg.2, []⟩ :=
    ppcRead_full m rfl rfl le_rfl hmax h hs hmax
  rwa [List.append_nil, ← send_eq_snd h] at hr

/-- A message that does not fit the buffer is an error; memory stays as it was. -/
theorem receive_oversize {size : ℕ} (m : Frame size) {msg : Msg} (hs : size < msg.2.length)
    (hlt : msg.2.length < sizeMod) :
    receive m (send msg).2 = ⟨-1, m.cmd, m.buf, msg.2⟩ := by
  have hh := header_length msg.1 msg.2.length
  have hread : ppcDoRead (whole headerSize) (header msg.1 msg.2.length ++ msg.2) headerSize =
      some (header msg.1 msg.2.length) := by
    rw [ppcDoRead_eq, whole, Option.map_some, Nat.min_self, ← hh, List.take_left]
  have hst : store m.header (header msg.1 msg.2.length) = header msg.1 msg.2.length :=
    store_full (by rw [m.header_length, hh])
  rw [send_eq_snd (List.ne_nil_of_length_pos (by omega))]
  simp only [receive, ppcRead, hread, if_neg (header_ne_nil _ _), hst, hSize_header _ hlt,
    if_pos (Or.inl hs),
    List.drop_left]

/-- The parent saves under the first 255 bytes of the name. -/
theorem process_save (so : SessionOpt) (m : Frame PPC_MAX_DATA_SIZE) (mem junk : ℕ → Byte)
    (granted : Bool) {mtime : ℕ} {filename : Str} {data : List Byte} (hm : mtime < sizeMod)
    (hf : 0 ∉ filename) (hd : sizeofEsm + data.length ≤ PPC_MAX_DATA_SIZE) :
    serverProcessPpc so m (send (PPC_CMD_MSES_SAVE, encodeEsm mem mtime filename data)).2
    granted junk =
      ⟨(soAtomAdd .parent so ⟨filename.take 255, data, mtime⟩ granted).so, none, false⟩ := by
  have hlen := encodeEsm_length mem mtime filename data
  have hpos : 0 < (encodeEsm mem mtime filename data).length := by
    rw [hlen]
    exact Nat.lt_of_lt_of_le (by decide) (Nat.le_add_right _ _)
  have hlt : data.length < sizeMod := by
    have : PPC_MAX_DATA_SIZE < sizeMod := by decide
    omega
  have hret : (0 : ℤ) < (encodeEsm mem mtime filename data).length := Int.natCast_pos.mpr hpos
  rw [serverProcessPpc, receive_send m (List.ne_nil_of_length_pos hpos) (hlen.trans_le hd)
    (hlen.trans_le hd)]
  dsimp only
  rw [if_pos hret, ppcDispatch, if_pos rfl, sessionCmdSave, store, decode_encode mem hm hf hlt]

end Klone.Session
