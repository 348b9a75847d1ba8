import Klone.Lib.Layout

/-! # Messages between parent and children

A message is a header and a payload, each moved by one system call. A system call
may be interrupted, fail, or move fewer bytes than requested. Reading works on
the bytes that all the writes leave on the wire: a read that finds only a part of
them there yet is a read that moves fewer bytes.
-/
namespace Klone.Ppc

def PPC_MAX_DATA_SIZE : ℕ := 8192

/-- `sizeof(ppc_header_t)`: the command, seven bytes of padding, the size. -/
def headerSize : ℕ := 16

def header (cmd : Byte) (size : ℕ) : List Byte := cmd :: (List.replicate 7 0 ++ leBytes 8 size)

def headerCmd (h : List Byte) : Byte := h.headD 0

def hSize (h : List Byte) : ℕ := leNat (h.drop 8)

structure Answer where
  eintr : ℕ
  count : Option ℕ

def doWrite (data : List Byte) : ℕ → Option ℕ → Option (List Byte)
  | eintr + 1, count => doWrite data eintr count
  | 0, count => count.map data.take

def ppcDoWrite (k : Answer) (data : List Byte) : Option (List Byte) := doWrite data k.eintr k.count

def doRead (wire : List Byte) (size : ℕ) : ℕ → Option ℕ → Option (List Byte)
  | eintr + 1, count => doRead wire size eintr count
  | 0, count => count.map fun n => wire.take (min n size)

def ppcDoRead (k : Answer) (wire : List Byte) (size : ℕ) : Option (List Byte) :=
  doRead wire size k.eintr k.count

def ppcWrite (k₁ k₂ : Answer) (cmd : Byte) (data : List Byte) : ℤ × List Byte :=
  match ppcDoWrite k₁ (header cmd data.length) with
  | none => (-1, [])
  | some h =>
    if h = [] then (0, [])
    else
      match ppcDoWrite k₂ data with
      | none => (-1, h)
      | some d => if d = [] then (0, h) else (1, h ++ d)

/-- What the memory of the reader holds before the call: the header on the stack,
the caller's buffer and the caller's command byte. -/
structure Frame (size : ℕ) where
  header : List Byte
  header_length : header.length = headerSize
  buf : List Byte
  buf_length : buf.length = size
  cmd : Byte

def Frame.zero (size : ℕ) : Frame size :=
  ⟨List.replicate headerSize 0, List.length_replicate, List.replicate size 0,
    List.length_replicate, 0⟩

structure ReadMsg where
  ret : ℤ
  cmd : Byte
  buf : List Byte
  rest : List Byte

def ppcRead {size : ℕ} (k₁ k₂ : Answer) (m : Frame size) (wire : List Byte) : ReadMsg :=
  match ppcDoRead k₁ wire headerSize with
  | none => ⟨-1, m.cmd, m.buf, wire⟩
  | some got =>
    if got = [] then ⟨0, m.cmd, m.buf, wire⟩
    else
      let h := store m.header got
      let wire := wire.drop got.length
      if size < hSize h ∨ PPC_MAX_DATA_SIZE < hSize h then ⟨-1, m.cmd, m.buf, wire⟩
      else
        match ppcDoRead k₂ wire (hSize h) with
        | none => ⟨-1, m.cmd, m.buf, wire⟩
        | some data =>
          if data = [] then ⟨0, m.cmd, m.buf, wire⟩
          else ⟨hSize h, headerCmd h, store m.buf data, wire.drop data.length⟩

theorem header_length (cmd : Byte) (size : ℕ) : (header cmd size).length = headerSize := by
  simp [header, headerSize]

theorem hSize_header (cmd : Byte) {size : ℕ} (h : size < sizeMod) :
    hSize (header cmd size) = size := by
  have hd : (header cmd size).drop 8 = leBytes 8 size := by simp [header]
  rw [hSize, hd]
  exact leNat_leBytes h

theorem ppcDoWrite_eq (k : Answer) (data : List Byte) :
    ppcDoWrite k data = k.count.map data.take := by
  obtain ⟨eintr, count⟩ := k
  unfold ppcDoWrite
  dsimp only
  induction eintr with
  | zero => rfl
  | succ eintr ih => rw [doWrite, ih]

theorem ppcDoRead_eq (k : Answer) (wire : List Byte) (size : ℕ) :
    ppcDoRead k wire size = k.count.map fun n => wire.take (min n size) := by
  obtain ⟨eintr, count⟩ := k
  unfold ppcDoRead
  dsimp only
  induction eintr with
  | zero => rfl
  | succ eintr ih => rw [doRead, ih]

theorem store_full {mem new : List Byte} (h : mem.length ≤ new.length) : store mem new = new := by
  rw [store, List.drop_eq_nil_of_le h, List.append_nil]

theorem store_take {mem new : List Byte} {n : ℕ} (h : new.length = n) :
    (store mem new).take n = new := by
  rw [store, List.take_append_of_le_length h.ge, ← h, List.take_length]

theorem header_ne_nil (cmd : Byte) (size : ℕ) : header cmd size ≠ [] := List.cons_ne_nil _ _

/-- A read that gets the whole message. -/
theorem ppcRead_full {size : ℕ} {k₁ k₂ : Answer} (m : Frame size) {cmd : Byte}
    {data rest : List Byte} {n₁ n₂ : ℕ} (h₁ : k₁.count = some n₁) (h₂ : k₂.count = some n₂)
    (hn₁ : headerSize ≤ n₁) (hn₂ : data.length ≤ n₂) (hne : data ≠ []) (hsize : data.length ≤ size)
    (hmax : data.length ≤ PPC_MAX_DATA_SIZE) :
    ppcRead k₁ k₂ m (header cmd data.length ++ (data ++ rest)) =
      ⟨data.length, cmd, store m.buf data, rest⟩ := by
  have hlen : data.length < sizeMod := hmax.trans_lt (by decide)
  have hhl := header_length cmd data.length
  have hr₁ : ppcDoRead k₁ (header cmd data.length ++ (data ++ rest)) headerSize =
      some (header cmd data.length) := by
    rw [ppcDoRead_eq, h₁, Option.map_some, Nat.min_eq_right hn₁, ← hhl, List.take_left]
  have hr₂ : ppcDoRead k₂ (data ++ rest) data.length = some data := by
    rw [ppcDoRead_eq, h₂, Option.map_some, Nat.min_eq_right hn₂, List.take_left]
  have hst : store m.header (header cmd data.length) = header cmd data.length :=
    store_full (by rw [m.header_length, hhl])
  have hok : ¬ (size < data.length ∨ PPC_MAX_DATA_SIZE < data.length) := by omega
  simp only [ppcRead, hr₁, if_neg (header_ne_nil cmd data.length), hst,
    hSize_header cmd hlen, if_neg hok,
    List.drop_left, hr₂, if_neg hne]
  rfl

end Klone.Ppc
