import Klone.Io.Chain

/-! # Streams with codecs

A stream has a device, a chain of codecs, a buffer for the bytes to write, and for
reading a buffer of bytes from the device and one of bytes that have come through
the chain. The chain is the same in both directions. Functions that return zero or
an error give `true` or `false`, the others `none` for `-1`.
-/
namespace Klone.Chain
open Loop

def IO_RD_BUFSZ : ℕ := 4096
def IO_WR_BUFSZ : ℕ := 4096

/-- The `read` and `write` operations of a type of stream; `none` for a negative answer. -/
structure Device where
  State : Type
  read : State → ℕ → State × Option Str
  write : State → Str → State × Option ℕ

structure Io (d : Device) where
  dev : d.State
  codecChain : List Link
  eof : ℕ
  rbuf : Option Str
  rcount : ℕ
  roff : ℕ
  rtot : ℕ
  ubuf : Str
  ucount : ℕ
  uoff : ℕ
  wbuf : Option Str
  wcount : ℕ

variable {d : Device}

def Io.setChain (io : Io d) (links : List Link) : Io d := { io with codecChain := links }

def Io.setDev (io : Io d) (s : d.State) : Io d := { io with dev := s }

def Io.buffered (io : Io d) : Str := window (io.wbuf.getD []) 0 io.wcount

def Io.put (io : Io d) (bs : Str) : Io d :=
  { io with wbuf := io.wbuf.map (blit · io.wcount bs), wcount := io.wcount + bs.length }

def ioRbufAlloc (io : Io d) : Io d :=
  { io with
      rbuf := some (List.replicate IO_RD_BUFSZ 0), roff := 0, ubuf := List.replicate IO_RD_BUFSZ 0 }

def ioWbufAlloc (io : Io d) : Io d := { io with wbuf := some (List.replicate IO_WR_BUFSZ 0) }

/-! ## Writing -/

def flushStep (s : Io d × ℕ) : Iter (Io d × ℕ) (Io d × Bool) :=
  if s.1.wcount = 0 then .leave (s.1, true)
  else
    let w := d.write s.1.dev (window (s.1.wbuf.getD []) s.2 s.1.wcount)
    match w.2 with
    | none => .leave (s.1.setDev w.1, false)
    | some 0 => .leave (s.1.setDev w.1, true)
    | some (c + 1) => .again ({ s.1 with
      dev := w.1, wcount := s.1.wcount - (c + 1) }, s.2 + (c + 1))

def ioFlush (n : ℕ) (io : Io d) : Option (Io d × Bool) :=
  run (fun s => some (flushStep s)) n (io, 0)

def ioTransfer (n : ℕ) (io : Io d) (room : ℕ) (src : Str) : Option TransformRes :=
  match io.codecChain with
  | [] => some ⟨[], some (min src.length room), src.take room⟩
  | l :: rest => ioTransform n (l :: rest) room src

def makeRoom (n : ℕ) (io : Io d) : Option (Io d × Bool) :=
  if io.wcount = IO_WR_BUFSZ then ioFlush n io else some (io, true)

/-- What `io_write` does with an answer of the chain. -/
def writeStep (io : Io d) (buf : Str) (t : TransformRes) : Iter (Io d × Str) (Io d × Bool) :=
  let io' := io.setChain t.links
  match t.ret with
  | none => .leave (io', false)
  | some c => if c = 0 ∧ t.out = [] then .leave (io', false) else .again (io'.put t.out, buf.drop c)

/-- The rest of a round of `io_write`, when there is room. -/
def writeRoomed (n : ℕ) (buf : Str) (r : Io d × Bool) : Option (Iter (Io d × Str) (Io d × Bool)) :=
  if r.2 then (ioTransfer n r.1 (IO_WR_BUFSZ - r.1.wcount) buf).map (writeStep r.1 buf)
  else some (.leave (r.1, false))

def writeBody (n : ℕ) (s : Io d × Str) : Option (Iter (Io d × Str) (Io d × Bool)) :=
  if s.2 = [] then some (.leave (s.1, true)) else (makeRoom n s.1).bind (writeRoomed n s.2)

def ioWrite (n : ℕ) (io : Io d) (buf : Str) : Option (Io d × Option ℕ) :=
  (run (writeBody n) n (if io.wbuf = none then ioWbufAlloc io else io, buf)).map fun r =>
    (r.1, if r.2 then some buf.length else none)

def copyBody (n : ℕ) (s : Io d × Str) : Option (Iter (Io d × Str) (Io d × Bool)) :=
  if s.2 = [] then some (.leave (s.1, true))
  else
    (makeRoom n s.1).map fun r =>
      if r.2 then
        let sz := min s.2.length (IO_WR_BUFSZ - r.1.wcount)
        .again (r.1.put (s.2.take sz), s.2.drop sz)
      else .leave (r.1, false)

/-- What `io_chain_flush` does with an answer of the chain. -/
def chainFlushed (n : ℕ) (io : Io d) (r : ChunkRes) : Option (Iter (Io d) (Io d × Bool)) :=
  let io' := io.setChain r.links
  match r.ret with
  | .complete => some (.leave (io', true))
  | .error => some (.leave (io', false))
  | .chunk =>
    let buf := window (blit (List.replicate 4096 0) 0 r.out) 0 r.dcount
    (run (copyBody n) n (io', buf)).map fun c => if c.2 then .again c.1 else .leave (c.1, false)

def chainFlushBody (n : ℕ) (io : Io d) : Option (Iter (Io d) (Io d × Bool)) :=
  (ioChainFlushChunk n io.codecChain 4096).bind (chainFlushed n io)

def ioChainFlush (n : ℕ) (io : Io d) : Option (Io d × Bool) := run (chainFlushBody n) n io

def ioCodecsRemove (n : ℕ) (io : Io d) : Option (Io d × Bool) :=
  if io.codecChain.isEmpty then some (io, true)
  else if io.wbuf.isSome then (ioChainFlush n io).map fun r => (r.1.setChain [], r.2)
  else some (io.setChain [], true)

/-! ## Reading -/

/-- The bytes from the device that have not gone through the chain. -/
def Io.fetched (io : Io d) : Str := window io.ubuf io.uoff io.ucount

/-- The bytes that can be read without asking the device. -/
def Io.readable (io : Io d) : Str := window (io.rbuf.getD []) io.roff io.rcount

/-- Bytes of the device are stored at the start of the underflow buffer. -/
def Io.fetch (io : Io d) (bs : Str) : Io d :=
  { io with ubuf := blit io.ubuf 0 bs, ucount := io.ucount + bs.length }

def Io.useFetched (io : Io d) (c : ℕ) : Io d :=
  { io with ucount := io.ucount - c, uoff := if io.ucount - c = 0 then 0 else io.uoff + c }

def Io.refill (io : Io d) (out : Str) (count : ℕ) : Io d :=
  { io with rbuf := io.rbuf.map (blit · 0 out), rcount := count, roff := 0 }

/-- What `io_underflow` does with an answer of the chain. -/
def underflowTransferred (io : Io d) (t : TransformRes) : Iter (Io d) (Io d × Option ℕ) :=
  let io' := io.setChain t.links
  match t.ret with
  | none => .leave (io', none)
  | some c =>
    if c = 0 ∧ t.out = [] then .leave (io', none)
    else .again ((io'.useFetched c).refill t.out t.out.length)

def underflowTransfer (n : ℕ) (io : Io d) : Option (Iter (Io d) (Io d × Option ℕ)) :=
  (ioTransfer n io (IO_RD_BUFSZ - io.rcount) io.fetched).map (underflowTransferred io)

def underflowFlushed (io : Io d) (r : ChunkRes) : Iter (Io d) (Io d × Option ℕ) :=
  let io' := io.setChain r.links
  let count := io.rcount + r.dcount
  match r.ret with
  | .error => .leave (io', none)
  | .chunk => .leave (io'.refill r.out count, some count)
  | .complete => .leave ({ io'.refill r.out count with eof := io.eof + 1 }, some count)

def underflowEof (n : ℕ) (io : Io d) : Option (Iter (Io d) (Io d × Option ℕ)) :=
  if io.codecChain.isEmpty then some (.leave (io, some io.rcount))
  else (ioChainFlushChunk n io.codecChain IO_RD_BUFSZ).map (underflowFlushed io)

def underflowBody (n : ℕ) (io : Io d) : Option (Iter (Io d) (Io d × Option ℕ)) :=
  if io.rcount ≠ 0 then some (.leave (io, some io.rcount))
  else if io.ucount ≠ 0 then underflowTransfer n io
  else
    let r := d.read io.dev IO_RD_BUFSZ
    match r.2 with
    | none => some (.leave (io.setDev r.1, none))
    | some [] => underflowEof n (io.setDev r.1)
    | some bs => underflowTransfer n ((io.setDev r.1).fetch bs)

def ioUnderflow (n : ℕ) (io : Io d) : Option (Io d × Option ℕ) :=
  run (underflowBody n) n (if io.rbuf = none then ioRbufAlloc io else io)

structure Reader (d : Device) where
  io : Io d
  size : ℕ
  out : Str

def readStep (s : Reader d) : Reader d :=
  let wr := min s.io.rcount s.size
  let io' := { s.io with rcount := s.io.rcount - wr, roff := s.io.roff + wr, rtot := s.io.rtot + wr }
  ⟨io', s.size - wr, s.out ++ window (s.io.rbuf.getD []) s.io.roff wr⟩

/-- What `io_read` does after the read buffer has been refilled. -/
def readUnderflown (s : Reader d) (u : Io d × Option ℕ) : Iter (Reader d) (Io d × Option Str) :=
  match u.2 with
  | none => .leave (u.1, none)
  | some 0 => .leave (u.1, some s.out)
  | some (_ + 1) => .again (readStep { s with io := u.1 })

def readBody (n : ℕ) (s : Reader d) : Option (Iter (Reader d) (Io d × Option Str)) :=
  if s.size = 0 then some (.leave (s.io, some s.out))
  else if s.io.rcount ≠ 0 then some (.again (readStep s))
  else (ioUnderflow n s.io).map (readUnderflown s)

def ioRead (n : ℕ) (io : Io d) (size : ℕ) : Option (Io d × Option Str) :=
  if io.eof ≠ 0 then some (io, some []) else run (readBody n) n ⟨io, size, []⟩

end Klone.Chain
