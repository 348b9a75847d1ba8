import Klone.Io.Codec
import Klone.Lib.Loop
import Klone.Lib.Window

/-! # The codec chain

Every codec but the last stores its output in its own buffer, from where it is put
through the rest of the chain; the last one stores it at the destination. A call
returns after partial progress, and the functions recurse through the chain, so
they are fuel-indexed.
-/
namespace Klone.Chain
open Loop

def CODEC_BUFSZ : ℕ := 4096

structure Link where
  codec : Codec
  state : codec.State
  cbuf : Str
  ccount : ℕ
  coff : ℕ

def Link.pending (l : Link) : Str := window l.cbuf l.coff l.ccount

def Link.cavail (l : Link) : ℕ := CODEC_BUFSZ - l.ccount - l.coff

def Link.setState (l : Link) (s : l.codec.State) : Link := { l with state := s }

/-- The codec has stored bytes behind those in its buffer, and counts `n` of them. -/
def Link.fill (l : Link) (s : l.codec.State) (out : Str) (n : ℕ) : Link :=
  { l with state := s, cbuf := blit l.cbuf (l.coff + l.ccount) out, ccount := l.ccount + n }

/-- Bytes of the buffer have been taken by the next codec. -/
def Link.take (l : Link) (ct : ℕ) : Link :=
  { l with ccount := l.ccount - ct, coff := if 0 < l.ccount - ct then l.coff + ct else 0 }

structure TransformRes where
  links : List Link
  ret : Option ℕ
  out : Str

/-- A codec, the rest of the chain, and what has been stored at the destination;
`none` for an error. -/
structure Pushed where
  link : Link
  rest : List Link
  out : Option Str

section Steps
variable (next : List Link → ℕ → Str → Option TransformRes)

def ioTransformCodecBuffer (l : Link) (rest : List Link) (room : ℕ) : Option Pushed :=
  (next rest room l.pending).map fun t =>
    match t.ret with
    | none => ⟨l, t.links, none⟩
    | some ct => ⟨l.take ct, t.links, some t.out⟩

def pushPending (l : Link) (rest : List Link) (room : ℕ) : Option Pushed :=
  if l.ccount = 0 then some ⟨l, rest, some []⟩ else ioTransformCodecBuffer next l rest room

/-- The rest of a round of `io_transform`: new input for the codec. -/
def transformInput (src : Str) (l : Link) (rest : List Link) (out : Str) :
    Iter (Link × List Link) TransformRes :=
  if src ≠ [] ∧ 0 < l.cavail then
    let t := l.codec.transform l.state l.cavail src
    match t.ret with
    | none => .leave ⟨l.setState t.state :: rest, none, out⟩
    | some c =>
      if c = 0 ∧ t.out = [] then .leave ⟨l.setState t.state :: rest, none, out⟩
      else if c = 0 ∧ out = [] then .again (l.fill t.state t.out t.out.length, rest)
      else .leave ⟨l.fill t.state t.out t.out.length :: rest, some c, out⟩
  else if out = [] ∧ (l.ccount ≠ 0 ∨ src ≠ []) then .again (l, rest)
  else .leave ⟨l :: rest, some 0, out⟩

def transformBody (room : ℕ) (src : Str) (s : Link × List Link) :
    Option (Iter (Link × List Link) TransformRes) :=
  (pushPending next s.1 s.2 room).map fun p =>
    match p.out with
    | none => .leave ⟨p.link :: p.rest, none, []⟩
    | some out => transformInput src p.link p.rest out

/-- The end of the flush of one codec: `none` if it is complete, or the return value
of `io_chain_flush_chunk` and the bytes at the destination. -/
structure LinkFlushed where
  link : Link
  rest : List Link
  ret : Option (FlushRet × Str)

def flushLink (l : Link) (rest : List Link) : Iter (Link × List Link) LinkFlushed :=
  let r := l.codec.flush l.state l.cavail
  let l' := l.fill r.state r.out r.dcount
  match r.ret with
  | .error => .leave ⟨l.setState r.state, rest, some (.error, [])⟩
  | .complete => if l'.ccount = 0 then .leave ⟨l', rest, none⟩ else .again (l', rest)
  | .chunk => .again (l', rest)

def flushBody (room : ℕ) (s : Link × List Link) : Option (Iter (Link × List Link) LinkFlushed) :=
  (pushPending next s.1 s.2 room).map fun p =>
    match p.out with
    | none => .leave ⟨p.link, p.rest, some (.error, [])⟩
    | some [] => flushLink p.link p.rest
    | some out => .leave ⟨p.link, p.rest, some (.chunk, out)⟩

end Steps

/-- The chain is the part of the stream's chain that starts with the given codec. -/
def ioTransform : ℕ → List Link → ℕ → Str → Option TransformRes
  | 0, _, _, _ => none
  | _ + 1, [], _, _ => some ⟨[], none, []⟩
  | _ + 1, [l], room, src =>
    let t := l.codec.transform l.state room src
    some ⟨[l.setState t.state], if t.ret = some 0 ∧ t.out = [] then none else t.ret, t.out⟩
  | n + 1, l :: rest, room, src => run (transformBody (ioTransform n) room src) n (l, rest)

structure ChunkRes where
  links : List Link
  ret : FlushRet
  dcount : ℕ
  out : Str

/-- After the flush of one codec: return, or go on to the next codec. -/
def chunkAfter (flushRest : List Link → Option ChunkRes) (b : LinkFlushed) : Option ChunkRes :=
  match b.ret with
  | some (ret, out) => some ⟨b.link :: b.rest, ret, out.length, out⟩
  | none => (flushRest b.rest).map fun r => { r with links := b.link :: r.links }

def ioChainFlushChunk : ℕ → List Link → ℕ → Option ChunkRes
  | 0, _, _ => none
  | _ + 1, [], room => some ⟨[], .complete, room, []⟩
  | _ + 1, [l], room =>
    let r := l.codec.flush l.state room
    some ⟨[l.setState r.state], r.ret, r.dcount, r.out⟩
  | n + 1, l :: rest, room =>
    (run (flushBody (ioTransform n) room) n (l, rest)).bind
      (chunkAfter fun rest => ioChainFlushChunk n rest room)

end Klone.Chain
