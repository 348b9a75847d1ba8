import Klone.Lib.CString

/-! # Codecs

A codec turns bytes into bytes and may keep some of them back: `transform` takes
input and stores output in the room it is given, `flush` stores what was kept
back. The contract says that all calls together compute one function of the bytes
put in, however they were cut.
-/
namespace Klone.Chain

inductive FlushRet where
  | complete
  | chunk
  | error
  deriving DecidableEq, Repr

/-- What a call of `transform` leaves: the number of bytes taken (`none` for a
negative answer) and the bytes stored, as many as `*dcount` then says. -/
structure Transformed (σ : Type) where
  state : σ
  ret : Option ℕ
  out : Str

/-- What a call of `flush` leaves; `*dcount` need not be the number of bytes stored. -/
structure Flushed (σ : Type) where
  state : σ
  ret : FlushRet
  dcount : ℕ
  out : Str

structure Codec where
  State : Type
  init : State
  transform : State → ℕ → Str → Transformed State
  flush : State → ℕ → Flushed State

/-- The rooms that a codec is given: only a wide one is given those that no 32-bit counter
holds. -/
def Sized (wide : Prop) (room : ℕ) : Prop := wide ∨ room < 2 ^ 32

namespace Codec

/-- The states a codec can be in when some of `total` has been offered to it, with
the bytes taken and the bytes stored so far. What is not taken is offered again. -/
inductive Open (c : Codec) (wide : Prop) (total : Str) : c.State → Str → Str → Prop
  | init : Open c wide total c.init [] []
  | transform {s : c.State} {inp out : Str} {room : ℕ} {src : Str} {k : ℕ}
    (h : Open c wide total s inp out)
      (hroom : 0 < room) (hsize : Sized wide room) (hsrc : src ≠ []) (htotal : inp ++ src <+: total)
      (hret : (c.transform s room src).ret = some k) :
      Open c wide total (c.transform s room src).state (inp ++ src.take k)
        (out ++ (c.transform s room src).out)

/-- The states after all of `total` has been taken and some calls of `flush`. Only a
strict codec is ever flushed without room. -/
inductive Draining (c : Codec) (strict wide : Prop) (total : Str) : c.State → Str → Prop
  | start {s : c.State} {out : Str} (h : Open c wide total s total out) :
    Draining c strict wide total s out
  | chunk {s : c.State} {out : Str} {room : ℕ} (h : Draining c strict wide total s out)
    (hroom : strict ∨ 0 < room)
      (hsize : Sized wide room) (hret : (c.flush s room).ret = .chunk) :
      Draining c strict wide total (c.flush s room).state (out ++ (c.flush s room).out)
  | complete {s : c.State} {out : Str} {room : ℕ} (h : Draining c strict wide total s out)
    (hroom : strict ∨ 0 < room)
      (hsize : Sized wide room) (hret : (c.flush s room).ret = .complete) :
      Draining c strict wide total (c.flush s room).state out

/-- The codec turns `total` into `result`, whatever the cuts: what has been stored is
always a beginning of the result, and all of it when a flush is complete. With input
and room `transform` takes or stores a byte; `flush` stores one unless it is complete,
and a strict codec then reports that it stored nothing. -/
structure Computes (c : Codec) (strict wide : Prop) (total result : Str) : Prop where
  transform_ret : ∀ {s inp out}, c.Open wide total s inp out → ∀ {room src}, 0 < room →
    Sized wide room → src ≠ [] →
    inp ++ src <+: total →
    ∃ k, (c.transform s room src).ret = some k ∧ k ≤ src.length ∧
      (c.transform s room src).out.length ≤ room ∧ (0 < k ∨ (c.transform s room src).out ≠ [])
  open_begins : ∀ {s inp out}, c.Open wide total s inp out → out <+: result
  flush_ret : ∀ {s out}, c.Draining strict wide total s out → ∀ {room}, strict ∨ 0 < room →
    Sized wide room →
    (c.flush s room).out.length ≤ room ∧
    ((c.flush s room).ret = .complete ∧ out = result ∧ (strict → (c.flush s room).dcount = 0) ∨
      (c.flush s room).ret = .chunk ∧ (c.flush s room).dcount = (c.flush s room).out.length ∧
        ((c.flush s room).out ≠ [] ∨ room = 0))
  drain_begins : ∀ {s out}, c.Draining strict wide total s out → out <+: result

def Quiet (c : Codec) (strict wide : Prop) (total : Str) : Prop :=
  ∀ {s out}, c.Draining strict wide total s out → ∀ {room}, strict ∨ 0 < room → Sized wide room →
    (c.flush s room).ret = .complete → (c.flush s room).dcount = 0

theorem Computes.quiet {c : Codec} {strict wide : Prop} {total result : Str}
    (h : c.Computes strict wide total result) (hs : strict) : c.Quiet strict wide total := by
  intro s out hd room hroom hsize hret
  rcases (h.flush_ret hd hroom hsize).2 with ⟨-, -, hcount⟩ | ⟨hc, -⟩
  · exact hcount hs
  · cases hc.symm.trans hret

/-- The contract of a codec that can stand anywhere in a chain, where no room exceeds its
buffers. -/
def Contract (c : Codec) (f : Str → Str) : Prop := ∀ total, c.Computes True False total (f total)

end Codec

end Klone.Chain
