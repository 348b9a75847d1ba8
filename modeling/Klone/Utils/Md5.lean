import Klone.Lib.Digest
import Klone.Utils.Hexncpy

/-! # MD5

A message comes in pieces. The state has the digest of its full blocks, the bytes behind
them in a buffer, and the number of its bits in two words. The four rounds are written out
with the names of the registers turning; the algorithm turns the registers.
-/
namespace Klone.Md5
open Digest Blocks

structure Abcd where
  a : UInt32
  b : UInt32
  c : UInt32
  d : UInt32
  deriving DecidableEq, Repr

/-- The registers that a line names as `a`, `b`, `c`, `d`. -/
inductive Order where
  | abcd
  | dabc
  | cdab
  | bcda
  deriving DecidableEq, Repr

structure Op where
  order : Order
  k : ℕ
  s : UInt32
  ti : ℕ
  deriving DecidableEq, Repr

def T_MASK : UInt32 := 0xffffffff

def constants : List UInt32 := [
    T_MASK ^^^ 0x28955b87, T_MASK ^^^ 0x173848a9, 0x242070db, T_MASK ^^^ 0x3e423111,
    T_MASK ^^^ 0x0a83f050, 0x4787c62a, T_MASK ^^^ 0x57cfb9ec, T_MASK ^^^ 0x02b96afe,
    0x698098d8, T_MASK ^^^ 0x74bb0850, T_MASK ^^^ 0x0000a44e, T_MASK ^^^ 0x76a32841,
    0x6b901122, T_MASK ^^^ 0x02678e6c, T_MASK ^^^ 0x5986bc71, 0x49b40821,
    T_MASK ^^^ 0x09e1da9d, T_MASK ^^^ 0x3fbf4cbf, 0x265e5a51, T_MASK ^^^ 0x16493855,
    T_MASK ^^^ 0x29d0efa2, 0x02441453, T_MASK ^^^ 0x275e197e, T_MASK ^^^ 0x182c0437,
    0x21e1cde6, T_MASK ^^^ 0x3cc8f829, T_MASK ^^^ 0x0b2af278, 0x455a14ed,
    T_MASK ^^^ 0x561c16fa, T_MASK ^^^ 0x03105c07, 0x676f02d9, T_MASK ^^^ 0x72d5b375,
    T_MASK ^^^ 0x0005c6bd, T_MASK ^^^ 0x788e097e, 0x6d9d6122, T_MASK ^^^ 0x021ac7f3,
    T_MASK ^^^ 0x5b4115bb, 0x4bdecfa9, T_MASK ^^^ 0x0944b49f, T_MASK ^^^ 0x4140438f,
    0x289b7ec6, T_MASK ^^^ 0x155ed805, T_MASK ^^^ 0x2b10cf7a, 0x04881d05,
    T_MASK ^^^ 0x262b2fc6, T_MASK ^^^ 0x1924661a, 0x1fa27cf8, T_MASK ^^^ 0x3b53a99a,
    T_MASK ^^^ 0x0bd6ddbb, 0x432aff97, T_MASK ^^^ 0x546bdc58, T_MASK ^^^ 0x036c5fc6,
    0x655b59c3, T_MASK ^^^ 0x70f3336d, T_MASK ^^^ 0x00100b82, T_MASK ^^^ 0x7a7ba22e,
    0x6fa87e4f, T_MASK ^^^ 0x01d3191f, T_MASK ^^^ 0x5cfebceb, 0x4e0811a1,
    T_MASK ^^^ 0x08ac817d, T_MASK ^^^ 0x42c50dca, 0x2ad7d2bb, T_MASK ^^^ 0x14792c6e]

def rotateLeft (x n : UInt32) : UInt32 := (x <<< n) ||| (x >>> (32 - n))

def F (x y z : UInt32) : UInt32 := (x &&& y) ||| (~~~x &&& z)
def G (x y z : UInt32) : UInt32 := (x &&& z) ||| (y &&& ~~~z)
def H (x y z : UInt32) : UInt32 := x ^^^ y ^^^ z
def I (x y z : UInt32) : UInt32 := y ^^^ (x ||| ~~~z)

/-- `SET(a, b, c, d, k, s, Ti)` on the registers in this order: the new value of the first. -/
def newValue (fn : UInt32 → UInt32 → UInt32 → UInt32) (X : ℕ → UInt32) (a b c d : UInt32)
    (op : Op) : UInt32 :=
  let t := a + fn b c d + X op.k + constants.getD (op.ti - 1) 0
  rotateLeft t op.s + b

def set (fn : UInt32 → UInt32 → UInt32 → UInt32) (X : ℕ → UInt32) (r : Abcd) (op : Op) : Abcd :=
  match op.order with
  | .abcd => { r with a := newValue fn X r.a r.b r.c r.d op }
  | .dabc => { r with d := newValue fn X r.d r.a r.b r.c op }
  | .cdab => { r with c := newValue fn X r.c r.d r.a r.b op }
  | .bcda => { r with b := newValue fn X r.b r.c r.d r.a op }

def round1 : List Op := [
    ⟨.abcd, 0, 7, 1⟩, ⟨.dabc, 1, 12, 2⟩, ⟨.cdab, 2, 17, 3⟩, ⟨.bcda, 3, 22, 4⟩,
    ⟨.abcd, 4, 7, 5⟩, ⟨.dabc, 5, 12, 6⟩, ⟨.cdab, 6, 17, 7⟩, ⟨.bcda, 7, 22, 8⟩,
    ⟨.abcd, 8, 7, 9⟩, ⟨.dabc, 9, 12, 10⟩, ⟨.cdab, 10, 17, 11⟩, ⟨.bcda, 11, 22, 12⟩,
    ⟨.abcd, 12, 7, 13⟩, ⟨.dabc, 13, 12, 14⟩, ⟨.cdab, 14, 17, 15⟩, ⟨.bcda, 15, 22, 16⟩]

def round2 : List Op := [
    ⟨.abcd, 1, 5, 17⟩, ⟨.dabc, 6, 9, 18⟩, ⟨.cdab, 11, 14, 19⟩, ⟨.bcda, 0, 20, 20⟩,
    ⟨.abcd, 5, 5, 21⟩, ⟨.dabc, 10, 9, 22⟩, ⟨.cdab, 15, 14, 23⟩, ⟨.bcda, 4, 20, 24⟩,
    ⟨.abcd, 9, 5, 25⟩, ⟨.dabc, 14, 9, 26⟩, ⟨.cdab, 3, 14, 27⟩, ⟨.bcda, 8, 20, 28⟩,
    ⟨.abcd, 13, 5, 29⟩, ⟨.dabc, 2, 9, 30⟩, ⟨.cdab, 7, 14, 31⟩, ⟨.bcda, 12, 20, 32⟩]

def round3 : List Op := [
    ⟨.abcd, 5, 4, 33⟩, ⟨.dabc, 8, 11, 34⟩, ⟨.cdab, 11, 16, 35⟩, ⟨.bcda, 14, 23, 36⟩,
    ⟨.abcd, 1, 4, 37⟩, ⟨.dabc, 4, 11, 38⟩, ⟨.cdab, 7, 16, 39⟩, ⟨.bcda, 10, 23, 40⟩,
    ⟨.abcd, 13, 4, 41⟩, ⟨.dabc, 0, 11, 42⟩, ⟨.cdab, 3, 16, 43⟩, ⟨.bcda, 6, 23, 44⟩,
    ⟨.abcd, 9, 4, 45⟩, ⟨.dabc, 12, 11, 46⟩, ⟨.cdab, 15, 16, 47⟩, ⟨.bcda, 2, 23, 48⟩]

def round4 : List Op := [
    ⟨.abcd, 0, 6, 49⟩, ⟨.dabc, 7, 10, 50⟩, ⟨.cdab, 14, 15, 51⟩, ⟨.bcda, 5, 21, 52⟩,
    ⟨.abcd, 12, 6, 53⟩, ⟨.dabc, 3, 10, 54⟩, ⟨.cdab, 10, 15, 55⟩, ⟨.bcda, 1, 21, 56⟩,
    ⟨.abcd, 8, 6, 57⟩, ⟨.dabc, 15, 10, 58⟩, ⟨.cdab, 6, 15, 59⟩, ⟨.bcda, 13, 21, 60⟩,
    ⟨.abcd, 4, 6, 61⟩, ⟨.dabc, 11, 10, 62⟩, ⟨.cdab, 2, 15, 63⟩, ⟨.bcda, 9, 21, 64⟩]

/-- `X[k]`, the least significant byte first. -/
def word (data : Str) (k : ℕ) : UInt32 :=
  (data.getD (4 * k) 0).toUInt32 + ((data.getD (4 * k + 1) 0).toUInt32 <<< 8) +
    ((data.getD (4 * k + 2) 0).toUInt32 <<< 16) + ((data.getD (4 * k + 3) 0).toUInt32 <<< 24)

def md5Process (r : Abcd) (data : Str) : Abcd :=
  let X := word data
  let s := round4.foldl (set I X)
    (round3.foldl (set H X) (round2.foldl (set G X) (round1.foldl (set F X) r)))
  ⟨r.a + s.a, r.b + s.b, r.c + s.c, r.d + s.d⟩

structure Md5State where
  count0 : UInt32
  count1 : UInt32
  abcd : Abcd
  buf : Str

def md5Init : Md5State :=
  ⟨0, 0, ⟨0x67452301, T_MASK ^^^ 0x10325476, T_MASK ^^^ 0x67452301, 0x10325476⟩,
    List.replicate 64 0⟩

def memcpy (buf : Str) (offset : ℕ) (p : Str) : Str :=
  buf.take offset ++ p ++ buf.drop (offset + p.length)

/-- The full blocks of `p`, one after the other, and the bytes behind them. -/
def fullBlocks : ℕ → Abcd → Str → Abcd × Str
  | 0, r, p => (r, p)
  | fuel + 1, r, p =>
    if 64 ≤ p.length then fullBlocks fuel (md5Process r (p.take 64)) (p.drop 64)
    else (r, p)

def appendBlocks (pms : Md5State) (p : Str) : Md5State :=
  let r := fullBlocks p.length pms.abcd p
  { pms with abcd := r.1, buf := memcpy pms.buf 0 r.2 }

/-- The number of bytes is an `int`. -/
def md5Append (pms : Md5State) (data : Str) (nbytes : BitVec 32) : Md5State :=
  let offset := (pms.count0 >>> 3) &&& 63
  let nbits : UInt32 := ⟨nbytes <<< 3⟩
  if nbytes.sle 0#32 then pms
  else
    let count1 := pms.count1 + ⟨nbytes.sshiftRight 29⟩
    let count0 := pms.count0 + nbits
    let count1 := if count0 < nbits then count1 + 1 else count1
    let pms := { pms with count0 := count0, count1 := count1 }
    let p := data.take nbytes.toNat
    if offset ≠ 0 then
      let copy := if (64#32).slt (offset.toBitVec + nbytes) then 64 - offset.toNat else nbytes.toNat
      let pms := { pms with buf := memcpy pms.buf offset.toNat (p.take copy) }
      if offset.toNat + copy < 64 then pms
      else appendBlocks { pms with abcd := md5Process pms.abcd pms.buf } (p.drop copy)
    else appendBlocks pms p

def appendPiece (pms : Md5State) (data : Str) : Md5State :=
  md5Append pms data (BitVec.ofNat 32 data.length)

/-- Byte `i` of some words, the least significant byte of each first. -/
def byteOf (words : ℕ → UInt32) (i : ℕ) : Byte :=
  (words (i >>> 2) >>> UInt32.ofNat ((i &&& 3) <<< 3)).toUInt8

def pad : Str := 0x80 :: List.replicate 63 0

def Md5State.count (pms : Md5State) (i : ℕ) : UInt32 := if i = 0 then pms.count0 else pms.count1

def Abcd.word (r : Abcd) : ℕ → UInt32
  | 0 => r.a
  | 1 => r.b
  | 2 => r.c
  | _ => r.d

def md5Finish (pms : Md5State) : Str :=
  let data := (List.range 8).map (byteOf pms.count)
  let pms := md5Append pms pad (UInt32.toBitVec ((((55 : UInt32) - (pms.count0 >>> 3)) &&& 63) + 1))
  let pms := md5Append pms data 8#32
  (List.range 16).map (byteOf pms.abcd.word)

def uTohex (src : Str) : Str := src.flatMap hexByte

def uMd5 (buf : Str) : Str := uTohex (md5Finish (appendPiece md5Init buf))

/-! ## The algorithm

The message is padded with a one bit, zero bits and its length in 64 bits, and its blocks
of 16 words are folded into the registers with 64 steps each.
-/

def zeros (len : ℕ) : ℕ := (119 - len % 64) % 64

def lengthBytes (len : ℕ) : Str := (List.range 8).map fun i => UInt8.ofNat (8 * len / 256 ^ i)

def padded (m : Str) : Str := m ++ 0x80 :: List.replicate (zeros m.length) 0 ++ lengthBytes m.length

def sines : List UInt32 := [
    0xd76aa478, 0xe8c7b756, 0x242070db, 0xc1bdceee, 0xf57c0faf, 0x4787c62a, 0xa8304613, 0xfd469501,
    0x698098d8, 0x8b44f7af, 0xffff5bb1, 0x895cd7be, 0x6b901122, 0xfd987193, 0xa679438e, 0x49b40821,
    0xf61e2562, 0xc040b340, 0x265e5a51, 0xe9b6c7aa, 0xd62f105d, 0x02441453, 0xd8a1e681, 0xe7d3fbc8,
    0x21e1cde6, 0xc33707d6, 0xf4d50d87, 0x455a14ed, 0xa9e3e905, 0xfcefa3f8, 0x676f02d9, 0x8d2a4c8a,
    0xfffa3942, 0x8771f681, 0x6d9d6122, 0xfde5380c, 0xa4beea44, 0x4bdecfa9, 0xf6bb4b60, 0xbebfbc70,
    0x289b7ec6, 0xeaa127fa, 0xd4ef3085, 0x04881d05, 0xd9d4d039, 0xe6db99e5, 0x1fa27cf8, 0xc4ac5665,
    0xf4292244, 0x432aff97, 0xab9423a7, 0xfc93a039, 0x655b59c3, 0x8f0ccc92, 0xffeff47d, 0x85845dd1,
    0x6fa87e4f, 0xfe2ce6e0, 0xa3014314, 0x4e0811a1, 0xf7537e82, 0xbd3af235, 0x2ad7d2bb, 0xeb86d391]

def fnOf (i : ℕ) : UInt32 → UInt32 → UInt32 → UInt32 := [F, G, H, I].getD (i / 16) F

def wordOf (i : ℕ) : ℕ := [i, 5 * i + 1, 3 * i + 5, 7 * i].getD (i / 16) 0 % 16

def shiftOf (i : ℕ) : ℕ :=
  ([[7, 12, 17, 22], [5, 9, 14, 20], [4, 11, 16, 23], [6, 10, 15, 21]].getD (i / 16) []).getD
    (i % 4) 0

def rotl (x : UInt32) (n : ℕ) : UInt32 := ⟨x.toBitVec.rotateLeft n⟩

def turn (X : ℕ → UInt32) (r : Abcd) (i : ℕ) : Abcd :=
  ⟨r.d, r.b + rotl (r.a + fnOf i r.b r.c r.d + X (wordOf i) + sines.getD i 0) (shiftOf i), r.b, r.c⟩

def compress (r : Abcd) (block : Str) : Abcd :=
  let s := (List.range 64).foldl (turn (word block)) r
  ⟨r.a + s.a, r.b + s.b, r.c + s.c, r.d + s.d⟩

def initial : Abcd := ⟨0x67452301, 0xefcdab89, 0x98badcfe, 0x10325476⟩

def wordBytes (w : UInt32) : Str := (List.range 4).map fun i => UInt8.ofNat (w.toNat / 256 ^ i)

def output (r : Abcd) : Str := wordBytes r.a ++ wordBytes r.b ++ wordBytes r.c ++ wordBytes r.d

def digest (m : Str) : Str := output ((blocksOf 64 (padded m)).foldl compress initial)

/-! ## The rounds -/

theorem rotateLeft_eq (x : UInt32) {n : ℕ} (h : 0 < n) (hn : n < 32) :
    rotateLeft x (UInt32.ofNat n) = rotl x n := by
  have hleft : n % 32 = n := Nat.mod_eq_of_lt hn
  have hright : (4294967296 - n % 4294967296) % 32 = 32 - n := by omega
  apply UInt32.toBitVec_inj.mp
  apply BitVec.eq_of_toNat_eq
  simp [rotateLeft, rotl, BitVec.rotateLeft_def, hleft, hright]

def Order.view : Order → Abcd → Abcd
  | .abcd, r => r
  | .dabc, r => ⟨r.d, r.a, r.b, r.c⟩
  | .cdab, r => ⟨r.c, r.d, r.a, r.b⟩
  | .bcda, r => ⟨r.b, r.c, r.d, r.a⟩

def orderOf (i : ℕ) : Order := [.abcd, .dabc, .cdab, .bcda].getD (i % 4) .abcd

structure Op.IsStep (op : Op) (i : ℕ) : Prop where
  order : op.order = orderOf i
  k : op.k = wordOf i
  s : op.s = UInt32.ofNat (shiftOf i)
  shift : 0 < shiftOf i ∧ shiftOf i < 32
  ti : constants.getD (op.ti - 1) 0 = sines.getD i 0

instance (op : Op) (i : ℕ) : Decidable (op.IsStep i) :=
  decidable_of_iff (op.order = orderOf i ∧ op.k = wordOf i ∧ op.s = UInt32.ofNat (shiftOf i) ∧
    (0 < shiftOf i ∧ shiftOf i < 32) ∧ constants.getD (op.ti - 1) 0 = sines.getD i 0)
    ⟨fun ⟨ho, hk, hs, hshift, hti⟩ => ⟨ho, hk, hs, hshift, hti⟩,
      fun h => ⟨h.order, h.k, h.s, h.shift, h.ti⟩⟩

theorem orderOf_succ (i : ℕ) (r : Abcd) (a : UInt32) :
    (orderOf (i + 1)).view (match orderOf i with
      | .abcd => { r with a := a }
      | .dabc => { r with d := a }
      | .cdab => { r with c := a }
      | .bcda => { r with b := a }) =
    ⟨((orderOf i).view r).d, a, ((orderOf i).view r).b, ((orderOf i).view r).c⟩ := by
  have hmod : i % 4 = 0 ∧ (i + 1) % 4 = 1 ∨ i % 4 = 1 ∧ (i + 1) % 4 = 2 ∨ i % 4 = 2 ∧
    (i + 1) % 4 = 3 ∨
      i % 4 = 3 ∧ (i + 1) % 4 = 0 := by omega
  rcases hmod with h | h | h | h <;> simp [orderOf, h.1, h.2, Order.view]

/-- A line does its step. -/
theorem Op.IsStep.view {op : Op} {fn : UInt32 → UInt32 → UInt32 → UInt32} {i : ℕ} (h : op.IsStep i)
    (hfn : fn = fnOf i) (X : ℕ → UInt32) (r : Abcd) :
    (orderOf (i + 1)).view (set fn X r op) = turn X ((orderOf i).view r) i := by
  have hnew : ∀ a b c d, newValue fn X a b c d op =
      b + rotl (a + fnOf i b c d + X (wordOf i) + sines.getD i 0) (shiftOf i) := by
    intro a b c d
    rw [newValue, hfn, h.k, h.s, h.ti, rotateLeft_eq _ h.shift.1 h.shift.2, UInt32.add_comm]
  have hset : set fn X r op = match orderOf i with
      | .abcd => { r with a := newValue fn X r.a r.b r.c r.d op }
      | .dabc => { r with d := newValue fn X r.d r.a r.b r.c op }
      | .cdab => { r with c := newValue fn X r.c r.d r.a r.b op }
      | .bcda => { r with b := newValue fn X r.b r.c r.d r.a op } := by rw [set, h.order]
  have hview := orderOf_succ i r
    (newValue fn X ((orderOf i).view r).a ((orderOf i).view r).b ((orderOf i).view r).c
    ((orderOf i).view r).d op)
  rw [hset]
  simp only [hnew] at hview ⊢
  rw [turn, ← hview]
  cases orderOf i <;> rfl

/-- The lines of a round do their steps. -/
theorem round_foldl {fn : UInt32 → UInt32 → UInt32 → UInt32} {ops : List Op} {i : ℕ}
    (h : ∀ x ∈ ops.zipIdx i, x.1.IsStep x.2) (hfn : ∀ j, i ≤ j → j < i + ops.length → fn = fnOf j)
    (X : ℕ → UInt32) (r : Abcd) :
    (orderOf (i + ops.length)).view (ops.foldl (set fn X) r) =
      (List.range' i ops.length).foldl (turn X) ((orderOf i).view r) := by
  induction ops generalizing i r with
  | nil => rfl
  | cons op ops ih =>
    have hop : op.IsStep i := h (op, i) (by simp)
    have hrest := ih (i := i + 1)
      (fun x hx => h x (by rw [List.zipIdx_cons]; exact List.mem_cons_of_mem _ hx))
      (fun j hj hlt => hfn j (by omega) (by rw [List.length_cons]; omega)) (set fn X r op)
    rw [hop.view (hfn i (le_refl i) (by rw [List.length_cons]; omega))] at hrest
    rw [List.length_cons, List.range'_succ, List.foldl_cons, List.foldl_cons, ← hrest,
      Nat.add_assoc,
      Nat.add_comm 1 ops.length]

theorem orderOf_round (q : ℕ) (r : Abcd) : (orderOf (16 * q)).view r = r := by
  rw [orderOf, show 16 * q % 4 = 0 by omega]
  rfl

/-- The sixteen lines of a round. -/
theorem round_turns {fn : UInt32 → UInt32 → UInt32 → UInt32} {ops : List Op} (q : ℕ)
    (hlen : ops.length = 16) (h : ∀ x ∈ ops.zipIdx (16 * q), x.1.IsStep x.2)
    (hfn : fn = [F, G, H, I].getD q F) (X : ℕ → UInt32) (r : Abcd) :
    ops.foldl (set fn X) r = (List.range' (16 * q) 16).foldl (turn X) r := by
  have hfns : ∀ j, 16 * q ≤ j → j < 16 * q + ops.length → fn = fnOf j := by
    intro j hj hlt
    rw [hfn, fnOf, show j / 16 = q by omega]
  have hrun := round_foldl h hfns X r
  rwa [hlen, show 16 * q + 16 = 16 * (q + 1) by omega, orderOf_round, orderOf_round] at hrun

theorem round1_steps : ∀ x ∈ round1.zipIdx (16 * 0), x.1.IsStep x.2 := by decide
theorem round2_steps : ∀ x ∈ round2.zipIdx (16 * 1), x.1.IsStep x.2 := by decide
theorem round3_steps : ∀ x ∈ round3.zipIdx (16 * 2), x.1.IsStep x.2 := by decide
theorem round4_steps : ∀ x ∈ round4.zipIdx (16 * 3), x.1.IsStep x.2 := by decide

section Rounds
variable (X : ℕ → UInt32) (r : Abcd)

theorem round1_turns : round1.foldl (set F X) r = (List.range' (16 * 0) 16).foldl (turn X) r :=
  round_turns 0 rfl round1_steps rfl X r

theorem round2_turns : round2.foldl (set G X) r = (List.range' (16 * 1) 16).foldl (turn X) r :=
  round_turns 1 rfl round2_steps rfl X r

theorem round3_turns : round3.foldl (set H X) r = (List.range' (16 * 2) 16).foldl (turn X) r :=
  round_turns 2 rfl round3_steps rfl X r

theorem round4_turns : round4.foldl (set I X) r = (List.range' (16 * 3) 16).foldl (turn X) r :=
  round_turns 3 rfl round4_steps rfl X r

end Rounds

/-- The rounds that are written out compress a block. -/
theorem md5Process_eq (r : Abcd) (data : Str) : md5Process r data = compress r data := by
  have hall : List.range 64 =
      List.range' (16 * 0) 16 ++ List.range' (16 * 1) 16 ++ List.range' (16 * 2) 16 ++ List.range'
        (16 * 3) 16 := by decide
  simp only [md5Process, compress, hall, List.foldl_append, round1_turns, round2_turns,
    round3_turns, round4_turns]

/-! ## The state -/

structure After (pms : Md5State) (m : Str) : Prop where
  size : pms.buf.length = 64
  stream : Stream.append compress 64 ⟨initial, []⟩ m = ⟨pms.abcd, pms.buf.take (m.length % 64)⟩
  bits : pms.count0.toNat + 2 ^ 32 * pms.count1.toNat = 8 * m.length % 2 ^ 64

theorem md5Init_after : After md5Init [] := ⟨rfl, rfl, rfl⟩

theorem memcpy_length (buf p : Str) (offset : ℕ) (h : offset + p.length ≤ buf.length) :
    (memcpy buf offset p).length = buf.length := by
  simp only [memcpy, List.length_append, List.length_take, List.length_drop]
  omega

theorem memcpy_take (buf p : Str) (offset : ℕ) (h : offset ≤ buf.length) :
    (memcpy buf offset p).take (offset + p.length) = buf.take offset ++ p := by
  have hlen : (buf.take offset ++ p).length = offset + p.length := by simp [h]
  rw [memcpy, ← hlen, List.take_left]

theorem fullBlocks_eq {fuel : ℕ} (r : Abcd) {p : Str} (h : p.length ≤ fuel) :
    fullBlocks fuel r p = ((Stream.append compress 64 ⟨r, []⟩ p).value,
      (Stream.append compress 64 ⟨r, []⟩ p).rest) := by
  have hshort : ∀ (r : Abcd) (p : Str), p.length < 64 →
      Stream.append compress 64 ⟨r, []⟩ p = ⟨r, p⟩ := by
    intro r p hp
    rw [append_short (by simpa using hp)]
    rfl
  induction fuel generalizing r p with
  | zero => rw [fullBlocks, hshort r p (by omega)]
  | succ fuel ih =>
    rw [fullBlocks]
    by_cases hp : 64 ≤ p.length
    · rw [if_pos hp, ih _ (by rw [List.length_drop]; omega), md5Process_eq,
        append_block (by omega) rfl hp]
    · rw [if_neg hp, hshort r p (by omega)]

theorem stream_rest (m : Str) :
    (Stream.append compress 64 ⟨initial, []⟩ m).rest.length = m.length % 64 := by
  rw [append_rest_length (by simp)]
  simp

/-- Where the buffer is empty, blocks are taken from the piece. -/
theorem appendBlocks_after {pms : Md5State} {m p : Str} (hsize : pms.buf.length = 64)
    (hstream : Stream.append compress 64 ⟨initial, []⟩ m = ⟨pms.abcd, []⟩)
    (hbits : pms.count0.toNat + 2 ^ 32 * pms.count1.toNat = 8 * (m ++ p).length % 2 ^ 64) :
    After (appendBlocks pms p) (m ++ p) := by
  have hall : Stream.append compress 64 ⟨initial, []⟩ (m ++ p) =
      Stream.append compress 64 ⟨pms.abcd, []⟩ p := by
    rw [← append_append, hstream]
  have hrest := stream_rest (m ++ p)
  rw [hall] at hrest
  have hlt := Nat.mod_lt (m ++ p).length (show 0 < 64 by decide)
  have hbuf := fullBlocks_eq pms.abcd (le_refl p.length)
  refine ⟨?_, ?_, hbits⟩
  · rw [appendBlocks, hbuf, memcpy_length _ _ _ (by dsimp only; omega), hsize]
  · rw [hall, appendBlocks, hbuf, ← hrest]
    have htake := memcpy_take pms.buf (Stream.append compress 64 ⟨pms.abcd, []⟩ p).rest 0
      (Nat.zero_le _)
    rw [Nat.zero_add, List.take_zero, List.nil_append] at htake
    rw [htake]

/-! The number of bits, and what the code makes of the number of bytes. -/

theorem count_append {c0 c1 : UInt32} {len n : ℕ}
    (h : c0.toNat + 2 ^ 32 * c1.toNat = 8 * len % 2 ^ 64) {b w : BitVec 32}
    (hb : b.toNat = 8 * n % 2 ^ 32) (hw : w.toNat = n / 2 ^ 29) :
    (c0 + ⟨b⟩).toNat + 2 ^ 32 * (if c0 + ⟨b⟩ < ⟨b⟩ then c1 + ⟨w⟩ + 1 else c1 + ⟨w⟩).toNat =
    8 * (len + n) % 2 ^ 64 := by
  have hc0 := c0.toNat_lt
  have hc1 := c1.toNat_lt
  have hb' : (UInt32.ofBitVec b).toNat = 8 * n % 2 ^ 32 := hb
  have hw' : (UInt32.ofBitVec w).toNat = n / 2 ^ 29 := hw
  have hsum := UInt32.toNat_add c0 ⟨b⟩
  have hhigh := UInt32.toNat_add c1 ⟨w⟩
  have hnext := UInt32.toNat_add (c1 + ⟨w⟩) 1
  have hone : (1 : UInt32).toNat = 1 := rfl
  simp only [UInt32.lt_iff_toNat_lt]
  split
  · omega
  · omega

theorem offset_eq {c0 c1 : UInt32} {len : ℕ} (h : c0.toNat + 2 ^ 32 * c1.toNat = 8 * len % 2 ^ 64) :
    ((c0 >>> 3) &&& 63).toNat = len % 64 := by
  have hand : ((c0 >>> 3) &&& 63).toNat = c0.toNat / 8 % 64 := by
    rw [UInt32.toNat_and, UInt32.toNat_shiftRight, Nat.shiftRight_eq_div_pow]
    exact Nat.and_two_pow_sub_one_eq_mod (c0.toNat / 2 ^ 3) 6
  have hc0 := c0.toNat_lt
  omega

section Int
variable {b : BitVec 32}

theorem toInt_small (h : b.toNat < 2 ^ 31) :
    b.toInt = b.toNat := BitVec.toInt_eq_toNat_of_lt (by omega)

theorem sle_zero_iff (h : b.toNat < 2 ^ 31) : b.sle 0#32 = true ↔ b.toNat = 0 := by
  rw [BitVec.sle_iff_toInt_le, toInt_small h]
  simp

theorem shiftLeft_three : (b <<< 3).toNat = 8 * b.toNat % 2 ^ 32 := by
  rw [BitVec.toNat_shiftLeft, Nat.shiftLeft_eq, Nat.mul_comm]

theorem sshiftRight_high (h : b.toNat < 2 ^ 31) : (b.sshiftRight 29).toNat = b.toNat / 2 ^ 29 := by
  have hmsb : b.msb = false := by
    rw [BitVec.msb_eq_false_iff_two_mul_lt]
    omega
  rw [BitVec.sshiftRight_eq_of_msb_false hmsb, BitVec.toNat_ushiftRight, Nat.shiftRight_eq_div_pow]

theorem slt_sum_iff (offset : UInt32) (h : offset.toNat + b.toNat < 2 ^ 31) :
    (64#32).slt (offset.toBitVec + b) = true ↔ 64 < offset.toNat + b.toNat := by
  have hsum : (offset.toBitVec + b).toNat = offset.toNat + b.toNat := by
    rw [BitVec.toNat_add, UInt32.toNat_toBitVec]
    omega
  have hint : (offset.toBitVec + b).toInt = (offset.toNat + b.toNat : ℕ) := by
    rw [toInt_small (by omega), hsum]
  rw [BitVec.slt_iff_toInt_lt, hint]
  exact Nat.cast_lt (α := ℤ)

end Int

/-- Behind the beginning of a block, which the buffer has, a piece that does not complete it. -/
theorem short_after {pms : Md5State} {m p : Str} (h : After pms m)
    (hshort : m.length % 64 + p.length < 64) {c0 c1 : UInt32}
    (hbits : c0.toNat + 2 ^ 32 * c1.toNat = 8 * (m ++ p).length % 2 ^ 64) :
    After ⟨c0, c1, pms.abcd, memcpy pms.buf (m.length % 64) p⟩ (m ++ p) := by
  have hsize := h.size
  have hlen : (pms.buf.take (m.length % 64)).length = m.length % 64 :=
    List.length_take_of_le (by omega)
  have hall : (m ++ p).length % 64 = m.length % 64 + p.length := by
    rw [List.length_append]
    omega
  refine ⟨?_, ?_, hbits⟩
  · rw [memcpy_length _ _ _ (by omega), hsize]
  · rw [← append_append, h.stream, append_short (by rw [hlen]; exact hshort), hall,
      memcpy_take _ _ _ (by omega)]

/-- A piece that completes the block. -/
theorem full_after {pms : Md5State} {m p : Str} (h : After pms m) (hne : p ≠ [])
    (hfull : m.length % 64 + p.length = 64) :
    (memcpy pms.buf (m.length % 64) p).length = 64 ∧
    Stream.append compress 64 ⟨initial, []⟩ (m ++ p) =
      ⟨md5Process pms.abcd (memcpy pms.buf (m.length % 64) p), []⟩ := by
  have hsize := h.size
  have hlen : (pms.buf.take (m.length % 64)).length = m.length % 64 :=
    List.length_take_of_le (by omega)
  have hbuf := memcpy_length pms.buf p (m.length % 64) (by omega)
  have hmem := memcpy_take pms.buf p (m.length % 64) (by omega)
  rw [List.take_of_length_le (by omega)] at hmem
  refine ⟨hbuf.trans hsize, ?_⟩
  rw [← append_append, h.stream, append_exact hne (by rw [hlen]; exact hfull), hmem, md5Process_eq]

/-- The step: a piece of a message. -/
theorem md5Append_after {pms : Md5State} {m : Str} (h : After pms m) (data : Str)
    (nbytes : BitVec 32) (hn : nbytes.toNat + 63 < 2 ^ 31) (hle : nbytes.toNat ≤ data.length) :
    After (md5Append pms data nbytes) (m ++ data.take nbytes.toNat) := by
  have hsmall : nbytes.toNat < 2 ^ 31 := by omega
  have hoff := offset_eq h.bits
  have hoff64 := Nat.mod_lt m.length (show 0 < 64 by decide)
  obtain ⟨p, hp⟩ : ∃ p, data.take nbytes.toNat = p := ⟨_, rfl⟩
  have hplen : p.length = nbytes.toNat := by rw [← hp, List.length_take_of_le hle]
  have hcount := count_append h.bits (n := nbytes.toNat) shiftLeft_three (sshiftRight_high hsmall)
  rw [← hplen, ← List.length_append] at hcount
  by_cases hz : nbytes.toNat = 0
  · rw [md5Append, if_pos ((sle_zero_iff hsmall).mpr hz), hz, List.take_zero, List.append_nil]
    exact h
  have hzero : ¬ nbytes.sle 0#32 = true := fun he => hz ((sle_zero_iff hsmall).mp he)
  have hslt := slt_sum_iff ((pms.count0 >>> 3) &&& 63) (b := nbytes) (by omega)
  have hoffset : (pms.count0 >>> 3) &&& 63 = 0 ↔ m.length % 64 = 0 := by
    rw [← hoff, ← UInt32.toNat_inj]
    rfl
  rw [hoff] at hslt
  simp only [md5Append, if_neg hzero, hp, hslt, hoff, ne_eq, hoffset]
  by_cases hbegin : m.length % 64 = 0
  · rw [if_neg (not_not.mpr hbegin)]
    have hstream := h.stream
    rw [hbegin, List.take_zero] at hstream
    exact appendBlocks_after h.size hstream hcount
  rw [if_pos hbegin]
  by_cases hlong : 64 ≤ m.length % 64 + nbytes.toNat
  · obtain ⟨copy, hcopy⟩ : ∃ copy,
      (if 64 < m.length % 64 + nbytes.toNat then 64 - m.length % 64 else nbytes.toNat) = copy :=
      ⟨_, rfl⟩
    have hfills : m.length % 64 + copy = 64 := by
      rw [← hcopy]
      split <;> omega
    have htake : (p.take copy).length = copy := List.length_take_of_le (by omega)
    obtain ⟨hbuf, hfull⟩ := full_after h (p := p.take copy) (List.length_pos_iff.mp (by omega))
      (by rw [htake, hfills])
    simp only [hcopy, hfills, lt_self_iff_false, if_false]
    have hall : m ++ p = m ++ p.take copy ++ p.drop copy := by
      rw [List.append_assoc, List.take_append_drop]
    rw [hall] at hcount ⊢
    exact appendBlocks_after hbuf hfull hcount
  · have hcopy : (if 64 < m.length % 64 + nbytes.toNat then 64 - m.length % 64 else nbytes.toNat) =
      nbytes.toNat :=
      if_neg (by omega)
    have hall : p.take nbytes.toNat = p := List.take_of_length_le hplen.le
    rw [hcopy, if_pos (by omega), hall]
    exact short_after h (by omega) hcount

theorem appendPiece_after {pms : Md5State} {m : Str} (h : After pms m) {p : Str}
    (hp : p.length + 63 < 2 ^ 31) :
    After (appendPiece pms p) (m ++ p) := by
  have hlen : (BitVec.ofNat 32 p.length).toNat = p.length := by
    rw [BitVec.toNat_ofNat]
    omega
  have happend := md5Append_after h p (BitVec.ofNat 32 p.length) (by omega) (by omega)
  rwa [hlen, List.take_length] at happend

/-- The run: a message in pieces. -/
theorem pieces_after (pieces : List Str) (hp : ∀ p ∈ pieces, p.length + 63 < 2 ^ 31) :
    After (pieces.foldl appendPiece md5Init) pieces.flatten := by
  have hrun : ∀ {pms m}, After pms m →
      After (pieces.foldl appendPiece pms) (m ++ pieces.flatten) := by
    induction pieces with
    | nil =>
      intro pms m h
      rwa [List.flatten_nil, List.append_nil]
    | cons p pieces ih =>
      intro pms m h
      have hstep := ih (fun q hq => hp q (List.mem_cons_of_mem p hq))
        (appendPiece_after h (hp p List.mem_cons_self))
      rwa [List.append_assoc] at hstep
  exact hrun md5Init_after

/-! ## The end of a message -/

theorem byteOf_eq (words : ℕ → UInt32) (i : ℕ) :
    byteOf words i = UInt8.ofNat ((words (i / 4)).toNat / 256 ^ (i % 4)) := by
  have hword : i >>> 2 = i / 4 := Nat.shiftRight_eq_div_pow i 2
  have hbyte : (i &&& 3) <<< 3 = 8 * (i % 4) := by
    rw [Nat.shiftLeft_eq, Nat.mul_comm,
      show i &&& 3 = i % 4 from Nat.and_two_pow_sub_one_eq_mod i 2]
  have hshift : (UInt32.ofNat (8 * (i % 4))).toNat % 32 = 8 * (i % 4) := by
    rw [UInt32.toNat_ofNat']
    omega
  apply UInt8.toNat_inj.mp
  rw [byteOf, hword, hbyte, UInt32.toNat_toUInt8, UInt32.toNat_shiftRight, hshift,
    UInt8.toNat_ofNat',
    Nat.shiftRight_eq_div_pow, pow_mul]
  rfl

/-- The length is saved before the padding is counted. -/
theorem saved_length {pms : Md5State} {m : Str} (h : After pms m) :
    (List.range 8).map (byteOf pms.count) = lengthBytes m.length := by
  have hbits := h.bits
  have h0 := pms.count0.toNat_lt
  have h1 := pms.count1.toNat_lt
  have hlow : pms.count 0 = pms.count0 := rfl
  have hhigh : pms.count 1 = pms.count1 := rfl
  apply List.map_congr_left
  intro i hi
  rw [byteOf_eq]
  apply UInt8.toNat_inj.mp
  rw [UInt8.toNat_ofNat', UInt8.toNat_ofNat']
  have hlt := List.mem_range.mp hi
  interval_cases i <;> simp only [hlow, hhigh, Nat.reduceDiv, Nat.reduceMod, Nat.reducePow] <;>
    omega

/-- The padding ends where 8 bytes of the block are left. -/
theorem padding_length {pms : Md5State} {m : Str} (h : After pms m) :
    (UInt32.toBitVec ((((55 : UInt32) - (pms.count0 >>> 3)) &&& 63) + 1)).toNat =
    zeros m.length + 1 := by
  have hbits := h.bits
  have h0 := pms.count0.toNat_lt
  have hshift : (pms.count0 >>> 3).toNat = pms.count0.toNat / 8 := by
    rw [UInt32.toNat_shiftRight, Nat.shiftRight_eq_div_pow]
    rfl
  have hand : (((55 : UInt32) - (pms.count0 >>> 3)) &&& 63).toNat =
      ((55 : UInt32) - (pms.count0 >>> 3)).toNat % 64 := by
    rw [UInt32.toNat_and]
    exact Nat.and_two_pow_sub_one_eq_mod _ 6
  have h55 : (55 : UInt32).toNat = 55 := rfl
  have h1 : (1 : UInt32).toNat = 1 := rfl
  rw [UInt32.toNat_toBitVec, UInt32.toNat_add, hand, UInt32.toNat_sub, hshift, h55, h1, zeros]
  omega

theorem pad_take (len : ℕ) : pad.take (zeros len + 1) = 0x80 :: List.replicate (zeros len) 0 := by
  have hz : zeros len ≤ 63 := by
    unfold zeros
    omega
  rw [pad, List.take_succ_cons, List.take_replicate, Nat.min_eq_left hz]

theorem output_eq (r : Abcd) : (List.range 16).map (byteOf r.word) = output r := by
  have hrange : List.range 16 = [0, 1, 2, 3, 4, 5, 6, 7, 8, 9, 10, 11, 12, 13, 14, 15] := rfl
  have hfour : List.range 4 = [0, 1, 2, 3] := rfl
  simp [hrange, hfour, byteOf_eq, Abcd.word, output, wordBytes]

theorem md5Finish_after {pms : Md5State} {m : Str} (h : After pms m) :
    md5Finish pms = digest m := by
  have hz : zeros m.length < 64 := Nat.mod_lt _ (by decide)
  have hlen := padding_length h
  have hpad := md5Append_after h pad _ (by rw [hlen]; omega)
    (by rw [hlen, pad, List.length_cons, List.length_replicate]; omega)
  rw [hlen, pad_take] at hpad
  have hall := md5Append_after hpad (lengthBytes m.length) 8#32 (by decide) (by simp [lengthBytes])
  have htake : (lengthBytes m.length).take (8#32).toNat = lengthBytes m.length :=
    List.take_of_length_le (by simp [lengthBytes])
  rw [htake, show m ++ 0x80 :: List.replicate (zeros m.length) 0 ++ lengthBytes m.length =
    padded m from rfl] at hall
  have hvalue := append_value (f := compress) (show 0 < 64 by decide) initial (padded m)
  rw [hall.stream] at hvalue
  rw [md5Finish, saved_length h, digest, ← hvalue]
  simp only [output_eq]

/-! ## Digests of messages -/

/-- Whatever the pieces in which a message is appended, its digest comes out. -/
theorem md5_pieces (pieces : List Str) (hp : ∀ p ∈ pieces, p.length + 63 < 2 ^ 31) :
    md5Finish (pieces.foldl appendPiece md5Init) = digest pieces.flatten :=
  md5Finish_after (pieces_after pieces hp)

def tenDigits : Str := bytes "1234567890"

/-- Eighty digits, of which the second piece fills a block of 64 bytes. -/
def digitPieces : List Str := [tenDigits, (List.replicate 6 tenDigits).flatten, tenDigits]

theorem md5_pieces_digits : uTohex (md5Finish (digitPieces.foldl appendPiece md5Init)) =
      bytes "57edf4a22be3c955ac49da2e2107b67a" ∧
    md5Finish (digitPieces.foldl appendPiece md5Init) = digest digitPieces.flatten :=
  ⟨by decide +kernel, md5_pieces digitPieces (by decide)⟩

/-- A buffer is a message in one piece, unless its length is negative as an `int`. -/
theorem uMd5_eq (buf : Str) : (buf.length + 63 < 2 ^ 31 → uMd5 buf = uTohex (digest buf)) ∧
    (2 ^ 31 ≤ buf.length % 2 ^ 32 → uMd5 buf = uTohex (digest [])) := by
  refine ⟨fun h => ?_, fun h => ?_⟩
  · rw [uMd5, md5Finish_after (appendPiece_after md5Init_after h), List.nil_append]
  · have hneg : (BitVec.ofNat 32 buf.length).sle 0#32 = true := by
      rw [BitVec.sle_iff_toInt_le, BitVec.toInt_eq_toNat_cond, BitVec.toNat_ofNat]
      have hlt := Nat.mod_lt buf.length (show 0 < 2 ^ 32 by decide)
      rw [if_neg (by omega), BitVec.toInt_zero]
      omega
    rw [uMd5, appendPiece, md5Append, if_pos hneg, md5Finish_after md5Init_after]

set_option maxRecDepth 10000 in
example : uMd5 (bytes "abc") = bytes "900150983cd24fb0d6963f7d28e17f72" := by decide

end Klone.Md5
