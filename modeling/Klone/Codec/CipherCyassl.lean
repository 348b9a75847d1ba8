import Klone.Io.Chain

/-! # The cipher codec of CyaSSL

CyaSSL has no calls for pieces of a text, so this codec keeps all input and encrypts or
decrypts it when it is flushed for the first time.
-/
namespace Klone.Chain

def AES_BLOCK_SIZE : ℕ := 16

inductive CipherOp where
  | encrypt
  | decrypt
  deriving DecidableEq, Repr

/-- `AesCbcEncrypt` or `AesCbcDecrypt` with the context after `AesSetKey`: what is stored
over the bytes that it is given. -/
structure AesCbc where
  Ctx : Type
  init : Ctx
  op : Ctx → Str → Ctx × Str

namespace Cyassl

/-- The bytes that have been given and, once the output is ready, the output with the
offset of what has not been copied out. Before that the offset is zero. -/
inductive Cipher (a : AesCbc) where
  | feeding (aes : a.Ctx) (ubuf : Str)
  | outready (ubuf : Str) (off : ℕ) (fits : off ≤ ubuf.length)

def padded (s : Str) : Str :=
  let len := (s.length / AES_BLOCK_SIZE + 1) * AES_BLOCK_SIZE
  s ++ List.replicate (len - s.length) (UInt8.ofNat (len - s.length))

/-- The text without its padding, if that is what is expected. -/
def unpadded (s : Str) : Option Str :=
  s.getLast?.bind fun pad =>
    if pad < 1 ∨ 16 < pad then none
    else if (s.drop (s.length - pad.toNat)).all (· == pad) then
      some (s.take (s.length - pad.toNat)) else none

section Operations
variable {a : AesCbc}

/-- The operation on the whole buffer. Its length is passed on as a number of 32 bits. -/
def aesCall (aes : a.Ctx) (buf : Str) : a.Ctx × Str :=
  let sz := buf.length % 2 ^ 32
  let r := a.op aes (buf.take sz)
  (r.1, r.2 ++ buf.drop sz)

/-- The output, or the codec that an error leaves. The last byte of no bytes is no padding. -/
def prepared (op : CipherOp) (aes : a.Ctx) (ubuf : Str) : Except (Cipher a) Str :=
  match op with
  | .encrypt => .ok (aesCall aes (padded ubuf)).2
  | .decrypt =>
    if ubuf.length % AES_BLOCK_SIZE ≠ 0 then .error (.feeding aes ubuf)
    else
      let r := aesCall aes ubuf
      match unpadded r.2 with
      | none => .error (.feeding r.1 r.2)
      | some out => .ok out

def copyOut (ubuf : Str) (off : ℕ) (fits : off ≤ ubuf.length) (room : ℕ) : Flushed (Cipher a) :=
  let sz := min room (ubuf.length - off)
  ⟨.outready ubuf (off + sz) (by omega), if sz = 0 then .complete else .chunk, sz,
    window ubuf off sz⟩

def cipherFlush (op : CipherOp) (cc : Cipher a) (room : ℕ) : Flushed (Cipher a) :=
  match cc with
  | .feeding aes ubuf =>
    match prepared op aes ubuf with
    | .error cc => ⟨cc, .error, 0, []⟩
    | .ok out => copyOut out 0 (Nat.zero_le _) room
  | .outready ubuf off fits => copyOut ubuf off fits room

def Cipher.append (cc : Cipher a) (src : Str) : Cipher a :=
  match cc with
  | .feeding aes ubuf => .feeding aes (ubuf ++ src)
  | .outready ubuf off fits =>
    .outready (ubuf ++ src) off
      (by rw [List.length_append]; exact fits.trans (Nat.le_add_right _ _))

def cipherTransform (cc : Cipher a) (room : ℕ) (src : Str) : Transformed (Cipher a) :=
  if room = 0 ∨ src = [] then ⟨cc, none, []⟩ else ⟨cc.append src, some src.length, []⟩

end Operations

def codecCipherCreate (a : AesCbc) (op : CipherOp) : Codec where
  State := Cipher a
  init := .feeding a.init []
  transform := cipherTransform
  flush := cipherFlush op

/-! ## Padding -/

theorem padded_length (s : Str) :
    (padded s).length = (s.length / AES_BLOCK_SIZE + 1) * AES_BLOCK_SIZE := by
  simp only [padded, AES_BLOCK_SIZE, List.length_append, List.length_replicate]
  omega

/-- The padding is a number of bytes that can be told from its last byte. -/
theorem unpadded_padded (s : Str) : unpadded (padded s) = some s := by
  obtain ⟨k, hk, hpos, hle⟩ : ∃ k, (s.length / AES_BLOCK_SIZE + 1) * AES_BLOCK_SIZE - s.length = k ∧
      0 < k ∧ k ≤ 16 := by
    unfold AES_BLOCK_SIZE
    exact ⟨_, rfl, by omega, by omega⟩
  have hpad : padded s = s ++ List.replicate k (UInt8.ofNat k) := by
    rw [padded, hk]
  have hnat : (UInt8.ofNat k).toNat = k := by
    rw [UInt8.toNat_ofNat']
    exact Nat.mod_eq_of_lt (by omega)
  have hlast : (padded s).getLast? = some (UInt8.ofNat k) := by
    rw [hpad, List.getLast?_append, List.getLast?_replicate, if_neg (by omega)]
    rfl
  have hrange : ¬ (UInt8.ofNat k < 1 ∨ 16 < UInt8.ofNat k) := by
    rw [UInt8.lt_iff_toNat_lt, UInt8.lt_iff_toNat_lt, hnat]
    simp
    omega
  have hlen : (padded s).length - k = s.length := by
    rw [hpad, List.length_append, List.length_replicate, Nat.add_sub_cancel]
  rw [unpadded, hlast, Option.bind_some, if_neg hrange, hnat, hlen, hpad, List.drop_left,
    List.take_left, if_pos]
  simp

/-! ## The contract of the codec -/

variable {a : AesCbc} {op : CipherOp} {wide : Prop} {total result : Str}

theorem open_feeding {s : (codecCipherCreate a op).State} {inp out : Str}
    (h : (codecCipherCreate a op).Open wide total s inp out) :
    s = .feeding a.init inp ∧ out = [] := by
  induction h with
  | init => exact ⟨rfl, rfl⟩
  | @transform s inp out room src k _ hroom _ hsrc _ hret ih =>
    obtain ⟨rfl, rfl⟩ := ih
    have hno : ¬ (room = 0 ∨ src = []) := by
      rintro (h | h)
      · omega
      · exact hsrc h
    have he : (codecCipherCreate a op).transform (.feeding a.init inp) room src =
        ⟨.feeding a.init (inp ++ src), some src.length, []⟩ := if_neg hno
    rw [he] at hret ⊢
    obtain rfl := Option.some.inj hret
    rw [List.take_length]
    exact ⟨rfl, rfl⟩

/-- The codec is being flushed: nothing has been flushed yet, or `out` has been copied out. -/
def Ending (a : AesCbc) (total result out : Str) (s : Cipher a) : Prop :=
  s = .feeding a.init total ∧ out = [] ∨ ∃ off fits, s = .outready result off fits ∧
    out = result.take off

/-- A call of `flush` copies some of the output, or there is no more. -/
theorem copyOut_moves {off : ℕ} (fits : off ≤ result.length) {room : ℕ} (hroom : 0 < room) :
    (copyOut (a := a) result off fits room).out.length ≤ room ∧
      (copyOut (a := a) result off fits room).dcount =
        (copyOut (a := a) result off fits room).out.length ∧
      Ending a total result (result.take off ++ (copyOut (a := a) result off fits room).out)
        (copyOut (a := a) result off fits room).state ∧
      ((copyOut (a := a) result off fits room).ret = .complete ∧ result.take off = result ∧
          (copyOut (a := a) result off fits room).out = [] ∨
        (copyOut (a := a) result off fits room).ret = .chunk ∧
        (copyOut (a := a) result off fits room).out ≠ []) := by
  have hlen : (window result off (min room (result.length - off))).length =
      min room (result.length - off) :=
    length_window (by omega)
  have hout : result.take off ++ window result off (min room (result.length - off)) =
      result.take (off + min room (result.length - off)) := by
    rw [window, List.take_add]
  refine ⟨?_, hlen.symm, Or.inr ⟨_, _, rfl, hout⟩, ?_⟩
  · change (window result off _).length ≤ room
    omega
  · unfold copyOut
    by_cases hz : min room (result.length - off) = 0
    · refine Or.inl ⟨if_pos hz, List.take_of_length_le (by omega), ?_⟩
      dsimp only
      rw [hz, window_zero]
    · refine Or.inr ⟨if_neg hz, ?_⟩
      intro hnil
      rw [show window result off (min room (result.length - off)) = [] from hnil] at hlen
      exact hz hlen.symm

theorem cipherFlush_moves (h : prepared op a.init total = .ok result) {s : Cipher a} {out : Str}
    {room : ℕ} (hroom : 0 < room) (hd : Ending a total result out s) :
    (cipherFlush op s room).out.length ≤ room ∧
    (cipherFlush op s room).dcount = (cipherFlush op s room).out.length ∧
      Ending a total result (out ++ (cipherFlush op s room).out) (cipherFlush op s room).state ∧
      ((cipherFlush op s room).ret = .complete ∧ out = result ∧ (cipherFlush op s room).out = [] ∨
        (cipherFlush op s room).ret = .chunk ∧ (cipherFlush op s room).out ≠ []) := by
  rcases hd with ⟨rfl, rfl⟩ | ⟨off, fits, rfl, rfl⟩
  · have he : cipherFlush op (.feeding a.init total) room =
      copyOut result 0 (Nat.zero_le _) room := by
      simp only [cipherFlush, h]
    rw [he]
    exact copyOut_moves (Nat.zero_le _) hroom
  · exact copyOut_moves fits hroom

theorem draining_ending (h : prepared op a.init total = .ok result)
    {s : (codecCipherCreate a op).State} {out : Str}
    (hd : (codecCipherCreate a op).Draining False wide total s out) :
    Ending a total result out s := by
  induction hd with
  | start ho => exact Or.inl (open_feeding ho)
  | chunk _ hroom _ _ ih => exact (cipherFlush_moves h (hroom.resolve_left id) ih).2.2.1
  | complete _ hroom _ hret ih =>
    obtain ⟨-, -, hend, hcase⟩ := cipherFlush_moves h (hroom.resolve_left id) ih
    rcases hcase with ⟨-, -, hnil⟩ | ⟨hc, -⟩
    · rw [hnil, List.append_nil] at hend
      exact hend
    · cases hc.symm.trans hret

theorem Ending.begins {s : Cipher a} {out : Str} (h : Ending a total result out s) :
    out <+: result := by
  rcases h with ⟨-, rfl⟩ | ⟨off, -, -, rfl⟩
  · exact List.nil_prefix
  · exact List.take_prefix off result

/-- The codec computes what is prepared from the whole input. It is not strict: without
room it takes a flush for complete. -/
theorem codecCipher_computes (h : prepared op a.init total = .ok result) :
    (codecCipherCreate a op).Computes False wide total result := by
  refine ⟨?_, ?_, ?_, fun hd => (draining_ending h hd).begins⟩
  · intro s inp out ho room src hroom _ hsrc _
    have hno : ¬ (room = 0 ∨ src = []) := by
      rintro (hz | hz)
      · omega
      · exact hsrc hz
    have he : (codecCipherCreate a op).transform s room src = ⟨s.append src, some src.length, []⟩ :=
      if_neg hno
    rw [he]
    exact ⟨_, rfl, le_refl _, Nat.zero_le _, Or.inl (List.length_pos_iff.mpr hsrc)⟩
  · intro s inp out ho
    rw [(open_feeding ho).2]
    exact List.nil_prefix
  · intro s out hd room hroom _
    obtain ⟨hlen, hcount, -, hcase⟩ :=
      cipherFlush_moves h (hroom.resolve_left id) (draining_ending h hd)
    refine ⟨hlen, ?_⟩
    rcases hcase with ⟨hret, hall, -⟩ | ⟨hret, hne⟩
    · exact Or.inl ⟨hret, hall, False.elim⟩
    · exact Or.inr ⟨hret, hcount, Or.inl hne⟩

end Cyassl

end Klone.Chain
