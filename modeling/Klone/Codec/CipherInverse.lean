import Klone.Codec.FlushContract
import Klone.Io.Drive

/-! # Encrypting and decrypting

Both cipher codecs give the same bytes however the plaintext is cut and whatever the
rooms are, and decrypting with the same key gives the plaintext back.
-/
namespace Klone.Chain

/-- EVP's promise: the pieces in which a text is given do not matter, and what
`EVP_Encrypt*` makes of a text is turned back by `EVP_Decrypt*`. -/
def EvpInverse (enc dec : Evp) : Prop :=
  ∃ encrypted : Str → Str, ∀ plain, enc.Computes plain (encrypted plain) ∧
    dec.Computes (encrypted plain) plain

/-- The output of a call is at most its input and a block, less a byte; the last is a block. -/
structure Evp.Bounded (evp : Evp) (block : ℕ) : Prop where
  update : ∀ {ctx ctx' src o}, evp.update ctx src = some (ctx', o) →
    o.length ≤ src.length + block - 1
  final : ∀ {ctx o}, evp.final ctx = some o → o.length ≤ block

/-- On whole blocks `AesCbcEncrypt` keeps the length and `AesCbcDecrypt` turns it back. -/
def AesInverse (enc dec : AesCbc) : Prop :=
  ∀ s : Str, s.length % AES_BLOCK_SIZE = 0 →
    (enc.op enc.init s).2.length = s.length ∧ (dec.op dec.init (enc.op enc.init s).2).2 = s

/-- Every plaintext has one encryption, whatever the pieces and the rooms, which is turned
back whatever the pieces and the rooms. -/
def CodecInverse (enc dec : Codec) : Prop :=
  ∀ plain, ∃ encrypted, enc.Emits plain encrypted ∧ dec.Emits encrypted plain

def cbufSize (block : ℕ) : ℕ := CODEC_CIPHER_MAX_INPUT + block - 1

/-! ## The codec over EVP -/

theorem cipher_inverse {enc dec : Evp} (h : EvpInverse enc dec) :
    CodecInverse (codecCipherCreate enc) (codecCipherCreate dec) := by
  obtain ⟨encrypted, h⟩ := h
  exact fun plain => ⟨encrypted plain, (codecCipher_computes (h plain).1).emits,
    (codecCipher_computes (h plain).2).emits⟩

theorem cipherTransform_cbuf {evp : Evp} {block : ℕ} (hb : evp.Bounded block) {cc : Cipher evp}
    (h : cc.cbuf.length ≤ cbufSize block) (room : ℕ) (src : Str) :
    (cipherTransform cc room src).state.cbuf.length ≤ cbufSize block := by
  unfold cipherTransform
  split
  · exact h
  split
  · exact (List.drop_sublist _ _).length_le.trans h
  split
  · exact h
  · next ctx o hu =>
    have hlen := hb.update hu
    have htake := List.length_take_le CODEC_CIPHER_MAX_INPUT src
    have hdrop : (o.drop room).length ≤ o.length := by simp
    change (o.drop room).length ≤ cbufSize block
    unfold cbufSize
    omega

theorem cipherFlush_cbuf {evp : Evp} {block : ℕ} (hb : evp.Bounded block) {cc : Cipher evp}
    (h : cc.cbuf.length ≤ cbufSize block) (room : ℕ) :
    (cipherFlush cc room).state.cbuf.length ≤ cbufSize block := by
  unfold cipherFlush
  split
  · exact (List.drop_sublist _ _).length_le.trans h
  split
  · split
    · exact h
    · exact h
    · next o _ ho =>
      have hlen := hb.final ho
      have hdrop := (List.drop_sublist room o).length_le
      change (o.drop room).length ≤ cbufSize block
      unfold cbufSize CODEC_CIPHER_MAX_INPUT
      omega
  · exact h

/-- Whatever the calls, nothing is stored past the end of the buffer. -/
theorem cipher_inside {evp : Evp} {block : ℕ} (hb : evp.Bounded block) (calls : List CodecCall) :
    (Cipher.cbuf ((codecCipherCreate evp).after calls)).length ≤ cbufSize block := by
  refine List.foldlRecOn calls _
    (motive := fun cc : Cipher evp => cc.cbuf.length ≤ cbufSize block) ?_ ?_
  · exact Nat.zero_le _
  · intro cc h call _
    cases call with
    | transform room src => exact cipherTransform_cbuf hb h room src
    | flush room => exact cipherFlush_cbuf hb h room

/-! ## The codec of CyaSSL -/

namespace Cyassl
variable {enc dec : AesCbc}

/-- The part whose length fits in 32 bits is turned back, and the rest has not been
changed. -/
theorem aesCall_inverse (h : AesInverse enc dec) {s : Str} (hs : s.length % AES_BLOCK_SIZE = 0) :
    (aesCall (a := enc) enc.init s).2.length = s.length ∧
      (aesCall (a := dec) dec.init (aesCall (a := enc) enc.init s).2).2 = s := by
  have hsz : (s.take (s.length % 2 ^ 32)).length = s.length % 2 ^ 32 := by
    rw [List.length_take]
    exact Nat.min_eq_left (Nat.mod_le _ _)
  obtain ⟨hlen, hback⟩ := h (s.take (s.length % 2 ^ 32)) (by
    rw [hsz]
    unfold AES_BLOCK_SIZE at hs ⊢
    omega)
  rw [hsz] at hlen
  have hout : (aesCall (a := enc) enc.init s).2.length = s.length := by
    change ((enc.op enc.init (s.take (s.length % 2 ^ 32))).2 ++ s.drop (s.length % 2 ^ 32)).length =
      s.length
    rw [List.length_append, hlen, List.length_drop]
    have hmod := Nat.mod_le s.length (2 ^ 32)
    omega
  refine ⟨hout, ?_⟩
  unfold aesCall at hout ⊢
  dsimp only at hout ⊢
  rw [hout, List.take_left' hlen, List.drop_left' hlen, hback, List.take_append_drop]

theorem cipher_inverse (h : AesInverse enc dec) :
    CodecInverse (codecCipherCreate enc .encrypt) (codecCipherCreate dec .decrypt) := by
  intro plain
  have hblocks : (padded plain).length % AES_BLOCK_SIZE = 0 := by
    rw [padded_length]
    exact Nat.mul_mod_left _ _
  obtain ⟨hlen, hback⟩ := aesCall_inverse h hblocks
  refine ⟨(aesCall (a := enc) enc.init (padded plain)).2,
    Codec.Computes.emits (codecCipher_computes rfl),
    Codec.Computes.emits (codecCipher_computes ?_)⟩
  unfold prepared
  dsimp only
  rw [if_neg (not_not_intro (hlen ▸ hblocks)), hback, unpadded_padded]

end Cyassl

/-- For both implementations, what is encrypted does not depend on the pieces or the rooms
and is decrypted to the plaintext, and the buffer of the one over EVP is large enough. -/
theorem cipher_codecs_invert {enc dec : Evp} {block : ℕ} {aesEnc aesDec : AesCbc}
    (hevp : EvpInverse enc dec) (henc : enc.Bounded block) (hdec : dec.Bounded block)
    (haes : AesInverse aesEnc aesDec) :
    CodecInverse (codecCipherCreate enc) (codecCipherCreate dec) ∧
      CodecInverse (Cyassl.codecCipherCreate aesEnc .encrypt)
        (Cyassl.codecCipherCreate aesDec .decrypt) ∧
      ∀ calls, (Cipher.cbuf ((codecCipherCreate enc).after calls)).length ≤ cbufSize block ∧
        (Cipher.cbuf ((codecCipherCreate dec).after calls)).length ≤ cbufSize block :=
  ⟨cipher_inverse hevp, Cyassl.cipher_inverse haes,
    fun calls => ⟨cipher_inside henc calls, cipher_inside hdec calls⟩⟩

/-- The null cipher of EVP, whose blocks are single bytes. -/
def evpEncNull : Evp := ⟨Unit, (), fun _ src => some ((), src), fun _ => some []⟩

theorem evpEncNull_fed {total : Str} {ctx : evpEncNull.Ctx} {inp out : Str}
    (h : evpEncNull.Fed total ctx inp out) : out = inp := by
  induction h with
  | init => rfl
  | update _ _ _ _ hu ih =>
    obtain rfl := (Prod.mk.inj (Option.some.inj hu)).2
    rw [ih]

theorem evpEncNull_computes (total : Str) : evpEncNull.Computes total total := by
  constructor
  · intro ctx inp out h src _ _ htotal
    exact ⟨(), src, rfl, by rw [evpEncNull_fed h]; exact htotal⟩
  · intro ctx out h
    exact ⟨[], rfl, by rw [evpEncNull_fed h, List.append_nil]⟩

theorem evpEncNull_bounded : evpEncNull.Bounded 1 := by
  constructor
  · intro ctx ctx' src o hu
    obtain rfl := (Prod.mk.inj (Option.some.inj hu)).2
    exact le_rfl
  · intro ctx o hf
    obtain rfl := Option.some.inj hf
    exact Nat.zero_le 1

/-- `secret` in a block, and its encryption with a key and an iv of zeros. -/
def secretBlock : Str := bytes "secret" ++ List.replicate 10 10
def secretCipher : Str := [226, 2, 200, 173, 154, 222, 73, 73, 125, 44, 42, 216, 72, 243, 9, 207]

/-- AES on this one block; it exchanges the two texts, so that it turns itself back. -/
def aesSecret : AesCbc where
  Ctx := Unit
  init := ()
  op _ s := ((), Equiv.swap secretBlock secretCipher s)

theorem aesSecret_inverse : AesInverse aesSecret aesSecret := by
  intro s _
  refine ⟨?_, Equiv.swap_apply_self _ _ s⟩
  change (Equiv.swap secretBlock secretCipher s).length = s.length
  rw [Equiv.swap_apply_def]
  split
  · next h =>
    rw [h]
    rfl
  · split
    · next h =>
      rw [h]
      rfl
    · rfl

theorem cipher_codecs_invert_secret :
    CodecInverse (codecCipherCreate evpEncNull) (codecCipherCreate evpEncNull) ∧
      CodecInverse (Cyassl.codecCipherCreate aesSecret .encrypt)
        (Cyassl.codecCipherCreate aesSecret .decrypt) ∧
      ∀ calls, (Cipher.cbuf ((codecCipherCreate evpEncNull).after calls)).length ≤ cbufSize 1 ∧
        (Cipher.cbuf ((codecCipherCreate evpEncNull).after calls)).length ≤ cbufSize 1 :=
  cipher_codecs_invert ⟨id, fun plain => ⟨evpEncNull_computes plain, evpEncNull_computes plain⟩⟩
    evpEncNull_bounded
    evpEncNull_bounded aesSecret_inverse

end Klone.Chain
