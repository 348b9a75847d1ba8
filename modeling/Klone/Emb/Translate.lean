import Klone.Codec.Cipher
import Klone.Codec.Gzip
import Klone.Io.Input

/-! # Embedding a file

The translator reads a file through a compressing and an encrypting codec, as it is
told, and prints what it reads as the initialiser of an array. The record of the
resource has this array, its size and the size of the file; the latter is printed as
`unsigned int`.
-/
namespace Klone.Emb
open Klone.Chain Loop

structure Libs where
  deflate : Zlib
  inflate : Zlib
  encrypt : Str → Evp
  decrypt : Str → Evp

structure TransInfo where
  mimeType : Str
  key : Str
  comp : Bool
  encrypt : Bool
  fileSize : ℕ
  mtime : ℤ

structure EmbFile where
  size : ℕ
  data : Str
  comp : Bool
  encrypted : Bool
  mtime : ℤ
  mimeType : Str
  fileSize : ℕ

def CODEC_CIPHER_KEY_LEN : ℕ := 32

variable {d : Device}

def ioCodecAddTail (io : Io d) (c : Codec) : Io d := io.setChain (io.codecChain ++ [codecCreate c])

def ioCodecAddHead (io : Io d) (c : Codec) : Io d := io.setChain (codecCreate c :: io.codecChain)

/-- One turn of the loop that reads the file byte by byte. -/
def opaqueBody (n : ℕ) (s : Io d × Str) : Option (Iter (Io d × Str) (Io d × Option Str)) :=
  (ioGetc n s.1).map fun r =>
    match r.2 with
    | none => .leave (r.1, none)
    | some [] => .leave (r.1, some s.2)
    | some bs => .again (r.1, s.2 ++ bs)

def printStaticPageBlock (ti : TransInfo) (data : Str) : EmbFile :=
  ⟨data.length, data, ti.comp, ti.encrypt, ti.mtime, ti.mimeType, ti.fileSize % 2 ^ 32⟩

def translateOpaqueToC (n : ℕ) (ti : TransInfo) (io : Io d) : Option (Io d × Option EmbFile) :=
  (run (opaqueBody n) n (io, [])).map fun r => (r.1, r.2.map (printStaticPageBlock ti))

def addCodecs (lib : Libs) (ti : TransInfo) (io : Io d) : Io d :=
  let io := if ti.comp then ioCodecAddTail io (codecGzipCreate lib.deflate .compress) else io
  if ti.encrypt then ioCodecAddTail io
    (codecCipherCreate (lib.encrypt (ti.key.take CODEC_CIPHER_KEY_LEN))) else io

/-- A file that is not a script. -/
def translate (lib : Libs) (n : ℕ) (ti : TransInfo) (dev : d.State) :
    Option (Io d × Option EmbFile) :=
  translateOpaqueToC n ti (addCodecs lib ti (ioCreate dev []))

/-! ## What the libraries promise -/

/-- Whatever the pieces, `inflate` inverts `deflate` and `decrypt` inverts `encrypt`.
The cipher fills the last block, with one more if it is full. -/
structure Libs.Laws (lib : Libs) (deflated : Str → Str) (encrypted : Str → Str → Str) : Prop where
  deflate : ∀ x, lib.deflate.Computes true x (deflated x)
  inflate : ∀ x, lib.inflate.Computes false (deflated x) x
  encrypt : ∀ key x, (lib.encrypt key).Computes x (encrypted key x)
  decrypt : ∀ key x, (lib.decrypt key).Computes (encrypted key x) x
  padded : ∀ key x, (encrypted key x).length = (x.length / 16 + 1) * 16

section Stored
variable (deflated : Str → Str) (encrypted : Str → Str → Str) (ti : TransInfo)

def packed (file : Str) : Str := if ti.comp then deflated file else file

def stored (file : Str) : Str :=
  if ti.encrypt then encrypted (ti.key.take CODEC_CIPHER_KEY_LEN) (packed deflated ti file)
  else packed deflated ti file

end Stored

/-! ## Reading the file -/

variable {pending : d.State → Str} {q : Tail} {total : Str} {results : List Str}
    {got : Str} {io : Io d}

theorem opaqueBody_reading (hquiet : q.quiet) (hd : Delivers d pending)
    (h : Reading q pending total results got io) (heof : EofDone total results got io) :
    (∃ io' c, Ends (fun n => opaqueBody n (io, got)) (.again (io', got ++ c)) ∧ c ≠ [] ∧
        Reading q pending total results (got ++ c) io' ∧ EofDone total results (got ++ c) io') ∨
      ∃ io', Ends (fun n => opaqueBody n (io, got)) (.leave (io', some got)) ∧
      got = results.getLastD total := by
  obtain ⟨⟨io', res⟩, ⟨out, rfl, hread, heof', hlen⟩, hends⟩ := ioRead_ends hquiet hd h heof 1
  cases out with
  | nil =>
    refine Or.inr ⟨io', hends.map_eq rfl, ?_⟩
    rcases hlen with hlen | ⟨-, hall⟩
    · cases hlen
    · rw [List.append_nil] at hall
      exact hall
  | cons b bs => exact Or.inl ⟨io', b :: bs, hends.map_eq rfl, List.cons_ne_nil _ _, hread, heof'⟩

/-- Through codecs, the output of the chain is read. -/
theorem opaque_reading (hquiet : q.quiet) (hd : Delivers d pending)
    (h : Reading q pending total results [] io) (heof : EofDone total results [] io) :
    ∃ io', Ends (fun n => run (opaqueBody n) n (io, [])) (io', some (results.getLastD total)) := by
  have hrun := ends_run opaqueBody
    (I := fun m s => Reading q pending total results s.2 s.1 ∧ EofDone total results s.2 s.1 ∧
      (results.getLastD total).length - s.2.length ≤ m)
    (Q := fun r => r.2 = some (results.getLastD total))
    (s := (io, []))
    (fun m s => by
      obtain ⟨io, got⟩ := s
      rintro ⟨hr, he, hm⟩
      dsimp only at hr he hm
      rcases opaqueBody_reading hquiet hd hr he with ⟨io', c, hends, hc, hr', he'⟩ |
        ⟨io', hends, hall⟩
      · refine Or.inl ⟨_, _, hends, ?_, hr', he', le_refl _⟩
        have hle := hr'.begins.length_le
        have hpos := List.length_pos_iff.mpr hc
        rw [List.length_append] at hle ⊢
        omega
      · exact Or.inr ⟨_, hends, congrArg some hall⟩)
    ⟨h, heof, le_refl _⟩
  obtain ⟨⟨io', res⟩, rfl, hends⟩ := hrun
  exact ⟨io', hends⟩

/-- Without codecs, the file is read as it is. -/
theorem opaque_input (hd : Delivers d pending) {rest : Str} (h : Input pending rest io) :
    ∃ io', Ends (fun n => run (opaqueBody n) n (io, [])) (io', some rest) := by
  have hrun := ends_run opaqueBody
    (I := fun m s => ∃ more, Input pending more s.1 ∧ s.2 ++ more = rest ∧ more.length ≤ m)
    (Q := fun r => r.2 = some rest)
    (s := (io, []))
    (fun m s => by
      obtain ⟨io, got⟩ := s
      rintro ⟨more, hin, hall, hm⟩
      obtain ⟨io', hends, hdel⟩ := ioRead_input hd hin 1
      cases more with
      | nil => exact Or.inr ⟨_, hends.map_eq rfl,
        congrArg some ((List.append_nil _).symm.trans hall)⟩
      | cons b more =>
        refine Or.inl ⟨(io', got ++ [b]), more.length, hends.map_eq rfl, hm, more, hdel.input,
          ?_, le_refl _⟩
        rw [← hall, List.append_assoc]
        rfl)
    ⟨rest, h, rfl, le_refl _⟩
  obtain ⟨⟨io', res⟩, rfl, hends⟩ := hrun
  exact ⟨io', hends⟩

/-! ## The chains of the translator -/

section Chains
variable {lib : Libs} {deflated : Str → Str} {encrypted : Str → Str → Str} {ti : TransInfo}

/-- The compressing codec is the last one, or stands before the cipher, which takes all
that it is given. -/
theorem addCodecs_feeding (hlib : lib.Laws deflated encrypted) (dev : d.State)
    (hc : ti.comp = true ∨ ti.encrypt = true) (file : Str) :
    ∃ q results, q.quiet ∧ results.getLastD file = stored deflated encrypted ti file ∧
      Feeding q (addCodecs lib ti (ioCreate dev [])).codecChain file results [] [] := by
  have hgzip := hlib.deflate file
  cases hcomp : ti.comp with
  | false =>
    have henc := hc.resolve_left (by simp [hcomp])
    have hcipher : (codecCipherCreate _).Computes True False _ _ :=
      codecCipher_computes (hlib.encrypt (ti.key.take CODEC_CIPHER_KEY_LEN) file)
    refine ⟨⟨True, True, True⟩, [stored deflated encrypted ti file], trivial, rfl, ?_⟩
    simp only [stored, packed, addCodecs, hcomp, henc, if_true, Bool.false_eq_true, if_false]
    exact .last ⟨hcipher, hcipher.quiet, fun _ => codecCipher_greedy _⟩ Codec.Open.init
  | true =>
    cases henc : ti.encrypt with
    | false =>
      refine ⟨⟨False, True, False⟩, [stored deflated encrypted ti file], trivial, rfl, ?_⟩
      simp only [stored, packed, addCodecs, hcomp, henc, if_true, Bool.false_eq_true, if_false]
      exact .last ⟨codecGzip_computes hgzip, fun _ => codecGzip_quiet hgzip,
        False.elim⟩ Codec.Open.init
    | true =>
      have hcipher : (codecCipherCreate _).Computes True False _ _ :=
        codecCipher_computes (hlib.encrypt (ti.key.take CODEC_CIPHER_KEY_LEN) (deflated file))
      refine ⟨⟨True, True, True⟩, [deflated file, stored deflated encrypted ti file],
        trivial, rfl, ?_⟩
      simp only [stored, packed, addCodecs, hcomp, henc, if_true]
      apply Feeding.link (Or.inr ⟨trivial, rfl⟩)
        (codecCreate_head (codecGzip_computes hgzip) (codecGzip_quiet hgzip))
      exact .last ⟨hcipher, hcipher.quiet, fun _ => codecCipher_greedy _⟩ Codec.Open.init

theorem addCodecs_setChain (lib : Libs) (ti : TransInfo) (io : Io d) :
    addCodecs lib ti io = io.setChain (addCodecs lib ti io).codecChain := by
  unfold addCodecs
  cases ti.comp <;> cases ti.encrypt <;> rfl

/-- The array has the file, compressed and encrypted as it was asked for. -/
theorem translate_ends (hlib : lib.Laws deflated encrypted) (hd : Delivers d pending)
    (dev : d.State) (ti : TransInfo) :
    ∃ io', Ends (fun n => translate lib n ti dev)
      (io', some (printStaticPageBlock ti (stored deflated encrypted ti (pending dev)))) := by
  have hopaque : ∃ io', Ends
    (fun n => run (opaqueBody n) n (addCodecs lib ti (ioCreate dev []), []))
      (io', some (stored deflated encrypted ti (pending dev))) := by
    by_cases hc : ti.comp = true ∨ ti.encrypt = true
    · obtain ⟨q, results, hquiet, hlast, hf⟩ := addCodecs_feeding hlib dev hc (pending dev)
      have hread := setChain_reading pending hf
      rw [← addCodecs_setChain] at hread
      rw [← hlast]
      apply opaque_reading hquiet hd hread
      intro he
      rw [addCodecs_setChain] at he
      exact absurd rfl he
    · obtain ⟨hcomp, henc⟩ := not_or.mp hc
      have hplain : addCodecs lib ti (ioCreate dev []) = ioCreate dev [] := by
        simp [addCodecs, hcomp, henc]
      have hstored : stored deflated encrypted ti (pending dev) = pending dev := by
        simp [stored, packed, hcomp, henc]
      rw [hplain, hstored]
      exact opaque_input hd (ioCreate_input pending dev)
  obtain ⟨io', hends⟩ := hopaque
  exact ⟨io', hends.map_eq rfl⟩

end Chains

end Klone.Emb
