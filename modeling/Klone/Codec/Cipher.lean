import Klone.Io.ChainContract

/-! # The cipher codec

A codec over a cipher of the EVP interface, for one key and one direction. A call
that gives output stores it in the codec's own buffer, from where it is copied out;
no input is taken before the buffer is empty again.
-/
namespace Klone.Chain

def CODEC_CIPHER_MAX_INPUT : ℕ := 4096

/-- The context after `EVP_{Encrypt,Decrypt}Init_ex`, and the calls of `Update` and
`Final_ex`; `none` when they fail. -/
structure Evp where
  Ctx : Type
  init : Ctx
  update : Ctx → Str → Option (Ctx × Str)
  final : Ctx → Option Str

/-- `cbuf` has the bytes that have not been copied out; `final` can be called just once. -/
structure Cipher (evp : Evp) where
  ctx : evp.Ctx
  cbuf : Str
  final : Bool

section Operations
variable {evp : Evp}

def codecCbufcpy (cc : Cipher evp) (room : ℕ) : Cipher evp × Str :=
  ({ cc with cbuf := cc.cbuf.drop room }, cc.cbuf.take room)

def cipherChunk (cc : Cipher evp) (room : ℕ) : Flushed (Cipher evp) :=
  let r := codecCbufcpy cc room
  ⟨r.1, .chunk, r.2.length, r.2⟩

def cipherFlush (cc : Cipher evp) (room : ℕ) : Flushed (Cipher evp) :=
  if cc.cbuf ≠ [] then cipherChunk cc room
  else if cc.final then
    match evp.final cc.ctx with
    | none => ⟨cc, .error, room, []⟩
    | some [] => ⟨{ cc with final := false }, .complete, 0, []⟩
    | some out => cipherChunk { cc with cbuf := out, final := false } room
  else ⟨cc, .complete, 0, []⟩

def cipherTransform (cc : Cipher evp) (room : ℕ) (src : Str) : Transformed (Cipher evp) :=
  if room = 0 ∨ src = [] then ⟨cc, none, []⟩
  else if cc.cbuf ≠ [] then
    let r := codecCbufcpy cc room
    ⟨r.1, some 0, r.2⟩
  else
    match evp.update cc.ctx (src.take CODEC_CIPHER_MAX_INPUT) with
    | none => ⟨cc, none, []⟩
    | some (ctx, out) =>
      let r := codecCbufcpy { cc with ctx := ctx, cbuf := out } room
      ⟨r.1, some (min src.length CODEC_CIPHER_MAX_INPUT), r.2⟩

end Operations

def codecCipherCreate (evp : Evp) : Codec where
  State := Cipher evp
  init := ⟨evp.init, [], true⟩
  transform := cipherTransform
  flush := cipherFlush

/-! ## What the cipher promises -/

/-- The contexts after some of `total` has been given in pieces, with the output. -/
inductive Evp.Fed (evp : Evp) (total : Str) : evp.Ctx → Str → Str → Prop
  | init : Fed evp total evp.init [] []
  | update {ctx ctx' : evp.Ctx} {inp out src o : Str} (h : Fed evp total ctx inp out)
    (hsrc : src ≠ [])
      (hlen : src.length ≤ CODEC_CIPHER_MAX_INPUT) (htotal : inp ++ src <+: total)
      (hu : evp.update ctx src = some (ctx', o)) : Fed evp total ctx' (inp ++ src) (out ++ o)

structure Evp.Computes (evp : Evp) (total result : Str) : Prop where
  update : ∀ {ctx inp out}, evp.Fed total ctx inp out → ∀ {src}, src ≠ [] →
    src.length ≤ CODEC_CIPHER_MAX_INPUT →
    inp ++ src <+: total → ∃ ctx' o, evp.update ctx src = some (ctx', o) ∧ out ++ o <+: result
  final : ∀ {ctx out}, evp.Fed total ctx total out → ∃ o, evp.final ctx = some o ∧ out ++ o = result

/-! ## The contract of the codec -/

variable {evp : Evp} {total result : Str}

structure CipherFed (evp : Evp) (total result inp out : Str) (cc : Cipher evp) : Prop where
  final : cc.final = true
  fed : evp.Fed total cc.ctx inp (out ++ cc.cbuf)
  begins : out ++ cc.cbuf <+: result

/-- A call of `transform` copies from the buffer or takes input. -/
theorem cipherTransform_moves (h : evp.Computes total result) {cc : Cipher evp} {inp out src : Str}
    {room : ℕ} (hroom : 0 < room) (hsrc : src ≠ []) (htotal : inp ++ src <+: total)
    (hf : CipherFed evp total result inp out cc) :
    ∃ k, (cipherTransform cc room src).ret = some k ∧ k ≤ src.length ∧
      (cipherTransform cc room src).out.length ≤ room ∧
      (0 < k ∨ (cipherTransform cc room src).out ≠ []) ∧
      CipherFed evp total result (inp ++ src.take k) (out ++ (cipherTransform cc room src).out)
        (cipherTransform cc room src).state := by
  have hno : ¬ (room = 0 ∨ src = []) := by
    rintro (hz | hz)
    · omega
    · exact hsrc hz
  have hfed := hf.fed
  have hbegins := hf.begins
  unfold cipherTransform
  rw [if_neg hno]
  by_cases hbuf : cc.cbuf = []
  · rw [hbuf, List.append_nil] at hfed
    have hpos := List.length_pos_iff.mpr hsrc
    have hk : min src.length CODEC_CIPHER_MAX_INPUT ≤ src.length := Nat.min_le_left _ _
    have htake : src.take CODEC_CIPHER_MAX_INPUT =
        src.take (min src.length CODEC_CIPHER_MAX_INPUT) := by
      rw [List.take_eq_take_min, Nat.min_comm]
    have hne : src.take (min src.length CODEC_CIPHER_MAX_INPUT) ≠ [] := by
      rw [← htake]
      simp [hsrc, CODEC_CIPHER_MAX_INPUT]
    have hlen : (src.take (min src.length CODEC_CIPHER_MAX_INPUT)).length ≤
        CODEC_CIPHER_MAX_INPUT := by
      rw [← htake]
      exact List.length_take_le _ _
    have hprefix : inp ++ src.take (min src.length CODEC_CIPHER_MAX_INPUT) <+: total :=
      ((List.prefix_append_right_inj inp).mpr (List.take_prefix _ _)).trans htotal
    obtain ⟨ctx', o, hu, hb⟩ := h.update hfed hne hlen hprefix
    have hall : out ++ o.take room ++ o.drop room = out ++ o := by
      rw [List.append_assoc, List.take_append_drop]
    rw [if_neg (not_not_intro hbuf), htake, hu]
    refine ⟨_, rfl, hk, List.length_take_le _ _, Or.inl ?_, hf.final, ?_, ?_⟩
    · unfold CODEC_CIPHER_MAX_INPUT
      omega
    · change evp.Fed total ctx' _ (out ++ o.take room ++ o.drop room)
      rw [hall]
      exact .update hfed hne hlen hprefix hu
    · change out ++ o.take room ++ o.drop room <+: result
      rw [hall]
      exact hb
  · have hall : out ++ cc.cbuf.take room ++ cc.cbuf.drop room = out ++ cc.cbuf := by
      rw [List.append_assoc, List.take_append_drop]
    rw [if_pos hbuf]
    refine ⟨0, rfl, Nat.zero_le _, List.length_take_le _ _, Or.inr ?_, hf.final, ?_, ?_⟩
    · have hr : room ≠ 0 := by omega
      simp [codecCbufcpy, hbuf, hr]
    · change evp.Fed total cc.ctx _ (out ++ cc.cbuf.take room ++ cc.cbuf.drop room)
      rw [hall, List.take_zero, List.append_nil]
      exact hfed
    · change out ++ cc.cbuf.take room ++ cc.cbuf.drop room <+: result
      rw [hall]
      exact hbegins

theorem cipher_open (h : evp.Computes total result) {wide : Prop}
    {s : (codecCipherCreate evp).State} {inp out : Str}
    (ho : (codecCipherCreate evp).Open wide total s inp out) :
    CipherFed evp total result inp out s := by
  induction ho with
  | init => exact ⟨rfl, .init, List.nil_prefix⟩
  | @transform s inp out room src k ho hroom _ hsrc htotal hret ih =>
    obtain ⟨k', hret', -, -, -, hf⟩ := cipherTransform_moves h hroom hsrc htotal ih
    obtain rfl : k' = k := Option.some.inj (hret'.symm.trans hret)
    exact hf

/-- The codec is being flushed: the last call gives the rest, or has given it. -/
def CipherEnding (evp : Evp) (total result out : Str) (cc : Cipher evp) : Prop :=
  CipherFed evp total result total out cc ∨ cc.final = false ∧ out ++ cc.cbuf = result

theorem CipherEnding.begins {out : Str} {cc : Cipher evp}
    (h : CipherEnding evp total result out cc) : out <+: result := by
  rcases h with hf | ⟨-, rfl⟩
  · exact (List.prefix_append _ _).trans hf.begins
  · exact List.prefix_append _ _

structure CipherFlushed (evp : Evp) (total result out : Str) (room : ℕ) (r : Flushed (Cipher evp)) :
    Prop where
  stored : r.out.length ≤ room
  dcount : r.dcount = r.out.length
  ending : CipherEnding evp total result (out ++ r.out) r.state
  ret : r.ret = .complete ∧ out = result ∧ r.out = [] ∨ r.ret = .chunk ∧ (r.out ≠ [] ∨ room = 0)

theorem cipherChunk_flushed {out : Str} {cc : Cipher evp} {room : ℕ} (hne : cc.cbuf ≠ [])
    (h : CipherEnding evp total result out cc) :
    CipherFlushed evp total result out room (cipherChunk cc room) := by
  have hall : out ++ cc.cbuf.take room ++ cc.cbuf.drop room = out ++ cc.cbuf := by
    rw [List.append_assoc, List.take_append_drop]
  refine ⟨List.length_take_le _ _, rfl, ?_, Or.inr ⟨rfl, ?_⟩⟩
  · rcases h with ⟨hfin, hfed, hb⟩ | ⟨hfin, hres⟩
    · rw [← hall] at hfed hb
      exact Or.inl ⟨hfin, hfed, hb⟩
    · rw [← hall] at hres
      exact Or.inr ⟨hfin, hres⟩
  · by_cases hroom : room = 0
    · exact Or.inr hroom
    · refine Or.inl ?_
      simp [cipherChunk, codecCbufcpy, hne, hroom]

theorem cipherFlush_moves (h : evp.Computes total result) {cc : Cipher evp} {out : Str} (room : ℕ)
    (hd : CipherEnding evp total result out cc) :
    CipherFlushed evp total result out room (cipherFlush cc room) := by
  unfold cipherFlush
  by_cases hbuf : cc.cbuf = []
  · rw [if_neg (not_not_intro hbuf)]
    rcases hd with hf | ⟨hfin, hres⟩
    · have hfed := hf.fed
      rw [hbuf, List.append_nil] at hfed
      obtain ⟨o, ho, hres⟩ := h.final hfed
      rw [if_pos hf.final, ho]
      cases o with
      | nil =>
        rw [List.append_nil] at hres
        refine ⟨Nat.zero_le _, rfl, Or.inr ⟨rfl, ?_⟩, Or.inl ⟨rfl, hres, rfl⟩⟩
        simp [hbuf, hres]
      | cons b o => exact cipherChunk_flushed (List.cons_ne_nil _ _) (Or.inr ⟨rfl, hres⟩)
    · rw [hbuf, List.append_nil] at hres
      rw [hfin, if_neg Bool.false_ne_true]
      refine ⟨Nat.zero_le _, rfl, Or.inr ⟨hfin, ?_⟩, Or.inl ⟨rfl, hres, rfl⟩⟩
      simp [hbuf, hres]
  · rw [if_pos hbuf]
    exact cipherChunk_flushed hbuf hd

theorem cipher_draining (h : evp.Computes total result) {strict wide : Prop}
    {s : (codecCipherCreate evp).State} {out : Str}
    (hd : (codecCipherCreate evp).Draining strict wide total s out) :
    CipherEnding evp total result out s := by
  induction hd with
  | start ho => exact Or.inl (cipher_open h ho)
  | @chunk s out room _ _ _ _ ih => exact (cipherFlush_moves h room ih).ending
  | @complete s out room _ _ _ hret ih =>
    have hm := cipherFlush_moves h room ih
    have hend := hm.ending
    rcases hm.ret with ⟨-, -, hnil⟩ | ⟨hc, -⟩
    · rw [hnil, List.append_nil] at hend
      exact hend
    · cases hc.symm.trans hret

/-- The codec computes what the cipher computes, anywhere in a chain. -/
theorem codecCipher_computes (h : evp.Computes total result) {wide : Prop} :
    (codecCipherCreate evp).Computes True wide total result := by
  refine ⟨?_, fun ho => ?_, ?_, fun hd => (cipher_draining h hd).begins⟩
  · intro s inp out ho room src hroom _ hsrc htotal
    obtain ⟨k, hret, hk, hlen, hprog, -⟩ :=
      cipherTransform_moves h hroom hsrc htotal (cipher_open h ho)
    exact ⟨k, hret, hk, hlen, hprog⟩
  · exact (List.prefix_append _ _).trans (cipher_open h ho).begins
  · intro s out hd room hroom _
    have hm := cipherFlush_moves h room (cipher_draining h hd)
    refine ⟨hm.stored, ?_⟩
    rcases hm.ret with ⟨hret, hall, hnil⟩ | ⟨hret, hne⟩
    · refine Or.inl ⟨hret, hall, fun _ => hm.dcount.trans ?_⟩
      rw [hnil, List.length_nil]
    · exact Or.inr ⟨hret, hm.dcount, hne⟩

theorem codecCipher_greedy (evp : Evp) : (codecCipherCreate evp).Greedy := by
  intro s room src k hroom hsrc hlen hret hout
  have hno : ¬ (room = 0 ∨ src = []) := by
    rintro (hz | hz)
    · omega
    · exact hsrc hz
  have hr : room ≠ 0 := by omega
  change (cipherTransform s room src).ret = some k at hret
  change (cipherTransform s room src).out = [] at hout
  unfold cipherTransform at hret hout
  rw [if_neg hno] at hret hout
  by_cases hbuf : s.cbuf = []
  · rw [if_neg (not_not_intro hbuf)] at hret
    have hmin : min src.length CODEC_CIPHER_MAX_INPUT = src.length := Nat.min_eq_left hlen
    cases hu : evp.update s.ctx (src.take CODEC_CIPHER_MAX_INPUT) with
    | none => simp [hu] at hret
    | some r => simpa [hu, hmin] using hret.symm
  · simp [hbuf, codecCbufcpy, hr] at hout

end Klone.Chain
