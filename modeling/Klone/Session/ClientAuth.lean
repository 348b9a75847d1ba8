import Klone.Request.HeaderLoad
import Klone.Session.Client
import Klone.Utils.HexncpyLoop

/-! # What a client can present

The hash of a session kept by the client is taken over its fields one after the other,
with nothing between them. Here it is settled which presented cookies are accepted without
having been signed: those that cut the bytes of a signed session at other places, in lengths
that are decoded.
-/
namespace Klone.Session
open Page

structure SaveCall where
  iv : List Byte
  buf : List Byte
  sid : Str
  now : Int32
  ivLength : iv.length = CIPHER_IV_LEN
  goodId : sessionIsGoodId sid = true

def signedBy (date : ℤ → Option Str) (m : Mac) (history : List SaveCall) : List Signed :=
  history.filterMap fun c => (sessionClientSave date m c.iv c.buf c.sid c.now).signed

def hmacOf (m : Mac) (t : Signed) : Str := sessionClientHmac m t.data t.sid t.mtime (some t.iv)

def presented (sid : Str) (cookies : List Var) : Option Signed :=
  match requestGetCookie cookies KL1_CLISES_DATA, requestGetCookie cookies KL1_CLISES_MTIME,
    requestGetCookie cookies KL1_CLISES_IV with
  | some data, some mtime, some iv => some ⟨data, sid, mtime, iv⟩
  | _, _, _ => none

/-- What is accepted has been signed. -/
def Authentic (m : Mac) (key : KeyCipher) (decode : Decode) (cipherIv : List Byte)
    (signed : List Signed) (sid : Str) (cookies : List Var) : Prop :=
  ∀ mtime iv vars, sessionClientLoad m key decode cipherIv sid cookies = .loaded mtime iv vars →
    ∃ t ∈ signed, presented sid cookies = some t

/-- A number of digits that `u_hexncpy` decodes to something. -/
def WholeBytes (n : ℕ) : Prop := 0 < n ∧ n % 2 = 0

/-- `s` cut into fields: `a` bytes, a session id, `b` bytes and the rest. -/
def cutAt (s : Str) (a b : ℕ) : Signed :=
  ⟨s.take a, (s.drop a).take SESSION_ID_LENGTH, (s.drop (a + SESSION_ID_LENGTH)).take b,
    s.drop (a + SESSION_ID_LENGTH + b)⟩

structure CutsWell (s : Str) (a b : ℕ) : Prop where
  data : WholeBytes a
  size : a ≤ COOKIE_MAX_SIZE
  inside : a + SESSION_ID_LENGTH + b < s.length
  iv : (s.length - (a + SESSION_ID_LENGTH + b)) % 2 = 0

/-- Nothing with the bytes of `t` has been signed in these lengths. -/
def Moved (signed : List Signed) (t : Signed) (a b : ℕ) : Prop :=
  ∀ s ∈ signed, s.fed = t.fed → s.data.length ≠ a ∨ s.mtime.length ≠ b

/-- Each line of the text is empty or defines a variable. -/
def Readable (src : Source) : Prop :=
  ∀ lines, Gives src lines → ∀ line ∈ lines, line ≠ [] → (urlVar line).isSome = true

def unhex (s : Str) : List Byte := (uHexncpyDecode s).getD []

/-- The text that the data is decrypted to, under the buffer for the initialisation vector
with the one that is presented in its beginning. -/
def clientText (decode : Decode) (cipherIv : List Byte) (p : Signed) : Source :=
  decode ((store cipherIv (unhex p.iv ++ [0])).take CIPHER_IV_LEN) (unhex p.data)

variable {date : ℤ → Option Str} {m : Mac} {key : KeyCipher} {decode : Decode}
    {cipherIv : List Byte}

theorem signedBy_goodId {history : List SaveCall} {t : Signed} (h : t ∈ signedBy date m history) :
    sessionIsGoodId t.sid = true := by
  obtain ⟨c, -, hc⟩ := List.mem_filterMap.mp h
  unfold sessionClientSave at hc
  dsimp only at hc
  split at hc
  · cases hc
  split at hc
  · cases hc
  split at hc
  · obtain rfl := Option.some.inj hc
    exact c.goodId
  · cases hc

theorem goodId_length {sid : Str} (h : sessionIsGoodId sid = true) :
    sid.length = SESSION_ID_LENGTH := by
  unfold sessionIsGoodId at h
  simp only [Bool.and_eq_true, decide_eq_true_eq] at h
  exact h.1

theorem uHexncpyEncode_injective : Function.Injective uHexncpyEncode := by
  intro s t h
  have hs := uHexncpyDecode_encode s
  rw [h, uHexncpyDecode_encode] at hs
  exact (Option.some.inj hs).symm

theorem fed_cutAt {s : Str} {a b : ℕ} (h : a + SESSION_ID_LENGTH + b ≤ s.length) :
    (cutAt s a b).fed = s ∧ (cutAt s a b).data.length = a ∧ (cutAt s a b).mtime.length = b := by
  refine ⟨?_, ?_, ?_⟩
  · unfold cutAt Signed.fed
    dsimp only
    rw [← List.take_add, ← List.take_add, List.take_append_drop]
  · exact List.length_take_of_le (by omega)
  · refine List.length_take_of_le ?_
    rw [List.length_drop]
    omega

/-- Fields are their bytes, cut in their lengths. -/
theorem cutAt_fed {p : Signed} (hsid : p.sid.length = SESSION_ID_LENGTH) :
    cutAt p.fed p.data.length p.mtime.length = p := by
  obtain ⟨data, sid, mtime, iv⟩ := p
  dsimp only at hsid
  unfold cutAt Signed.fed
  dsimp only
  have h₁ : (data ++ sid ++ mtime ++ iv).take data.length = data := by simp
  have h₂ : ((data ++ sid ++ mtime ++ iv).drop data.length).take SESSION_ID_LENGTH = sid := by
    simp [← hsid]
  have h₃ : ((data ++ sid ++ mtime ++ iv).drop (data.length + SESSION_ID_LENGTH)).take
      mtime.length = mtime := by
    rw [← hsid, ← List.length_append, List.append_assoc, List.drop_left, List.take_left]
  have h₄ : (data ++ sid ++ mtime ++ iv).drop
      (data.length + SESSION_ID_LENGTH + mtime.length) = iv := by
    rw [← hsid, ← List.length_append, ← List.length_append, List.drop_left]
  rw [h₁, h₂, h₃, h₄]

/-! ## What is decoded and read -/

theorem length_of_uHexncpyDecode {s w : List Byte} (h : uHexncpyDecode s = some w) :
    s.length = 2 * w.length := by
  induction s using uHexncpyDecode.induct generalizing w with
  | case1 =>
    cases h
    rfl
  | case2 a => cases h
  | case3 a b rest ih =>
    rw [uHexncpyDecode] at h
    obtain ⟨w, hw, rfl⟩ := Option.map_eq_some_iff.mp h
    simp only [List.length_cons, ih hw]
    omega

theorem wholeBytes_iff {s : Str} :
    WholeBytes s.length ↔ ∃ b bs, uHexncpyDecode s = some (b :: bs) := by
  constructor
  · rintro ⟨hpos, heven⟩
    obtain ⟨w, hw, hlen, -⟩ := uHexncpyDecode_even heven
    obtain ⟨b, bs, rfl⟩ := List.exists_cons_of_length_pos (l := w) (by omega)
    exact ⟨b, bs, hw⟩
  · rintro ⟨b, bs, hw⟩
    have hlen := length_of_uHexncpyDecode hw
    rw [List.length_cons] at hlen
    unfold WholeBytes
    omega

theorem loadLine_isSome (ssl : Option KeyCipher) (vs : List Var) (line : Str) :
    (loadLine ssl vs line).isSome = true ↔ (line ≠ [] → (urlVar line).isSome = true) := by
  unfold loadLine
  by_cases hline : line = []
  · simp [hline]
  · simp [hline]

theorem loadLoop_gives {ssl : Option KeyCipher} {src : Source} {lines : List Str}
    (hg : Gives src lines) {fuel : ℕ} (hfuel : src.bytes.length < fuel) (vs : List Var) :
    (loadLoop ssl fuel src vs).ok = true ↔
    ∀ line ∈ lines, line ≠ [] → (urlVar line).isSome = true := by
  induction hg generalizing fuel vs with
  | ends hend =>
    obtain ⟨k, rfl⟩ : ∃ k, fuel = k + 1 := ⟨fuel - 1, by omega⟩
    simp [loadLoop, hend]
  | @line src lines hok _ ih =>
    obtain ⟨k, rfl⟩ : ∃ k, fuel = k + 1 := ⟨fuel - 1, by omega⟩
    have hlt := uGetline_shrinks hok
    have hline := loadLine_isSome ssl vs (uGetline src).line
    rw [List.forall_mem_cons, ← hline, loadLoop]
    simp only [hok, Bool.true_eq_false, if_false]
    cases hload : loadLine ssl vs (uGetline src).line with
    | none => simp
    | some vs' =>
      have hrest := @ih k (by omega) vs'
      simpa using hrest

theorem sessionPrvLoadFromBuf_isSome (key : KeyCipher) {iv buf : List Byte} :
    (sessionPrvLoadFromBuf key decode iv buf).isSome = true ↔ Readable (decode iv buf) := by
  have hload : ∀ lines, Gives (decode iv buf) lines →
    ((sessionPrvLoadFromIo (some key) [] (decode iv buf)).ok = true ↔
      ∀ line ∈ lines, line ≠ [] → (urlVar line).isSome = true) := fun lines hg =>
    loadLoop_gives hg (Nat.lt_succ_self _) []
  have hok : (sessionPrvLoadFromBuf key decode iv buf).isSome = true ↔
      (sessionPrvLoadFromIo (some key) [] (decode iv buf)).ok = true := by
    unfold sessionPrvLoadFromBuf
    dsimp only
    split
    · next h => simp [h]
    · next h => simp [h]
  rw [hok]
  constructor
  · intro h lines hg
    exact (hload lines hg).mp h
  · intro h
    obtain ⟨lines, hg⟩ := exists_gives (decode iv buf)
    exact (hload lines hg).mpr (h lines hg)

/-- The checks behind the hash. -/
theorem clientLoadData_loaded {p : Signed} :
    (∃ mtime iv vars, clientLoadData key decode cipherIv p.data p.mtime p.iv =
      .loaded mtime iv vars) ↔
      WholeBytes p.data.length ∧ p.data.length ≤ COOKIE_MAX_SIZE ∧ WholeBytes p.iv.length ∧
        Readable (clientText decode cipherIv p) := by
  rw [wholeBytes_iff, wholeBytes_iff]
  unfold clientLoadData clientText unhex
  constructor
  · rintro ⟨mtime, iv, vars, h⟩
    split at h
    · cases h
    · cases h
    next b bs hiv =>
    dsimp only at h
    split at h
    · cases h
    next hsize =>
    split at h
    · cases h
    · cases h
    next c cs hdata =>
    split at h
    · cases h
    next vars' hload =>
    refine ⟨⟨c, cs, hdata⟩, by omega, ⟨b, bs, hiv⟩, ?_⟩
    rw [hiv, hdata]
    exact (sessionPrvLoadFromBuf_isSome key).mp (Option.isSome_iff_exists.mpr ⟨vars', hload⟩)
  · rintro ⟨⟨c, cs, hdata⟩, hsize, ⟨b, bs, hiv⟩, hread⟩
    rw [hiv, hdata] at hread
    obtain ⟨vars, hload⟩ := Option.isSome_iff_exists.mp
      ((sessionPrvLoadFromBuf_isSome key).mpr hread)
    refine ⟨Int32.ofInt (strtoul p.mtime), store cipherIv (b :: bs ++ [0]), vars, ?_⟩
    rw [hiv]
    dsimp only
    rw [if_neg (by omega), hdata]
    dsimp only
    simp only [Option.getD_some] at hload
    rw [hload]

/-- What is accepted, and why. -/
theorem sessionClientLoad_loaded {sid : Str} {cookies : List Var} :
    (∃ mtime iv vars, sessionClientLoad m key decode cipherIv sid cookies = .loaded mtime iv vars) ↔
      ∃ p, presented sid cookies = some p ∧
      requestGetCookie cookies KL1_CLISES_HMAC = some (hmacOf m p) ∧
        WholeBytes p.data.length ∧ p.data.length ≤ COOKIE_MAX_SIZE ∧ WholeBytes p.iv.length ∧
        Readable (clientText decode cipherIv p) := by
  unfold sessionClientLoad presented
  cases hd : requestGetCookie cookies KL1_CLISES_DATA with
  | none => simp
  | some data =>
    cases ht : requestGetCookie cookies KL1_CLISES_MTIME with
    | none => simp
    | some mtime =>
      cases hh : requestGetCookie cookies KL1_CLISES_HMAC with
      | none => simp
      | some hmac =>
        cases hi : requestGetCookie cookies KL1_CLISES_IV with
        | none =>
          dsimp only
          split <;> simp
        | some iv =>
          dsimp only
          have hmac_eq : hmacOf m ⟨data, sid, mtime, iv⟩ =
            sessionClientHmac m data sid mtime (some iv) := rfl
          by_cases hne : sessionClientHmac m data sid mtime (some iv) = hmac
          · rw [if_neg (not_not_intro hne)]
            rw [clientLoadData_loaded (p := ⟨data, sid, mtime, iv⟩)]
            simp [hmac_eq, hne]
          · rw [if_pos hne]
            simp [hmac_eq, Ne.symm hne]

theorem presented_sid {sid : Str} {cookies : List Var} {p : Signed}
    (h : presented sid cookies = some p) : p.sid = sid := by
  unfold presented at h
  split at h
  · obtain rfl := Option.some.inj h
    rfl
  · cases h

/-- What is accepted has been signed, unless the cookies are the bytes behind a hash cut in
other lengths, of whole bytes, and the text is still one of variables. A client only has
hashes that were given to it. -/
theorem session_client_authentic_iff (hinj : Function.Injective m.hash) {history : List SaveCall}
    {sid : Str} (hsid : sessionIsGoodId sid = true) {cookies : List Var}
    (hissued : ∀ h, requestGetCookie cookies KL1_CLISES_HMAC = some h →
      ∃ t ∈ signedBy date m history, h = hmacOf m t) :
    Authentic m key decode cipherIv (signedBy date m history) sid cookies ↔
      ∀ t ∈ signedBy date m history,
        requestGetCookie cookies KL1_CLISES_HMAC = some (hmacOf m t) → ∀ a b,
        CutsWell t.fed a b → Moved (signedBy date m history) t a b →
        presented sid cookies = some (cutAt t.fed a b) →
        ¬ Readable (clientText decode cipherIv (cutAt t.fed a b)) := by
  constructor
  · intro hauth t _ hhmac a b hcuts hmoved hp hread
    obtain ⟨hfed, hdata, hmtime⟩ := fed_cutAt hcuts.inside.le
    have hsame : hmacOf m (cutAt t.fed a b) = hmacOf m t := by
      change uHexncpyEncode (m.hash (cutAt t.fed a b).fed) = _
      rw [hfed]
      rfl
    have hiv : WholeBytes (cutAt t.fed a b).iv.length := by
      have hlen : (cutAt t.fed a b).iv.length = t.fed.length - (a + SESSION_ID_LENGTH + b) :=
        List.length_drop
      have hinside := hcuts.inside
      rw [hlen]
      exact ⟨by omega, hcuts.iv⟩
    rw [← hsame] at hhmac
    obtain ⟨mtime, iv, vars, haccepted⟩ := sessionClientLoad_loaded.mpr
      ⟨_, hp, hhmac, hdata.symm ▸ hcuts.data, hdata.symm ▸ hcuts.size, hiv, hread⟩
    obtain ⟨s, hs, hps⟩ := hauth mtime iv vars haccepted
    obtain rfl := Option.some.inj (hp.symm.trans hps)
    rcases hmoved _ hs hfed with hne | hne
    · exact hne hdata
    · exact hne hmtime
  · intro hnot mtime iv vars haccepted
    obtain ⟨p, hp, hhmac, hdata, hsize, hiv, hread⟩ :=
      sessionClientLoad_loaded.mp ⟨mtime, iv, vars, haccepted⟩
    obtain ⟨t, ht, hsame⟩ := hissued _ hhmac
    have hfed : p.fed = t.fed := hinj (uHexncpyEncode_injective hsame)
    have hlen : p.sid.length = SESSION_ID_LENGTH := by rw [presented_sid hp, goodId_length hsid]
    have hcut : cutAt t.fed p.data.length p.mtime.length = p := hfed ▸ cutAt_fed hlen
    have htotal : t.fed.length = p.data.length + SESSION_ID_LENGTH + p.mtime.length +
        p.iv.length := by
      rw [← hfed, ← hlen]
      simp only [Signed.fed, List.length_append]
    have hcuts : CutsWell t.fed p.data.length p.mtime.length := by
      refine ⟨hdata, hsize, ?_, ?_⟩
      · have hpos := hiv.1
        omega
      · rw [htotal, Nat.add_sub_cancel_left]
        exact hiv.2
    by_contra hunsigned
    refine hnot t ht (hhmac.trans (congrArg some hsame)) _ _ hcuts ?_ (hcut.symm ▸ hp)
      (hcut.symm ▸ hread)
    intro s hs hst
    by_contra hlengths
    rw [not_or, not_not, not_not] at hlengths
    have hsplit : s = p := by
      have hcut' := cutAt_fed (goodId_length (signedBy_goodId hs))
      rw [hst, hlengths.1, hlengths.2, hcut] at hcut'
      exact hcut'.symm
    exact hunsigned ⟨s, hs, hp.trans (congrArg some hsplit.symm)⟩

/-! ## A session with its time moved -/

def plainMac : Mac where
  hash s := 1 :: s
  nonempty _ := List.cons_ne_nil _ _

theorem plainMac_injective : Function.Injective plainMac.hash := fun _ _ h => (List.cons.inj h).2

def sampleKey : KeyCipher := ⟨32, fun _ => none, fun _ => none⟩

def sampleSid : Str := bytes "0123456789abcdef0123456789abcdef"

def sampleBuf : List Byte :=
  [249, 83, 155, 69, 253, 22, 183, 100, 59, 164, 236, 7, 238, 16, 194, 47, 254, 137, 84, 99, 105,
    130, 202, 14, 102, 220,
    162, 255, 127, 40, 194, 108]

/-- AES-256 in CBC mode under the key `0123456789abcdef0123456789abcdef`, for one text and
two initialisation vectors that differ in the last byte. -/
def sampleDecode : Decode := fun iv buf =>
  if buf = sampleBuf ∧ iv = List.replicate 16 17 then ⟨bytes "x=0123456789abcdef%00\n", false, 0⟩
  else if buf = sampleBuf ∧
    iv = List.replicate 15 17 ++ [0] then ⟨bytes "x=0123456789abcuef%00\n", false, 0⟩
  else ⟨[], true, 0⟩

def sampleSave : SaveCall :=
  ⟨List.replicate 16 17, sampleBuf, sampleSid, 1300000000, rfl, by decide⟩

def sampleSigned : Signed := signedFor (List.replicate 16 17) sampleBuf sampleSid 1300000000

def cookiesOf (t p : Signed) : List Var :=
  [⟨KL1_CLISES_IV, p.iv⟩, ⟨KL1_CLISES_DATA, p.data⟩, ⟨KL1_CLISES_MTIME, p.mtime⟩,
    ⟨KL1_CLISES_HMAC, hmacOf plainMac t⟩]

/-- The first two digits of the initialisation vector are moved to the time. -/
def sampleMoved : Signed :=
  ⟨sampleSigned.data, sampleSid, sampleSigned.mtime ++ [49, 49], sampleSigned.iv.drop 2⟩

/-- What the functions come to for the sample. -/
theorem sample_runs :
    signedBy (fun _ => none) plainMac [sampleSave] = [sampleSigned] ∧
    (∀ p ∈ [sampleSigned, sampleMoved],
      requestGetCookie (cookiesOf sampleSigned p) KL1_CLISES_HMAC =
      some (hmacOf plainMac sampleSigned) ∧
      presented sampleSid (cookiesOf sampleSigned p) = some p) ∧
    sampleMoved ≠ sampleSigned ∧
    sessionClientLoad plainMac sampleKey sampleDecode (List.replicate 16 0) sampleSid
    (cookiesOf sampleSigned sampleMoved) =
      .loaded 1150981131 (List.replicate 15 17 ++ [0])
        [⟨bytes "x", bytes "0123456789abcuef" ++ [0]⟩] := by
  decide +kernel

theorem hmac_sample {p : Signed} (hp : p ∈ [sampleSigned, sampleMoved]) :
    ∀ h, requestGetCookie (cookiesOf sampleSigned p) KL1_CLISES_HMAC = some h →
      ∃ t ∈ signedBy (fun _ => none) plainMac [sampleSave], h = hmacOf plainMac t := by
  intro h hh
  obtain ⟨hsigned, hget, -⟩ := sample_runs
  obtain rfl := Option.some.inj ((hget p hp).1.symm.trans hh)
  exact ⟨sampleSigned, by simp [hsigned], rfl⟩

theorem session_client_authentic_unchanged :
    Authentic plainMac sampleKey sampleDecode (List.replicate 16 0)
    (signedBy (fun _ => none) plainMac [sampleSave]) sampleSid
      (cookiesOf sampleSigned sampleSigned) := by
  obtain ⟨hsigned, hget, -⟩ := sample_runs
  refine (session_client_authentic_iff plainMac_injective (by decide)
    (hmac_sample List.mem_cons_self)).mpr ?_
  intro t ht _ a b hcuts hmoved hp
  obtain ⟨hfed, hdata, hmtime⟩ := fed_cutAt hcuts.inside.le
  have hsame := Option.some.inj ((hget sampleSigned List.mem_cons_self).2.symm.trans hp)
  rw [← hsame] at hfed hdata hmtime
  rcases hmoved sampleSigned (by simp [hsigned]) hfed with hne | hne
  · exact absurd hdata hne
  · exact absurd hmtime hne

/-- A client moves digits from the initialisation vector to the time: the session is loaded
with another time and other variables. -/
theorem session_client_not_authentic :
    Function.Injective plainMac.hash ∧ sessionIsGoodId sampleSid = true ∧
    (∀ h, requestGetCookie (cookiesOf sampleSigned sampleMoved) KL1_CLISES_HMAC = some h →
      ∃ t ∈ signedBy (fun _ => none) plainMac [sampleSave], h = hmacOf plainMac t) ∧
    sessionClientLoad plainMac sampleKey sampleDecode (List.replicate 16 0) sampleSid
    (cookiesOf sampleSigned sampleMoved) =
      .loaded 1150981131 (List.replicate 15 17 ++ [0])
        [⟨bytes "x", bytes "0123456789abcuef" ++ [0]⟩] ∧
    ¬ Authentic plainMac sampleKey sampleDecode (List.replicate 16 0)
    (signedBy (fun _ => none) plainMac [sampleSave]) sampleSid
      (cookiesOf sampleSigned sampleMoved) := by
  obtain ⟨hsigned, hget, hne, hload⟩ := sample_runs
  have hmem : sampleMoved ∈ [sampleSigned, sampleMoved] := by simp
  refine ⟨plainMac_injective, by decide, hmac_sample hmem, hload, ?_⟩
  intro hauth
  obtain ⟨t, ht, hpt⟩ := hauth _ _ _ hload
  rw [hsigned, List.mem_singleton] at ht
  exact hne (Option.some.inj ((hget sampleMoved hmem).2.symm.trans (hpt.trans (congrArg some ht))))

end Klone.Session
