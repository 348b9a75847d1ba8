import Klone.Emb.Serve

/-! # From the input file to the client

A file goes through the translator into an array and from there through the server to
the client. The body decodes to the file in every case. Its length is announced from
the size of the array when the content is sent deflated, and from the size of the file
otherwise; the first is wrong for a file that is also encrypted, because the array then
has the padding of the cipher.
-/
namespace Klone.Emb
open Klone.Chain Klone.Page Loop

/-! ## The fields of the response -/

section Fields
variable {date : ℤ → Option Str} {rq : StaticRequest} {rs : Response} {e : EmbFile}
    {ss : Option KeySession}

/-- The key and the cookies do not touch the fields that describe the content. -/
theorem headerGetFieldValue_disableCaching (rs : Response) (ss : Option KeySession) {name : Str}
    (hcookie : strcasecmpEq (bytes "Set-Cookie") name = false)
    (hcontrol : strcasecmpEq (bytes "Cache-Control") name = false)
    (hexpires : strcasecmpEq (bytes "Expires") name = false)
    (hpragma : strcasecmpEq (bytes "Pragma") name = false) :
    headerGetFieldValue (responseDisableCaching (addCookies rs ss)).header name =
    headerGetFieldValue rs.header name := by
  unfold responseDisableCaching responseSetField
  dsimp only
  rw [headerGetFieldValue_set_of_ne _ _ hpragma, headerGetFieldValue_set_of_ne _ _ hexpires,
    headerGetFieldValue_set_of_ne _ _ hcontrol]
  apply headerGetFieldValue_append_of_ne
  intro f hf
  obtain ⟨value, -, rfl⟩ := List.mem_map.mp hf
  exact hcookie

theorem staticResponse_header {name : Str}
    (hcookie : strcasecmpEq (bytes "Set-Cookie") name = false)
    (hcontrol : strcasecmpEq (bytes "Cache-Control") name = false)
    (hexpires : strcasecmpEq (bytes "Expires") name = false)
    (hpragma : strcasecmpEq (bytes "Pragma") name = false) :
    headerGetFieldValue (staticResponse date rq rs e ss).header name =
      headerGetFieldValue (supembStaticSetHeaderFields date rq rs e).1.header name := by
  unfold staticResponse
  cases e.encrypted with
  | false => rfl
  | true => exact headerGetFieldValue_disableCaching _ _ hcookie hcontrol hexpires hpragma

theorem staticResponse_contentLength (hdate : (date e.mtime).isSome = true) :
    headerGetFieldValue (staticResponse date rq rs e ss).header (bytes "Content-Length") =
      some (unsignedDecimal (if sendAsIs rq e then e.size else e.fileSize)) := by
  obtain ⟨stamp, dated, rfl, hfields⟩ := supembStaticSetHeaderFields_dated rq rs hdate
  rw [staticResponse_header (by decide) (by decide) (by decide) (by decide), hfields]
  cases sendAsIs rq e with
  | false => exact headerGetFieldValue_set _ _ _
  | true => exact headerGetFieldValue_set _ _ _

theorem staticResponse_contentEncoding (hdate : (date e.mtime).isSome = true) (cgi : Bool)
    (method : Method) (serverSig now : Str) :
    headerGetFieldValue (staticResponse date rq (responseFor cgi method serverSig now) e ss).header
        (bytes "Content-Encoding") =
      if sendAsIs rq e then some (bytes "deflate") else none := by
  obtain ⟨stamp, dated, rfl, hfields⟩ :=
    supembStaticSetHeaderFields_dated rq (responseFor cgi method serverSig now) hdate
  rw [staticResponse_header (by decide) (by decide) (by decide) (by decide), hfields]
  cases sendAsIs rq e with
  | false =>
    refine (headerGetFieldValue_set_of_ne _ _ (by decide)).trans ?_
    refine (headerGetFieldValue_set_of_ne _ _ (by decide)).trans ?_
    refine (headerGetFieldValue_set_of_ne _ _ (by decide)).trans ?_
    refine (headerGetFieldValue_set_of_ne _ _ (by decide)).trans ?_
    exact headerGetFieldValue_set_of_ne _ _ (by decide)
  | true =>
    refine (headerGetFieldValue_set_of_ne _ _ (by decide)).trans ?_
    exact headerGetFieldValue_set _ _ _

end Fields

/-! ## The announced length -/

/-- The body decodes to the file, and its length is the one that is announced. -/
def Faithful (lib : Libs) (rs : Response) (file body : Str) : Prop :=
  (if headerGetFieldValue rs.header (bytes "Content-Encoding") = some (bytes "deflate") then
      lib.inflate.Computes false body file
    else body = file) ∧
  headerGetFieldValue rs.header (bytes "Content-Length") = some (decimal body.length)

def sentDeflated (ti : TransInfo) (rq : StaticRequest) : Bool :=
  rq.sendEncDeflate && ti.comp && requestIsEncodingAccepted rq.header (bytes "deflate")

section Lengths
variable {lib : Libs} {deflated : Str → Str} {encrypted : Str → Str → Str} {ti : TransInfo}

/-- The size of an array with padding is never the length of what was encrypted. -/
theorem padded_ne (hlib : lib.Laws deflated encrypted) (key x : Str) :
    (encrypted key x).length % 2 ^ 32 ≠ x.length := by
  rw [hlib.padded]
  omega

/-- When the announced length is that of the body. -/
theorem announced_iff (hlib : lib.Laws deflated encrypted) (rq : StaticRequest) {file : Str}
    (hsize : ti.fileSize = file.length) :
    (if sentDeflated ti rq then (stored deflated encrypted ti file).length
      else ti.fileSize % 2 ^ 32) % 2 ^ 32 =
        (sentBody deflated (sentDeflated ti rq) file).length ↔
      ¬ (sentDeflated ti rq = true ∧ ti.encrypt = true) ∧
        (sentBody deflated (sentDeflated ti rq) file).length < 2 ^ 32 := by
  cases hs : sentDeflated ti rq with
  | false =>
    simp only [Bool.false_eq_true, if_false, sentBody, false_and, not_false_eq_true,
      true_and, hsize]
    omega
  | true =>
    have hcomp : ti.comp = true := by
      simp only [sentDeflated, Bool.and_eq_true] at hs
      exact hs.1.2
    cases henc : ti.encrypt with
    | false =>
      simp only [if_true, sentBody, stored, packed, hcomp, henc, Bool.false_eq_true,
        if_false, and_false,
        not_false_eq_true, true_and]
      omega
    | true =>
      have hne := padded_ne hlib (ti.key.take CODEC_CIPHER_KEY_LEN) (deflated file)
      simp only [if_true, sentBody, stored, packed, hcomp, henc, and_self, not_true_eq_false,
        false_and, iff_false]
      exact hne

theorem faithful_iff {date : ℤ → Option Str} (hlib : lib.Laws deflated encrypted)
    (hdate : (date ti.mtime).isSome = true) {file : Str} (hsize : ti.fileSize = file.length)
    (rq : StaticRequest) (ss : Option KeySession) (cgi : Bool) (serverSig now : Str) {e : EmbFile}
    (he : e = printStaticPageBlock ti (stored deflated encrypted ti file)) :
    Faithful lib (staticResponse date rq (responseFor cgi rq.method serverSig now) e ss) file
        (sentBody deflated (sendAsIs rq e) file) ↔
      ¬ (sentDeflated ti rq = true ∧ ti.encrypt = true) ∧
        (sentBody deflated (sentDeflated ti rq) file).length < 2 ^ 32 := by
  have hd : (date e.mtime).isSome = true := by
    rw [he]
    exact hdate
  have hsai : sendAsIs rq e = sentDeflated ti rq := by
    rw [he]
    rfl
  have hdecodes : if (if sentDeflated ti rq then some (bytes "deflate") else none) =
    some (bytes "deflate") then
      lib.inflate.Computes false (sentBody deflated (sentDeflated ti rq) file) file
      else sentBody deflated (sentDeflated ti rq) file = file := by
    cases sentDeflated ti rq with
    | false => simp [sentBody]
    | true => simpa [sentBody] using hlib.inflate file
  rw [← announced_iff hlib rq hsize, Faithful, staticResponse_contentLength hd,
    staticResponse_contentEncoding hd, hsai]
  simp only [hdecodes, true_and, Option.some.injEq, unsignedDecimal_eq_iff]
  rw [he]
  rfl

end Lengths

/-- A file that is embedded and served: the body that the client gets decodes to it and
has the announced length, unless the file is compressed, encrypted and sent deflated, or
the body is too long for an `unsigned int`. -/
theorem embedded_file_faithful_iff (lib : Libs) (deflated : Str → Str) (encrypted : Str → Str → Str)
    (hlib : lib.Laws deflated encrypted) (date : ℤ → Option Str)
    (hdate : ∀ t, (date t).isSome = true) (d₁ : Device) (pending : d₁.State → Str)
    (hd₁ : Delivers d₁ pending) (src : d₁.State) (ti : TransInfo)
    (hsize : ti.fileSize = (pending src).length) (ss : Option KeySession) (hkey : RightKey ti ss)
    (d₂ : Device) (received : d₂.State → Str) (hd₂ : Accepts d₂ received) (io : Io d₂)
    (hio : Unwritten io) (rq : StaticRequest) (hget : rq.method = .get) (cgi : Bool)
    (serverSig now : Str) :
    ∃ io₁ e, Ends (fun n => translate lib n ti src) (io₁, some e) ∧
      ∃ s, Ends (fun n => staticSession lib date n rq (responseFor cgi rq.method serverSig now)
        e ss io) s ∧
        ∃ body, received s.io.dev = received io.dev ++ (s.rs.printed ++ body) ∧
          (Faithful lib s.rs (pending src) body ↔
            ¬ (sentDeflated ti rq = true ∧ ti.encrypt = true) ∧
              (sentBody deflated (sentDeflated ti rq) (pending src)).length < 2 ^ 32) := by
  have hm : rq.method ≠ .head := by
    rw [hget]
    decide
  have hrs : (responseFor cgi rq.method serverSig now).method ≠ .head := hm
  obtain ⟨io₁, htrans⟩ := translate_ends hlib hd₁ src ti
  obtain ⟨io', hends, hrec⟩ :=
    staticSession_get hlib hd₂ (hdate ti.mtime) hkey hm hrs hio (pending src) rfl
  exact ⟨io₁, _, htrans, _, hends, _, hrec,
    faithful_iff hlib (hdate ti.mtime) hsize rq ss cgi serverSig now rfl⟩

/-! ## A sample

Libraries that keep all input to the end. On the sample file and key they give what
zlib and AES-256-CBC give; other files are marked and padded only. -/

/-- All output comes after the last input. -/
def collecting (f : Str → Str) : Zlib where
  State := Str × Option Str
  init := ([], none)
  op s _ src room :=
    if src = [] then
      let rest := s.2.getD (f s.1)
      ⟨(s.1, some (rest.drop room)), if rest.drop room = [] then .streamEnd else .ok, 0,
        rest.take room⟩
    else ⟨(s.1 ++ src, none), .ok, src.length, []⟩

theorem collecting_op (f : Str → Str) (s : (collecting f).State) (finish : Bool) {src : Str}
    (hsrc : src ≠ []) (room : ℕ) :
    (collecting f).op s finish src room = ⟨(s.1 ++ src, none), .ok, src.length, []⟩ := if_neg hsrc

theorem collecting_fed {f : Str → Str} {total : Str} {s : (collecting f).State} {inp out : Str}
    (h : (collecting f).Fed total s inp out) : s.1 = inp ∧ s.2 = none ∧ out = [] := by
  induction h with
  | init => exact ⟨rfl, rfl, rfl⟩
  | @op s inp out src room h hroom _ hsrc htotal ih =>
    obtain ⟨hinp, -, hout⟩ := ih
    rw [collecting_op f s false hsrc room, List.take_length]
    exact ⟨congrArg (· ++ src) hinp, rfl, (List.append_nil _).trans hout⟩

theorem collecting_ending {f : Str → Str} {finish : Bool} {total : Str} {s : (collecting f).State}
    {out : Str} (h : (collecting f).Ending finish total s out) :
    out ++ s.2.getD (f s.1) = f total := by
  induction h with
  | start h =>
    obtain ⟨hinp, hnone, hout⟩ := collecting_fed h
    rw [hinp, hnone, hout]
    rfl
  | @op s out room h hroom _ hret ih =>
    change out ++ (s.2.getD (f s.1)).take room ++ (s.2.getD (f s.1)).drop room = f total
    rw [List.append_assoc, List.take_append_drop, ih]

theorem collecting_computes (f : Str → Str) (finish : Bool) (total : Str) :
    (collecting f).Computes finish total (f total) := by
  refine ⟨?_, ?_⟩
  · intro s inp out h room src hroom _ hsrc htotal
    obtain ⟨-, -, hout⟩ := collecting_fed h
    rw [collecting_op f s false hsrc room, hout]
    exact ⟨nofun, le_refl _, Nat.zero_le _, Or.inl (List.length_pos_iff.mpr hsrc),
      List.nil_prefix, nofun⟩
  · intro s out h room hroom _
    have hall := collecting_ending h
    have hsplit : out ++ (s.2.getD (f s.1)).take room ++ (s.2.getD (f s.1)).drop room =
        f total := by
      rw [List.append_assoc, List.take_append_drop, hall]
    have hop : (collecting f).op s finish [] room =
        ⟨(s.1, some ((s.2.getD (f s.1)).drop room)),
          if (s.2.getD (f s.1)).drop room = [] then .streamEnd else .ok, 0,
            (s.2.getD (f s.1)).take room⟩ := rfl
    rw [hop]
    by_cases hnil : (s.2.getD (f s.1)).drop room = []
    · rw [hnil, List.append_nil] at hsplit
      simp only [hnil, if_true]
      refine ⟨nofun, List.length_take_le _ _, nofun, ?_, fun _ => hsplit⟩
      rw [hsplit]
    · have hrest : s.2.getD (f s.1) ≠ [] := by
        intro he
        rw [he, List.drop_nil] at hnil
        exact hnil rfl
      have hr : room ≠ 0 := by omega
      simp only [hnil, if_false]
      exact ⟨nofun, List.length_take_le _ _, fun _ => by simp [hr, hrest], ⟨_, hsplit⟩, nofun⟩

def collectingEvp (f : Str → Str) : Evp :=
  ⟨Str, [], fun ctx src => some (ctx ++ src, []), fun ctx => some (f ctx)⟩

theorem collectingEvp_fed {f : Str → Str} {total : Str} {ctx : (collectingEvp f).Ctx}
    {inp out : Str} (h : (collectingEvp f).Fed total ctx inp out) : ctx = inp ∧ out = [] := by
  induction h with
  | init => exact ⟨rfl, rfl⟩
  | @update ctx ctx' inp out src o h hsrc hlen htotal hu ih =>
    obtain ⟨rfl, rfl⟩ := ih
    obtain ⟨rfl, rfl⟩ := Prod.mk.inj (Option.some.inj hu)
    exact ⟨rfl, rfl⟩

theorem collectingEvp_computes (f : Str → Str) (total : Str) :
    (collectingEvp f).Computes total (f total) := by
  refine ⟨?_, ?_⟩
  · intro ctx inp out h src _ _ _
    obtain ⟨rfl, rfl⟩ := collectingEvp_fed h
    exact ⟨_, _, rfl, List.nil_prefix⟩
  · intro ctx out h
    obtain ⟨rfl, rfl⟩ := collectingEvp_fed h
    exact ⟨_, rfl, rfl⟩

def sampleFile : Str := bytes "aaaaaaaaaa"
def sampleKey : Str := bytes "0123456789abcdef0123456789abcdef"

def sampleZ : Str := [75, 76, 132, 1, 0]

/-- The deflated sample file encrypted with the sample key. -/
def sampleC : Str := [103, 212, 253, 81, 162, 168, 151, 175, 114, 156, 214, 110, 113, 18, 9, 35]

def sampleDeflated (x : Str) : Str := if x = sampleFile then sampleZ else 0 :: x

def sampleInflated (y : Str) : Str := if y = sampleZ then sampleFile else y.drop 1

def padded (x : Str) : Str :=
  x ++ List.replicate (16 - x.length % 16) (UInt8.ofNat (16 - x.length % 16))

def unpadded (y : Str) : Str := y.take (y.length - (y.getLastD 0).toNat)

def sampleEncrypted (key x : Str) : Str :=
  if key = sampleKey ∧ x = sampleZ then sampleC else padded x

def sampleDecrypted (key y : Str) : Str :=
  if key = sampleKey ∧ y = sampleC then sampleZ else unpadded y

def sampleLibs : Libs :=
  ⟨collecting sampleDeflated, collecting sampleInflated,
    fun key => collectingEvp (sampleEncrypted key),
    fun key => collectingEvp (sampleDecrypted key)⟩

theorem sampleInflated_deflated (x : Str) : sampleInflated (sampleDeflated x) = x := by
  unfold sampleDeflated sampleInflated
  by_cases hx : x = sampleFile
  · simp [hx]
  · have hne : ¬ (0 : Byte) :: x = sampleZ := by simp [sampleZ]
    simp [hx, hne]

theorem padded_last (x : Str) : (padded x).getLastD 0 = UInt8.ofNat (16 - x.length % 16) := by
  have hpos : 16 - x.length % 16 ≠ 0 := by omega
  unfold padded
  rw [List.getLastD_eq_getLast?, List.getLast?_append]
  simp [List.getLast?_replicate, hpos]

theorem unpadded_padded (x : Str) : unpadded (padded x) = x := by
  have hlt : 16 - x.length % 16 < 256 := by omega
  unfold unpadded
  rw [padded_last, UInt8.toNat_ofNat', Nat.mod_eq_of_lt hlt]
  simp [padded]

theorem sampleDecrypted_encrypted (key x : Str) :
    sampleDecrypted key (sampleEncrypted key x) = x := by
  unfold sampleEncrypted
  by_cases hx : key = sampleKey ∧ x = sampleZ
  · simp [hx, sampleDecrypted]
  · have hne : padded x ≠ sampleC := by
      intro he
      have hlast := padded_last x
      have hlt : 16 - x.length % 16 < 256 := by omega
      rw [he] at hlast
      have hnat := congrArg UInt8.toNat hlast
      rw [UInt8.toNat_ofNat', Nat.mod_eq_of_lt hlt] at hnat
      have h35 : (sampleC.getLastD 0).toNat = 35 := by decide
      omega
    simp [hx, sampleDecrypted, hne, unpadded_padded]

theorem sampleEncrypted_length (key x : Str) :
    (sampleEncrypted key x).length = (x.length / 16 + 1) * 16 := by
  unfold sampleEncrypted
  split
  · next h =>
    rw [h.2]
    decide
  · simp only [padded, List.length_append, List.length_replicate]
    omega

theorem sampleLibs_laws : sampleLibs.Laws sampleDeflated sampleEncrypted where
  deflate x := collecting_computes _ _ x
  inflate x := by
    have h := collecting_computes sampleInflated false (sampleDeflated x)
    rw [sampleInflated_deflated] at h
    exact h
  encrypt key x := collectingEvp_computes _ x
  decrypt key x := by
    have h := collectingEvp_computes (sampleDecrypted key) (sampleEncrypted key x)
    rw [sampleDecrypted_encrypted] at h
    exact h
  padded := sampleEncrypted_length

def sampleInfo : TransInfo := ⟨bytes "text/plain", sampleKey, true, true, 10, 0⟩

def sampleSession : KeySession := ⟨[⟨SESSION_KEY_VAR, sampleKey⟩], []⟩

def sampleDate (_ : ℤ) : Option Str := some (bytes "Thu, 01 Jan 1970 00:00:00 GMT")

/-- A client that accepts deflated content, and one that says nothing about it. -/
def sampleAccepting : StaticRequest :=
  ⟨.get, [⟨bytes "Accept-Encoding", bytes "gzip, deflate"⟩], true⟩

def samplePlain : StaticRequest := ⟨.get, [], true⟩

theorem sampleSession_key : RightKey sampleInfo (some sampleSession) := by
  intro _
  decide

theorem ioCreate_unwritten {d : Device} (dev : d.State) :
    Unwritten (ioCreate dev []) := ⟨rfl, rfl, rfl⟩

theorem embedded_file_faithful_sample :
    ∃ io₁ e, Ends (fun n => translate (d := fifo) sampleLibs n sampleInfo sampleFile)
    (io₁, some e) ∧
      ∃ s, Ends (fun n => staticSession sampleLibs sampleDate n samplePlain
          (responseFor false .get (bytes "klone") (bytes "now")) e (some sampleSession)
          (ioCreate (d := fifo) [] [])) s ∧
        ∃ body, s.io.dev = s.rs.printed ++ body ∧ Faithful sampleLibs s.rs sampleFile body := by
  obtain ⟨io₁, e, htrans, s, hends, body, hrec, hiff⟩ :=
    embedded_file_faithful_iff sampleLibs sampleDeflated
    sampleEncrypted sampleLibs_laws sampleDate
      (fun _ => rfl) fifo id fifo_delivers sampleFile sampleInfo (by decide)
    (some sampleSession) sampleSession_key fifo id fifo_accepts (ioCreate (d := fifo) [] [])
      (ioCreate_unwritten _)
    samplePlain rfl false (bytes "klone") (bytes "now")
  exact ⟨io₁, e, htrans, s, hends, body, hrec, hiff.mpr (by decide)⟩

/-- The client that accepts deflated content is told a length of 16 for 5 bytes. -/
theorem embedded_file_wrong_length :
    ∃ io₁ e, Ends (fun n => translate (d := fifo) sampleLibs n sampleInfo sampleFile)
    (io₁, some e) ∧
      ∃ s, Ends (fun n => staticSession sampleLibs sampleDate n sampleAccepting
          (responseFor false .get (bytes "klone") (bytes "now")) e (some sampleSession)
          (ioCreate (d := fifo) [] [])) s ∧
        s.io.dev = s.rs.printed ++ sampleZ ∧
        headerGetFieldValue s.rs.header (bytes "Content-Length") = some (bytes "16") ∧
        ¬ Faithful sampleLibs s.rs sampleFile sampleZ := by
  have hget : sampleAccepting.method ≠ .head := by decide
  have hrs : (responseFor false .get (bytes "klone") (bytes "now")).method ≠ .head := hget
  have hdate : (sampleDate sampleInfo.mtime).isSome = true := rfl
  obtain ⟨io₁, htrans⟩ := translate_ends sampleLibs_laws fifo_delivers sampleFile sampleInfo
  obtain ⟨io', hends, hrec⟩ :=
    staticSession_get sampleLibs_laws fifo_accepts hdate sampleSession_key hget hrs
    (ioCreate_unwritten (d := fifo) []) sampleFile rfl
  have hsize : sampleInfo.fileSize = sampleFile.length := rfl
  have hiff := faithful_iff sampleLibs_laws hdate hsize sampleAccepting (some sampleSession) false
    (bytes "klone")
    (bytes "now") rfl
  refine ⟨io₁, _, htrans, _, hends, hrec, ?_, fun h => ?_⟩
  · exact staticResponse_contentLength hdate
  · exact absurd (hiff.mp h).1 (by decide)

end Klone.Emb
