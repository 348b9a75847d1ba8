import Klone.Io.Composition
import Klone.Request.HeaderText
import Klone.Request.Uploads
import Klone.Session.Variables

/-! # Forms with files

A form is posted as a browser does it, with a part for each field and each file. The variables
of the request are the fields, and behind the uploads are files with what was posted.
-/
namespace Klone.Uploads
open Chain Loop Matcher Multipart Page

variable {e : Device}

/-- A part of a form: the type is sent with files only, and a file that has not been chosen has
an empty name. -/
structure FormPart where
  name : Str
  filename : Option Str
  mime : Option Str
  content : List Byte

namespace FormPart

def clientName (p : FormPart) : Str := p.filename.getD []

def IsFile (p : FormPart) : Prop := p.clientName ≠ []

instance (p : FormPart) : Decidable p.IsFile := inferInstanceAs (Decidable (p.clientName ≠ []))

def disposition (p : FormPart) : Str :=
  bytes "form-data; name=\"" ++ (p.name ++ [34]) ++
    match p.filename with
    | none => []
    | some f => bytes "; filename=\"" ++ (f ++ [34])

def header (p : FormPart) : Header :=
  ⟨bytes "Content-Disposition", p.disposition⟩ ::
    (p.mime.map fun m => (⟨bytes "Content-Type", m⟩ : Field)).toList

/-- What the part leaves in the request, and in the file system. -/
def vars (p : FormPart) : List Var := if p.IsFile then [] else [⟨p.name, p.content⟩]

def uploads (p : FormPart) (tmpName : Str) : List Upload :=
  if p.IsFile then [⟨p.name, tmpName, p.clientName, p.mime.getD [], p.content.length⟩] else []

def files (p : FormPart) : List Str := if p.IsFile then [p.content] else []

end FormPart

/-- What follows a boundary: the parts that are left, or the end. -/
def formTail (b : Str) : List FormPart → List Byte
  | [] => bytes "--\r\n"
  | p :: parts => bytes "\r\n" ++ (headerText p.header ++
    (p.content ++ nlBoundary b ++ formTail b parts))

def formBody (b : Str) (parts : List FormPart) : List Byte := bytes "--" ++ b ++ formTail b parts

/-- The uploads of the parts, with the names of the temporary files from the `k`-th on. -/
def uploadsFrom (names : ℕ → Str) : ℕ → List FormPart → List Upload
  | _, [] => []
  | k, p :: parts => p.uploads (names k) ++ uploadsFrom names (k + 1) parts

/-- A part that can be posted with a boundary: names without quotes, semicolons and line ends,
a header within its limits, and data in which there is no boundary and that no call of
`read_until` carries past the stack buffer. -/
structure Posted (b : Str) (p : FormPart) : Prop where
  name_plain : ∀ c ∈ p.name ++ p.clientName, c ≠ 34 ∧ c ≠ 59 ∧ isnl c = false ∧ c ≠ 0
  short : p.disposition.length < 512
  mime_line : ∀ m ∈ p.mime, (⟨bytes "Content-Type", m⟩ : Field).Line
  mime_short : ∀ m ∈ p.mime, m.length ≤ 255
  mime_single : ∀ m ∈ p.mime, startsWithCase m (bytes "multipart/mixed") = false
  free : ¬ nlBoundary b <:+: p.content
  room : PartFits (nlBoundary b) Multipart.BUFSZ (fun _ => true) (p.content ++ nlBoundary b)

structure FormPost (rq : Request) (b : Str) (parts : List FormPart) : Prop where
  multipart : requestIsMultipartFormdata rq = true
  boundary : requestGetFieldparam rq.header (bytes "Content-Type") (bytes "boundary")
    (BOUNDARY_BUFSZ - 2) = some b
  short : b.length + 4 < BOUNDARY_BUFSZ
  length : contentLengthOf rq.header = some (formBody b parts).length
  limit : (formBody b parts).length ≤ rq.postMaxsize

def MIME_TYPE_BUFSZ : ℕ := 256

def uploadVar (u : Upload) : Var := varCreate u.name u.tmpFilename

/-- The path of the file, the name that the client has given, the type and the size; `max` is the
size of the buffers for the two names. -/
def requestGetUploadedFilev (max : ℕ) (u : Upload) : Option (Str × Str × Str × ℕ) :=
  (Session.varGetValue (uploadVar u)).map fun tmpFqn =>
    ((strlcpy tmpFqn max).2, (strlcpy u.filename max).2,
      (strlcpy u.mimeType MIME_TYPE_BUFSZ).2, u.size)

def requestGetUploadedFile (max : ℕ) (rq : Request) (name : Str) (idx : ℕ) :
    Option (Str × Str × Str × ℕ) :=
  if rq.uploads.length ≤ idx then none
  else (Session.varsGeti name (rq.uploads.map uploadVar) idx).bind fun t =>
    rq.uploads[t]?.bind (requestGetUploadedFilev max)

def uploadInfo (u : Upload) : Str × Str × Str × ℕ := (u.tmpFilename, u.filename, u.mimeType, u.size)

structure PathFits (max : ℕ) (path : Str) : Prop where
  path_str : 0 ∉ path
  short : path.length < max

/-! ## The header of a part -/

section
variable {b : Str} {p : FormPart} (h : Posted b p)
include h

theorem Posted.disposition_clean : ∀ c ∈ p.disposition, isnl c = false ∧ c ≠ 0 := by
  have hname : ∀ c ∈ p.name ++ [34], isnl c = false ∧ c ≠ 0 := by
    intro c hc
    rcases List.mem_append.mp hc with hc | hc
    · exact (h.name_plain c (List.mem_append_left _ hc)).2.2
    · rw [List.mem_singleton.mp hc]
      decide
  have hopen : ∀ c ∈ bytes "form-data; name=\"", isnl c = false ∧ c ≠ 0 := clean_of_all rfl
  have hfile : ∀ c ∈ bytes "; filename=\"", isnl c = false ∧ c ≠ 0 := clean_of_all rfl
  intro c hc
  unfold FormPart.disposition at hc
  rcases List.mem_append.mp hc with hc | hc
  · rcases List.mem_append.mp hc with hc | hc
    · exact hopen c hc
    · exact hname c hc
  · have hplain := h.name_plain
    unfold FormPart.clientName at hplain
    cases hf : p.filename with
    | none =>
      rw [hf] at hc
      cases hc
    | some f =>
      rw [hf] at hc hplain
      rcases List.mem_append.mp hc with hc | hc
      · exact hfile c hc
      · rcases List.mem_append.mp hc with hc | hc
        · exact (hplain c (List.mem_append_right _ hc)).2.2
        · rw [List.mem_singleton.mp hc]
          decide

theorem Posted.header_lines : ∀ f ∈ p.header, f.Line := by
  have hlabel : ∀ c ∈ bytes "Content-Disposition", isnl c = false ∧ c ≠ 0 := clean_of_all rfl
  have hname : bytes "Content-Disposition" ≠ [] ∧
    (58 : Byte) ∉ bytes "Content-Disposition" := by decide
  have hshort := h.short
  have hfirst : (⟨bytes "Content-Disposition", p.disposition⟩ : Field).Line := by
    refine ⟨hname.1, rfl, hname.2, ?_, rfl, ?_⟩
    · intro c hc
      rcases List.mem_append.mp hc with hc | hc
      · exact hlabel c hc
      · exact h.disposition_clean c hc
    · simp only [fieldText, List.length_append,
        show (bytes "Content-Disposition").length = 19 from rfl,
        show (bytes ": ").length = 2 from rfl]
      omega
  intro f hf
  rcases List.mem_cons.mp hf with rfl | hf
  · exact hfirst
  · obtain ⟨m, hm, rfl⟩ := Option.map_eq_some_iff.mp (Option.mem_toList.mp hf)
    exact h.mime_line m hm

omit h in
theorem header_count (p : FormPart) : p.header.length ≤ 255 := by
  unfold FormPart.header
  cases p.mime <;> simp

omit h in
theorem header_disposition (p : FormPart) :
    headerGetFieldValue p.header (bytes "Content-Disposition") = some p.disposition := by
  have hsame := strcasecmpEq_self (bytes "Content-Disposition")
  simp [headerGetFieldValue, headerGetField, FormPart.header, hsame]

omit h in
theorem header_mime (p : FormPart) :
    headerGetFieldValue p.header (bytes "Content-Type") = p.mime := by
  have hother : strcasecmpEq (bytes "Content-Disposition") (bytes "Content-Type") = false := rfl
  have hsame := strcasecmpEq_self (bytes "Content-Type")
  unfold FormPart.header
  cases p.mime with
  | none => simp [headerGetFieldValue, headerGetField, hother]
  | some m => simp [headerGetFieldValue, headerGetField, hother, hsame]

omit h in
theorem header_encoding (p : FormPart) : isEncoded p.header = false := by
  have hfirst : strcasecmpEq (bytes "Content-Disposition") (bytes "Content-Transfer-Encoding") =
    false := rfl
  have hother : strcasecmpEq (bytes "Content-Type") (bytes "Content-Transfer-Encoding") = false :=
    rfl
  unfold FormPart.header
  cases p.mime with
  | none => simp [isEncoded, headerGetFieldValue, headerGetField, hfirst]
  | some m => simp [isEncoded, headerGetFieldValue, headerGetField, hfirst, hother]

theorem Posted.single : isMultipartMixed p.header = false := by
  have hsingle := h.mime_single
  rw [isMultipartMixed, matchContentType, header_mime]
  cases hm : p.mime with
  | none => rfl
  | some m => exact hsingle m hm

omit h in
theorem quoted_token (label s : Str) (hlabel : ∀ c ∈ label, (c == 59) = false)
    (hs : ∀ c ∈ s, c ≠ 59) :
    ∀ c ∈ label ++ 34 :: (s ++ [34]), (c == 59) = false := by
  intro c hc
  rcases List.mem_append.mp hc with hc | hc
  · exact hlabel c hc
  · rcases List.mem_cons.mp hc with rfl | hc
    · rfl
    · rcases List.mem_append.mp hc with hc | hc
      · simpa using hs c hc
      · rw [List.mem_singleton.mp hc]
        rfl

omit h in
theorem unquote_quoted (s : Str) : unquote (34 :: (s ++ [34])) = s := by
  simp [unquote, isQuote]

omit h in
theorem nameToken (acc : Str × Str) {s : Str} (hs : s.length < PRMSZ) :
    contentDispositionToken acc (bytes " name=" ++ 34 :: (s ++ [34])) = (s, acc.2) := by
  have hdrop : (bytes " name=" ++ 34 :: (s ++ [34])).dropWhile isspace =
    bytes "name=" ++ 34 :: (s ++ [34]) := rfl
  have hno : (bytes "form-data").isPrefixOf (bytes "name=" ++ 34 :: (s ++ [34])) = false := rfl
  have hyes : (bytes "name=").isPrefixOf (bytes "name=" ++ 34 :: (s ++ [34])) = true :=
    List.isPrefixOf_iff_prefix.mpr (List.prefix_append _ _)
  have htake : s.take (PRMSZ - 1) = s := List.take_of_length_le (Nat.le_sub_one_of_lt hs)
  rw [contentDispositionToken, hdrop]
  simp only [hno, hyes, Bool.false_eq_true, if_false, if_true, List.drop_left, unquote_quoted,
    strlcpy, htake]

omit h in
theorem filenameToken (acc : Str × Str) {s : Str} (hs : s.length < PRMSZ) :
    contentDispositionToken acc (bytes " filename=" ++ 34 :: (s ++ [34])) = (acc.1, s) := by
  have hdrop : (bytes " filename=" ++ 34 :: (s ++ [34])).dropWhile isspace =
    bytes "filename=" ++ 34 :: (s ++ [34]) := rfl
  have hno : (bytes "form-data").isPrefixOf (bytes "filename=" ++ 34 :: (s ++ [34])) = false := rfl
  have hname : (bytes "name=").isPrefixOf (bytes "filename=" ++ 34 :: (s ++ [34])) = false := rfl
  have hyes : (bytes "filename=").isPrefixOf (bytes "filename=" ++ 34 :: (s ++ [34])) = true :=
    List.isPrefixOf_iff_prefix.mpr (List.prefix_append _ _)
  have htake : s.take (PRMSZ - 1) = s := List.take_of_length_le (Nat.le_sub_one_of_lt hs)
  rw [contentDispositionToken, hdrop]
  simp only [hno, hname, hyes, Bool.false_eq_true, if_false, if_true, List.drop_left,
    unquote_quoted, strlcpy, htake]

omit h in
/-- The tokens of the field: a quoted name, and a quoted file name if there is one. -/
theorem disposition_tokens {p : FormPart} (hplain : ∀ c ∈ p.name ++ p.clientName, c ≠ 59) :
    strtok (· == 59) p.disposition =
    [bytes "form-data", bytes " name=" ++ 34 :: (p.name ++ [34])] ++
      (p.filename.map fun f => bytes " filename=" ++ 34 :: (f ++ [34])).toList := by
  have hlit : ∀ c ∈ bytes "form-data", (c == 59) = false := eq_false_of_any rfl
  have hname := quoted_token (bytes " name=") p.name (eq_false_of_any rfl)
    fun c hc => hplain c (List.mem_append_left _ hc)
  unfold FormPart.clientName at hplain
  cases hf : p.filename with
  | none =>
    have hcut : p.disposition =
        bytes "form-data" ++ 59 :: (bytes " name=" ++ 34 :: (p.name ++ [34])) := by
      rw [FormPart.disposition, hf, List.append_nil]
      rfl
    rw [hcut, strtok_append (by decide) hlit rfl, strtok_token (by simp [bytes]) hname]
    rfl
  | some f =>
    rw [hf] at hplain
    have hfile := quoted_token (bytes " filename=") f (eq_false_of_any rfl)
      fun c hc => hplain c (List.mem_append_right _ hc)
    have hcut : p.disposition =
      bytes "form-data" ++ 59 :: ((bytes " name=" ++ 34 :: (p.name ++ [34])) ++
        59 :: (bytes " filename=" ++ 34 :: (f ++ [34]))) := by
      simp only [FormPart.disposition, hf, List.append_assoc, List.cons_append, List.nil_append]
      rfl
    rw [hcut, strtok_append (by decide) hlit rfl, strtok_append (by simp [bytes]) hname rfl,
      strtok_token (by simp [bytes]) hfile]
    rfl

theorem Posted.disposition_parsed :
    parseContentDisposition p.header = some (p.name, p.clientName) := by
  have hshort := h.short
  have htoks := disposition_tokens fun c hc => (h.name_plain c hc).2.1
  have hform : (bytes "form-data").isPrefixOf p.disposition = true := by
    rw [List.isPrefixOf_iff_prefix, FormPart.disposition, List.append_assoc]
    exact ⟨bytes "; name=\"" ++ _, by rw [← List.append_assoc]; rfl⟩
  have hfirst : contentDispositionToken ([], []) (bytes "form-data") = ([], []) := by decide
  have hname : p.name.length < PRMSZ := by
    rw [FormPart.disposition, List.length_append, List.length_append, List.length_append] at hshort
    rw [PRMSZ]
    omega
  rw [parseContentDisposition, header_disposition]
  simp only [if_neg (not_le.mpr h.short), hform, if_true, htoks]
  unfold FormPart.disposition at hshort
  unfold FormPart.clientName
  cases hf : p.filename with
  | none =>
    simp only [Option.map_none, Option.toList_none, List.append_nil, List.foldl_cons,
      List.foldl_nil, hfirst, nameToken _ hname]
    rfl
  | some f =>
    have hfile : f.length < PRMSZ := by
      simp only [hf, List.length_append] at hshort
      rw [PRMSZ]
      omega
    simp only [Option.map_some, Option.toList_some, List.cons_append, List.nil_append,
      List.foldl_cons, List.foldl_nil, hfirst,
      nameToken _ hname, filenameToken _ hfile]
    rfl

end

/-! ## One part -/

section
variable {received : e.State → Str}

def addPart (rq : Request) (p : FormPart) (tmpName : Str) : Request :=
  { rq with
    args := rq.args ++ p.vars
    argsPost := rq.argsPost ++ p.vars
    uploads := rq.uploads ++ p.uploads tmpName }

/-- Behind the header of a part its data are read, into a file or into a variable. -/
theorem chunk_reads {tmp : TmpStream e} {tmpName : Str} (hname : tmp.name = some tmpName)
    (rq : Request) {b : Str} {p : FormPart} (hshort : b.length + 4 < BOUNDARY_BUFSZ)
    (h : Posted b p) (data : List Byte) (rtot : ℕ) (buf : List Byte) (n : ℕ) :
    requestParseMultipartChunk n rq ⟨headerText p.header ++ data, false, rtot⟩
    (nlBoundary b) tmp buf =
      if p.IsFile then
        uploadPart n rq p.header p.name p.clientName tmpName tmp
          ⟨data, false, rtot + (headerText p.header).length⟩
          (nlBoundary b) buf
      else some (fieldPart rq p.name ⟨data, false, rtot + (headerText p.header).length⟩
        (nlBoundary b) buf, none) := by
  have hload := headerLoad_text h.header_lines (header_count p) data false rtot
  have hsize : ¬ Multipart.BUFSZ ≤ (nlBoundary b).length := by
    rw [nlBoundary, List.length_append, show (bytes "\r\n--").length = 4 from rfl, Multipart.BUFSZ]
    rw [BOUNDARY_BUFSZ] at hshort
    omega
  rw [requestParseMultipartChunk, hload]
  simp only [h.single, header_encoding, Bool.false_eq_true, if_false, h.disposition_parsed,
    hname, hsize]
  rfl

/-- A file is copied up to the boundary. -/
theorem filePart_parsed {tmp : TmpStream e} (htmp : Sound received tmp) (rq : Request) {b : Str}
    {p : FormPart} (hb : (13 : Byte) ∉ b) (hshort : b.length + 4 < BOUNDARY_BUFSZ) (h : Posted b p)
    (tmpName : Str) (rest : List Byte) (rtot : ℕ) (buf : List Byte) :
    ∃ m buf' dev, received dev = p.content ∧
    Ends (fun n => uploadPart n rq p.header p.name p.clientName tmpName tmp
        ⟨p.content ++ nlBoundary b ++ rest, false, rtot⟩ (nlBoundary b) buf)
      (afterPart { rq with
          uploads := rq.uploads ++ [⟨p.name, tmpName, p.clientName, p.mime.getD [], p.content.length⟩] }
        ⟨rest, false, m⟩ buf', some dev) := by
  have hsize : (nlBoundary b).length + 1 ≤ Multipart.BUFSZ := by
    rw [nlBoundary, List.length_append, show (bytes "\r\n--").length = 4 from rfl, Multipart.BUFSZ]
    rw [BOUNDARY_BUFSZ] at hshort
    omega
  have hfirst : FirstAt (nlBoundary b) (p.content ++ nlBoundary b ++ rest) p.content rest :=
    firstAt_append (nlBoundary_unique hb) h.free
  have haccepts : ∀ k, k ≤ ([] : List Byte).length + p.content.length →
    (fun _ : ℕ => true) k = true := fun _ _ => rfl
  obtain ⟨t, hrun, hdata, m, hend⟩ :=
    partLoop_run (nlBoundary_unique hb) hsize false rtot buf [] false hfirst haccepts
    (Nat.lt_succ_self _)
  obtain ⟨dev, hrec, hends⟩ := uploadPart_follows htmp hrun rq p.header p.name p.clientName tmpName
  have hmime : (p.mime.getD []).take 255 = p.mime.getD [] := by
    refine List.take_of_length_le ?_
    cases hm : p.mime with
    | none => exact Nat.zero_le _
    | some m => exact h.mime_short m hm
  rw [List.nil_append] at hdata
  rw [header_mime, hmime, hdata, hend] at hends
  exact ⟨m, _, dev, hrec.trans hdata, hends⟩

theorem chunk_parsed {tmp : TmpStream e} (htmp : Sound received tmp) {tmpName : Str}
    (hname : tmp.name = some tmpName) {rq : Request} {b : Str} {p : FormPart} (hb : (13 : Byte) ∉ b)
    (hshort : b.length + 4 < BOUNDARY_BUFSZ) (h : Posted b p)
    (hlimit : p.content.length ≤ rq.postMaxsize) (rest : List Byte) (rtot : ℕ) (buf : List Byte) :
    ∃ m buf' file, file.toList.map received = p.files ∧
    Ends (fun n => requestParseMultipartChunk n rq
        ⟨headerText p.header ++ (p.content ++ nlBoundary b ++ rest), false, rtot⟩
          (nlBoundary b) tmp buf)
      (afterPart (addPart rq p tmpName) ⟨rest, false, m⟩ buf', file) := by
  simp only [chunk_reads hname rq hshort h]
  by_cases hfile : p.IsFile
  · obtain ⟨m, buf', dev, hrec, hends⟩ := filePart_parsed htmp rq hb hshort h tmpName rest
      (rtot + (headerText p.header).length) buf
    refine ⟨m, buf', some dev, ?_, ?_⟩
    · simp [FormPart.files, hfile, hrec]
    · simp only [addPart, FormPart.vars, FormPart.uploads, hfile, if_true, List.append_nil]
      exact hends
  · obtain ⟨m, buf', hfield⟩ := fieldPart_parsed rq hb hshort p.name h.free hlimit rest
      (rtot + (headerText p.header).length) buf
    refine ⟨m, buf', none, ?_, ?_⟩
    · simp [FormPart.files, hfile]
    · simp only [addPart, FormPart.vars, FormPart.uploads, hfile, if_false, List.append_nil, hfield]
      exact Ends.const _

/-! ## The parts of a form -/

/-- A part and what follows it, up to the end of the body. -/
def formFrom (b : Str) (p : FormPart) (parts : List FormPart) : List Byte :=
  headerText p.header ++ (p.content ++ nlBoundary b ++ formTail b parts)

theorem formTail_cons (b : Str) (p : FormPart) (parts : List FormPart) :
    formTail b (p :: parts) = bytes "\r\n" ++ formFrom b p parts := rfl

theorem afterPart_more (rq : Request) (rest : List Byte) (m : ℕ) (buf : List Byte) :
    ∃ buf', afterPart rq ⟨bytes "\r\n" ++ rest, false, m⟩ buf =
    ⟨true, false, rq, ⟨rest, false, m + 2⟩, buf'⟩ := by
  have hread : ioRead ⟨13 :: 10 :: rest, false, m⟩ 2 =
      ⟨some 2, [13, 10], ⟨rest, false, m + 2⟩⟩ := by
    simp [ioRead, Source.skip]
  have hne : (store buf [13, 10]).take 2 ≠ bytes "--" := by simp [store, bytes]
  refine ⟨store buf [13, 10], ?_⟩
  rw [show bytes "\r\n" ++ rest = 13 :: 10 :: rest from rfl, afterPart, hread]
  simp only [if_neg hne]

/-- What the parser makes of some parts: their variables, their uploads, and their files. -/
structure PartsParsed (received : e.State → Str) (names : ℕ → Str) (parts : List FormPart)
    (s t : PartsState e) : Prop where
  part : t.part = s.part + parts.length
  limit : t.rq.postMaxsize = s.rq.postMaxsize
  args : t.rq.args = s.rq.args ++ parts.flatMap FormPart.vars
  argsPost : t.rq.argsPost = s.rq.argsPost ++ parts.flatMap FormPart.vars
  uploads : t.rq.uploads = s.rq.uploads ++ uploadsFrom names s.part parts
  files : t.files.map received = s.files.map received ++ parts.flatMap FormPart.files

variable {names : ℕ → Str} {p : FormPart} {parts : List FormPart} {s t u : PartsState e}

theorem PartsParsed.cons (h₁ : PartsParsed received names [p] s t)
    (h₂ : PartsParsed received names parts t u) :
    PartsParsed received names (p :: parts) s u := by
  have hpart : t.part = s.part + 1 := h₁.part
  refine ⟨?_, ?_, ?_, ?_, ?_, ?_⟩
  · rw [h₂.part, hpart, List.length_cons, Nat.add_assoc, Nat.add_comm 1]
  · rw [h₂.limit, h₁.limit]
  · rw [h₂.args, h₁.args]
    simp
  · rw [h₂.argsPost, h₁.argsPost]
    simp
  · rw [h₂.uploads, h₁.uploads, hpart]
    simp [uploadsFrom]
  · rw [h₂.files, h₁.files]
    simp

def nextPart (s : PartsState e) (p : FormPart) (tmpName : Str) (src : Source)
    (file : Option e.State) : PartsState e :=
  ⟨s.part + 1, addPart s.rq p tmpName, src, s.files ++ file.toList⟩

theorem nextPart_parsed {src : Source} {file : Option e.State}
    (hfile : file.toList.map received = p.files) :
    PartsParsed received names [p] s (nextPart s p (names s.part) src file) := by
  refine ⟨rfl, rfl, ?_, ?_, ?_, ?_⟩
  · simp [nextPart, addPart]
  · simp [nextPart, addPart]
  · simp [nextPart, addPart, uploadsFrom]
  · simp [nextPart, hfile]

variable {tmp : ℕ → TmpStream e} (htmp : ∀ k, Sound received (tmp k))
    (hnames : ∀ k, (tmp k).name = some (names k)) {b : Str}
  (hb : (13 : Byte) ∉ b) (hshort : b.length + 4 < BOUNDARY_BUFSZ)
include htmp hnames hb hshort

/-- The step: a round of the loop parses one part, and goes on or leaves as the boundary says. -/
theorem partsBody_part (h : Posted b p) (hlimit : p.content.length ≤ s.rq.postMaxsize) {rtot : ℕ}
    (hsrc : s.src = ⟨formFrom b p parts, false, rtot⟩) :
    ∃ src file, PartsParsed received names [p] s (nextPart s p (names s.part) src file) ∧
      match parts with
      | [] => Ends (fun n => partsBody (nlBoundary b) tmp n s) (.leave (true,
        nextPart s p (names s.part) src file))
      | q :: parts => (∃ m, src = ⟨formFrom b q parts, false, m⟩) ∧
          Ends (fun n => partsBody (nlBoundary b) tmp n s)
            (.again (nextPart s p (names s.part) src file)) := by
  obtain ⟨m, buf, file, hfile, hends⟩ :=
    chunk_parsed (htmp s.part) (hnames s.part) hb hshort h hlimit (formTail b parts) rtot stackBuf
  have hbody : ∀ {r}, afterPart (addPart s.rq p (names s.part))
    ⟨formTail b parts, false, m⟩ buf = r →
      Ends (fun n => requestParseMultipartChunk n s.rq s.src (nlBoundary b) (tmp s.part) stackBuf)
        (r, file) := by
    intro r hr
    rw [hsrc, ← hr]
    exact hends
  cases parts with
  | nil =>
    obtain ⟨src, buf', hafter⟩ := afterPart_last (addPart s.rq p (names s.part)) b m buf
    refine ⟨src, file, nextPart_parsed hfile, (hbody hafter).map_eq ?_⟩
    simp [nextPart]
  | cons q parts =>
    obtain ⟨buf', hafter⟩ :=
      afterPart_more (addPart s.rq p (names s.part)) (formFrom b q parts) m buf
    refine ⟨_, file, nextPart_parsed hfile, ⟨m + 2, rfl⟩, (hbody hafter).map_eq ?_⟩
    simp [nextPart]

/-- The run: the parts are parsed in their order. -/
theorem partsRun_parsed
    (hparts : ∀ q ∈ p :: parts, Posted b q ∧ q.content.length ≤ s.rq.postMaxsize) {rtot : ℕ}
    (hsrc : s.src = ⟨formFrom b p parts, false, rtot⟩) :
    ∃ t, Ends (fun n => run (partsBody (nlBoundary b) tmp n) n s) (true, t) ∧
      PartsParsed received names (p :: parts) s t := by
  -- at a head the parts that are left, parsed from there, complete the form
  let I := fun (m : ℕ) (t : PartsState e) => ∃ q rest rtot, m = rest.length ∧
    t.src = ⟨formFrom b q rest, false, rtot⟩ ∧
    (∀ r ∈ q :: rest, Posted b r ∧ r.content.length ≤ t.rq.postMaxsize) ∧
    ∀ u, PartsParsed received names (q :: rest) t u → PartsParsed received names (p :: parts) s u
  have hstep : ∀ m t, I m t →
    (∃ u k, Ends (fun n => partsBody (nlBoundary b) tmp n t) (.again u) ∧ k < m ∧ I k u) ∨
      ∃ r, Ends (fun n => partsBody (nlBoundary b) tmp n t) (.leave r) ∧
        (r.1 = true ∧ PartsParsed received names (p :: parts) s r.2) := by
    rintro m t ⟨q, rest, rtot, rfl, hsrc, hrest, hcomplete⟩
    obtain ⟨hq, hrest⟩ := List.forall_mem_cons.mp hrest
    obtain ⟨src, file, hparsed, hends⟩ := partsBody_part htmp hnames hb hshort hq.1 hq.2 hsrc
    cases rest with
    | nil => exact Or.inr ⟨_, hends, rfl, hcomplete _ hparsed⟩
    | cons r rest =>
      obtain ⟨⟨m, hsrc'⟩, hends⟩ := hends
      exact Or.inl ⟨_, rest.length, hends, Nat.lt_succ_self _, r, rest, m, rfl, hsrc', hrest,
        fun u hu => hcomplete u (hparsed.cons hu)⟩
  have hstart : I parts.length s := ⟨p, parts, rtot, rfl, hsrc, hparts, fun _ hu => hu⟩
  obtain ⟨⟨ok, t⟩, ⟨rfl, hparsed⟩, hends⟩ := ends_run _ hstep hstart
  exact ⟨t, hends, hparsed⟩

end

/-! ## The form -/

theorem content_length_le (b : Str) {parts : List FormPart} {p : FormPart} (hp : p ∈ parts) :
    p.content.length ≤ (formBody b parts).length := by
  have htail : p.content.length ≤ (formTail b parts).length := by
    induction parts with
    | nil => exact absurd hp List.not_mem_nil
    | cons q parts ih =>
      simp only [formTail, List.length_append]
      rcases List.mem_cons.mp hp with rfl | hp
      · omega
      · have hle := ih hp
        omega
  rw [formBody, List.length_append]
  omega

section
variable {received : e.State → Str} {names : ℕ → Str} {tmp : ℕ → TmpStream e}
    (htmp : ∀ k, Sound received (tmp k))
  (hnames : ∀ k, (tmp k).name = some (names k)) {b : Str} {p : FormPart} {parts : List FormPart}
    {rq : Request}
include htmp hnames

theorem multipartForm_parsed (hpost : FormPost rq b (p :: parts))
    (hparts : ∀ q ∈ p :: parts, Posted b q) (rq' : Request) (hheader : rq'.header = rq.header)
    (hlimit : rq'.postMaxsize = rq.postMaxsize) (rtot : ℕ) :
    ∃ s t, s.part = 0 ∧ s.rq = rq' ∧ s.files = [] ∧ PartsParsed received names (p :: parts) s t ∧
      Ends (fun n => requestParseMultipartData n rq' ⟨formBody b (p :: parts), false, rtot⟩ tmp)
        ⟨0, t.rq, t.src, t.files⟩ := by
  have hclean := boundary_clean hpost.boundary
  have hcr : (13 : Byte) ∉ b := fun hm => absurd (hclean 13 hm) (by decide)
  have hlf : (10 : Byte) ∉ b := fun hm => absurd (hclean 10 hm) (by decide)
  have hshort := hpost.short
  rw [BOUNDARY_BUFSZ] at hshort
  have hroom : ¬ BOUNDARY_BUFSZ ≤ (bytes "\r\n" ++ (bytes "--" ++ b)).length := by
    rw [List.length_append, List.length_append, show (bytes "--").length = 2 from rfl,
      show (bytes "\r\n").length = 2 from rfl, BOUNDARY_BUFSZ]
    omega
  have hlen : b.length + (bytes "\r").length + 4 ≤ LINE_BUFSZ := by
    rw [show (bytes "\r").length = 1 from rfl, LINE_BUFSZ]
    omega
  obtain ⟨m, hskip⟩ := skipPreamble_found hlf (by decide) hlen (formFrom b p parts) rtot
  have hbody : formBody b (p :: parts) = bytes "--" ++ b ++ bytes "\r" ++ 10 :: formFrom b p parts := by
    simp [formBody, formTail_cons, bytes]
  let s : PartsState e := ⟨0, rq', ⟨formFrom b p parts, false, m⟩, []⟩
  have hcontents : ∀ q ∈ p :: parts, Posted b q ∧ q.content.length ≤ s.rq.postMaxsize :=
    fun q hq => ⟨hparts q hq, (content_length_le b hq).trans (hpost.limit.trans hlimit.ge)⟩
  obtain ⟨t, hends, hparsed⟩ := partsRun_parsed htmp hnames hcr hpost.short hcontents (s := s) rfl
  refine ⟨s, t, rfl, rfl, rfl, hparsed, ?_⟩
  have hboundary := hpost.boundary
  rw [← hheader] at hboundary
  unfold requestParseMultipartData
  simp only [hboundary, hbody, hskip, Bool.true_eq_false, if_false, hroom]
  exact hends.map_eq rfl

omit htmp hnames in
/-- A POST of a form within its limits goes to the multipart parser. -/
theorem requestParseData_form (hpost : FormPost rq b (p :: parts)) (rtot : ℕ) (n : ℕ) :
    requestParseData n .post rq ⟨formBody b (p :: parts), false, rtot⟩ tmp =
    requestParseMultipartData n
      { rq with
        args := rq.args ++ queryArgs rq, argsGet := rq.argsGet ++ queryArgs rq
        contentLength := (formBody b (p :: parts)).length, bodyOff := rtot }
      ⟨formBody b (p :: parts), false, rtot⟩ tmp := by
  have hpos : (formBody b (p :: parts)).length ≠ 0 := by
    rw [formBody, List.length_append, List.length_append, show (bytes "--").length = 2 from rfl]
    omega
  rw [requestParseData, requestParseQueryArgs_eq, if_neg (by simp)]
  simp only [requestSetContentLength, hpost.length, Option.map_some]
  rw [if_neg hpos, if_neg (not_lt.mpr hpost.limit)]
  split
  next => rfl
  next hno => exact absurd hpost.multipart hno

omit htmp hnames in
theorem varsGeti_filter (name : Str) (us : List Upload) (idx : ℕ) :
    (Session.varsGeti name (us.map uploadVar) idx).bind (us[·]?) =
      (us.filter fun u => strcasecmpEq (uploadVar u).name name)[idx]? := by
  induction us generalizing idx with
  | nil => rfl
  | cons u us ih =>
    rw [List.map_cons, Session.varsGeti]
    by_cases hu : strcasecmpEq (uploadVar u).name name = true
    · rw [if_pos hu, List.filter_cons_of_pos (by exact hu)]
      cases idx with
      | zero => rfl
      | succ idx =>
        rw [if_neg (Nat.succ_ne_zero idx), List.getElem?_cons_succ, ← ih idx, Nat.add_sub_cancel]
        simp [Option.bind_map]
    · rw [if_neg hu, List.filter_cons_of_neg (by exact hu), ← ih idx]
      simp [Option.bind_map]

omit htmp hnames in
/-- The uploads of a name are found by their index. -/
theorem requestGetUploadedFile_eq (max : ℕ) (rq : Request) (name : Str) (idx : ℕ) :
    requestGetUploadedFile max rq name idx =
      (rq.uploads.filter fun u => strcasecmpEq (uploadVar u).name name)[idx]?.bind
        (requestGetUploadedFilev max) := by
  rw [requestGetUploadedFile, ← varsGeti_filter, Option.bind_assoc]
  split
  next hle =>
    have hnone : (rq.uploads.filter fun u => strcasecmpEq (uploadVar u).name name)[idx]? = none :=
      List.getElem?_eq_none ((List.length_filter_le _ _).trans hle)
    rw [← Option.bind_assoc, varsGeti_filter, hnone]
    rfl
  next => rfl

omit htmp hnames in
theorem mem_uploadsFrom {k : ℕ} {parts : List FormPart} {u : Upload}
    (hu : u ∈ uploadsFrom names k parts) :
    ∃ j < k + parts.length, ∃ q ∈ parts,
    u = ⟨q.name, names j, q.clientName, q.mime.getD [], q.content.length⟩ := by
  induction parts generalizing k with
  | nil => cases hu
  | cons q parts ih =>
    rcases List.mem_append.mp hu with hu | hu
    · unfold FormPart.uploads at hu
      split at hu
      · exact ⟨k, Nat.lt_add_of_pos_right (Nat.succ_pos _), q, List.mem_cons_self,
          List.mem_singleton.mp hu⟩
      · cases hu
    · obtain ⟨j, hj, r, hr, he⟩ := ih hu
      exact ⟨j, by rw [List.length_cons]; omega, r, List.mem_cons_of_mem q hr, he⟩

omit htmp hnames in
theorem Posted.clientName_length (h : Posted b p) : p.clientName.length < 512 := by
  have hshort := h.short
  unfold FormPart.disposition at hshort
  unfold FormPart.clientName
  cases hf : p.filename with
  | none => decide
  | some f =>
    simp only [hf, List.length_append] at hshort
    rw [Option.getD_some]
    omega

omit htmp hnames in
theorem Posted.mime_length (h : Posted b p) : (p.mime.getD []).length ≤ 255 := by
  cases hm : p.mime with
  | none => exact Nat.zero_le _
  | some m => exact h.mime_short m hm

omit htmp hnames in
/-- What a page gets is what has been posted. -/
theorem uploadsFrom_got {max : ℕ} (hmax : 512 ≤ max)
    (hfits : ∀ k < parts.length, PathFits max (names k)) (hparts : ∀ q ∈ parts, Posted b q)
    {u : Upload} (hu : u ∈ uploadsFrom names 0 parts) :
    requestGetUploadedFilev max u = some (uploadInfo u) := by
  obtain ⟨k, hk, q, hq, rfl⟩ := mem_uploadsFrom hu
  obtain ⟨hstr, hlen⟩ := hfits k (by omega)
  have hclient := (hparts q hq).clientName_length
  have hmime := (hparts q hq).mime_length
  have hvalue : Session.varGetValue
    (uploadVar ⟨q.name, names k, q.clientName, q.mime.getD [], q.content.length⟩) =
      some (names k) := Session.varGetValue_set hstr (cstr q.name)
  have htake₁ : (names k).take (max - 1) = names k := List.take_of_length_le (by omega)
  have htake₂ : q.clientName.take (max - 1) = q.clientName := List.take_of_length_le (by omega)
  have htake₃ : (q.mime.getD []).take (MIME_TYPE_BUFSZ - 1) = q.mime.getD [] :=
    List.take_of_length_le hmime
  simp only [requestGetUploadedFilev, hvalue, Option.map_some, strlcpy, htake₁, htake₂,
    htake₃, uploadInfo]

/-- A form that is posted is parsed: its fields are the variables of the request, in their order,
and for each file there is an upload, with a file that has what was posted; a page finds the
uploads of a name by their index. -/
theorem form_round_trip {max : ℕ} (hmax : 512 ≤ max)
    (hfits : ∀ k < (p :: parts).length, PathFits max (names k)) (hnone : rq.uploads = [])
    (hpost : FormPost rq b (p :: parts)) (hparts : ∀ q ∈ p :: parts, Posted b q) (rtot : ℕ) :
    ∃ r : Parsed e, Ends (fun n =>
      requestParseData n .post rq ⟨formBody b (p :: parts), false, rtot⟩ tmp) r ∧ r.rc = 0 ∧
      r.rq.args = rq.args ++ queryArgs rq ++ (p :: parts).flatMap FormPart.vars ∧
      r.rq.argsPost = rq.argsPost ++ (p :: parts).flatMap FormPart.vars ∧
      r.rq.uploads = uploadsFrom names 0 (p :: parts) ∧
      r.files.map received = (p :: parts).flatMap FormPart.files ∧
      ∀ name idx, requestGetUploadedFile max r.rq name idx =
        ((uploadsFrom names 0 (p :: parts)).filter fun u =>
          strcasecmpEq (uploadVar u).name name)[idx]?.map uploadInfo := by
  obtain ⟨s, t, hpart, hrq, hfiles, hparsed, hends⟩ := multipartForm_parsed htmp hnames hpost hparts
    { rq with
      args := rq.args ++ queryArgs rq, argsGet := rq.argsGet ++ queryArgs rq
      contentLength := (formBody b (p :: parts)).length, bodyOff := rtot } rfl rfl rtot
  have huploads : t.rq.uploads = uploadsFrom names 0 (p :: parts) := by
    rw [hparsed.uploads, hrq, hpart, hnone, List.nil_append]
  refine ⟨⟨0, t.rq, t.src, t.files⟩, ?_, rfl, ?_, ?_, huploads, ?_, ?_⟩
  · simp only [requestParseData_form hpost]
    exact hends
  · rw [hparsed.args, hrq]
  · rw [hparsed.argsPost, hrq]
  · rw [hparsed.files, hfiles]
    rfl
  · intro name idx
    rw [requestGetUploadedFile_eq, huploads]
    cases hu : ((uploadsFrom names 0 (p :: parts)).filter fun u =>
      strcasecmpEq (uploadVar u).name name)[idx]? with
    | none => rfl
    | some u => exact uploadsFrom_got hmax hfits hparts (List.mem_of_mem_filter
      (List.mem_of_getElem? hu))

end

/-- A part that is shorter than the stack buffer stays inside it. -/
theorem partFits_of_length_le {stopAt : Str} {size : ℕ} {accepts : ℕ → Bool} {s : List Byte}
    (h : s.length ≤ size) :
    PartFits stopAt size accepts s := by
  rintro q - ⟨hlen, -⟩
  rw [List.length_drop] at hlen
  omega

/-- A field and a file, whose data begin like a boundary. -/
def sampleForm : List FormPart :=
  [⟨bytes "t", none, none, bytes "hi"⟩,
    ⟨bytes "f", some (bytes "a.txt"), some (bytes "text/plain"), bytes "\r\n--x"⟩]

def sampleName (k : ℕ) : Str := bytes "/tmp/u" ++ List.replicate k 97

def sampleTmp (k : ℕ) : TmpStream fifo := ⟨some (sampleName k), [], fun s => some (List.length s)⟩

set_option maxRecDepth 4000 in
theorem form_round_trip_sample :
    ∃ r : Parsed fifo, Ends (fun n => requestParseData n .post (multipartRequest "160")
        ⟨formBody (bytes "b") sampleForm, false, 0⟩ sampleTmp) r ∧ r.rc = 0 ∧
      r.rq.args = (multipartRequest "160").args ++ queryArgs (multipartRequest "160") ++
        sampleForm.flatMap FormPart.vars ∧
      r.rq.argsPost = (multipartRequest "160").argsPost ++ sampleForm.flatMap FormPart.vars ∧
      r.rq.uploads = uploadsFrom sampleName 0 sampleForm ∧
      r.files.map id = sampleForm.flatMap FormPart.files ∧
      ∀ name idx, requestGetUploadedFile 512 r.rq name idx =
        ((uploadsFrom sampleName 0 sampleForm).filter fun u =>
          strcasecmpEq (uploadVar u).name name)[idx]?.map uploadInfo := by
  have hsound : ∀ k, Sound (e := fifo) id (sampleTmp k) :=
    fun _ => ⟨fifo_accepts, fun _ => rfl, rfl⟩
  have hstarts : startsWithCase (bytes "multipart/form-data; boundary=b")
    (bytes "multipart/form-data") = true := rfl
  have hfound : uStristr (bytes "multipart/form-data; boundary=b") (bytes "boundary") =
    some (bytes "boundary=b") := rfl
  have hpost : FormPost (multipartRequest "160") (bytes "b") sampleForm := by
    refine ⟨?_, ?_, by decide, by decide +kernel, by decide +kernel⟩
    · simp only [requestIsMultipartFormdata, multipartRequest, matchContentType,
        contentType_second, hstarts]
    · simp only [requestGetFieldparam, multipartRequest, contentType_second, hfound]
      rfl
  have hfield : Posted (bytes "b") ⟨bytes "t", none, none, bytes "hi"⟩ :=
    ⟨by decide, by decide, by simp, by simp, by simp, by decide, partFits_of_length_le (by decide)⟩
  have hfile : Posted (bytes "b")
      ⟨bytes "f", some (bytes "a.txt"), some (bytes "text/plain"), bytes "\r\n--x"⟩ := by
    refine ⟨by decide, by decide, ?_, ?_, ?_, by decide, partFits_of_length_le (by decide)⟩
    all_goals
      rintro m hm
      obtain rfl := Option.mem_some_iff.mp hm
      decide
  have hparts : ∀ q ∈ sampleForm, Posted (bytes "b") q :=
    List.forall_mem_cons.mpr
      ⟨hfield, List.forall_mem_cons.mpr ⟨hfile, fun _ hm => absurd hm List.not_mem_nil⟩⟩
  have hfits : ∀ k < sampleForm.length, PathFits 512 (sampleName k) := by
    intro k hk
    have hfirst : (0 : Byte) ∉ bytes "/tmp/u" := by decide
    have hk : k < 2 := hk
    refine ⟨?_, ?_⟩
    · simp [sampleName, hfirst]
    · rw [sampleName, List.length_append, List.length_replicate,
        show (bytes "/tmp/u").length = 6 from rfl]
      omega
  exact form_round_trip hsound (fun _ => rfl) le_rfl hfits rfl hpost hparts 0

end Klone.Uploads
