import Klone.Codec.Cipher
import Klone.Codec.CipherCyassl
import Klone.Codec.Gzip
import Klone.Response.Filter

/-! # What a flush reports

The callers of a codec add `*dcount` to the counts of their buffers whatever a flush
returns. Here it is settled for each codec of the program, after any calls, whether
`*dcount` is then the number of bytes that were stored.
-/
namespace Klone.Chain
open Page

inductive CodecCall where
  | transform (room : ℕ+) (src : Str)
  | flush (room : ℕ+)

def Codec.call (c : Codec) (s : c.State) : CodecCall → c.State
  | .transform room src => (c.transform s room src).state
  | .flush room => (c.flush s room).state

/-- The state after a history of calls, the failed ones included. -/
def Codec.after (c : Codec) (calls : List CodecCall) : c.State := calls.foldl c.call c.init

/-- A complete flush reports nothing, now and when it is repeated with `room'`, and a chunk its
length. -/
structure FlushReports (c : Codec) (s : c.State) (room room' : ℕ) : Prop where
  complete : (c.flush s room).ret = .complete → (c.flush s room).dcount = 0
  chunk : (c.flush s room).ret = .chunk →
    (c.flush s room).dcount = (c.flush s room).out.length ∧ (c.flush s room).out.length ≤ room
  again : (c.flush s room).ret = .complete →
    (c.flush (c.flush s room).state room').ret = .complete ∧
    (c.flush (c.flush s room).state room').dcount = 0

def Zlib.Bounded (z : Zlib) : Prop :=
  ∀ s finish src room, (z.op s finish src room).out.length ≤ room

inductive ProgramCodec where
  | null
  | gzip (z : Zlib) (bounded : z.Bounded) (action : GzipAction)
  | cipher (evp : Evp)
  | cipherCyassl (aes : AesCbc) (op : CipherOp)
  | filter (setId : Header → Option Header) (rs : Response) (needsId : Bool)

def ProgramCodec.codec : ProgramCodec → Codec
  | .null => codecNull
  | .gzip z _ action => codecGzipCreate z action
  | .cipher evp => codecCipherCreate evp
  | .cipherCyassl aes op => Cyassl.codecCipherCreate aes op
  | .filter setId rs needsId => responseFilterCreate setId rs needsId

def filterLeft (rf : Filter) : Str := if rf.state = .buffering then rfInitIob rf else rf.iob.getD []

/-- The call of zlib finds the end of the stream and nothing before it. -/
def GzipFinished (z : Zlib) (action : GzipAction) (iz : Gzip z) (room : ℕ) : Prop :=
  (gzipFinish z action iz room).ret = .streamEnd ∧ (gzipFinish z action iz room).out = []

/-- `avail_out` holds the rooms, that of the repeated flush when there is one, or zlib fails. -/
def GzipCounts (z : Zlib) (action : GzipAction) (iz : Gzip z) (room room' : ℕ) : Prop :=
  room < 2 ^ 32 ∧ (room' < 2 ^ 32 ∨ ¬ GzipFinished z action iz room) ∨
    (gzipFinish z action iz (room % 2 ^ 32)).ret = .error

/-- The filter has something left to give, and zlib can count the room; of the other codecs
nothing is asked. -/
def ProgramCodec.Gives : (k : ProgramCodec) → k.codec.State → ℕ → ℕ → Prop
  | .filter _ _ _, rf, _, _ => filterLeft rf ≠ []
  | .gzip z _ action, iz, room, room' => GzipCounts z action iz room room'
  | _, _, _, _ => True

section Reports
variable {c : Codec} {s : c.State} {room room' : ℕ}

theorem reports_of_chunk (hret : (c.flush s room).ret = .chunk)
    (hcount : (c.flush s room).dcount = (c.flush s room).out.length)
    (hlen : (c.flush s room).out.length ≤ room) :
    FlushReports c s room room' := by
  refine ⟨?_, fun _ => ⟨hcount, hlen⟩, ?_⟩
  · rw [hret]
    intro h
    cases h
  · rw [hret]
    intro h
    cases h

theorem reports_of_error (hret : (c.flush s room).ret = .error) : FlushReports c s room room' := by
  refine ⟨?_, ?_, ?_⟩ <;>
  · rw [hret]
    intro h
    cases h

theorem reports_of_complete (hret : (c.flush s room).ret = .complete)
    (hcount : (c.flush s room).dcount = 0)
    (hagain : (c.flush (c.flush s room).state room').ret = .complete ∧
      (c.flush (c.flush s room).state room').dcount = 0) :
    FlushReports c s room room' := by
  refine ⟨fun _ => hcount, ?_, fun _ => hagain⟩
  rw [hret]
  intro h
  cases h

end Reports

theorem null_reports (s : Unit) (room room' : ℕ) : FlushReports codecNull s room room' :=
  reports_of_complete rfl rfl ⟨rfl, rfl⟩

section GzipReports
variable {z : Zlib} {action : GzipAction} {iz : Gzip z} {room room' : ℕ}

theorem gzipFinish_length (hz : z.Bounded) (action : GzipAction) (iz : Gzip z) (room : ℕ) :
    (gzipFinish z action iz room).out.length ≤ room := by
  unfold gzipFinish
  split
  · exact Nat.zero_le room
  · exact hz _ _ _ _

/-- With a room that `avail_out` cannot hold, `*dcount` is too large. -/
theorem gzipFlush_long (hz : z.Bounded) (hlong : 2 ^ 32 ≤ room)
    (hret : (gzipFinish z action iz (room % 2 ^ 32)).ret ≠ .error) :
    (gzipFlush z action iz room).ret = .chunk ∧
      (gzipFlush z action iz room).dcount ≠ (gzipFlush z action iz room).out.length := by
  have hlen := gzipFinish_length hz action iz (room % 2 ^ 32)
  have hmod : room % 2 ^ 32 < 2 ^ 32 := Nat.mod_lt _ (by decide)
  unfold gzipFlush
  simp only [if_neg hret]
  refine ⟨if_neg fun h => ?_, ?_⟩
  · have hzero := h.2
    omega
  · omega

theorem gzip_reports_short (hz : z.Bounded) (hroom : room < 2 ^ 32)
    (hret : (gzipFinish z action iz room).ret ≠ .error) :
    FlushReports (codecGzipCreate z action) iz room room' ↔
    room' < 2 ^ 32 ∨ ¬ GzipFinished z action iz room := by
  have hlen := gzipFinish_length hz action iz room
  have hflush : (codecGzipCreate z action).flush iz room = _ := gzipFlush_eq hroom hlen hret
  by_cases hend : (gzipFinish z action iz room).ret = .streamEnd ∧
    (gzipFinish z action iz room).out = []
  · rw [if_pos hend] at hflush
    have herr : ((codecGzipCreate z action).flush iz room).state.err = .streamEnd := by
      rw [hflush]
      exact hend.1
    constructor
    · intro h
      refine Or.inl (Nat.lt_of_not_le fun hlong => ?_)
      have hend' : gzipFinish z action ((codecGzipCreate z action).flush iz room).state
        (room' % 2 ^ 32) = _ := if_pos herr
      have hfin : (gzipFinish z action ((codecGzipCreate z action).flush iz room).state
          (room' % 2 ^ 32)).ret ≠ .error := by
        rw [hend']
        exact ZRet.noConfusion
      have hagain := (h.again (by rw [hflush])).1
      cases (gzipFlush_long hz hlong hfin).1.symm.trans hagain
    · intro h
      apply reports_of_complete
      · rw [hflush]
      · rw [hflush]
        exact List.length_eq_zero_iff.mpr hend.2
      · have hagain : (codecGzipCreate z action).flush
          ((codecGzipCreate z action).flush iz room).state room' = _ :=
          gzipFlush_ended herr (h.resolve_right (not_not_intro hend))
        rw [hagain]
        exact ⟨rfl, rfl⟩
  · rw [if_neg hend] at hflush
    refine iff_of_true (reports_of_chunk ?_ ?_ ?_) (Or.inr hend)
    · rw [hflush]
    · rw [hflush]
    · rw [hflush]
      exact hlen

theorem gzip_reports_iff (hz : z.Bounded) :
    FlushReports (codecGzipCreate z action) iz room room' ↔ GzipCounts z action iz room room' := by
  by_cases herr : (gzipFinish z action iz (room % 2 ^ 32)).ret = .error
  · refine iff_of_true (reports_of_error ?_) (Or.inr herr)
    exact congrArg Flushed.ret (if_pos herr)
  rw [GzipCounts, or_iff_left herr]
  by_cases hroom : room < 2 ^ 32
  · rw [Nat.mod_eq_of_lt hroom] at herr
    rw [gzip_reports_short hz hroom herr, and_iff_right hroom]
  · obtain ⟨hret, hcount⟩ := gzipFlush_long hz (Nat.le_of_not_lt hroom) herr
    exact iff_of_false (fun h => hcount (h.chunk hret).1) fun h => hroom h.1

end GzipReports

/-- The cipher has no more to give. -/
theorem cipherFlush_ended {evp : Evp} {cc : Cipher evp} (hbuf : cc.cbuf = [])
    (hfin : cc.final = false) (room : ℕ) :
    cipherFlush cc room = ⟨cc, .complete, 0, []⟩ := by
  simp [cipherFlush, hbuf, hfin]

/-- A chunk is copied from the buffer of the codec, or the cipher fails or has no more to
give. -/
theorem cipherFlush_cases {evp : Evp} (cc : Cipher evp) (room : ℕ) :
    (∃ cc', cipherFlush cc room = cipherChunk cc' room) ∨ (cipherFlush cc room).ret = .error ∨
      ∃ cc' : Cipher evp, cipherFlush cc room = ⟨cc', .complete, 0, []⟩ ∧ cc'.cbuf = [] ∧
      cc'.final = false := by
  unfold cipherFlush
  by_cases hbuf : cc.cbuf = []
  · rw [if_neg (not_not_intro hbuf)]
    cases hfin : cc.final with
    | true =>
      rw [if_pos rfl]
      cases evp.final cc.ctx with
      | none => exact Or.inr (Or.inl rfl)
      | some out =>
        cases out with
        | nil => exact Or.inr (Or.inr ⟨_, rfl, hbuf, rfl⟩)
        | cons b out => exact Or.inl ⟨_, rfl⟩
    | false =>
      rw [if_neg Bool.false_ne_true]
      exact Or.inr (Or.inr ⟨cc, rfl, hbuf, hfin⟩)
  · rw [if_pos hbuf]
    exact Or.inl ⟨cc, rfl⟩

theorem cipher_reports {evp : Evp} (cc : Cipher evp) (room room' : ℕ) :
    FlushReports (codecCipherCreate evp) cc room room' := by
  rcases cipherFlush_cases cc room with ⟨cc', he⟩ | herr | ⟨cc', he, hbuf, hfin⟩
  · have hflush : (codecCipherCreate evp).flush cc room = _ := he
    apply reports_of_chunk
    · rw [hflush]
      rfl
    · rw [hflush]
      rfl
    · rw [hflush]
      exact List.length_take_le _ _
  · exact reports_of_error herr
  · have hflush : (codecCipherCreate evp).flush cc room = _ := he
    apply reports_of_complete
    · rw [hflush]
    · rw [hflush]
    · rw [hflush]
      have hagain : (codecCipherCreate evp).flush cc' room' = _ := cipherFlush_ended hbuf hfin room'
      rw [hagain]
      exact ⟨rfl, rfl⟩

theorem copyOut_reports {a : AesCbc} {op : CipherOp} {cc : Cyassl.Cipher a} {ubuf : Str}
    {off room room' : ℕ} (fits : off ≤ ubuf.length) (hroom : 0 < room)
    (hflush : (Cyassl.codecCipherCreate a op).flush cc room = Cyassl.copyOut ubuf off fits room) :
    FlushReports (Cyassl.codecCipherCreate a op) cc room room' := by
  have hlen : (window ubuf off (min room (ubuf.length - off))).length =
      min room (ubuf.length - off) :=
    length_window (by omega)
  by_cases hz : min room (ubuf.length - off) = 0
  · have hret : (Cyassl.copyOut (a := a) ubuf off fits room).ret = .complete := if_pos hz
    apply reports_of_complete
    · rw [hflush, hret]
    · rw [hflush]
      exact hz
    · rw [hflush]
      have hz' : min room' (ubuf.length - (off + min room (ubuf.length - off))) = 0 := by omega
      exact ⟨if_pos hz', hz'⟩
  · have hret : (Cyassl.copyOut (a := a) ubuf off fits room).ret = .chunk := if_neg hz
    apply reports_of_chunk
    · rw [hflush, hret]
    · rw [hflush]
      exact hlen.symm
    · rw [hflush]
      exact hlen.trans_le (Nat.min_le_left _ _)

theorem cyassl_reports {a : AesCbc} {op : CipherOp} (cc : Cyassl.Cipher a) {room room' : ℕ}
    (hroom : 0 < room) :
    FlushReports (Cyassl.codecCipherCreate a op) cc room room' := by
  cases cc with
  | feeding aes ubuf =>
    cases hp : Cyassl.prepared op aes ubuf with
    | error cc =>
      apply reports_of_error
      change (Cyassl.cipherFlush op (.feeding aes ubuf) room).ret = _
      simp only [Cyassl.cipherFlush, hp]
    | ok out =>
      apply copyOut_reports (Nat.zero_le _) hroom
      change Cyassl.cipherFlush op (.feeding aes ubuf) room =
        Cyassl.copyOut out 0 (Nat.zero_le _) room
      simp only [Cyassl.cipherFlush, hp]
  | outready ubuf off fits => exact copyOut_reports fits hroom rfl

/-! ## The response filter -/

section Filter
variable {setId : Header → Option Header} {rs : Response} {needsId : Bool} {rf : Filter}
    {room room' : ℕ}

/-- A flush reads what is left, after the header has been printed. -/
theorem rfFlush_reads (rf : Filter) (room : ℕ) : ∃ rf', rf'.iob.getD [] = filterLeft rf ∧
    rfFlush rf room = if (rfRead rf' room).2 = [] then ⟨(rfRead rf' room).1, .complete, room, []⟩
      else ⟨(rfRead rf' room).1, .chunk, (rfRead rf' room).2.length, (rfRead rf' room).2⟩ := by
  unfold filterLeft
  by_cases hs : rf.state = .buffering
  · refine ⟨rf.start, ?_, ?_⟩
    · rw [if_pos hs]
      rfl
    · rw [rfFlush, if_pos hs]
  · refine ⟨rf, ?_, ?_⟩
    · rw [if_neg hs]
    · rw [rfFlush, if_neg hs]

theorem rfRead_left (hroom : 0 < room) (rf : Filter) :
    (rfRead rf room).2 = (rf.iob.getD []).take room ∧
    ((rfRead rf room).2 = [] ↔ rf.iob.getD [] = []) := by
  have htake : ((rf.iob.getD []).take room = [] ↔ rf.iob.getD [] = []) := by
    rw [List.take_eq_nil_iff]
    exact ⟨fun h => h.resolve_left (Nat.ne_of_gt hroom), Or.inr⟩
  have hread : (rfRead rf room).2 = (rf.iob.getD []).take room := by
    unfold rfRead
    cases rf.iob with
    | none => exact List.take_nil.symm
    | some rest =>
      dsimp only
      split
      · next he => exact he.symm
      · rfl
  exact ⟨hread, by rw [hread, htake]⟩

/-- The filter reports what it stored as long as it has something to give; then it leaves
`*dcount` as it was. -/
theorem filter_reports_iff (hroom : 0 < room) :
    FlushReports (responseFilterCreate setId rs needsId) rf room room' ↔ filterLeft rf ≠ [] := by
  obtain ⟨rf', hleft, he⟩ := rfFlush_reads rf room
  obtain ⟨hread, hnil⟩ := rfRead_left hroom rf'
  have hflush : (responseFilterCreate setId rs needsId).flush rf room = _ := he
  rw [← hleft]
  by_cases hz : rf'.iob.getD [] = []
  · rw [if_pos (hnil.mpr hz)] at hflush
    constructor
    · intro h
      have hcount := h.complete (by rw [hflush])
      rw [hflush] at hcount
      exact absurd hcount (Nat.ne_of_gt hroom)
    · exact fun hne => absurd hz hne
  · rw [if_neg (fun h => hz (hnil.mp h))] at hflush
    refine ⟨fun _ => hz, fun _ => reports_of_chunk ?_ ?_ ?_⟩
    · rw [hflush]
    · rw [hflush]
    · rw [hflush, hread]
      exact List.length_take_le _ _

end Filter

/-- After any history of calls a flush reports what it should, unless the codec is the
response filter and has nothing left to give, or the room is too large for zlib. -/
theorem flush_reports_iff (k : ProgramCodec) (calls : List CodecCall) (room room' : ℕ+) :
    FlushReports k.codec (k.codec.after calls) room room' ↔
    k.Gives (k.codec.after calls) room room' := by
  have hroom : 0 < (room : ℕ) := room.pos
  generalize k.codec.after calls = s
  cases k with
  | null => exact iff_of_true (null_reports s room room') trivial
  | gzip z bounded action => exact gzip_reports_iff bounded
  | cipher evp => exact iff_of_true (cipher_reports s room room') trivial
  | cipherCyassl aes op => exact iff_of_true (cyassl_reports s hroom) trivial
  | filter setId rs needsId => exact filter_reports_iff hroom

/-- The filter of a response with one field and an empty page. -/
def pageFilter : ProgramCodec :=
  .filter (fun _ => none) ⟨false, .get, 200, [⟨bytes "Server", bytes "klone/2.2.0"⟩]⟩ false

/-- When the header has been read, the next flush is complete and reports its room. -/
theorem filter_misreports :
    ¬ FlushReports pageFilter.codec (pageFilter.codec.after [.flush 4096]) 4096 4096 := by
  intro h
  have hleft := (filter_reports_iff (by decide)).mp h
  revert hleft
  decide +kernel

end Klone.Chain
