import Klone.Io.Chain

/-! # The gzip codec

A codec over `inflate` or `deflate`. These are given by what a call leaves: the
return code, the number of bytes taken from `next_in` and the bytes stored in the
room that `avail_out` tells. The work-around for versions of zlib before 1.2 is left
out.
-/
namespace Klone.Chain

inductive ZRet where
  | ok
  | streamEnd
  | error
  deriving DecidableEq, Repr

structure ZCall (σ : Type) where
  state : σ
  ret : ZRet
  taken : ℕ
  out : Str

/-- The operation is called with `Z_FINISH` or with `Z_NO_FLUSH`. -/
structure Zlib where
  State : Type
  init : State
  op : State → Bool → Str → ℕ → ZCall State

inductive GzipAction where
  | compress
  | uncompress
  deriving DecidableEq, Repr

/-- The last return code and the stream of zlib. -/
structure Gzip (z : Zlib) where
  err : ZRet
  zstr : z.State

def GzipAction.finish (action : GzipAction) : Bool := decide (action = .compress)

section Operations
variable (z : Zlib)

/-- The call that a flush makes, unless the end of the stream has been reported. -/
def gzipFinish (action : GzipAction) (iz : Gzip z) (room : ℕ) : ZCall z.State :=
  if iz.err = .streamEnd then ⟨iz.zstr, .streamEnd, 0, []⟩ else z.op iz.zstr action.finish [] room

/-- `*dcount` is what is left of the room when `avail_out`, which has 32 bits, is taken off. -/
def gzipFlush (action : GzipAction) (iz : Gzip z) (room : ℕ) : Flushed (Gzip z) :=
  let availOut := room % 2 ^ 32
  let c := gzipFinish z action iz availOut
  let dcount := room - (availOut - c.out.length)
  if c.ret = .error then ⟨⟨c.ret, c.state⟩, .error, room, c.out⟩
  else ⟨⟨c.ret, c.state⟩, if c.ret = .streamEnd ∧ dcount = 0 then .complete else .chunk,
    dcount, c.out⟩

/-- Behind what is stored stand the bytes that `*dcount` counts though nothing has stored
them. A piece is taken to be no longer than `avail_in` can tell. -/
def gzipTransform (iz : Gzip z) (room : ℕ) (src : Str) : Transformed (Gzip z) :=
  if room = 0 ∨ src = [] then ⟨iz, none, []⟩
  else
    let availOut := room % 2 ^ 32
    let c := z.op iz.zstr false src availOut
    ⟨⟨c.ret, c.state⟩, if c.ret = .error then none else some c.taken,
      c.out ++ List.replicate (room - availOut) 0⟩

def codecGzipCreate (action : GzipAction) : Codec where
  State := Gzip z
  init := ⟨.ok, z.init⟩
  transform := gzipTransform z
  flush := gzipFlush z action

end Operations

/-! ## What zlib promises -/

/-- The streams after some of `total` has been given, with the bytes taken and stored. -/
inductive Zlib.Fed (z : Zlib) (total : Str) : z.State → Str → Str → Prop
  | init : Fed z total z.init [] []
  | op {s : z.State} {inp out src : Str} {room : ℕ} (h : Fed z total s inp out) (hroom : 0 < room)
      (hsize : room < 2 ^ 32) (hsrc : src ≠ []) (htotal : inp ++ src <+: total) :
      Fed z total (z.op s false src room).state (inp ++ src.take (z.op s false src room).taken)
        (out ++ (z.op s false src room).out)

/-- The streams after all of `total` has been taken and some calls without input. -/
inductive Zlib.Ending (z : Zlib) (finish : Bool) (total : Str) : z.State → Str → Prop
  | start {s : z.State} {out : Str} (h : z.Fed total s total out) : Ending z finish total s out
  | op {s : z.State} {out : Str} {room : ℕ} (h : Ending z finish total s out) (hroom : 0 < room)
    (hsize : room < 2 ^ 32)
      (hret : (z.op s finish [] room).ret = .ok) :
      Ending z finish total (z.op s finish [] room).state (out ++ (z.op s finish [] room).out)

/-- A call with room stores a beginning of `result` and makes progress; the end of the
stream is reported when all of the result has been stored. -/
structure Zlib.Computes (z : Zlib) (finish : Bool) (total result : Str) : Prop where
  fed : ∀ {s inp out}, z.Fed total s inp out → ∀ {room src}, 0 < room → room < 2 ^ 32 → src ≠ [] →
    inp ++ src <+: total →
    (z.op s false src room).ret ≠ .error ∧ (z.op s false src room).taken ≤ src.length ∧
      (z.op s false src room).out.length ≤ room ∧
      (0 < (z.op s false src room).taken ∨ (z.op s false src room).out ≠ []) ∧
      out ++ (z.op s false src room).out <+: result ∧
      ((z.op s false src room).ret = .streamEnd → out ++ (z.op s false src room).out = result)
  ending : ∀ {s out}, z.Ending finish total s out → ∀ {room}, 0 < room → room < 2 ^ 32 →
    (z.op s finish [] room).ret ≠ .error ∧ (z.op s finish [] room).out.length ≤ room ∧
      ((z.op s finish [] room).ret = .ok → (z.op s finish [] room).out ≠ []) ∧
      out ++ (z.op s finish [] room).out <+: result ∧
      ((z.op s finish [] room).ret = .streamEnd → out ++ (z.op s finish [] room).out = result)

/-! ## The contract of the codec -/

variable {z : Zlib} {action : GzipAction} {total result : Str}

theorem gzipTransform_eq {iz : Gzip z} {room : ℕ} {src : Str} (hroom : 0 < room)
    (hsize : room < 2 ^ 32) (hsrc : src ≠ []) (hret : (z.op iz.zstr false src room).ret ≠ .error) :
    gzipTransform z iz room src =
    ⟨⟨(z.op iz.zstr false src room).ret, (z.op iz.zstr false src room).state⟩,
      some (z.op iz.zstr false src room).taken, (z.op iz.zstr false src room).out⟩ := by
  have hno : ¬ (room = 0 ∨ src = []) := by
    rintro (h | h)
    · omega
    · exact hsrc h
  unfold gzipTransform
  simp only [if_neg hno, Nat.mod_eq_of_lt hsize, if_neg hret, Nat.sub_self, List.replicate_zero,
    List.append_nil]

/-- With a room that `avail_out` holds, `*dcount` is the number of bytes stored. -/
theorem gzipFlush_eq {iz : Gzip z} {room : ℕ} (hsize : room < 2 ^ 32)
    (hlen : (gzipFinish z action iz room).out.length ≤ room)
    (hret : (gzipFinish z action iz room).ret ≠ .error) :
    gzipFlush z action iz room =
    ⟨⟨(gzipFinish z action iz room).ret, (gzipFinish z action iz room).state⟩,
      if (gzipFinish z action iz room).ret = .streamEnd ∧
        (gzipFinish z action iz room).out = [] then .complete else .chunk,
      (gzipFinish z action iz room).out.length, (gzipFinish z action iz room).out⟩ := by
  unfold gzipFlush
  simp only [Nat.mod_eq_of_lt hsize, if_neg hret, Nat.sub_sub_self hlen, List.length_eq_zero_iff]

/-- After the end of the stream zlib is not called any more. -/
theorem gzipFlush_ended {iz : Gzip z} (h : iz.err = .streamEnd) {room : ℕ} (hsize : room < 2 ^ 32) :
    gzipFlush z action iz room = ⟨⟨.streamEnd, iz.zstr⟩, .complete, 0, []⟩ := by
  have hfin : gzipFinish z action iz room = ⟨iz.zstr, .streamEnd, 0, []⟩ := if_pos h
  rw [gzipFlush_eq hsize (by simp [hfin]) (by simp [hfin]), hfin]
  rfl

structure GzipFed (z : Zlib) (total result inp out : Str) (iz : Gzip z) : Prop where
  fed : z.Fed total iz.zstr inp out
  begins : out <+: result
  ended : iz.err = .streamEnd → out = result

theorem gzip_open (h : z.Computes action.finish total result) {s : (codecGzipCreate z action).State}
    {inp out : Str} (ho : (codecGzipCreate z action).Open False total s inp out) :
    GzipFed z total result inp out s := by
  induction ho with
  | init => exact ⟨.init, List.nil_prefix, nofun⟩
  | @transform s inp out room src k ho hroom hsize hsrc htotal hret ih =>
    have hsize := hsize.resolve_left id
    obtain ⟨hno, -, -, -, hbegins, hend⟩ := h.fed ih.fed hroom hsize hsrc htotal
    have he : (codecGzipCreate z action).transform s room src = _ :=
      gzipTransform_eq hroom hsize hsrc hno
    rw [he] at hret ⊢
    obtain rfl := Option.some.inj hret
    exact ⟨.op ih.fed hroom hsize hsrc htotal, hbegins, hend⟩

/-- The codec is being flushed: all has been stored, or zlib has more to store. -/
def GzipEnding (z : Zlib) (action : GzipAction) (total result out : Str) (iz : Gzip z) : Prop :=
  iz.err = .streamEnd ∧ out = result ∨ iz.err ≠ .streamEnd ∧
    z.Ending action.finish total iz.zstr out ∧ out <+: result

theorem GzipFed.ending {out : Str} {iz : Gzip z} (h : GzipFed z total result total out iz) :
    GzipEnding z action total result out iz := by
  by_cases he : iz.err = .streamEnd
  · exact Or.inl ⟨he, h.ended he⟩
  · exact Or.inr ⟨he, .start h.fed, h.begins⟩

theorem GzipEnding.begins {out : Str} {iz : Gzip z} (h : GzipEnding z action total result out iz) :
    out <+: result := by
  rcases h with ⟨-, rfl⟩ | ⟨-, -, hb⟩
  · exact List.prefix_rfl
  · exact hb

/-- A call of `flush` ends the stream or stores something. -/
theorem gzipFlush_moves (h : z.Computes action.finish total result) {iz : Gzip z} {out : Str}
    {room : ℕ} (hroom : 0 < room) (hsize : room < 2 ^ 32)
    (hd : GzipEnding z action total result out iz) :
    (gzipFlush z action iz room).out.length ≤ room ∧
      (gzipFlush z action iz room).dcount = (gzipFlush z action iz room).out.length ∧
      GzipEnding z action total result (out ++ (gzipFlush z action iz room).out)
        (gzipFlush z action iz room).state ∧
      ((gzipFlush z action iz room).ret = .complete ∧ out = result ∧
        (gzipFlush z action iz room).out = [] ∨
        (gzipFlush z action iz room).ret = .chunk ∧ (gzipFlush z action iz room).out ≠ []) := by
  rcases hd with ⟨he, rfl⟩ | ⟨he, hend, hb⟩
  · rw [gzipFlush_ended he hsize]
    exact ⟨Nat.zero_le _, rfl, Or.inl ⟨rfl, by simp⟩, Or.inl ⟨rfl, rfl, rfl⟩⟩
  · obtain ⟨hno, hlen, hne, hbegins, hall⟩ := h.ending hend hroom hsize
    have hfin : gzipFinish z action iz room = z.op iz.zstr action.finish [] room := if_neg he
    rw [gzipFlush_eq hsize (by rwa [hfin]) (by rwa [hfin]), hfin]
    cases hret : (z.op iz.zstr action.finish [] room).ret with
    | error => exact absurd hret hno
    | ok =>
      refine ⟨hlen, rfl, Or.inr ⟨nofun, .op hend hroom hsize hret, hbegins⟩, Or.inr ⟨?_, hne hret⟩⟩
      simp
    | streamEnd =>
      have hresult := hall hret
      refine ⟨hlen, rfl, Or.inl ⟨rfl, hresult⟩, ?_⟩
      by_cases hnil : (z.op iz.zstr action.finish [] room).out = []
      · rw [hnil, List.append_nil] at hresult
        exact Or.inl ⟨by simp [hnil], hresult, hnil⟩
      · exact Or.inr ⟨by simp [hnil], hnil⟩

theorem gzip_draining (h : z.Computes action.finish total result)
    {s : (codecGzipCreate z action).State} {out : Str}
    (hd : (codecGzipCreate z action).Draining False False total s out) :
    GzipEnding z action total result out s := by
  induction hd with
  | start ho => exact (gzip_open h ho).ending
  | chunk _ hroom hsize _ ih =>
    exact (gzipFlush_moves h (hroom.resolve_left id) (hsize.resolve_left id) ih).2.2.1
  | complete _ hroom hsize hret ih =>
    obtain ⟨-, -, hend, hcase⟩ :=
      gzipFlush_moves h (hroom.resolve_left id) (hsize.resolve_left id) ih
    rcases hcase with ⟨-, -, hnil⟩ | ⟨hc, -⟩
    · rw [hnil, List.append_nil] at hend
      exact hend
    · cases hc.symm.trans hret

/-- The codec computes what zlib computes. It is not strict: zlib takes a call without
room for an error. It is not wide: `avail_out` has 32 bits. -/
theorem codecGzip_computes (h : z.Computes action.finish total result) :
    (codecGzipCreate z action).Computes False False total result := by
  refine ⟨?_, fun ho => (gzip_open h ho).begins, ?_, fun hd => (gzip_draining h hd).begins⟩
  · intro s inp out ho room src hroom hsize hsrc htotal
    have hsize := hsize.resolve_left id
    obtain ⟨hno, htaken, hlen, hprog, -, -⟩ := h.fed (gzip_open h ho).fed hroom hsize hsrc htotal
    have he : (codecGzipCreate z action).transform s room src = _ :=
      gzipTransform_eq hroom hsize hsrc hno
    rw [he]
    exact ⟨_, rfl, htaken, hlen, hprog⟩
  · intro s out hd room hroom hsize
    obtain ⟨hlen, hcount, -, hcase⟩ :=
      gzipFlush_moves h (hroom.resolve_left id) (hsize.resolve_left id) (gzip_draining h hd)
    refine ⟨hlen, ?_⟩
    rcases hcase with ⟨hret, hall, -⟩ | ⟨hret, hne⟩
    · exact Or.inl ⟨hret, hall, False.elim⟩
    · exact Or.inr ⟨hret, hcount, Or.inl hne⟩

theorem codecGzip_quiet (h : z.Computes action.finish total result) :
    (codecGzipCreate z action).Quiet False False total := by
  intro s out hd room hroom hsize hret
  obtain ⟨-, hcount, -, hcase⟩ :=
    gzipFlush_moves h (hroom.resolve_left id) (hsize.resolve_left id) (gzip_draining h hd)
  rcases hcase with ⟨-, -, hnil⟩ | ⟨hc, -⟩
  · have hz : (gzipFlush z action s room).dcount = 0 := by rw [hcount, hnil, List.length_nil]
    exact hz
  · cases hc.symm.trans hret

end Klone.Chain
