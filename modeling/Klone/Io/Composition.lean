import Klone.Io.StreamRead
import Klone.Io.StreamWrite

/-! # A stream computes the composition of its codecs

Written bytes reach the device, and bytes of the device are read, after they have
gone through all the codecs, whatever the cuts.
-/
namespace Klone.Chain
open Loop

variable {d : Device}

def codecCreate (c : Codec) : Link := ⟨c, c.init, List.replicate CODEC_BUFSZ 0, 0, 0⟩

def ioCreate (dev : d.State) (codecs : List Codec) : Io d :=
  ⟨dev, codecs.map codecCreate, 0, none, 0, 0, 0, [], 0, 0, none, 0⟩

/-- The output of a chain of functions, the first of them applied first. -/
def compose (fs : List (Str → Str)) (x : Str) : Str := fs.foldl (fun y f => f y) x

def stages : List (Str → Str) → Str → List Str
  | [], _ => []
  | f :: fs, x => f x :: stages fs (f x)

theorem stages_last (fs : List (Str → Str)) (x : Str) :
    (stages fs x).getLastD x = compose fs x := by
  induction fs generalizing x with
  | nil => rfl
  | cons f fs ih =>
    rw [stages, List.getLastD_cons, ih]
    rfl

theorem codecCreate_head {c : Codec} {strict : Prop} {total result : Str}
    (hc : c.Computes strict False total result) (hq : c.Quiet strict False total) :
    Head strict (fed total []) total result [] (codecCreate c) :=
  ⟨hc, hq, ⟨List.length_replicate, Nat.zero_le _, fun _ => rfl⟩, Codec.Open.init⟩

def strictTail : Tail := ⟨True, True, False⟩

theorem feeding_create {codecs : List Codec} {fs : List (Str → Str)}
    (h : List.Forall₂ Codec.Contract codecs fs) (hne : codecs ≠ []) (total : Str) :
    Feeding strictTail (codecs.map codecCreate) total (stages fs total) [] [] := by
  induction h generalizing total with
  | nil => exact absurd rfl hne
  | @cons c f codecs fs hc hrest ih =>
    cases codecs with
    | nil =>
      cases hrest
      exact .last ⟨hc total, (hc total).quiet, False.elim⟩ Codec.Open.init
    | cons c' codecs =>
      exact .link (Or.inl trivial) (codecCreate_head (hc total) ((hc total).quiet trivial))
        (ih (List.cons_ne_nil _ _) (f total))

theorem setChain_writing {links : List Link} {total : Str} {results : List Str} {q : Tail}
    (received : d.State → Str) (h : Feeding q links total results [] []) (dev : d.State) :
    Writing received q total results (received dev) [] ((ioCreate dev []).setChain links) :=
  ⟨⟨Nat.zero_le _, (fun _ hm => by cases hm), fun _ => rfl⟩, [], h, rfl⟩

theorem setChain_reading {links : List Link} {q : Tail} {results : List Str}
    (pending : d.State → Str) {dev : d.State} (h : Feeding q links (pending dev) results [] []) :
    Reading q pending (pending dev) results [] ((ioCreate dev []).setChain links) :=
  ⟨⟨(fun _ hm => by cases hm), fun _ => ⟨rfl, rfl⟩, Nat.zero_le _, Nat.zero_le _, fun _ => rfl⟩,
    Or.inl ⟨[], h, rfl⟩⟩

theorem written_map_write (inputs : List Str) : written (inputs.map .write) = inputs.flatten := by
  induction inputs with
  | nil => rfl
  | cons buf inputs ih =>
    rw [List.map_cons, written, ih]
    rfl

/-- The device receives the composition of the codecs applied to what was written,
and reading returns the composition applied to what the device delivers, up to the
number of bytes asked for. -/
theorem stream_computes_composition (codecs : List Codec) (fs : List (Str → Str))
    (hne : codecs ≠ []) (h : List.Forall₂ Codec.Contract codecs fs) :
    (∀ (d : Device) (received : d.State → Str), Accepts d received →
      ∀ (dev : d.State) (inputs : List Str),
      inputs ≠ [] → ∃ io', Ends (fun n => writeSession n (inputs.map .write) (ioCreate dev codecs))
        (io', true) ∧
        received io'.dev = received dev ++ compose fs inputs.flatten) ∧
    (∀ (d : Device) (pending : d.State → Str), Delivers d pending →
      ∀ (dev : d.State) (sizes : List ℕ),
      ∃ io', Ends (fun n => readAll n sizes (ioCreate dev codecs))
        (io', some ((compose fs (pending dev)).take sizes.sum))) := by
  have hf := feeding_create h hne
  constructor
  · intro d received hd dev inputs hin
    obtain ⟨buf, rest, rfl⟩ := List.exists_cons_of_ne_nil hin
    rw [← written_map_write, ← stages_last]
    apply writeSession_ends hd (setChain_writing received (hf _) dev)
    exact ⟨buf, List.mem_cons_self⟩
  · intro d pending hd dev sizes
    rw [← stages_last]
    exact readAll_ends trivial hd (setChain_reading pending (hf _)) (fun he => absurd rfl he) sizes

/-! ## The null codec -/

def nullTransform (room : ℕ) (src : Str) : Transformed Unit :=
  if room = 0 ∨ src = [] then ⟨(), none, []⟩ else ⟨(), some (min src.length room), src.take room⟩

def nullFlush : Flushed Unit := ⟨(), .complete, 0, []⟩

def codecNull : Codec := ⟨Unit, (), fun _ => nullTransform, fun _ _ => nullFlush⟩

theorem nullTransform_eq {room : ℕ} {src : Str} (hroom : 0 < room) (hsrc : src ≠ []) :
    nullTransform room src = ⟨(), some (min src.length room), src.take room⟩ := by
  apply if_neg
  rintro (h | h)
  · omega
  · exact hsrc h

theorem codecNull_open {wide : Prop} {total : Str} {s : codecNull.State} {inp out : Str}
    (h : codecNull.Open wide total s inp out) :
    out = inp ∧ inp <+: total := by
  induction h with
  | init => exact ⟨rfl, List.nil_prefix⟩
  | @transform s inp out room src k h hroom _ hsrc htotal hret ih =>
    have he : codecNull.transform s room src = _ := nullTransform_eq hroom hsrc
    rw [he] at hret ⊢
    obtain rfl := Option.some.inj hret
    refine ⟨?_, (List.prefix_append_right_inj inp |>.mpr (List.take_prefix _ _)).trans htotal⟩
    rw [ih.1]
    simp [List.take_eq_take_iff, Nat.min_comm]

theorem codecNull_draining {wide : Prop} {total : Str} {s : codecNull.State} {out : Str}
    (h : codecNull.Draining True wide total s out) : out = total := by
  induction h with
  | start h => exact (codecNull_open h).1
  | chunk h hroom _ hret ih => cases hret
  | complete h hroom _ hret ih => exact ih

theorem codecNull_contract : codecNull.Contract id := by
  intro total
  refine ⟨?_, ?_, ?_, ?_⟩
  · intro s inp out h room src hroom _ hsrc _
    have he : codecNull.transform s room src = _ := nullTransform_eq hroom hsrc
    have hpos := List.length_pos_iff.mpr hsrc
    rw [he]
    refine ⟨_, rfl, Nat.min_le_left _ _, List.length_take_le _ _, Or.inl ?_⟩
    omega
  · intro s inp out h
    obtain ⟨rfl, hp⟩ := codecNull_open h
    exact hp
  · intro s out h room hroom _
    exact ⟨Nat.zero_le _, Or.inl ⟨rfl, codecNull_draining h, fun _ => rfl⟩⟩
  · intro s out h
    rw [codecNull_draining h]
    exact List.prefix_rfl

def fifo : Device := ⟨Str, fun s size => (s.drop size, some (s.take size)),
      fun s bs => (s ++ bs, some bs.length)⟩

theorem fifo_accepts : Accepts fifo id := by
  intro s bs hbs
  refine ⟨bs.length, rfl, List.length_pos_iff.mpr hbs, le_refl _, ?_⟩
  rw [List.take_length]
  rfl

theorem fifo_delivers :
    Delivers fifo id := fun _ size hsize => ⟨size, rfl, rfl, le_refl _, fun _ => hsize⟩

theorem stream_computes_composition_null :
    (∃ io', Ends (fun n => writeSession n [.write (bytes "ab"), .write (bytes "c")]
      (ioCreate (d := fifo) [] [codecNull, codecNull])) (io', true) ∧ io'.dev = bytes "abc") ∧
    ∃ io', Ends (fun n => readAll n [2, 7]
      (ioCreate (d := fifo) (bytes "abc") [codecNull, codecNull]))
      (io', some (bytes "abc")) := by
  have hc : List.Forall₂ Codec.Contract [codecNull, codecNull] [id, id] :=
    .cons codecNull_contract (.cons codecNull_contract .nil)
  have hboth := stream_computes_composition [codecNull, codecNull] [id, id] (by simp) hc
  exact ⟨hboth.1 fifo id fifo_accepts [] [bytes "ab", bytes "c"] (by simp),
    hboth.2 fifo id fifo_delivers (bytes "abc") [2, 7]⟩

end Klone.Chain
