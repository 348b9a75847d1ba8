import Klone.Io.Codec
import Klone.Lib.Loop

/-! # A codec driven to its end

A text is offered to a codec in pieces of any sizes, each call with room of its own, and
when all of it has been taken the codec is flushed until it reports that it has no more.
-/
namespace Klone.Chain
open Loop

/-- The codec, what is left of the text, the bytes stored so far and the number of calls. -/
structure Drive (c : Codec) where
  state : c.State
  rest : Str
  out : Str
  turn : ℕ

section Drive
variable (c : Codec) (rooms cuts : ℕ → ℕ)

def driveTransform (s : Drive c) : Iter (Drive c) (Option Str) :=
  let t := c.transform s.state (rooms s.turn) (s.rest.take (cuts s.turn))
  match t.ret with
  | none => .leave none
  | some k => .again ⟨t.state, s.rest.drop k, s.out ++ t.out, s.turn + 1⟩

def driveFlush (s : Drive c) : Iter (Drive c) (Option Str) :=
  let f := c.flush s.state (rooms s.turn)
  match f.ret with
  | .error => .leave none
  | .complete => .leave (some s.out)
  | .chunk => .again ⟨f.state, s.rest, s.out ++ f.out, s.turn + 1⟩

def driveBody (s : Drive c) : Option (Iter (Drive c) (Option Str)) :=
  some (if s.rest = [] then driveFlush c rooms s else driveTransform c rooms cuts s)

/-- The bytes that come out of the codec; `none` where a call fails. -/
def drive (n : ℕ) (total : Str) : Option (Option Str) :=
  run (driveBody c rooms cuts) n ⟨c.init, total, [], 0⟩

end Drive

/-- Whatever the sizes of the pieces and the rooms, exactly `result` comes out. -/
def Codec.Emits (c : Codec) (total result : Str) : Prop :=
  ∀ rooms cuts : ℕ → ℕ, (∀ i, 0 < rooms i) → (∀ i, 0 < cuts i) →
    Ends (fun n => drive c rooms cuts n total) (some result)

variable {c : Codec} {strict : Prop} {total result : Str}

def Driven (c : Codec) (strict : Prop) (total : Str) (s : Drive c) : Prop :=
  (∃ inp, inp ++ s.rest = total ∧ c.Open True total s.state inp s.out) ∨ s.rest = [] ∧
  c.Draining strict True total s.state s.out

/-- The bytes that are still to be taken and to be stored. -/
def Drive.left (result : Str) (s : Drive c) : ℕ := s.rest.length + (result.length - s.out.length)

theorem Driven.draining {s : Drive c} (h : Driven c strict total s) (hrest : s.rest = []) :
    c.Draining strict True total s.state s.out := by
  rcases h with ⟨inp, htotal, ho⟩ | ⟨-, hd⟩
  · rw [hrest, List.append_nil] at htotal
    exact .start (htotal ▸ ho)
  · exact hd

theorem driveTransform_moves (h : c.Computes strict True total result) {rooms cuts : ℕ → ℕ}
    (hrooms : ∀ i, 0 < rooms i) (hcuts : ∀ i, 0 < cuts i) {s : Drive c} {inp : Str}
    (htotal : inp ++ s.rest = total) (ho : c.Open True total s.state inp s.out)
    (hrest : s.rest ≠ []) :
    ∃ t, driveTransform c rooms cuts s = .again t ∧ Driven c strict total t ∧
    t.left result < s.left result := by
  have hsrc : s.rest.take (cuts s.turn) ≠ [] := by
    intro hnil
    rcases List.take_eq_nil_iff.mp hnil with hz | hz
    · exact absurd hz (Nat.ne_of_gt (hcuts s.turn))
    · exact hrest hz
  have hprefix : inp ++ s.rest.take (cuts s.turn) <+: total := by
    rw [← htotal]
    exact (List.prefix_append_right_inj inp).mpr (List.take_prefix _ _)
  obtain ⟨k, hret, hk, -, hprog⟩ := h.transform_ret ho (hrooms s.turn) (Or.inl trivial) hsrc hprefix
  have hnext := Codec.Open.transform ho (hrooms s.turn) (Or.inl trivial) hsrc hprefix hret
  have htake : (s.rest.take (cuts s.turn)).take k = s.rest.take k := by
    rw [List.take_take, Nat.min_eq_left (hk.trans (List.length_take_le _ _))]
  rw [htake] at hnext
  refine ⟨⟨_, s.rest.drop k, _, s.turn + 1⟩, by simp only [driveTransform, hret], Or.inl ⟨_,
    ?_, hnext⟩, ?_⟩
  · rw [List.append_assoc, List.take_append_drop, htotal]
  · have hlen := (h.open_begins hnext).length_le
    have hle : k ≤ s.rest.length := hk.trans (List.length_take_le' _ _)
    simp only [Drive.left, List.length_drop, List.length_append] at hlen ⊢
    rcases hprog with hpos | hne
    · omega
    · have hout := List.length_pos_iff.mpr hne
      omega

theorem driveFlush_moves (h : c.Computes strict True total result) {rooms : ℕ → ℕ}
    (hrooms : ∀ i, 0 < rooms i) {s : Drive c} (hd : c.Draining strict True total s.state s.out)
    (hrest : s.rest = []) :
    (∃ t, driveFlush c rooms s = .again t ∧ Driven c strict total t ∧
      t.left result < s.left result) ∨
      driveFlush c rooms s = .leave (some result) := by
  rcases (h.flush_ret hd (Or.inr (hrooms s.turn)) (Or.inl trivial)).2 with ⟨hret, hall, -⟩ |
    ⟨hret, -, hne⟩
  · refine Or.inr ?_
    simp only [driveFlush, hret, hall]
  · have hnext := Codec.Draining.chunk hd (Or.inr (hrooms s.turn)) (Or.inl trivial) hret
    refine Or.inl ⟨⟨_, s.rest, _, s.turn + 1⟩, by simp only [driveFlush,
      hret], Or.inr ⟨hrest, hnext⟩, ?_⟩
    have hlen := (h.drain_begins hnext).length_le
    have hout := List.length_pos_iff.mpr (hne.resolve_right (Nat.ne_of_gt (hrooms s.turn)))
    simp only [Drive.left, List.length_append] at hlen ⊢
    omega

/-- A codec that keeps its contract can be driven to its end, and gives its result. -/
theorem Codec.Computes.emits (h : c.Computes strict True total result) : c.Emits total result := by
  intro rooms cuts hrooms hcuts
  have hrun := ends_run (fun _ => driveBody c rooms cuts)
    (I := fun m s => m = s.left result ∧ Driven c strict total s) (Q := fun r => r = some result)
    (m := Drive.left result (⟨c.init, total, [], 0⟩ : Drive c)) (s := ⟨c.init, total, [], 0⟩)
    (fun m s => by
      rintro ⟨rfl, hs⟩
      by_cases hrest : s.rest = []
      · have hbody : driveBody c rooms cuts s = some (driveFlush c rooms s) := by
          rw [driveBody, if_pos hrest]
        rw [hbody]
        rcases driveFlush_moves h hrooms (hs.draining hrest) hrest with ⟨t, ht, hdriven, hlt⟩ | ht
        · exact Or.inl ⟨t, _, ht ▸ Ends.const _, hlt, rfl, hdriven⟩
        · exact Or.inr ⟨_, ht ▸ Ends.const _, rfl⟩
      · have hbody : driveBody c rooms cuts s = some (driveTransform c rooms cuts s) := by
          rw [driveBody, if_neg hrest]
        rw [hbody]
        rcases hs with ⟨inp, htotal, ho⟩ | ⟨hnil, -⟩
        · obtain ⟨t, ht, hdriven, hlt⟩ := driveTransform_moves h hrooms hcuts htotal ho hrest
          exact Or.inl ⟨t, _, ht ▸ Ends.const _, hlt, rfl, hdriven⟩
        · exact absurd hnil hrest)
    ⟨rfl, Or.inl ⟨[], rfl, .init⟩⟩
  obtain ⟨r, rfl, hends⟩ := hrun
  exact hends

end Klone.Chain
