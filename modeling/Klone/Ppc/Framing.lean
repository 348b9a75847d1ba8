import Klone.Ppc.Channel

/-! # Framing over a stream socket

Messages written one after the other and read one after the other, with the
kernel's answers to the four system calls of each message. Neither side asks for
the rest of a short transfer, so the messages arrive exactly when no transfer is
short.
-/
namespace Klone.Ppc

structure Exchange where
  cmd : Byte
  data : List Byte
  writeHeader : Answer
  writeData : Answer
  readHeader : Answer
  readData : Answer

def Exchange.wire (e : Exchange) : List Byte := (ppcWrite e.writeHeader e.writeData e.cmd e.data).2

def wire (es : List Exchange) : List Byte := es.flatMap Exchange.wire

/-- Whatever the reader's memory holds, each `ppc_read` returns the message that
was written, and leaves on the wire everything that later messages put there. -/
def Delivers : List Exchange → List Byte → Prop
  | [], _ => True
  | e :: rest, w => ∀ m : Frame PPC_MAX_DATA_SIZE,
      let r := ppcRead e.readHeader e.readData m w
      r.ret = e.data.length ∧ r.cmd = e.cmd ∧ r.buf.take e.data.length = e.data ∧
        (wire rest).length ≤ r.rest.length ∧ Delivers rest r.rest

def Answer.Moves (k : Answer) : Prop := ∃ n, k.count = some n ∧ 0 < n

/-- The system call moves at least `size` bytes if as many are requested. -/
def Answer.All (k : Answer) (size : ℕ) : Prop := ∃ n, k.count = some n ∧ size ≤ n

structure Exchange.Moves (e : Exchange) : Prop where
  writeHeader : e.writeHeader.Moves
  writeData : e.writeData.Moves
  readHeader : e.readHeader.Moves
  readData : e.readData.Moves

structure Exchange.Full (e : Exchange) : Prop where
  writeHeader : e.writeHeader.All headerSize
  writeData : e.writeData.All e.data.length
  readHeader : e.readHeader.All headerSize
  readData : e.readData.All e.data.length

def Exchange.Fits (e : Exchange) : Prop := 1 ≤ e.data.length ∧ e.data.length ≤ PPC_MAX_DATA_SIZE

theorem take_ne_nil {data : List Byte} {n : ℕ} (hd : data ≠ []) (hn : 0 < n) :
    data.take n ≠ [] := by
  rw [Ne, List.take_eq_nil_iff]
  rintro (h | h)
  · omega
  · exact hd h

theorem Exchange.write_eq {e : Exchange} (hf : e.Fits) {n₁ n₂ : ℕ}
    (h₁ : e.writeHeader.count = some n₁) (h₂ : e.writeData.count = some n₂) (hn₁ : 0 < n₁)
    (hn₂ : 0 < n₂) :
    ppcWrite e.writeHeader e.writeData e.cmd e.data =
      (1, (header e.cmd e.data.length).take n₁ ++ e.data.take n₂) := by
  have hne : e.data ≠ [] := List.ne_nil_of_length_pos hf.1
  simp only [ppcWrite, ppcDoWrite_eq, h₁, h₂, Option.map_some,
    if_neg (take_ne_nil (header_ne_nil _ _) hn₁),
    if_neg (take_ne_nil hne hn₂)]

theorem Exchange.Full.wire_eq {e : Exchange} (hf : e.Fits) (h : e.Full) :
    e.wire = header e.cmd e.data.length ++ e.data := by
  obtain ⟨n₁, h₁, hn₁⟩ := h.writeHeader
  obtain ⟨n₂, h₂, hn₂⟩ := h.writeData
  have hpos : 0 < headerSize := by decide
  have hf₁ := hf.1
  rw [Exchange.wire, Exchange.write_eq hf h₁ h₂ (by omega) (by omega),
    List.take_of_length_le ((header_length _ _).le.trans hn₁), List.take_of_length_le hn₂]

theorem delivers_of_full {es : List Exchange} (hfits : ∀ e ∈ es, e.Fits)
    (hfull : ∀ e ∈ es, e.Full) :
    Delivers es (wire es) := by
  induction es with
  | nil => trivial
  | cons e rest ih =>
    have hf := hfits e List.mem_cons_self
    have he := hfull e List.mem_cons_self
    have hi := ih (fun x hx => hfits x (List.mem_cons_of_mem _ hx))
      (fun x hx => hfull x (List.mem_cons_of_mem _ hx))
    obtain ⟨n₁, h₁, hn₁⟩ := he.readHeader
    obtain ⟨n₂, h₂, hn₂⟩ := he.readData
    intro m
    have hw : wire (e :: rest) = header e.cmd e.data.length ++ (e.data ++ wire rest) := by
      rw [wire, List.flatMap_cons, he.wire_eq hf, List.append_assoc]
      rfl
    have hr : ppcRead e.readHeader e.readData m
      (header e.cmd e.data.length ++ (e.data ++ wire rest)) =
        ⟨e.data.length, e.cmd, store m.buf e.data, wire rest⟩ :=
      ppcRead_full m h₁ h₂ hn₁ hn₂ (List.ne_nil_of_length_pos hf.1) hf.2 hf.2
    rw [hw]
    dsimp only
    rw [hr]
    exact ⟨rfl, rfl, store_take rfl, le_rfl, hi⟩

/-- What a read does that returns a message: it stores what the two calls moved
over what was there before. -/
theorem ppcRead_pos {size : ℕ} {k₁ k₂ : Answer} {m : Frame size} {w : List Byte}
    (h : 0 < (ppcRead k₁ k₂ m w).ret) :
    ∃ n₁ n₂, k₁.count = some n₁ ∧ k₂.count = some n₂ ∧
      ∃ got data, got = w.take (min n₁ headerSize) ∧
        data = (w.drop got.length).take (min n₂ (hSize (store m.header got))) ∧
        hSize (store m.header got) ≤ PPC_MAX_DATA_SIZE ∧ hSize (store m.header got) ≤ size ∧
        ppcRead k₁ k₂ m w = ⟨hSize (store m.header got), headerCmd (store m.header got),
          store m.buf data, (w.drop got.length).drop data.length⟩ := by
  have hneg : ¬ (0 : ℤ) < -1 := by decide
  unfold ppcRead at h ⊢
  rw [ppcDoRead_eq] at h ⊢
  cases h₁ : k₁.count with
  | none =>
    rw [h₁] at h
    exact absurd h hneg
  | some n₁ =>
    rw [h₁, Option.map_some] at h
    dsimp only at h ⊢
    by_cases hg : w.take (min n₁ headerSize) = []
    · rw [if_pos hg] at h
      exact absurd h (lt_irrefl 0)
    rw [if_neg hg] at h
    by_cases hs : size < hSize (store m.header (w.take (min n₁ headerSize))) ∨
        PPC_MAX_DATA_SIZE < hSize (store m.header (w.take (min n₁ headerSize)))
    · rw [if_pos hs] at h
      exact absurd h hneg
    rw [if_neg hs, ppcDoRead_eq] at h
    cases h₂ : k₂.count with
    | none =>
      rw [h₂] at h
      exact absurd h hneg
    | some n₂ =>
      rw [h₂, Option.map_some] at h
      dsimp only at h
      split at h
      · exact absurd h (lt_irrefl 0)
      · next hd =>
        refine ⟨n₁, n₂, rfl, rfl, _, _, rfl, rfl, by omega, by omega, ?_⟩
        rw [Option.map_some]
        dsimp only
        rw [if_neg hg, if_neg hs, ppcDoRead_eq, h₂, Option.map_some]
        dsimp only
        rw [if_neg hd]

/-- A header that was not read to its end may announce a size that is too large. -/
theorem hSize_short {got : List Byte} (h : got.length < headerSize) :
    PPC_MAX_DATA_SIZE < hSize (store (List.replicate headerSize 255) got) := by
  have hlen : got.length ≤ 15 := Nat.le_of_lt_succ h
  have hst : store (List.replicate headerSize 255) got =
      (got ++ List.replicate (15 - got.length) 255) ++ [255] := by
    have he : headerSize - got.length = (15 - got.length) + 1 := by unfold headerSize; omega
    rw [store, List.drop_replicate, he, List.replicate_succ', List.append_assoc]
  have hys : (got ++ List.replicate (15 - got.length) 255).length = 15 := by
    rw [List.length_append, List.length_replicate]
    omega
  rw [hst, hSize, List.drop_append_of_le_length (by rw [hys]; decide), leNat_append,
    List.length_drop, hys]
  have hb : PPC_MAX_DATA_SIZE < 256 ^ (15 - 8) * leNat [255] := by decide
  omega

def blankFrame (b : Byte) : Frame PPC_MAX_DATA_SIZE where
  header := List.replicate headerSize 255
  header_length := List.length_replicate
  buf := List.replicate PPC_MAX_DATA_SIZE b
  buf_length := List.length_replicate
  cmd := 0

/-- If the last byte of the payload does not come from the wire it may be any byte. -/
theorem store_replicate_short {data moved : List Byte} {size : ℕ} {b : Byte}
    (hb : data.getLast? = some b) (hsize : data.length ≤ size) (hs : moved.length < data.length) :
    (store (List.replicate size (b + 1)) moved).take data.length ≠ data := by
  intro he
  have hpos : data.length - 1 < data.length := by omega
  have h₁ : ((store (List.replicate size (b + 1)) moved).take data.length)[data.length - 1]? =
      some (b + 1) := by
    rw [List.getElem?_take_of_lt hpos, store, List.getElem?_append_right (by omega),
      List.drop_replicate,
      List.getElem?_replicate, if_pos (by omega)]
  have h₂ : data[data.length - 1]? = some b := by rw [← List.getLast?_eq_getElem?, hb]
  rw [he, h₂] at h₁
  have hbb : b = b + 1 := Option.some.inj h₁
  have hn : b ≠ b + 1 := by
    intro h
    have := congrArg UInt8.toNat h
    rw [UInt8.toNat_add] at this
    have hlt := b.toNat_lt
    have h1 : (1 : UInt8).toNat = 1 := rfl
    omega
  exact hn hbb

/-- A message that arrives whatever the reader's memory holds is moved by two
full transfers. -/
theorem read_full_of_returns {k₁ k₂ : Answer} {w data : List Byte} (hf : 1 ≤ data.length)
    (h : ∀ m : Frame PPC_MAX_DATA_SIZE, (ppcRead k₁ k₂ m w).ret = data.length ∧
      (ppcRead k₁ k₂ m w).buf.take data.length = data) :
    k₁.All headerSize ∧ k₂.All data.length ∧
      ∀ m : Frame PPC_MAX_DATA_SIZE,
        (ppcRead k₁ k₂ m w).rest = w.drop (headerSize + data.length) ∧
          headerSize + data.length ≤ w.length := by
  obtain ⟨b, hb⟩ : ∃ b, data.getLast? = some b :=
    ⟨_, List.getLast?_eq_some_getLast (List.ne_nil_of_length_pos hf)⟩
  have hpos : ∀ m : Frame PPC_MAX_DATA_SIZE, 0 < (ppcRead k₁ k₂ m w).ret := by
    intro m
    rw [(h m).1]
    omega
  obtain ⟨n₁, n₂, hk₁, hk₂, got, moved, hgot, hmoved, hmax, -, hr⟩ :=
    ppcRead_pos (hpos (blankFrame (b + 1)))
  have hlen : got.length = headerSize := by
    have hle : got.length ≤ headerSize := by
      rw [hgot]
      exact (List.length_take_le _ _).trans (Nat.min_le_right _ _)
    refine le_antisymm hle (Nat.le_of_not_lt (fun hlt => ?_))
    exact absurd (hSize_short hlt) (Nat.not_lt.mpr hmax)
  have hst : ∀ m : Frame PPC_MAX_DATA_SIZE, store m.header got = got :=
    fun m => store_full (by rw [m.header_length, hlen])
  have hz : hSize got = data.length := by
    have hret := (h (blankFrame (b + 1))).1
    rw [hr, hst] at hret
    exact Int.ofNat.inj hret
  rw [hst, hz, hlen] at hmoved
  have hml : moved.length = data.length := by
    have hle : moved.length ≤ data.length := by
      rw [hmoved]
      exact (List.length_take_le _ _).trans (Nat.min_le_right _ _)
    refine le_antisymm hle (Nat.le_of_not_lt (fun hlt => ?_))
    have hbuf := (h (blankFrame (b + 1))).2
    rw [hst, hz] at hmax
    rw [hr] at hbuf
    exact store_replicate_short hb hmax hlt hbuf
  rw [hgot, List.length_take] at hlen
  rw [hmoved, List.length_take, List.length_drop] at hml
  refine ⟨⟨n₁, hk₁, by omega⟩, ⟨n₂, hk₂, by omega⟩, fun m => ⟨?_, by omega⟩⟩
  obtain ⟨n₁', n₂', hk₁', hk₂', got', moved', hgot', hmoved', -, -, hr'⟩ := ppcRead_pos (hpos m)
  obtain rfl : n₁ = n₁' := Option.some.inj (hk₁.symm.trans hk₁')
  obtain rfl : n₂ = n₂' := Option.some.inj (hk₂.symm.trans hk₂')
  obtain rfl : got' = got := hgot'.trans hgot.symm
  have hgl : got'.length = headerSize := by rw [hgot, List.length_take, hlen]
  rw [hst, hz, hgl] at hmoved'
  rw [hr', hgl, hmoved', List.length_take, List.length_drop, hml, List.drop_drop]

theorem Exchange.Moves.wire_length {e : Exchange} (hf : e.Fits) (hm : e.Moves) :
    e.wire.length ≤ headerSize + e.data.length ∧
      (headerSize + e.data.length ≤ e.wire.length →
        e.writeHeader.All headerSize ∧ e.writeData.All e.data.length) := by
  obtain ⟨n₁, h₁, hn₁⟩ := hm.writeHeader
  obtain ⟨n₂, h₂, hn₂⟩ := hm.writeData
  have hl : e.wire.length = min n₁ headerSize + min n₂ e.data.length := by
    rw [Exchange.wire, Exchange.write_eq hf h₁ h₂ hn₁ hn₂, List.length_append, List.length_take,
      List.length_take, header_length]
  refine ⟨by omega, fun hle => ⟨⟨n₁, h₁, by omega⟩, ⟨n₂, h₂, by omega⟩⟩⟩

theorem full_of_delivers {es : List Exchange} (hfits : ∀ e ∈ es, e.Fits)
    (hmoves : ∀ e ∈ es, e.Moves) (h : Delivers es (wire es)) : ∀ e ∈ es, e.Full := by
  induction es with
  | nil => exact fun e he => absurd he List.not_mem_nil
  | cons e rest ih =>
    have hf := hfits e List.mem_cons_self
    obtain ⟨hr₁, hr₂, hrest⟩ := read_full_of_returns hf.1 (fun m => ⟨(h m).1, (h m).2.2.1⟩)
    obtain ⟨hle, hall⟩ := (hmoves e List.mem_cons_self).wire_length hf
    obtain ⟨-, -, -, hnext, hd⟩ := h (blankFrame 0)
    obtain ⟨heq, hlen⟩ := hrest (blankFrame 0)
    have hw : wire (e :: rest) = e.wire ++ wire rest := List.flatMap_cons
    rw [heq, List.length_drop, hw, List.length_append] at hnext
    rw [hw, List.length_append] at hlen
    have hfull : e.Full := by
      obtain ⟨hw₁, hw₂⟩ := hall (by omega)
      exact ⟨hw₁, hw₂, hr₁, hr₂⟩
    have hel : e.wire.length = headerSize + e.data.length := by
      rw [hfull.wire_eq hf, List.length_append, header_length]
    rw [heq, hw, ← hel, List.drop_left] at hd
    have hi := ih (fun x hx => hfits x (List.mem_cons_of_mem _ hx))
      (fun x hx => hmoves x (List.mem_cons_of_mem _ hx)) hd
    intro x hx
    rcases List.mem_cons.mp hx with rfl | hx
    · exact hfull
    · exact hi x hx

/-- Messages whose system calls all move some bytes are delivered exactly when
every call moves all the bytes it is asked to move. -/
theorem framing_iff (es : List Exchange) (hfits : ∀ e ∈ es, e.Fits) (hmoves : ∀ e ∈ es, e.Moves) :
    Delivers es (wire es) ↔ ∀ e ∈ es, e.Full :=
  ⟨full_of_delivers hfits hmoves, delivers_of_full hfits⟩

def fullExchange (cmd : Byte) (data : List Byte) : Exchange :=
  ⟨cmd, data, ⟨0, some 16⟩, ⟨2, some 16⟩, ⟨1, some 16⟩, ⟨0, some 16⟩⟩

theorem framing_two_messages :
    Delivers [fullExchange 5 (bytes "one"), fullExchange 6 (bytes "two")]
      (wire [fullExchange 5 (bytes "one"), fullExchange 6 (bytes "two")]) := by
  refine (framing_iff _ ?_ ?_).mpr ?_
  all_goals simp only [List.forall_mem_cons, List.not_mem_nil, false_implies,
    implies_true, and_true]
  · exact ⟨⟨by decide, by decide⟩, by decide, by decide⟩
  · have hm : ∀ k n, 0 < n → (⟨k, some n⟩ : Answer).Moves := fun k n hn => ⟨n, rfl, hn⟩
    constructor <;> constructor <;> exact hm _ 16 (by decide)
  · have ha : ∀ k size, size ≤ 16 → (⟨k, some 16⟩ : Answer).All size :=
      fun k size hs => ⟨16, rfl, hs⟩
    constructor <;> constructor <;> exact ha _ _ (by decide)

/-- The payload `ab` goes out in a write that moves one byte and reports success. -/
def shortExchange : Exchange :=
  ⟨5, bytes "ab", ⟨0, some 16⟩, ⟨0, some 1⟩, ⟨0, some 16⟩, ⟨0, some 2⟩⟩

theorem framing_short_write :
    ¬ ∀ es : List Exchange, (∀ e ∈ es, e.Fits) → (∀ e ∈ es, e.Moves) → Delivers es (wire es) := by
  intro h
  have hfits : ∀ e ∈ [shortExchange], e.Fits := by
    intro e he
    rw [List.mem_singleton.mp he]
    exact ⟨by decide, by decide⟩
  have hmoves : ∀ e ∈ [shortExchange], e.Moves := by
    intro e he
    rw [List.mem_singleton.mp he]
    exact ⟨⟨16, rfl, by decide⟩, ⟨1, rfl, by decide⟩, ⟨16, rfl, by decide⟩, ⟨2, rfl, by decide⟩⟩
  have hfull := full_of_delivers hfits hmoves (h _ hfits hmoves) shortExchange List.mem_cons_self
  obtain ⟨n, hn, hle⟩ := hfull.writeData
  obtain rfl : 1 = n := Option.some.inj hn
  exact absurd hle (by decide)

end Klone.Ppc
