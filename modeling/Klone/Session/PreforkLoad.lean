import Klone.Session.Messages
import Klone.Session.StoreInvariant

/-! # Loading a session in the prefork model

A child saves a session and asks the parent for it later. On the way the data
crosses three limits: the parent's receive buffer, the child's receive buffer of
4096 bytes, and the length of a name in the record. A failed read in the child
goes unnoticed because its result is compared as an unsigned number; what the
child then looks at is whatever its memory held.
-/
namespace Klone.Session
open Ppc

/-- The block that `session_mem_load` hands to `session_prv_load_from_buf` when it
asks the parent. -/
def sessionMemLoadPrefork (parent : SessionOpt) (writable : Bool) (filename : Str)
    (m : Frame PPC_MAX_DATA_SIZE) (m' : Frame 4096) (granted : Bool) (junk : ℕ → Byte) :
    Option (List Byte) :=
  if filename = [] ∨ writable = false then none
  else
    match (serverProcessPpc parent m (send (PPC_CMD_MSES_GET, filename ++ [0])).2 granted
      junk).reply with
    | none => none
    | some msg =>
      let r := receive m' (send msg).2
      if r.ret = 0 then none
      else if r.cmd ≠ PPC_CMD_RESPONSE_OK then none
      else some (decodeEsm r.buf).data

def sessionMemLoadLocal (so : SessionOpt) (filename : Str) : Option (List Byte) :=
  if filename = [] then none else (atomsGet so.atoms filename).map fun p => (so.atoms.cell p).data

/-- The parent receives the save and then the request for the same name. -/
def preforkHanded (parent : SessionOpt) (c : AddCall) (m₁ m₂ : Frame PPC_MAX_DATA_SIZE)
    (m₃ : Frame 4096) (junk₁ junk₂ : ℕ → Byte) : Option (List Byte) :=
  let saved := serverProcessPpc parent m₁ (send c.message).2 true junk₁
  sessionMemLoadPrefork saved.so (!saved.closed) c.filename m₂ m₃ true junk₂

inductive ChildMessage : Msg → Prop
  | save (c : AddCall) : ChildMessage c.message
  | get (filename : Str) (h : filename.length + 1 < sizeMod) :
      ChildMessage (PPC_CMD_MSES_GET, filename ++ [0])
  | delold : ChildMessage Session.delold
  | remove (filename : Str) (h : filename.length + 1 < sizeMod) :
      ChildMessage (PPC_CMD_MSES_REMOVE, filename ++ [0])

inductive ParentStore : SessionOpt → Prop
  | empty : ParentStore (emptyStore 0 0)
  | message {so : SessionOpt} {msg : Msg} (h : ParentStore so) (hm : ChildMessage msg)
      (m : Frame PPC_MAX_DATA_SIZE) (granted : Bool) (junk : ℕ → Byte) :
      ParentStore (serverProcessPpc so m (send msg).2 granted junk).so

inductive ChildStore : SessionOpt → Prop
  | fork {so : SessionOpt} (h : ParentStore so) : ChildStore so
  | add {so : SessionOpt} (h : ChildStore so) (writable : Bool) (c : AddCall) :
      ChildStore (sessionMemAdd so writable c).so
  | remove {so : SessionOpt} (h : ChildStore so) (id : Str) : ChildStore (soAtomRemove so id)

theorem process_cases (so : SessionOpt) (m : Frame PPC_MAX_DATA_SIZE) {msg : Msg} (granted : Bool)
    (junk : ℕ → Byte) (hne : msg.2 ≠ []) (hlt : msg.2.length < sizeMod) :
    serverProcessPpc so m (send msg).2 granted junk =
      if msg.2.length ≤ PPC_MAX_DATA_SIZE then ppcDispatch so msg.1 (store m.buf msg.2) granted junk
      else ⟨so, none, true⟩ := by
  unfold serverProcessPpc
  split
  · next h =>
    have hret : (0 : ℤ) < msg.2.length := Int.natCast_pos.mpr (List.length_pos_of_ne_nil hne)
    rw [receive_send m hne h h]
    exact if_pos hret
  · next h =>
    rw [receive_oversize m (Nat.lt_of_not_le h) hlt]
    exact if_neg (show ¬ (0 : ℤ) < -1 by decide)

structure ShortNames (so : SessionOpt) (xs : List ℕ) : Prop extends Unlimited so xs where
  names : ∀ p ∈ xs, (so.atoms.cell p).id.length ≤ 255

theorem ShortNames.sublist {so so' : SessionOpt} {xs ys : List ℕ} (h : ShortNames so xs)
    (hk : Keeps so' ys) (hmax : so'.maxCount = so.maxCount) (hmem : so'.memLimit = so.memLimit)
    (hcell : so'.atoms.cell = so.atoms.cell) (hsub : ys.Sublist xs) : ShortNames so' ys := by
  refine ⟨⟨hk, hmax.trans h.maxCount, hmem.trans h.memLimit⟩, fun p hp => ?_⟩
  rw [hcell]
  exact h.names p (hsub.subset hp)

theorem ShortNames.add {so : SessionOpt} {xs : List ℕ} (h : ShortNames so xs) {a : Atom}
    (ha : a.id.length ≤ 255) (granted : Bool) :
    ∃ ys, ShortNames (soAtomAdd .parent so a granted).so ys := by
  rcases h.toUnlimited.add .parent a granted with ⟨-, hs, -⟩ | ⟨p, -, hs⟩
  · exact ⟨xs, by rwa [hs]⟩
  · refine ⟨_, ⟨hs.keeps, hs.maxCount.trans h.maxCount, hs.memLimit.trans h.memLimit⟩, ?_⟩
    intro q hq
    rcases List.mem_cons.mp hq with rfl | hq
    · rw [hs.cell_new]
      exact ha
    · have hx := (dropOld_sublist xs _).subset hq
      rw [hs.cell_old q hx]
      exact h.names q hx

theorem ShortNames.message {so : SessionOpt} {xs : List ℕ} (h : ShortNames so xs) {msg : Msg}
    (hm : ChildMessage msg) (m : Frame PPC_MAX_DATA_SIZE) (granted : Bool) (junk : ℕ → Byte) :
    ∃ ys, ShortNames (serverProcessPpc so m (send msg).2 granted junk).so ys := by
  have hnul : ∀ filename : Str, filename ++ [0] ≠ [] :=
    fun _ => List.append_ne_nil_of_right_ne_nil _ (by decide)
  cases hm with
  | save c =>
    by_cases hs : sizeofEsm + c.buf.length ≤ PPC_MAX_DATA_SIZE
    · rw [AddCall.message, process_save so m c.junk junk granted c.now_lt c.filename_ok hs]
      exact h.add (List.length_take_le _ _) granted
    · have hlen : c.message.2.length = sizeofEsm + c.buf.length := encodeEsm_length _ _ _ _
      have hne : c.message.2 ≠ [] := List.ne_nil_of_length_pos (by omega)
      rw [process_cases so m granted junk hne (hlen ▸ c.buf_lt), if_neg (hlen ▸ hs)]
      exact ⟨xs, h⟩
  | get filename hlt =>
    rw [process_cases so m granted junk (hnul filename) (by simpa using hlt)]
    split
    · exact ⟨xs, h⟩
    · exact ⟨xs, h⟩
  | delold =>
    rw [process_cases so m granted junk (by decide) (by decide)]
    change ∃ ys, ShortNames (sessionCmdDelold so) ys
    unfold sessionCmdDelold
    by_cases hx : xs = []
    · subst hx
      rw [h.toKeeps.deleteOldest_nil]
      exact ⟨[], h⟩
    · obtain ⟨v, so', hd, he⟩ := h.toKeeps.deleteOldest hx
      rw [hd]
      exact ⟨_, h.sublist he.keeps he.maxCount he.memLimit he.cell List.erase_sublist⟩
  | remove filename hlt =>
    rw [process_cases so m granted junk (hnul filename) (by simpa using hlt)]
    split
    · obtain ⟨hmax, hmem, hcell⟩ := soAtomRemove_fields so (cstr (store m.buf (filename ++ [0])))
      exact ⟨_, h.sublist (h.toKeeps.remove _) hmax hmem hcell (dropOld_sublist _ _)⟩
    · exact ⟨xs, h⟩

theorem ParentStore.shortNames {so : SessionOpt} (h : ParentStore so) : ∃ xs, ShortNames so xs := by
  induction h with
  | empty =>
    exact ⟨[], ⟨(inv_empty 0 0).toKeeps, rfl, rfl⟩, fun _ hp => absurd hp List.not_mem_nil⟩
  | message _ hm m granted junk ih =>
    obtain ⟨xs, hx⟩ := ih
    exact hx.message hm m granted junk

theorem Unlimited.memAdd {so : SessionOpt} {xs : List ℕ} (h : Unlimited so xs) (writable : Bool)
    (c : AddCall) : ∃ ys, Unlimited (sessionMemAdd so writable c).so ys := by
  unfold sessionMemAdd
  split
  · dsimp only
    rcases h.add (.child writable) ⟨c.filename, c.buf, c.mtime⟩ c.granted with
      ⟨-, hs, -⟩ | ⟨p, -, hs⟩
    · exact ⟨xs, by rwa [hs]⟩
    · exact ⟨_, hs.keeps, hs.maxCount.trans h.maxCount, hs.memLimit.trans h.memLimit⟩
  · exact ⟨xs, h⟩

theorem ChildStore.unlimited {so : SessionOpt} (h : ChildStore so) : ∃ xs, Unlimited so xs := by
  induction h with
  | fork hp =>
    obtain ⟨xs, hx⟩ := hp.shortNames
    exact ⟨xs, hx.toUnlimited⟩
  | add _ writable c ih =>
    obtain ⟨xs, hx⟩ := ih
    exact hx.memAdd writable c
  | @remove so _ id ih =>
    obtain ⟨xs, hx⟩ := ih
    obtain ⟨hmax, hmem, -⟩ := soAtomRemove_fields so id
    exact ⟨_, hx.toKeeps.remove id, hmax.trans hx.maxCount, hmem.trans hx.memLimit⟩

/-! ## The answer to a request -/

theorem process_get (so : SessionOpt) (m : Frame PPC_MAX_DATA_SIZE) (granted : Bool)
    (junk : ℕ → Byte) {filename : Str} (hf : 0 ∉ filename)
    (hl : filename.length ≤ SESSION_FILENAME_MAX_LENGTH) :
    (serverProcessPpc so m (send (PPC_CMD_MSES_GET, filename ++ [0])).2 granted junk).reply =
      match atomsGet so.atoms filename with
      | none => some (PPC_CMD_RESPONSE_ERROR, [0])
      | some p =>
        if 4096 < sizeofEsm + (so.atoms.cell p).size ∧
          ¬ granted then some (PPC_CMD_RESPONSE_ERROR, [0])
        else some (PPC_CMD_RESPONSE_OK,
          encodeEsm junk (so.atoms.cell p).arg filename (so.atoms.cell p).data) := by
  have hle : (filename ++ [0]).length ≤ PPC_MAX_DATA_SIZE := by
    have h₁ : SESSION_FILENAME_MAX_LENGTH + 1 ≤ PPC_MAX_DATA_SIZE := by decide
    rw [List.length_append, List.length_singleton]
    omega
  have hname : cstr (store m.buf (filename ++ [0])) = filename := by
    rw [store, List.append_assoc]
    exact cstr_append_nul hf _
  have hdis : ppcDispatch so PPC_CMD_MSES_GET (store m.buf (filename ++ [0])) granted junk =
      ⟨so, some (sessionCmdGet so (store m.buf (filename ++ [0])) granted junk), false⟩ := rfl
  rw [process_cases so m granted junk (List.append_ne_nil_of_right_ne_nil _ (by decide))
    (hle.trans_lt (by decide)), if_pos hle, hdis]
  unfold sessionCmdGet
  dsimp only
  rw [hname, if_neg (Nat.not_lt.mpr hl)]
  cases atomsGet so.atoms filename with
  | none => rfl
  | some p => exact apply_ite some _ _ _

theorem load_missing {parent : SessionOpt} {filename : Str} (hf : 0 ∉ filename)
    (hl : filename.length ≤ SESSION_FILENAME_MAX_LENGTH)
    (hg : atomsGet parent.atoms filename = none) (writable : Bool) (m : Frame PPC_MAX_DATA_SIZE)
    (m' : Frame 4096) (granted : Bool) (junk : ℕ → Byte) :
    sessionMemLoadPrefork parent writable filename m m' granted junk = none := by
  unfold sessionMemLoadPrefork
  split
  · rfl
  rw [process_get parent m granted junk hf hl, hg]
  dsimp only
  rw [receive_send m' (by decide) (by decide) (by decide)]
  rfl

theorem load_found {parent : SessionOpt} {filename : Str} {p : ℕ} (hf : 0 ∉ filename)
    (hne : filename ≠ []) (hl : filename.length ≤ SESSION_FILENAME_MAX_LENGTH)
    (hg : atomsGet parent.atoms filename = some p) (m : Frame PPC_MAX_DATA_SIZE) (m' : Frame 4096)
    (junk : ℕ → Byte) :
    sessionMemLoadPrefork parent true filename m m' true junk =
      let r := receive m' (send (PPC_CMD_RESPONSE_OK,
        encodeEsm junk (parent.atoms.cell p).arg filename (parent.atoms.cell p).data)).2
      if r.ret = 0 then none
      else if r.cmd ≠ PPC_CMD_RESPONSE_OK then none
      else some (decodeEsm r.buf).data := by
  have hc : ¬ (filename = [] ∨ true = false) := fun h => h.elim hne (fun h => by cases h)
  rw [sessionMemLoadPrefork, if_neg hc, process_get parent m true junk hf hl, hg]
  dsimp only
  rw [if_neg (fun h => h.2 rfl)]

theorem load_fits {parent : SessionOpt} {filename : Str} {p : ℕ} (hf : 0 ∉ filename)
    (hne : filename ≠ []) (hl : filename.length ≤ SESSION_FILENAME_MAX_LENGTH)
    (hg : atomsGet parent.atoms filename = some p) (harg : (parent.atoms.cell p).arg < sizeMod)
    (hs : sizeofEsm + (parent.atoms.cell p).data.length ≤ 4096) (m : Frame PPC_MAX_DATA_SIZE)
    (m' : Frame 4096) (junk : ℕ → Byte) :
    sessionMemLoadPrefork parent true filename m m' true junk =
    some (parent.atoms.cell p).data := by
  have hlen := encodeEsm_length junk (parent.atoms.cell p).arg filename (parent.atoms.cell p).data
  have hpos : 0 < (encodeEsm junk (parent.atoms.cell p).arg filename
      (parent.atoms.cell p).data).length := by
    rw [hlen]
    exact Nat.lt_of_lt_of_le (by decide) (Nat.le_add_right _ _)
  have hlt : (parent.atoms.cell p).data.length < sizeMod := by
    have : 4096 < sizeMod := by decide
    omega
  have hret : ((encodeEsm junk (parent.atoms.cell p).arg filename
      (parent.atoms.cell p).data).length : ℤ) ≠ 0 := Int.natCast_ne_zero.mpr hpos.ne'
  rw [load_found hf hne hl hg, receive_send m' (List.ne_nil_of_length_pos hpos) (hlen.trans_le hs)
    (hlen.trans_le (hs.trans (by decide)))]
  dsimp only
  rw [if_neg hret, if_neg (fun h => h rfl), store, decode_encode junk harg hf hlt]

/-- A child's memory in which a failed read leaves no success behind. -/
def badFrame : Frame 4096 := Frame.zero 4096

theorem load_oversize {parent : SessionOpt} {filename : Str} {p : ℕ} (hf : 0 ∉ filename)
    (hne : filename ≠ []) (hl : filename.length ≤ SESSION_FILENAME_MAX_LENGTH)
    (hg : atomsGet parent.atoms filename = some p)
    (hs : 4096 < sizeofEsm + (parent.atoms.cell p).data.length)
    (hlt : sizeofEsm + (parent.atoms.cell p).data.length < sizeMod) (m : Frame PPC_MAX_DATA_SIZE)
    (junk : ℕ → Byte) :
    sessionMemLoadPrefork parent true filename m badFrame true junk = none := by
  have hlen := encodeEsm_length junk (parent.atoms.cell p).arg filename (parent.atoms.cell p).data
  rw [load_found hf hne hl hg,
    receive_oversize badFrame (hs.trans_eq hlen.symm) (hlen.trans_lt hlt)]
  rfl

/-- Both ways of loading hand over the saved block, whatever memory holds. -/
def LoadsBack (parent child : SessionOpt) (c : AddCall) : Prop :=
  ∀ m₁ m₂ m₃ junk₁ junk₂, preforkHanded parent c m₁ m₂ m₃ junk₁ junk₂ = some c.buf ∧
    sessionMemLoadLocal (sessionMemAdd child true c).so c.filename = some c.buf

theorem sessionMemAdd_sends {child : SessionOpt} {c : AddCall}
    (h : (sessionMemAdd child true c).ok = true) :
    c.filename.length ≤ SESSION_FILENAME_MAX_LENGTH ∧
      (soAtomAdd (.child true) child ⟨c.filename, c.buf, c.mtime⟩ c.granted).ok = true ∧
      (sessionMemAdd child true c).so =
        (soAtomAdd (.child true) child ⟨c.filename, c.buf, c.mtime⟩ c.granted).so := by
  unfold sessionMemAdd at h ⊢
  by_cases hs : (c.sends && true) = true
  · rw [if_pos hs] at h ⊢
    rw [Bool.and_true, AddCall.sends, Bool.and_eq_true] at hs
    exact ⟨of_decide_eq_true hs.2, h, rfl⟩
  · rw [if_neg hs] at h
    cases h

theorem load_local {child : SessionOpt} {xs : List ℕ} (hc : Unlimited child xs) {c : AddCall}
    (hadd : (sessionMemAdd child true c).ok = true) (hne : c.filename ≠ []) :
    sessionMemLoadLocal (sessionMemAdd child true c).so c.filename = some c.buf := by
  obtain ⟨-, hok, hso⟩ := sessionMemAdd_sends hadd
  rcases hc.add (.child true) ⟨c.filename, c.buf, c.mtime⟩ c.granted with ⟨hfail, -, -⟩ | ⟨p, -, hs⟩
  · rw [hfail] at hok
    cases hok
  · rw [sessionMemLoadLocal, if_neg hne, hso, hs.get, Option.map_some, hs.cell_new]

/-- The parent has the session, under the first 255 bytes of its name. -/
theorem save_found {parent : SessionOpt} {xs : List ℕ} (hp : ShortNames parent xs) {c : AddCall}
    (hmem : parent.atoms.heap + c.atom.footprint < sizeMod)
    (hs : sizeofEsm + c.buf.length ≤ PPC_MAX_DATA_SIZE) (m : Frame PPC_MAX_DATA_SIZE)
    (junk : ℕ → Byte) :
    ∃ so p ys, serverProcessPpc parent m (send c.message).2 true junk = ⟨so, none, false⟩ ∧
      ShortNames so ys ∧ atomsGet so.atoms (c.filename.take 255) = some p ∧
      so.atoms.cell p = ⟨c.filename.take 255, c.buf, c.now⟩ := by
  have hproc := process_save parent m c.junk junk true c.now_lt c.filename_ok hs
  obtain ⟨ys, hy⟩ := hp.add (a := ⟨c.filename.take 255, c.buf, c.now⟩)
    (List.length_take_le _ _) true
  have hfoot : (⟨c.filename.take 255, c.buf, c.now⟩ : Atom).footprint ≤ c.atom.footprint := by
    have hle : (c.filename.take 255).length ≤ c.filename.length := List.length_take_le' _ _
    simp only [Atom.footprint, Atom.size, AddCall.atom]
    omega
  rcases hp.toUnlimited.add .parent ⟨c.filename.take 255, c.buf, c.now⟩ true with ⟨-, -, hc⟩ |
    ⟨p, -, hsaved⟩
  · rw [atomCreate, if_pos ⟨rfl, by omega⟩] at hc
    cases hc
  · exact ⟨_, p, ys, hproc, hy, hsaved.get, hsaved.cell_new⟩

theorem loadsBack_of_limits {parent child : SessionOpt} {xs ys : List ℕ} (hp : ShortNames parent xs)
    (hc : Unlimited child ys) {c : AddCall} (hadd : (sessionMemAdd child true c).ok = true)
    (hmem : parent.atoms.heap + c.atom.footprint < sizeMod) (hpos : 1 ≤ c.filename.length)
    (hl : c.filename.length ≤ 255) (hs : sizeofEsm + c.buf.length ≤ 4096) :
    LoadsBack parent child c := by
  have hne : c.filename ≠ [] := List.ne_nil_of_length_pos hpos
  intro m₁ m₂ m₃ junk₁ junk₂
  refine ⟨?_, load_local hc hadd hne⟩
  obtain ⟨so, p, zs, hproc, -, hget, hcell⟩ := save_found hp hmem (hs.trans (by decide)) m₁ junk₁
  rw [List.take_of_length_le hl] at hget hcell
  have hload := load_fits c.filename_ok hne (hl.trans (by decide)) hget
    (by rw [hcell]; exact c.now_lt)
    (by rw [hcell]; exact hs) m₂ m₃ junk₂
  rw [preforkHanded, hproc]
  rw [hcell] at hload
  exact hload

theorem limits_of_loadsBack {parent child : SessionOpt} {xs : List ℕ} (hp : ShortNames parent xs)
    {c : AddCall} (hadd : (sessionMemAdd child true c).ok = true)
    (hmem : parent.atoms.heap + c.atom.footprint < sizeMod) (h : LoadsBack parent child c) :
    1 ≤ c.filename.length ∧ c.filename.length ≤ 255 ∧ sizeofEsm + c.buf.length ≤ 4096 := by
  obtain ⟨hname, -, -⟩ := sessionMemAdd_sends hadd
  let m : Frame PPC_MAX_DATA_SIZE := Frame.zero PPC_MAX_DATA_SIZE
  have hhand : preforkHanded parent c m m badFrame (fun _ => 0) (fun _ => 0) = some c.buf :=
    (h m m badFrame (fun _ => 0) (fun _ => 0)).1
  have hne : c.filename ≠ [] := by
    intro hnil
    rw [preforkHanded, sessionMemLoadPrefork, if_pos (Or.inl hnil)] at hhand
    cases hhand
  have hsize : sizeofEsm + c.buf.length ≤ PPC_MAX_DATA_SIZE := by
    by_contra hbig
    have hlen : c.message.2.length = sizeofEsm + c.buf.length := encodeEsm_length _ _ _ _
    have hclosed : c.filename = [] ∨ (!true) = false := Or.inr rfl
    rw [preforkHanded, process_cases parent m true _ (List.ne_nil_of_length_pos (by omega))
      (hlen ▸ c.buf_lt),
      if_neg (hlen ▸ hbig)] at hhand
    dsimp only at hhand
    rw [sessionMemLoadPrefork, if_pos hclosed] at hhand
    cases hhand
  obtain ⟨so, p, ys, hproc, hshort, hget, hcell⟩ := save_found hp hmem hsize m (fun _ => 0)
  rw [preforkHanded, hproc] at hhand
  have hl : c.filename.length ≤ 255 := by
    by_contra hlong
    have hnone : atomsGet so.atoms c.filename = none := by
      cases hg : atomsGet so.atoms c.filename with
      | none => rfl
      | some q =>
        obtain ⟨hq, hid⟩ := hshort.linked.get_some hg
        exact absurd (hid ▸ hshort.names q hq) hlong
    have hmiss := load_missing c.filename_ok hname hnone (!false) m badFrame true (fun _ => 0)
    cases hhand.symm.trans hmiss
  refine ⟨List.length_pos_of_ne_nil hne, hl, ?_⟩
  by_contra hbig
  rw [List.take_of_length_le hl] at hget hcell
  have hlt := c.buf_lt
  have hover := load_oversize c.filename_ok hne hname hget
    (by rw [hcell]; exact Nat.lt_of_not_le hbig)
    (by rw [hcell]; exact hlt) m (fun _ => 0)
  cases hhand.symm.trans hover

/-- A session saved by a child comes back from the parent exactly if its name has
between 1 and 255 bytes and its data at most 3816. -/
theorem prefork_load_iff (parent child : SessionOpt) (hp : ParentStore parent)
    (hc : ChildStore child) (c : AddCall) (hadd : (sessionMemAdd child true c).ok = true)
    (hmem : parent.atoms.heap + c.atom.footprint < sizeMod) :
    LoadsBack parent child c ↔
      1 ≤ c.filename.length ∧ c.filename.length ≤ 255 ∧ c.buf.length ≤ 3816 := by
  obtain ⟨xs, hx⟩ := hp.shortNames
  obtain ⟨ys, hy⟩ := hc.unlimited
  have he : sizeofEsm + c.buf.length ≤ 4096 ↔ c.buf.length ≤ 3816 := by unfold sizeofEsm; omega
  constructor
  · intro h
    obtain ⟨h₁, h₂, h₃⟩ := limits_of_loadsBack hx hadd hmem h
    exact ⟨h₁, h₂, he.mp h₃⟩
  · rintro ⟨h₁, h₂, h₃⟩
    exact loadsBack_of_limits hx hy hadd hmem h₁ h₂ (he.mpr h₃)

def sessionCall (data : List Byte) (h : sizeofEsm + data.length < sizeMod) : AddCall :=
  ⟨bytes "s", by decide, data, h, 1, 1, one_lt_sizeMod, fun _ => 0, true, true⟩

theorem prefork_load_small :
    LoadsBack (emptyStore 0 0) (emptyStore 0 0) (sessionCall (bytes "x") (by decide)) :=
  (prefork_load_iff _ _ .empty (.fork .empty) _ (by decide) (by decide)).mpr (by decide)

theorem sessionCall_ok (data : List Byte) (h : sizeofEsm + data.length < sizeMod) :
    (emptyStore 0 0).atoms.heap + (sessionCall data h).atom.footprint < sizeMod ∧
      (sessionMemAdd (emptyStore 0 0) true (sessionCall data h)).ok = true := by
  have hmem : (emptyStore 0 0).atoms.heap + (⟨bytes "s", data, 1⟩ : Atom).footprint < sizeMod := by
    change 0 + (48 + (1 + 1) + data.length) < sizeMod
    unfold sizeofEsm at h
    omega
  obtain ⟨xs, hx⟩ := ParentStore.empty.shortNames
  refine ⟨hmem, ?_⟩
  rcases hx.toUnlimited.add (.child true) ⟨bytes "s", data, 1⟩ true with ⟨-, -, hc⟩ | ⟨p, hok, -⟩
  · rw [atomCreate, if_pos ⟨rfl, hmem⟩] at hc
    cases hc
  · exact hok

/-- A session of 3817 bytes is saved and does not come back. -/
theorem prefork_load_too_large :
    ¬ ∀ (parent child : SessionOpt) (c : AddCall), ParentStore parent → ChildStore child →
      (sessionMemAdd child true c).ok = true → parent.atoms.heap + c.atom.footprint < sizeMod →
      LoadsBack parent child c := by
  intro h
  have hlt : sizeofEsm + (List.replicate 3817 (0 : Byte)).length < sizeMod := by
    rw [List.length_replicate]
    decide
  obtain ⟨hmem, hok⟩ := sessionCall_ok (List.replicate 3817 0) hlt
  obtain ⟨xs, hx⟩ := ParentStore.empty.shortNames
  have hl : sizeofEsm + (List.replicate 3817 (0 : Byte)).length ≤ 4096 :=
    (limits_of_loadsBack hx hok hmem (h _ _ _ .empty (.fork .empty) hok hmem)).2.2
  rw [List.length_replicate] at hl
  exact absurd hl (by decide)

end Klone.Session
