import Klone.Io.Composition
import Klone.Session.Persistence

/-! # Saving a session twice

A page may save its session and go on, and the session is saved again when it is freed.
A save replaces the value of the key variable by its encryption in the session itself. The
next save finds a value there that is too long for a key, and stops.
-/
namespace Klone.Session
open Chain Loop

/-- The encryption of a key of 32 bytes is one block of the cipher longer. -/
structure KeyCipher.Expands (c : KeyCipher) : Prop where
  keyLen : c.keyLen = 32
  encrypts : ∀ key, key.length = 32 → ∃ ekey, c.encrypt key = some ekey ∧ ekey.length = 48

/-- `vars_foreach` with `session_prv_save_var`, and the variables afterwards. -/
def varsForeachSave {dev : Device} (n : ℕ) (ssl : Option KeyCipher) :
    List Var → Io dev → Option (Io dev × List Var)
  | [], io => some (io, [])
  | v :: vs, io =>
    let r := sessionPrvSaveVar ssl v
    match r.1 with
    | none => some (io, r.2 :: vs)
    | some line =>
      (ioWrite n io line).bind fun w =>
        if w.2 = none then some (w.1, r.2 :: vs) else (varsForeachSave n ssl vs w.1).map fun q =>
          (q.1, r.2 :: q.2)

/-- There is room for `size` bytes in a stream that takes `cap` of them, or any number. -/
def fits (cap : Option ℕ) (size : ℕ) : Bool := cap.all (size ≤ ·)

/-- The variables after they have been saved to a stream that had taken `sent` bytes. -/
def varsAfter (ssl : Option KeyCipher) (cap : Option ℕ) : ℕ → List Var → List Var
  | _, [] => []
  | sent, v :: vs =>
    let r := sessionPrvSaveVar ssl v
    match r.1 with
    | none => r.2 :: vs
    | some line =>
      r.2 :: if fits cap (sent + line.length) then varsAfter ssl cap (sent + line.length) vs else vs

variable {ssl : Option KeyCipher} {cap : Option ℕ}

/-! ## Streams -/

/-- Writing to the stream succeeds as long as there is room, and then fails. `I sent` holds
of it after `sent` bytes. -/
def Takes {dev : Device} (cap : Option ℕ) (io : Io dev) : Prop :=
  ∃ I : ℕ → Io dev → Prop, I 0 io ∧ ∀ sent io, I sent io → ∀ line : Str,
    ∃ io', Ends (fun n => ioWrite n io line)
      (io', if fits cap (sent + line.length) then some line.length else none) ∧
      (fits cap (sent + line.length) = true → I (sent + line.length) io')

theorem takes_accepted {dev : Device} {received : dev.State → Str} (hd : Accepts dev received)
    {io : Io dev} (h : io.Plain) :
    Takes none io := by
  refine ⟨fun _ io => io.Plain, h, ?_⟩
  intro sent io h line
  obtain ⟨io', hends, hk⟩ := ioWrite_accepted hd h line
  exact ⟨io', hends, fun _ => hk.plain⟩

/-- A stream in memory takes what has room in the block and in the write buffer. -/
theorem takes_block (size : ℕ) :
    Takes (some (size + IO_WR_BUFSZ)) (ioCreate (d := ioMem) (ioMemCreate size) []) := by
  refine ⟨fun sent io => (∃ total, Filling size total io) ∧ taken io = sent,
    ⟨⟨[], ioMemCreate_filling size⟩, rfl⟩, ?_⟩
  rintro _ io ⟨⟨total, h⟩, rfl⟩ line
  obtain ⟨io', ok, hends, h', -, hcount⟩ := ioWrite_filling h line
  have hle : taken io' ≤ size + IO_WR_BUFSZ := by
    have hoff := Mem.fits io'.dev
    have hblock := h'.block
    have hw := h'.plain.ok.fits
    unfold taken
    omega
  have hok : ok = fits (some (size + IO_WR_BUFSZ)) (taken io + line.length) := by
    cases ok with
    | false =>
      rw [if_neg Bool.false_ne_true] at hcount
      simpa [fits] using hcount
    | true =>
      rw [if_pos rfl] at hcount
      simpa [fits, ← hcount] using hle
  rw [hok] at hends hcount
  refine ⟨io', hends, ?_⟩
  intro hfits
  rw [if_pos hfits] at hcount
  exact ⟨⟨_, h'⟩, hcount⟩

/-- The stream gets what `session_prv_save_to_io` writes. -/
theorem varsForeachSave_io {dev : Device} (n : ℕ) (ssl : Option KeyCipher) (vars : List Var)
    (io : Io dev) :
    (varsForeachSave n ssl vars io).map Prod.fst = sessionPrvSaveToIo n ssl vars io := by
  unfold sessionPrvSaveToIo
  induction vars generalizing io with
  | nil => rfl
  | cons v vs ih =>
    unfold varsForeachSave savedLines
    dsimp only
    cases hline : (sessionPrvSaveVar ssl v).1 with
    | none => rfl
    | some line =>
      simp only [writeLines, Option.map_bind]
      apply congrArg ((ioWrite n io line).bind ·)
      funext w
      by_cases hw : w.2 = none
      · simp [hw]
      · simp [hw, ← ih, Function.comp_def]

theorem varsForeachSave_ends {dev : Device} {io : Io dev} (h : Takes cap io)
    (ssl : Option KeyCipher) (vars : List Var) :
    ∃ io', Ends (fun n => varsForeachSave n ssl vars io) (io', varsAfter ssl cap 0 vars) := by
  obtain ⟨I, hI, hstep⟩ := h
  generalize 0 = sent at hI ⊢
  induction vars generalizing io sent with
  | nil => exact ⟨io, Ends.const _⟩
  | cons v vs ih =>
    unfold varsForeachSave varsAfter
    dsimp only
    cases hline : (sessionPrvSaveVar ssl v).1 with
    | none => exact ⟨io, Ends.const _⟩
    | some line =>
      obtain ⟨io₁, hends, hkeep⟩ := hstep sent io hI line
      cases hfits : fits cap (sent + line.length) with
      | false =>
        simp only [hfits, Bool.false_eq_true, if_false] at hends ⊢
        exact ⟨io₁, hends.bind (Ends.const _)⟩
      | true =>
        simp only [hfits, if_true] at hends ⊢
        obtain ⟨io', hends'⟩ := ih _ (hkeep hfits)
        exact ⟨io', hends.bind (hends'.map_eq rfl)⟩

/-! ## The variables afterwards -/

def KeyVar (ssl : Option KeyCipher) (v : Var) : Prop :=
  ssl.isSome ∧ v.name = SESSION_KEY_VAR ∧ v.value.length = 32

/-- A save changes a key, and nothing else. -/
theorem sessionPrvSaveVar_var (hc : ∀ c, ssl = some c → c.Expands) (v : Var) :
    (sessionPrvSaveVar ssl v).2 = v ↔ ¬ KeyVar ssl v := by
  unfold sessionPrvSaveVar KeyVar
  by_cases hname : v.name = []
  · have hne : SESSION_KEY_VAR ≠ [] := by decide
    simp [hname, hne]
  by_cases hvalue : v.value = []
  · simp [hname, hvalue]
  cases ssl with
  | none => simp [hname, hvalue, protectKey]
  | some c =>
    obtain ⟨hlen, hencrypts⟩ := hc c rfl
    by_cases hkey : v.name = SESSION_KEY_VAR
    · by_cases h32 : v.value.length = 32
      · obtain ⟨ekey, hekey, h48⟩ := hencrypts v.value h32
        have hne : ekey ≠ [] := by
          rintro rfl
          cases h48
        have hchanged : (⟨v.name, ekey⟩ : Var) ≠ v := by
          intro he
          have hsame := congrArg (fun w : Var => w.value.length) he
          dsimp only at hsame
          omega
        simp only [if_neg hname, if_neg hvalue, protectKey, if_pos hkey, hlen, if_pos h32, hekey,
          Option.map_some, if_neg hne]
        exact iff_of_false hchanged (not_not_intro ⟨rfl, hkey, h32⟩)
      · simp [hvalue, protectKey, hkey, hlen, h32]
    · simp [hname, hvalue, protectKey, hkey]

theorem varsAfter_cons (sent : ℕ) (v : Var) (vs : List Var) :
    varsAfter ssl cap sent (v :: vs) = (sessionPrvSaveVar ssl v).2 ::
      if savable ssl v ∧ fits cap (sent + (varLine ssl v).length) then
        varsAfter ssl cap (sent + (varLine ssl v).length) vs
      else vs := by
  have hline := sessionPrvSaveVar_line ssl v
  rw [varsAfter]
  cases hs : savable ssl v with
  | false =>
    rw [hs, if_neg Bool.false_ne_true] at hline
    simp [hline]
  | true =>
    rw [hs, if_pos rfl] at hline
    simp only [hline, true_and]
    rfl

theorem fits_of_le {a b : ℕ} (h : fits cap b = true) (hab : a ≤ b) : fits cap a = true := by
  cases cap with
  | none => rfl
  | some c =>
    have hb : b ≤ c := by simpa [fits] using h
    simpa [fits] using hab.trans hb

/-- The save gets to a key: it can save all variables before it, and their lines fit in
the stream. -/
def KeyReached (ssl : Option KeyCipher) (cap : Option ℕ) (vars : List Var) : Prop :=
  ∃ before v after, vars = before ++ v :: after ∧ KeyVar ssl v ∧
    (∀ w ∈ before, savable ssl w = true) ∧
    fits cap (varLines ssl before).length = true

theorem exists_split_cons {α : Type*} {P : List α → α → Prop} {a : α} {l : List α} :
    (∃ before v after, a :: l = before ++ v :: after ∧ P before v) ↔
      P [] a ∨ ∃ before v after, l = before ++ v :: after ∧ P (a :: before) v := by
  constructor
  · rintro ⟨before, v, after, he, hp⟩
    cases before with
    | nil =>
      obtain ⟨rfl, rfl⟩ := List.cons.inj he
      exact Or.inl hp
    | cons b before =>
      obtain ⟨rfl, rfl⟩ := List.cons.inj he
      exact Or.inr ⟨before, v, after, rfl, hp⟩
  · rintro (hp | ⟨before, v, after, rfl, hp⟩)
    · exact ⟨[], a, l, rfl, hp⟩
    · exact ⟨a :: before, v, after, rfl, hp⟩

theorem varsAfter_eq_iff (hc : ∀ c, ssl = some c → c.Expands) (vars : List Var) {sent : ℕ}
    (hsent : fits cap sent = true) :
    varsAfter ssl cap sent vars = vars ↔ ¬ ∃ before v after, vars = before ++ v :: after ∧
      KeyVar ssl v ∧ (∀ w ∈ before, savable ssl w = true) ∧
      fits cap (sent + (varLines ssl before).length) = true := by
  induction vars generalizing sent with
  | nil => simp [varsAfter]
  | cons v vs ih =>
    rw [varsAfter_cons, List.cons.injEq, sessionPrvSaveVar_var hc, exists_split_cons, not_or]
    have hhead : (KeyVar ssl v ∧ (∀ w ∈ ([] : List Var), savable ssl w = true) ∧
        fits cap (sent + (varLines ssl []).length) = true) ↔ KeyVar ssl v := by
      simp [varLines, hsent]
    rw [hhead]
    apply and_congr_right
    intro _
    have hlen : ∀ before, sent + (varLines ssl (v :: before)).length =
        sent + (varLine ssl v).length + (varLines ssl before).length := by
      intro before
      rw [varLines, List.flatMap_cons, List.length_append, Nat.add_assoc]
      rfl
    simp only [hlen, List.forall_mem_cons]
    by_cases hgo : savable ssl v = true ∧ fits cap (sent + (varLine ssl v).length) = true
    · rw [if_pos hgo, ih hgo.2]
      simp only [hgo.1, true_and]
    · rw [if_neg hgo]
      refine iff_of_true rfl ?_
      rintro ⟨before, w, after, -, -, ⟨hs, -⟩, hfits⟩
      exact hgo ⟨hs, fits_of_le hfits (Nat.le_add_right _ _)⟩

theorem varsAfter_eq (hc : ∀ c, ssl = some c → c.Expands) (cap : Option ℕ) (vars : List Var) :
    varsAfter ssl cap 0 vars = vars ↔ ¬ KeyReached ssl cap vars := by
  have hzero : fits cap 0 = true := by
    cases cap with
    | none => rfl
    | some c => simp [fits]
  rw [varsAfter_eq_iff hc vars hzero]
  simp only [Nat.zero_add, KeyReached]

/-! ## Sessions -/

/-- The streams that a driver writes the text of a session to, with the number of bytes
they take, and the text that is under the name afterwards. -/
structure Medium (d : Driver) where
  dev : Device
  stream : List Var → Io dev
  cap : List Var → Option ℕ
  takes : ∀ vars, Takes (cap vars) (stream vars)
  text : List Var → Str
  entry_save : ∀ now s name vars, vars ≠ [] → d.room s name vars →
    d.entry (d.save now s name vars) name = some (text vars)

def fileMedium (ssl : Option KeyCipher) {dev : Device} {received : dev.State → Str}
    (hd : Accepts dev received) (empty : dev.State) : Medium (fileDriver ssl) where
  dev := dev
  stream _ := ioCreate empty []
  cap _ := none
  takes _ := takes_accepted hd (outputCreate_plain empty)
  text := sessionText ssl
  entry_save now fs name vars hne _ := by simp [fileDriver, sessionFileSave, hne]

/-- `session_prv_save_to_buf` writes to a block of the estimated size. -/
def memMedium (ssl : Option KeyCipher) : Medium (memDriver ssl) where
  dev := ioMem
  stream vars := ioCreate (d := ioMem) (ioMemCreate (sessionMaxsize ssl vars)) []
  cap vars := some (sessionMaxsize ssl vars + IO_WR_BUFSZ)
  takes vars := takes_block (sessionMaxsize ssl vars)
  text vars := (sessionText ssl vars).take (sessionMaxsize ssl vars)
  entry_save now s _ _ _ hroom := sessionMemSave_data now s hroom

variable {d : Driver}

def sessionSaveVars (m : Medium d) (n : ℕ) (o : Opening) (ss : Ses d) : Option (Ses d) :=
  if ss.vars = [] then some (sessionSave o ss)
  else (varsForeachSave n d.ssl ss.vars (m.stream ss.vars)).map fun r => { sessionSave o ss with
    vars := r.2 }

def sessionSetCipherKey (ss : Ses d) (data : List Byte) : Ses d :=
  if data = [] then ss
  else { ss with vars := varsDel ss.vars SESSION_KEY_VAR ++ [varBinCreate SESSION_KEY_VAR data] }

/-- Two saves, the second one at the time `again`. The variables stay as they are, and the
second save succeeds and leaves the same data under the name. -/
def SavedTwice (m : Medium d) (o : Opening) (again : ℤ) (ss : Ses d) : Prop :=
  ∃ ss₁ ss₂, Ends (fun n => sessionSaveVars m n o ss) ss₁ ∧
    Ends (fun n => sessionSaveVars m n { o with saved := again } ss₁) ss₂ ∧ ss₁.vars = ss.vars ∧
    ss₂.vars = ss.vars ∧
      d.entry ss₂.store (o.fileName ss₁.id) = d.entry ss₁.store (o.fileName ss₁.id) ∧
        (ss.vars ≠ [] → d.entry ss₂.store (o.fileName ss₁.id) ≠ none)

theorem sessionSave_vars (o : Opening) (ss : Ses d) : (sessionSave o ss).vars = ss.vars := by
  unfold sessionSave
  split
  · split
    · rfl
    · rfl
  · rfl

theorem sessionSaveVars_ends (m : Medium d) (o : Opening) (ss : Ses d) :
    Ends (fun n => sessionSaveVars m n o ss)
      { sessionSave o ss with vars := varsAfter d.ssl (m.cap ss.vars) 0 ss.vars } := by
  unfold sessionSaveVars
  by_cases hvars : ss.vars = []
  · have hsame : { sessionSave o ss with vars := varsAfter d.ssl (m.cap ss.vars) 0 ss.vars } =
      sessionSave o ss := by
      have hempty : varsAfter d.ssl (m.cap ss.vars) 0 ss.vars = (sessionSave o ss).vars := by
        rw [sessionSave_vars, hvars, varsAfter]
      rw [hempty]
    simp only [if_pos hvars, hsame]
    exact Ends.const _
  · simp only [if_neg hvars]
    obtain ⟨io', hends⟩ := varsForeachSave_ends (m.takes ss.vars) d.ssl ss.vars
    exact hends.map_eq rfl

/-- Nothing is left under the name of a session without variables. -/
theorem sessionSave_again (m : Medium d) (o : Opening) (again : ℤ) (ss : Ses d)
    (hroom : d.room ss.store (o.fileName (savedId o ss.id)) ss.vars)
    (hroom' : d.room (sessionSave o ss).store (o.fileName (savedId o ss.id)) ss.vars) :
    let ss₁ := sessionSave o ss
    let ss₂ := sessionSave { o with saved := again } ss₁
    d.entry ss₂.store (o.fileName ss₁.id) = d.entry ss₁.store (o.fileName ss₁.id) ∧
      (ss.vars ≠ [] → d.entry ss₂.store (o.fileName ss₁.id) ≠ none) := by
  by_cases hvars : ss.vars = []
  · refine ⟨?_, fun hne => absurd hvars hne⟩
    by_cases hid : ss.id = []
    · have hsave : ∀ o' : Opening, sessionSave o' ss = ss :=
        fun o' => by rw [sessionSave, if_pos hvars, if_pos hid]
      simp only [hsave]
    · have hsave : ∀ (o' : Opening) (st : Ses d), st.vars = [] → st.id ≠ [] →
        sessionSave o' st = sessionRemove o' st := by
        intro o' st hv hi
        rw [sessionSave, if_pos hv, if_neg hi]
      simp only [hsave o ss hvars hid]
      rw [hsave _ (sessionRemove o ss) hvars hid]
      simp only [sessionRemove, d.entry_remove]
  · have hsave : ∀ (o' : Opening) (st : Ses d), st.vars ≠ [] →
        sessionSave o' st = { st with
          id := savedId o' st.id
          store := d.save o'.saved st.store (o'.fileName (savedId o' st.id)) st.vars } := by
      intro o' st hv
      rw [sessionSave, if_neg hv]
      rfl
    have hkept : savedId { o with saved := again } (savedId o ss.id) = savedId o ss.id :=
      if_neg (savedId_ne_nil o ss.id)
    have hfirst := m.entry_save o.saved ss.store (o.fileName (savedId o ss.id)) ss.vars hvars hroom
    simp only [hsave o ss hvars] at hroom' ⊢
    generalize d.save o.saved ss.store (o.fileName (savedId o ss.id)) ss.vars = s at *
    simp only [hsave { o with
      saved := again } ⟨s, savedId o ss.id, ss.vars, ss.mtime, ss.removed⟩ hvars, hkept]
    rw [m.entry_save _ _ _ _ hvars hroom', hfirst]
    simp

/-- Saving a session twice is like saving it once exactly when the first save does not get
to a key of 32 bytes. -/
theorem session_saved_twice_iff (m : Medium d) (hc : ∀ c, d.ssl = some c → c.Expands) (o : Opening)
    (again : ℤ) (ss : Ses d) (hroom : d.room ss.store (o.fileName (savedId o ss.id)) ss.vars)
    (hroom' : d.room (sessionSave o ss).store (o.fileName (savedId o ss.id)) ss.vars) :
    SavedTwice m o again ss ↔ ¬ KeyReached d.ssl (m.cap ss.vars) ss.vars := by
  rw [← varsAfter_eq hc]
  have hfirst := sessionSaveVars_ends m o ss
  constructor
  · rintro ⟨ss₁, ss₂, hends, -, hvars, -⟩
    rwa [hends.unique hfirst] at hvars
  · intro hkept
    have hsame : { sessionSave o ss with vars := varsAfter d.ssl (m.cap ss.vars) 0 ss.vars } =
        sessionSave o ss := by
      rw [hkept, ← sessionSave_vars o ss]
    rw [hsame] at hfirst
    have hsecond := sessionSaveVars_ends m { o with saved := again } (sessionSave o ss)
    rw [sessionSave_vars, hkept] at hsecond
    have hvars : ss.vars = (sessionSave { o with saved := again } (sessionSave o ss)).vars := by
      rw [sessionSave_vars, sessionSave_vars]
    have hsame' : { sessionSave { o with saved := again } (sessionSave o ss) with
      vars := ss.vars } =
        sessionSave { o with saved := again } (sessionSave o ss) := by
      rw [hvars]
    rw [hsame'] at hsecond
    obtain ⟨hentry, hsome⟩ := sessionSave_again m o again ss hroom hroom'
    exact ⟨_, _, hfirst, hsecond, sessionSave_vars o ss, hvars.symm, hentry, hsome⟩

def paddingCipher : KeyCipher :=
  ⟨32, fun key => if key.length = 32 then some (key ++ List.replicate 16 16) else none,
    fun ekey => some (ekey.take 32)⟩

theorem paddingCipher_expands : ∀ c, some paddingCipher = some c → c.Expands := by
  rintro _ ⟨⟩
  refine ⟨rfl, ?_⟩
  intro key hkey
  exact ⟨key ++ List.replicate 16 16, if_pos hkey, by simp [hkey]⟩

def newFileSession : Ses (fileDriver (some paddingCipher)) := ⟨fun _ => none, [], [], 0, false⟩

def sampleMedium : Medium (fileDriver (some paddingCipher)) := fileMedium _ fifo_accepts ([] : Str)

theorem session_saved_twice_without_key :
    SavedTwice sampleMedium (sampleOpening 1200) 1300003700
    (sessionSet newFileSession (bytes "user") (bytes "7")) :=
  (session_saved_twice_iff sampleMedium paddingCipher_expands _ _ _ trivial trivial).mpr
    ((varsAfter_eq paddingCipher_expands none _).mp (by decide))

/-- The key has changed after the first save, and the second one writes neither it nor what
comes after it. -/
theorem session_not_saved_twice :
    let user := sessionSet newFileSession (bytes "user") (bytes "7")
    let ss := sessionSet (sessionSetCipherKey user (List.replicate 32 107))
      (bytes "cart") (bytes "3")
    ¬ SavedTwice sampleMedium (sampleOpening 1200) 1300003700 ss ∧
      sessionText (some paddingCipher) (varsAfter (some paddingCipher) none 0 ss.vars) =
        bytes "user=7%00\n" := by
  constructor
  · rintro ⟨ss₁, ss₂, hends, -, hvars, -⟩
    rw [hends.unique (sessionSaveVars_ends sampleMedium _ _)] at hvars
    revert hvars
    decide
  · decide

end Klone.Session
