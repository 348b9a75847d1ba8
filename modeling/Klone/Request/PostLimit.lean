import Klone.Request.Data
import Klone.Request.HeaderLoad
import Klone.Request.PartExtent

/-! # What is taken of a posted body

Only the declared length is compared with the limit for posted data. A multipart body is
taken as far as it extends: the lines before the first boundary, the headers of the parts, the
parts up to their delimiters, and behind the last one what the declared length leaves. This is
settled for every stream, whatever it holds.
-/
namespace Klone.Multipart
open Loop Matcher Page

/-- The number of bytes that `request_parse_data` takes from the stream. -/
def consumed (method : Method) (rq : Request) (src : Source) (tmp : ℕ → TmpFile) : ℕ :=
  (requestParseData method rq src tmp).src.rtot - src.rtot

/-- The next line of the stream, or its first 1023 bytes. -/
def nextLine (src : Source) : List Byte := takeThrough 10 (LINE_BUFSZ - 1) src.bytes

/-- There is another line, which the device does not break off. -/
def LineComes (src : Source) : Prop :=
  nextLine src ≠ [] ∧ ¬ (src.fails = true ∧ (nextLine src).length = src.bytes.length ∧
    (nextLine src).getLast? ≠ some 10)

/-- The bytes up to and including the first line that begins with the boundary, and whether
there is one. -/
inductive PreambleTaken (boundary : Str) : Source → ℕ → Bool → Prop
  | found {src : Source} (hline : LineComes src) (hfirst : boundary <+: nextLine src) :
      PreambleTaken boundary src (nextLine src).length true
  | line {src : Source} {n : ℕ} {found : Bool} (hline : LineComes src)
    (hother : ¬ boundary <+: nextLine src)
      (hrest : PreambleTaken boundary (src.skip (nextLine src).length) n found) :
      PreambleTaken boundary src ((nextLine src).length + n) found
  | ended {src : Source} (hend : ¬ LineComes src) :
    PreambleTaken boundary src src.bytes.length false

/-- What a part with this header may hold, and whether it is stored behind its delimiter. -/
def partOf (limit : ℕ) (boundary : Str) (tmp : TmpFile) (h : Header) : Option ((ℕ → Bool) × Bool) :=
  if isMultipartMixed h || isEncoded h then none
  else match parseContentDisposition h with
    | none => none
    | some (_, filename) =>
      if filename = [] then some (fun total => decide (total ≤ limit), true)
      else if BUFSZ ≤ boundary.length ∨ tmp.name = none then none
      else some (tmp.accepts, tmp.statOk)

def headerTaken (src : Source) : ℕ := (headerLoad src).2.rtot - src.rtot

/-- The parts from the `i`-th on, as far as they are taken; `rall` is where the declared
length ends. -/
inductive PartsTaken (limit rall : ℕ) (boundary : Str) (tmp : ℕ → TmpFile) : ℕ → Source → ℕ → Prop
  | header {i : ℕ} {src : Source}
    (hpart : (headerLoad src).1.bind (partOf limit boundary (tmp i)) = none) :
      PartsTaken limit rall boundary tmp i src (headerTaken src)
  | broken {i n : ℕ} {src : Source} {accepts : ℕ → Bool} {stored complete : Bool}
      (hpart : (headerLoad src).1.bind (partOf limit boundary (tmp i)) = some (accepts, stored))
      (htaken : PartTaken boundary BUFSZ accepts 0 (src.skip (headerTaken src)).bytes n complete)
      (hbroken : (complete && stored) = false) :
      PartsTaken limit rall boundary tmp i src (headerTaken src + n)
  | short {i n : ℕ} {src : Source} {accepts : ℕ → Bool}
      (hpart : (headerLoad src).1.bind (partOf limit boundary (tmp i)) = some (accepts, true))
      (htaken : PartTaken boundary BUFSZ accepts 0 (src.skip (headerTaken src)).bytes n true)
      (hshort : (src.skip (headerTaken src + n)).bytes.length < 2) :
      PartsTaken limit rall boundary tmp i src src.bytes.length
  | closed {i n : ℕ} {src : Source} {accepts : ℕ → Bool} {rest : List Byte}
      (hpart : (headerLoad src).1.bind (partOf limit boundary (tmp i)) = some (accepts, true))
      (htaken : PartTaken boundary BUFSZ accepts 0 (src.skip (headerTaken src)).bytes n true)
      (hclosed : (src.skip (headerTaken src + n)).bytes = bytes "--" ++ rest) :
      PartsTaken limit rall boundary tmp i src
        (headerTaken src + n + 2 + min rest.length (rall - (src.rtot + (headerTaken src + n + 2))))
  | next {i n m : ℕ} {src : Source} {accepts : ℕ → Bool}
      (hpart : (headerLoad src).1.bind (partOf limit boundary (tmp i)) = some (accepts, true))
      (htaken : PartTaken boundary BUFSZ accepts 0 (src.skip (headerTaken src)).bytes n true)
      (hmore : 2 ≤ (src.skip (headerTaken src + n)).bytes.length)
      (hopen : (src.skip (headerTaken src + n)).bytes.take 2 ≠ bytes "--")
      (hrest : PartsTaken limit rall boundary tmp (i + 1) (src.skip (headerTaken src + n + 2)) m) :
      PartsTaken limit rall boundary tmp i src (headerTaken src + n + 2 + m)

/-- A multipart body, as far as it is taken. -/
inductive BodyTaken (limit rall : ℕ) (b : Str) (tmp : ℕ → TmpFile) (src : Source) : ℕ → Prop
  | preamble {n : ℕ} (hpreamble : PreambleTaken (bytes "--" ++ b) src n false) :
      BodyTaken limit rall b tmp src n
  | long {n : ℕ} (hpreamble : PreambleTaken (bytes "--" ++ b) src n true)
      (hlong : BOUNDARY_BUFSZ ≤ (nlBoundary b).length) : BodyTaken limit rall b tmp src n
  | parts {n m : ℕ} (hpreamble : PreambleTaken (bytes "--" ++ b) src n true)
      (hshort : (nlBoundary b).length < BOUNDARY_BUFSZ)
      (hparts : PartsTaken limit rall (nlBoundary b) tmp 0 (src.skip n) m) :
        BodyTaken limit rall b tmp src (n + m)

/-! ## The lines before the first boundary -/

theorem PreambleTaken.unique {boundary : Str} {src : Source} {n n' : ℕ} {found found' : Bool}
    (h : PreambleTaken boundary src n found) (h' : PreambleTaken boundary src n' found') :
    n = n' ∧ found = found' := by
  induction h generalizing n' found' with
  | found hline hfirst =>
    cases h' with
    | found => exact ⟨rfl, rfl⟩
    | line _ hother => exact absurd hfirst hother
    | ended hend => exact absurd hline hend
  | line hline hother _ ih =>
    cases h' with
    | found _ hfirst => exact absurd hfirst hother
    | line _ _ hrest =>
      obtain ⟨rfl, rfl⟩ := ih hrest
      exact ⟨rfl, rfl⟩
    | ended hend => exact absurd hline hend
  | ended hend =>
    cases h' with
    | found hline => exact absurd hline hend
    | line hline => exact absurd hline hend
    | ended => exact ⟨rfl, rfl⟩

/-! ## The header of a part -/

def After (src src' : Source) : Prop := ∃ n ≤ src.bytes.length, src' = src.skip n

theorem After.refl (src : Source) : After src src := ⟨0, Nat.zero_le _, by simp [Source.skip]⟩

theorem After.trans {src src' src'' : Source} (h : After src src') (h' : After src' src'') :
    After src src'' := by
  obtain ⟨n, hn, rfl⟩ := h
  obtain ⟨m, hm, rfl⟩ := h'
  refine ⟨n + m, ?_, source_skip_skip _ _ _⟩
  simp only [Source.skip, List.length_drop] at hm
  omega

section
variable {limit rall : ℕ} {rq : Request} {src : Source} {buf : List Byte}

variable {b : Str} (hb : (13 : Byte) ∉ b) (hsize : (nlBoundary b).length + 1 ≤ BUFSZ)
include hb hsize

end

/-! ## One extent -/

theorem PartTaken.unique {a : Byte} {d : Str} {size : ℕ} {accepts : ℕ → Bool} {total : ℕ}
    {s : List Byte} {n n' : ℕ} {complete complete' : Bool}
    (h : PartTaken (a :: d) size accepts total s n complete)
    (h' : PartTaken (a :: d) size accepts total s n' complete') :
    n = n' ∧ complete = complete' := by
  induction h generalizing n' complete' with
  | delimited hno hfirst =>
    cases h' with
    | delimited _ hfirst' =>
      obtain ⟨rfl, -⟩ := hfirst.unique hfirst' (List.cons_ne_nil a d)
      exact ⟨rfl, rfl⟩
    | ended _ habsent => exact absurd hfirst.occurs habsent
    | refused hk => exact absurd hk (hno _)
    | chunk hk => exact absurd hk (hno _)
  | ended hno habsent =>
    cases h' with
    | delimited _ hfirst => exact absurd hfirst.occurs habsent
    | ended => exact ⟨rfl, rfl⟩
    | refused hk => exact absurd hk (hno _)
    | chunk hk => exact absurd hk (hno _)
  | refused hk hrefused =>
    cases h' with
    | delimited hno => exact absurd hk (hno _)
    | ended hno => exact absurd hk (hno _)
    | refused hk' => exact ⟨hk.unique hk', rfl⟩
    | chunk hk' haccepted =>
      obtain rfl := hk.unique hk'
      rw [hrefused] at haccepted
      cases haccepted
  | chunk hk haccepted _ ih =>
    cases h' with
    | delimited hno => exact absurd hk (hno _)
    | ended hno => exact absurd hk (hno _)
    | refused hk' hrefused =>
      obtain rfl := hk.unique hk'
      rw [hrefused] at haccepted
      cases haccepted
    | chunk hk' _ hrest =>
      obtain rfl := hk.unique hk'
      obtain ⟨rfl, rfl⟩ := ih hrest
      exact ⟨rfl, rfl⟩

/-- A part is read in one way. -/
theorem partOf_taken_unique {limit : ℕ} {b : Str} {file : TmpFile} {src : Source} {m m' : ℕ}
    {accepts accepts' : ℕ → Bool} {stored stored' complete complete' : Bool}
    (hp : (headerLoad src).1.bind (partOf limit (nlBoundary b) file) = some (accepts, stored))
    (hp' : (headerLoad src).1.bind (partOf limit (nlBoundary b) file) = some (accepts', stored'))
    (ht : PartTaken (nlBoundary b) BUFSZ accepts 0 (src.skip (headerTaken src)).bytes m complete)
    (ht' : PartTaken (nlBoundary b) BUFSZ accepts' 0 (src.skip (headerTaken src)).bytes m'
      complete') :
    m = m' ∧ (complete && stored) = (complete' && stored') := by
  obtain ⟨rfl, rfl⟩ := Prod.mk.inj (Option.some.inj (hp.symm.trans hp'))
  obtain ⟨rfl, rfl⟩ := PartTaken.unique ht ht'
  exact ⟨rfl, rfl⟩

theorem PartsTaken.unique {limit rall : ℕ} {b : Str} {tmp : ℕ → TmpFile} {i : ℕ} {src : Source}
    {n n' : ℕ} (h : PartsTaken limit rall (nlBoundary b) tmp i src n)
    (h' : PartsTaken limit rall (nlBoundary b) tmp i src n') : n = n' := by
  have hdashes : (bytes "--").length = 2 := rfl
  induction h generalizing n' with
  | header hpart =>
    cases h' with
    | header => rfl
    | broken hpart' => cases hpart.symm.trans hpart'
    | short hpart' => cases hpart.symm.trans hpart'
    | closed hpart' => cases hpart.symm.trans hpart'
    | next hpart' => cases hpart.symm.trans hpart'
  | broken hpart htaken hbroken =>
    cases h' with
    | header hpart' => cases hpart'.symm.trans hpart
    | broken hpart' htaken' => rw [(partOf_taken_unique hpart hpart' htaken htaken').1]
    | short hpart' htaken' =>
      exact absurd (hbroken.symm.trans (partOf_taken_unique hpart hpart' htaken htaken').2) Bool.noConfusion
    | closed hpart' htaken' =>
      exact absurd (hbroken.symm.trans (partOf_taken_unique hpart hpart' htaken htaken').2) Bool.noConfusion
    | next hpart' htaken' =>
      exact absurd (hbroken.symm.trans (partOf_taken_unique hpart hpart' htaken htaken').2) Bool.noConfusion
  | short hpart htaken hshort =>
    cases h' with
    | header hpart' => cases hpart'.symm.trans hpart
    | broken hpart' htaken' hbroken =>
      exact absurd (hbroken.symm.trans (partOf_taken_unique hpart' hpart htaken' htaken).2) Bool.noConfusion
    | short => rfl
    | closed hpart' htaken' hclosed =>
      obtain ⟨rfl, -⟩ := partOf_taken_unique hpart hpart' htaken htaken'
      rw [hclosed, List.length_append, hdashes] at hshort
      omega
    | next hpart' htaken' hmore =>
      obtain ⟨rfl, -⟩ := partOf_taken_unique hpart hpart' htaken htaken'
      omega
  | closed hpart htaken hclosed =>
    cases h' with
    | header hpart' => cases hpart'.symm.trans hpart
    | broken hpart' htaken' hbroken =>
      exact absurd (hbroken.symm.trans (partOf_taken_unique hpart' hpart htaken' htaken).2) Bool.noConfusion
    | short hpart' htaken' hshort =>
      obtain ⟨rfl, -⟩ := partOf_taken_unique hpart hpart' htaken htaken'
      rw [hclosed, List.length_append, hdashes] at hshort
      omega
    | closed hpart' htaken' hclosed' =>
      obtain ⟨rfl, -⟩ := partOf_taken_unique hpart hpart' htaken htaken'
      rw [List.append_cancel_left (hclosed.symm.trans hclosed')]
    | next hpart' htaken' _ hopen =>
      obtain ⟨rfl, -⟩ := partOf_taken_unique hpart hpart' htaken htaken'
      exact absurd (hclosed ▸ List.take_left' hdashes) hopen
  | next hpart htaken hmore hopen _ ih =>
    cases h' with
    | header hpart' => cases hpart'.symm.trans hpart
    | broken hpart' htaken' hbroken =>
      exact absurd (hbroken.symm.trans (partOf_taken_unique hpart' hpart htaken' htaken).2) Bool.noConfusion
    | short hpart' htaken' hshort =>
      obtain ⟨rfl, -⟩ := partOf_taken_unique hpart hpart' htaken htaken'
      omega
    | closed hpart' htaken' hclosed =>
      obtain ⟨rfl, -⟩ := partOf_taken_unique hpart hpart' htaken htaken'
      exact absurd (hclosed ▸ List.take_left' hdashes) hopen
    | next hpart' htaken' _ _ hrest =>
      obtain ⟨rfl, -⟩ := partOf_taken_unique hpart hpart' htaken htaken'
      rw [ih hrest]

theorem BodyTaken.unique {limit rall : ℕ} {b : Str} {tmp : ℕ → TmpFile} {src : Source} {n n' : ℕ}
    (h : BodyTaken limit rall b tmp src n) (h' : BodyTaken limit rall b tmp src n') : n = n' := by
  cases h with
  | preamble hpreamble =>
    cases h' with
    | preamble hpreamble' => exact (hpreamble.unique hpreamble').1
    | long hpreamble' => exact absurd (hpreamble.unique hpreamble').2 Bool.noConfusion
    | parts hpreamble' => exact absurd (hpreamble.unique hpreamble').2 Bool.noConfusion
  | long hpreamble hlong =>
    cases h' with
    | preamble hpreamble' => exact absurd (hpreamble.unique hpreamble').2 Bool.noConfusion
    | long hpreamble' => exact (hpreamble.unique hpreamble').1
    | parts _ hshort => omega
  | parts hpreamble hshort hparts =>
    cases h' with
    | preamble hpreamble' => exact absurd (hpreamble.unique hpreamble').2 Bool.noConfusion
    | long _ hlong => omega
    | parts hpreamble' _ hparts' =>
      obtain ⟨rfl, -⟩ := hpreamble.unique hpreamble'
      rw [hparts.unique hparts']

/-! ## The limit -/

end Klone.Multipart
