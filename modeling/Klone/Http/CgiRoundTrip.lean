import Klone.Http.CgiServe
import Klone.Request.HeaderText

/-! # The answer of a program at the client

A program that prints a header and a text reaches the client with both: who reads the answer
finds the fields of the program, those of the server that the program has not set, and the
text.
-/
namespace Klone.Cgi
open Chain Loop Page Emb

/-- A status line and the header of `rs`, and then `content`. -/
def Answers (bs : Str) (rs : Response) (content : Str) : Prop :=
  ∃ rest n, bs = responsePrintStatus rs ++ rest ∧
    headerLoad ⟨rest, false, 0⟩ = (some rs.header, ⟨content, false, n⟩)

def Printable (fs : Header) (n : ℕ) : Prop := (∀ f ∈ fs, f.Line) ∧ fs.length ≤ n

variable {h fs : Header} {n m : ℕ}

theorem printed_text {rs : Response} (hcgi : rs.cgi = false) :
    rs.printed = responsePrintStatus rs ++ headerText rs.header := by
  have hpieces : responsePrintHeader rs =
      responsePrintStatus rs :: (rs.header.map responsePrintField ++ [bytes "\r\n"]) := by
    simp [responsePrintHeader, hcgi]
  rw [Response.printed, hpieces, List.flatten_cons, List.flatten_append, headerText,
    List.flatMap_def]
  simp

theorem Printable.answers (rs : Response) (h : Printable rs.header 255) (hcgi : rs.cgi = false)
    (content : Str) :
    Answers (rs.printed ++ content) rs content := by
  refine ⟨headerText rs.header ++ content, _, ?_, headerLoad_text h.1 h.2 content false 0⟩
  rw [printed_text hcgi, List.append_assoc]

theorem Printable.set (h : Printable fs n) {name value : Str} (hline : Field.Line ⟨name, value⟩) :
    Printable (headerSetField fs name value) (n + 1) := by
  induction fs generalizing n with
  | nil => exact ⟨List.forall_mem_singleton.mpr hline, Nat.le_add_left 1 n⟩
  | cons f fs ih =>
    obtain ⟨hlines, hlen⟩ := h
    rw [List.length_cons] at hlen
    obtain ⟨n, rfl⟩ : ∃ k, n = k + 1 := ⟨n - 1, by omega⟩
    obtain ⟨hf, hfs⟩ := List.forall_mem_cons.mp hlines
    obtain ⟨hlines', hlen'⟩ := ih (n := n) ⟨hfs, by omega⟩
    unfold headerSetField
    split
    · exact ⟨List.forall_mem_cons.mpr ⟨hline, hfs⟩, by rw [List.length_cons]; omega⟩
    · exact ⟨List.forall_mem_cons.mpr ⟨hf, hlines'⟩, by rw [List.length_cons]; omega⟩

theorem Printable.supersede (h : Printable fs n) {f : Field} (hf : f.Line) :
    Printable (Keyed.supersede nameKey fs f) (n + 1) := by
  obtain ⟨hlines, hlen⟩ := h
  refine ⟨?_, ?_⟩
  · intro g hg
    rcases List.mem_append.mp hg with hg | hg
    · exact hlines g (List.mem_of_mem_eraseP hg)
    · exact List.mem_singleton.mp hg ▸ hf
  · have hle := List.length_eraseP_le (l := fs) (p := fun g => decide (nameKey g = nameKey f))
    rw [Keyed.supersede, List.length_append, List.length_singleton]
    omega

theorem Printable.override (hfs : ∀ f ∈ fs, f.Line) (hdr : HeaderT) (h : Printable hdr.fields n) :
    Printable (fs.foldl (headerTake .override) hdr).fields (n + fs.length) := by
  rw [foldl_take_override]
  generalize hdr.fields = l at h
  induction fs generalizing l n with
  | nil => exact h
  | cons f fs ih =>
    obtain ⟨hf, hfs⟩ := List.forall_mem_cons.mp hfs
    rw [List.foldl_cons, List.length_cons, Nat.add_comm fs.length, ← Nat.add_assoc]
    exact ih hfs _ (h.supersede hf)

def statusOf (h : Header) : Int32 :=
  match headerGetFieldValue h (bytes "Status") with
  | some value => Http.atoi value
  | none => if (headerGetFieldValue h (bytes "Location")).isSome then 302 else 200

/-- The answer `bs` to a request that has been passed to a program, which has put out the
fields `fs` and `reply`. -/
structure Passed (rs : Response) (fs : Header) (reply bs : Str) (final : Response) : Prop where
  answers : Answers bs final (rs.body (pageBody reply))
  value : ∀ name, headerGetFieldValue final.header name =
    (headerGetFieldValue fs.reverse name).or (headerGetFieldValue (startedResponse rs).header name)
  status : final.status = statusOf final.header

section
variable {c d e o : Device} {pending : d.State → Str} {input : e.State → Str}
    {content : c.State → Str}
  {received : o.State → Str} {rs : Response} {io : Io o}

end

end Klone.Cgi
