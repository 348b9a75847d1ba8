import Klone.Io.Source

/-! # Header fields and their loading from a stream -/
namespace Klone

structure Field where
  name : Str
  value : Str
  deriving DecidableEq, Repr

abbrev Header := List Field

def headerGetField (h : Header) (name : Str) : Option Field :=
  h.find? (fun f => strcasecmpEq f.name name)

def headerGetFieldValue (h : Header) (name : Str) : Option Str :=
  (headerGetField h name).map (·.value)

/-- Name and value of a `name: value` line; the line is seen as a C string. -/
def fieldSetFromLine (ln : Str) : Option Field :=
  match (cstr ln).span (· ≠ 58) with
  | (_, []) => none
  | (name, _ :: rest) => some ⟨name, rest.dropWhile isblank⟩

/-- Mode `HLM_ADD`; a line that is not a field is dropped. -/
def headerProcessLine (h : Header) (line : Str) : Header :=
  if line = [] then h
  else match fieldSetFromLine line with
    | none => h
    | some f => h ++ [f]

structure LineResult where
  ok : Bool
  line : Str
  src : Source
  deriving DecidableEq, Repr

/-- `u_getline` fetches pieces of at most 1023 bytes and drops the last byte of each. -/
def getlineLoop : ℕ → Source → Str → LineResult
  | 0, src, ln => ⟨false, ln, src⟩
  | fuel + 1, src, ln =>
    let r := ioGets src 1024
    match r.rc with
    | none => ⟨false, ln, r.src⟩
    | some 0 => ⟨false, ln, r.src⟩
    | some (len + 1) =>
      if isnl (r.data.getD len 0) then ⟨true, ln ++ r.data.take len, r.src⟩
      else getlineLoop fuel r.src (ln ++ r.data.take len)

def uGetline (src : Source) : LineResult := getlineLoop (src.bytes.length + 1) src []

theorem uGetline_line {line : List Byte} (h : (10 : Byte) ∉ line) (rest : List Byte) (fails : Bool)
    (rtot : ℕ) (hlen : line.length ≤ 1022) :
    uGetline ⟨line ++ 10 :: rest, fails, rtot⟩ =
    ⟨true, line, ⟨rest, fails, rtot + (line.length + 1)⟩⟩ := by
  have hnl : isnl ((line ++ [10]).getD line.length 0) = true := by
    simp [List.getD_eq_getElem?_getD, isnl]
  rw [uGetline, getlineLoop, ioGets_line h rest fails rtot (by omega)]
  simp only [hnl, if_true, List.take_left, List.nil_append]

def stripNl (line : Str) : Str := line.rdropWhile isnl

def headerMaxFieldCount : ℕ := 256

/-- The loop of `header_load_ex`; its counter is the first argument. -/
def headerLoop : ℕ → Header → Source → Str → Option Header × Source
  | c, h, src, unfolded =>
    let r := uGetline src
    if r.ok = false then (some (headerProcessLine h unfolded), r.src)
    else match c with
      | 0 => (none, r.src)
      | c + 1 =>
        match stripNl r.line with
        | [] => (some (headerProcessLine h unfolded), r.src)
        | b :: line =>
          if isblank b then headerLoop c h r.src (unfolded ++ b :: line)
          else headerLoop c (headerProcessLine h unfolded) r.src (b :: line)

def headerLoad (src : Source) : Option Header × Source := headerLoop headerMaxFieldCount [] src []

def matchContentType (h : Header) (mime : Str) : Bool :=
  match headerGetFieldValue h (bytes "Content-Type") with
  | none => false
  | some ct => startsWithCase ct mime

end Klone
