import Klone.Kloned.LogAdd
import Klone.Kloned.WatchedFds

/-! # The loop of the parent

The parent selects, serves the descriptors that are ready one after the other, and selects
again. What a child writes comes through a pair of stream sockets: a write puts all its bytes
there, and a read takes what is there, up to its size, and waits where there is nothing.
Between two system calls of a process the others may do any number of theirs. How many
children there may be is not looked at here: a fork may fail at any time. No descriptor is
beyond those that fit in a set. A connection that select has reported is accepted without
waiting, and the commands that do not log are answered without waiting. The children are those of the
parent; what a dying child forks itself for another backend writes to that child.

A child that is forked in the middle of a round has a copy of it. When it has served, it goes
through the rest of its copy before it exits, and there it has the parent's ends of all the
channels that were open.
-/
namespace Klone.Daemon
open Klone.Ppc
open Klone.Kloned (FdSets serverWatchFd watchFdRead Highest InSetsize)

/-- Where a process is in `server_loop`: at its head, at a descriptor with `rc` more to find,
in `ppc_read` between the header of a message and the rest, or serving a page itself. -/
inductive Phase
  | top
  | scan (rc : ℕ) (fd : ℤ)
  | read (rc : ℕ) (fd : ℤ) (cmd : Byte) (size : ℕ)
  | serve (rc : ℕ) (fd : ℤ)
  | crashed

/-- What a process has of the loop, with its ends of the channels. What the last select has
reported is `ready`, and of these `served` have been dispatched. -/
structure LoopState where
  fds : FdSets
  chan : ℤ → Option ℕ
  phase : Phase
  ready : Finset ℤ
  served : List ℤ

/-- A child: the bytes on their way to the parent, the message of which only the header has
been written, with the rest of it, the calls whose messages it has written, and its copy of
the round in which it was forked. -/
structure Child where
  be : Backend
  wire : List Byte
  pending : Option (Call × List Byte)
  said : List Call
  gone : Bool
  round : Option LoopState

/-- The parent, the children, and all the calls of `klog`. -/
structure World extends LoopState where
  kids : List Child
  log : List (Device × Entry)

def World.go (w : World) (phase : Phase) : World := { w with phase := phase }

def World.setKid (w : World) (c : ℕ) (kid : Child) : World := { w with kids := w.kids.set c kid }

def World.append (w : World) (entry : Option (Device × Entry)) : World :=
  { w with log := w.log ++ entry.toList }

def serverListen (s : Server) : FdSets :=
  s.bes.foldl (fun fds be => if be.model ≠ .prefork then serverWatchFd fds be.ld watchFdRead
    else fds) FdSets.init

def start (s : Server) : World := ⟨⟨serverListen s, fun _ => none, .top, ∅, []⟩, [], []⟩

def Server.listener (s : Server) (fd : ℤ) : Option Backend := s.bes.find? fun be => be.ld = fd

def serverCloseFd (w : World) (fd : ℤ) : World :=
  { w with fds := Kloned.serverCloseFd w.fds fd, chan := Function.update w.chan fd none }

/-- What a child has when it is forked before the descriptor `fd` of a round. -/
def World.roundAt (w : World) (rc : ℕ) (fd : ℤ) : LoopState :=
  { w.toLoopState with phase := .scan rc fd }

def World.forked (w : World) (be : Backend) (round : Option LoopState) (fd : ℤ) : World :=
  { w with
    fds := serverWatchFd w.fds fd watchFdRead
    chan := Function.update w.chan fd (some w.kids.length)
    kids := w.kids ++ [⟨be, [], none, [], false, round⟩] }

section
variable (s : Server) (listen : ℤ → Option Backend)

/-- The fork fails or gives the process this end of a new channel, which no other file has. -/
def serverForkChild (w : World) (be : Backend) (round : Option LoopState) : Option ℤ → Option World
  | none => some w
  | some fd =>
    if InSetsize fd ∧ w.chan fd = none ∧ listen fd = none then some (w.forked be round fd)
    else none

/-- `server_ppc_cb_fork_child`, where the request is for one. -/
def forkRequested (w : World) (round : Option LoopState) (cmd : Byte) (data : List Byte)
    (socks : Option ℤ) : Option World :=
  if cmd = PPC_CMD_FORK_CHILD then
    match serverGetBackendById s (recordBid data) with
    | none => some w
    | some be => serverForkChild listen w be round socks
  else some w

end

/-! ## Reading

`none` where the read waits.
-/

section
variable (s : Server) (listen : ℤ → Option Backend) (m : Frame PPC_MAX_DATA_SIZE) (w : World)

def readHeader (rc : ℕ) (fd : ℤ) : Option World :=
  match w.chan fd with
  | none => some ((serverCloseFd w fd).go (.scan rc (fd + 1)))
  | some c => w.kids[c]?.bind fun kid =>
    if kid.wire = [] then
      if kid.gone then some ((serverCloseFd w fd).go (.scan rc (fd + 1))) else none
    else
      let got := kid.wire.take headerSize
      let h := store m.header got
      let w := w.setKid c { kid with wire := kid.wire.drop got.length }
      if PPC_MAX_DATA_SIZE < hSize h then some ((serverCloseFd w fd).go (.scan rc (fd + 1)))
      else some (w.go (.read rc fd (headerCmd h) (hSize h)))

def readData (rc : ℕ) (fd : ℤ) (cmd : Byte) (size : ℕ) (socks : Option ℤ) : Option World :=
  match w.chan fd with
  | none => some ((serverCloseFd w fd).go (.scan rc (fd + 1)))
  | some c => w.kids[c]?.bind fun kid =>
    let got := kid.wire.take size
    if got = [] then
      if size = 0 ∨ kid.gone then some ((serverCloseFd w fd).go (.scan rc (fd + 1))) else none
    else
      let data := store m.buf got
      let w := w.setKid c { kid with wire := kid.wire.drop got.length }
      match ppcDispatch s cmd data with
      | none => some (w.go .crashed)
      | some entry =>
        (forkRequested s listen (w.append entry) (some (w.roundAt rc (fd + 1))) cmd data socks).map
          (World.go · (.scan rc (fd + 1)))

/-- A connection is served in a child, or by the process itself. -/
def serverDispatch (rc : ℕ) (fd : ℤ) (socks : Option ℤ) : Option World :=
  match listen fd with
  | none => readHeader m w rc fd
  | some be =>
    if be.model = .fork then
      (serverForkChild listen w be (some (w.roundAt rc (fd + 1))) socks).map
        (World.go · (.scan rc (fd + 1)))
    else some (w.go (.serve rc fd))

def turn (socks : Option ℤ) : Option World :=
  match w.phase with
  | .scan rc fd =>
    if rc = 0 ∨ w.fds.hfd < fd then some (w.go .top)
    else if fd ∈ w.ready then serverDispatch listen m { w with
      served := w.served ++ [fd] } (rc - 1) fd socks
    else some (w.go (.scan rc (fd + 1)))
  | .read rc fd cmd size => readData s listen m w rc fd cmd size socks
  | _ => none

end

/-- A child that is still there, and whether it is in the middle of a message. -/
def World.child (w : World) (c : ℕ) (writing : Bool) : Option Child :=
  w.kids[c]?.filter fun kid => !kid.gone && kid.pending.isSome == writing

/-- The round is over for a child, which exits then. -/
def Phase.over : Phase → Bool
  | .top => true
  | .crashed => true
  | _ => false

/-- What a child has done in its copy of the round. -/
def World.back (w : World) (c : ℕ) (w' : World) : World :=
  { w' with
    toLoopState := w.toLoopState
    kids := w'.kids.modify c fun kid => { kid with
      gone := w'.phase.over, round := some w'.toLoopState } }

/-- In a child nobody listens at the descriptors that are left: it has closed the sockets of the
other backends and forgotten them. -/
def childTurn (s : Server) (m : Frame PPC_MAX_DATA_SIZE) (w : World) (c : ℕ) (socks : Option ℤ) :
    Option World :=
  (w.child c false).bind fun kid => kid.round.bind fun round =>
    (turn s (fun _ => none) m { w with toLoopState := round } socks).map (w.back c)

/-! ## Runs -/

/-- What can happen. The parent selects, forks at the head of its loop, goes on in it, is done
with a page, or logs something itself; a child begins a call, writes the rest of its message,
has its alarm go off before it has, goes on in its copy of a round, or exits. -/
inductive Event
  | select (ready : Finset ℤ)
  | spawn (k : ℕ) (socks : Option ℤ)
  | turn (socks : Option ℤ)
  | served
  | ownHook (level : BitVec 32) (str : Str)
  | ownAccess (k n : ℕ) (buf : Str)
  | begin (c : ℕ) (call : Call)
  | finish (c : ℕ)
  | alarm (c : ℕ)
  | childTurn (c : ℕ) (socks : Option ℤ)
  | exit (c : ℕ)

def World.readable (w : World) (fd : ℤ) : Bool :=
  match (w.chan fd).bind fun c => w.kids[c]? with
  | none => true
  | some kid => decide (kid.wire ≠ []) || kid.gone

def select (w : World) (ready : Finset ℤ) : Option World :=
  match w.phase with
  | .top =>
    if ready ⊆ w.fds.rdfds ∧ ∀ fd ∈ ready, w.readable fd = true then
      some { w with phase := .scan ready.card 0, ready := ready, served := [] }
    else none
  | _ => none

def spawn (s : Server) (w : World) (k : ℕ) (socks : Option ℤ) : Option World :=
  match w.phase, s.bes[k]? with
  | .top, some be => if be.model = .prefork then serverForkChild s.listener w be none socks else none
  | _, _ => none

def pageServed (w : World) : Option World :=
  match w.phase with
  | .serve rc fd => some (w.go (.scan rc (fd + 1)))
  | _ => none

def own (w : World) : Logged → Option World
  | .done entry => some (w.append entry)
  | _ => some (w.go .crashed)

def begin (s : Server) (w : World) (c : ℕ) (kid : Child) (call : Call) : World :=
  match childCall s kid.be call with
  | .done entry => w.append entry
  | .message cmd data => w.setKid c { kid with
    wire := kid.wire ++ header cmd data.length, pending := some (call, data) }
  | .faults => w.setKid c { kid with gone := true }

def finish (w : World) (c : ℕ) (kid : Child) : World :=
  match kid.pending with
  | none => w
  | some (call, data) => w.setKid c { kid with
    wire := kid.wire ++ data, pending := none, said := kid.said ++ [call] }

/-- `server_cb_spawn_child` asks for another child from the handler of a signal, which may come
between the two writes of a message. -/
def alarm (w : World) (c : ℕ) (kid : Child) : Option World :=
  if kid.be.model = .prefork then
    some (w.setKid c { kid with
      wire := kid.wire ++ header PPC_CMD_FORK_CHILD 4 ++ leBytes 4 kid.be.id.toNat })
  else none

def step (s : Server) (m : Frame PPC_MAX_DATA_SIZE) (w : World) : Event → Option World
  | .select ready => select w ready
  | .spawn k socks => spawn s w k socks
  | .turn socks => turn s s.listener m w socks
  | .served => pageServed w
  | .ownHook level str => own w (serverLogHook s none level str)
  | .ownAccess k n buf => s.bes[k]?.bind fun be => own w (accessLog s true be n buf)
  | .begin c call => (w.child c false).map fun kid => begin s w c kid call
  | .finish c => (w.child c true).map (finish w c)
  | .alarm c => (w.child c true).bind (alarm w c)
  | .childTurn c socks => childTurn s m w c socks
  | .exit c => w.kids[c]?.map fun kid => w.setKid c { kid with gone := true }

/-- An event that cannot happen leaves everything as it is. -/
def run (s : Server) (m : Frame PPC_MAX_DATA_SIZE) (es : List Event) : World :=
  es.foldl (fun w e => (step s m w e).getD w) (start s)

/-! ## Forks and alarms in the middle of something -/

/-- No channel is left behind the descriptor that is being served. -/
def World.Last (w : World) : Phase → Prop
  | .scan _ fd => ∀ x ∈ w.ready, fd < x → w.chan x = none
  | .read _ fd _ _ => ∀ x ∈ w.ready, fd < x → w.chan x = none
  | _ => True

/-- Nobody else reads or writes: if the parent forks in a round, its child finds no channel in
the rest of it, and an alarm finds no child between the two writes of a message. -/
def Unshared (w : World) : Event → Prop
  | .turn (some _) => w.Last w.phase
  | .alarm c => (w.child c true).isNone = true
  | _ => True

def UnsharedRun (s : Server) (m : Frame PPC_MAX_DATA_SIZE) : World → List Event → Prop
  | _, [] => True
  | w, e :: es => Unshared w e ∧ UnsharedRun s m ((step s m w e).getD w) es

instance (w : World) : DecidablePred w.Last
  | .scan _ fd => inferInstanceAs (Decidable (∀ x ∈ w.ready, fd < x → w.chan x = none))
  | .read _ fd _ _ => inferInstanceAs (Decidable (∀ x ∈ w.ready, fd < x → w.chan x = none))
  | .top => .isTrue trivial
  | .serve _ _ => .isTrue trivial
  | .crashed => .isTrue trivial

instance (w : World) : DecidablePred (Unshared w)
  | .turn (some _) => inferInstanceAs (Decidable (w.Last w.phase))
  | .turn none => .isTrue trivial
  | .select _ => .isTrue trivial
  | .spawn _ _ => .isTrue trivial
  | .served => .isTrue trivial
  | .ownHook _ _ => .isTrue trivial
  | .ownAccess _ _ _ => .isTrue trivial
  | .begin _ _ => .isTrue trivial
  | .finish _ => .isTrue trivial
  | .alarm c => inferInstanceAs (Decidable ((w.child c true).isNone = true))
  | .childTurn _ _ => .isTrue trivial
  | .exit _ => .isTrue trivial

instance decidableUnsharedRun (s : Server) (m : Frame PPC_MAX_DATA_SIZE) :
    ∀ (w : World) (es : List Event), Decidable (UnsharedRun s m w es)
  | _, [] => .isTrue trivial
  | w, e :: es =>
    have := decidableUnsharedRun s m ((step s m w e).getD w) es
    inferInstanceAs (Decidable (Unshared w e ∧ UnsharedRun s m ((step s m w e).getD w) es))

end Klone.Daemon
