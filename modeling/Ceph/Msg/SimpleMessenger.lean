/-
# Two ranks of the SimpleMessenger

`msg/SimpleMessenger.cc`. Each rank has pipes to the other one; `rank_pipe` names
the one that messages are sent to. A pipe has a reader and a writer thread, which
share it under its lock; what a thread does between taking and giving back the lock
is one step, and so is each of its reads and writes in between. The writer
connects and the peer's accepter answers; which of two connections stays is decided
by `connect_seq` and, while both connect, by the addresses.

A socket carries a stream of frames each way. It may fail at any point: a read that
fails loses what was not read yet, and after a write that fails nothing more
arrives. A write may be reported to have failed although it arrives, as
`do_sendmsg` gives up after it when the pipe was closed meanwhile.

The deliberate ends, `mark_down` and `dirty_close`, are not here.
-/
import Mathlib.Algebra.Group.Nat.Defs
import Mathlib.Data.List.Basic
import Ceph.Lib.Run

namespace Ceph
namespace Messenger

/-! ### State -/

/-- The rank with the lower address, and the other one. -/
inductive Side
  | low
  | high
  deriving DecidableEq

inductive PipeState
  | accepting
  | connecting
  | opened
  | standby
  | closed
  deriving DecidableEq

/-- What is read and written at once: `hello` is the address of the connecting rank
and its `connect_seq`. -/
inductive Frame (M : Type)
  | hello (cseq : ℕ)
  | tag (ready : Bool) (seq : ℕ)
  | ack (seq : ℕ)
  | msg (seq : ℕ) (m : M)
  deriving DecidableEq

/-- The frames on the way; nothing more arrives if it is `dead`. -/
structure Stream (M : Type) where
  frames : List (Frame M)
  dead : Bool

/-- A connection made by pipe `owner` of rank `side`; `peer` is the pipe that accepted it. -/
structure Sock (M : Type) where
  side : Side
  owner : ℕ
  peer : Option ℕ
  fwd : Stream M
  bwd : Stream M

/-- Where the writer thread is. -/
inductive Writer (M : Type)
  | off
  | loop
  | dial (cseq : ℕ)
  | wait (sock : ℕ)
  | acking (seq : ℕ)
  | acked (seq : ℕ)
  | sending (seq : ℕ) (m : M)
  | done
  deriving DecidableEq

/-- The thread does not run, or no more. -/
def Writer.ended {M : Type} : Writer M → Bool
  | .off => true
  | .done => true
  | _ => false

/-- Where the reader thread is. -/
inductive Reader (M : Type)
  | off
  | loop
  | reading
  | got (f : Frame M)
  | queueing (m : M)
  | done
  deriving DecidableEq

def Reader.ended {M : Type} : Reader M → Bool
  | .off => true
  | .done => true
  | _ => false

/-- `Rank::Pipe`; `firstFault` is whether `first_fault` is set. -/
structure Pipe (M : Type) where
  state : PipeState
  sd : Option ℕ
  q : List M
  sent : List (ℕ × M)
  connectSeq : ℕ
  outSeq : ℕ
  inSeq : ℕ
  inSeqAcked : ℕ
  firstFault : Bool
  writer : Writer M
  reader : Reader M

/-- The assertions that can fail: of the reader, and the one behind `WTF`. -/
inductive Assert
  | seq
  | wtf
  deriving DecidableEq

/-- A rank. `log` is what was submitted for the peer, `queue` what was queued for
dispatch; `resets` and `remoteResets` are the messages that `report_failures` dropped
each time that a pipe gave up, and that a remote reset was concluded. `submitting` is
a message that a pipe was made for. -/
structure Rank (M : Type) where
  pipes : List (Pipe M)
  rankPipe : Option ℕ
  submitting : Option (ℕ × M)
  log : List M
  queue : List M
  resets : List (List M)
  remoteResets : List (List M)
  asserts : List Assert

structure Net (M : Type) where
  rank : Side → Rank M
  socks : List (Sock M)

variable {M : Type}

def Net.init : Net M := ⟨fun _ => ⟨[], none, none, [], [], [], [], []⟩, []⟩

/-- A `__u32`. -/
def u32 (k : ℕ) : ℕ := k % 2 ^ 32

/-- A new `Pipe(state)`. -/
def Pipe.new (state : PipeState) : Pipe M := ⟨state, none, [], [], 0, 0, 0, 0, false, .off, .off⟩

def Stream.write (f : Frame M) (t : Stream M) : Stream M := if t.dead then t else { t with frames := t.frames ++ [f] }

def Stream.kill (t : Stream M) : Stream M := { t with dead := true }

/-- A read that fails. -/
def Stream.lose (_ : Stream M) : Stream M := ⟨[], true⟩

def Stream.tail (t : Stream M) : Stream M := { t with frames := t.frames.tail }

namespace Net

def setRank (s : Net M) (i : Side) (r : Rank M) : Net M := { s with rank := Function.update s.rank i r }

def pipe (s : Net M) (i : Side) (p : ℕ) : Option (Pipe M) := (s.rank i).pipes[p]?

def setPipe (s : Net M) (i : Side) (p : ℕ) (x : Pipe M) : Net M :=
  s.setRank i { s.rank i with pipes := (s.rank i).pipes.set p x }

def modSock (s : Net M) (k : ℕ) (f : Sock M → Sock M) : Net M := { s with socks := s.socks.modify k f }

end Net

/-- The stream that side `i` reads. -/
def Sock.inbound (c : Sock M) (i : Side) : Stream M := if i = c.side then c.bwd else c.fwd

/-- The stream that side `i` reads is changed. -/
def Sock.modIn (i : Side) (f : Stream M → Stream M) (c : Sock M) : Sock M :=
  if i = c.side then { c with bwd := f c.bwd } else { c with fwd := f c.fwd }

/-- The stream that side `i` writes is changed. -/
def Sock.modOut (i : Side) (f : Stream M → Stream M) (c : Sock M) : Sock M :=
  if i = c.side then { c with fwd := f c.fwd } else { c with bwd := f c.bwd }

/-! ### Faults -/

/-- `fault(onconnect)`, for the pipe; `late` is whether the first fault was more than
`fail_interval` ago. -/
def Pipe.fault (p : Pipe M) (onconnect late : Bool) : Pipe M :=
  if p.state = .closed then p
  else if p.q = [] then { p with state := if onconnect then .closed else .standby, sd := none }
  else if p.state ≠ .connecting then
    { p with connectSeq := u32 (p.connectSeq + 1), state := .connecting, firstFault := true }
  else if p.firstFault = false then { p with firstFault := true }
  else if late then { p with state := .closed, sd := none, q := [], sent := [] }
  else p

/-- Whether `fault` calls `fail()`. -/
def Pipe.givesUp (p : Pipe M) (late : Bool) : Bool :=
  p.state = .connecting ∧ p.q ≠ [] ∧ p.firstFault ∧ late

/-- `sent` and `q`, which `report_failures` drops. -/
def Pipe.unsent (p : Pipe M) : List M := p.sent.map (·.2) ++ p.q

/-- `fault(onconnect)` of pipe `p`, which is `x`. `fail()` takes the rank's lock. -/
def fault (s : Net M) (i : Side) (p : ℕ) (x : Pipe M) (onconnect late : Bool) : Option (Net M) :=
  let r := s.rank i
  let pipes := r.pipes.set p (x.fault onconnect late)
  if x.givesUp late then
    if r.submitting.isNone then
      some (s.setRank i { r with
        pipes := pipes
        rankPipe := if r.rankPipe = some p then none else r.rankPipe
        resets := r.resets ++ [x.unsent] })
    else none
  else some (s.setRank i { r with pipes := pipes })

/-! ### Submitting -/

/-- `connect_rank`: a pipe that connects, registered. -/
def connectRank (r : Rank M) : Rank M :=
  { r with pipes := r.pipes ++ [{ Pipe.new .connecting with writer := .loop }], rankPipe := some r.pipes.length }

/-- The registered pipe, unless it is closed. -/
def Rank.havePipe (r : Rank M) : Option (ℕ × Pipe M) :=
  r.rankPipe.bind fun p => (r.pipes[p]?).bind fun x => if x.state = .closed then none else some (p, x)

/-- `submit_message`, under the rank's lock. If there is no pipe the message is queued
after one has been made, whose writer may have run by then. -/
def submit (s : Net M) (i : Side) (m : M) : Option (Net M) :=
  let r := s.rank i
  if r.submitting.isSome then none
  else
    some (s.setRank i (match r.havePipe with
      | some (p, x) => { r with log := r.log ++ [m], pipes := r.pipes.set p { x with q := x.q ++ [m] } }
      | none => { connectRank r with log := r.log ++ [m], submitting := some (r.pipes.length, m) }))

/-- The `send` to the new pipe. -/
def sendNew (s : Net M) (i : Side) : Option (Net M) :=
  let r := s.rank i
  r.submitting.bind fun (p, m) => (r.pipes[p]?).map fun x =>
    s.setRank i { r with submitting := none, pipes := r.pipes.set p { x with q := x.q ++ [m] } }

/-- `prepare_dest` -/
def prepareDest (s : Net M) (i : Side) : Option (Net M) :=
  let r := s.rank i
  if r.submitting.isSome then none
  else if r.rankPipe.isSome then some s
  else some (s.setRank i (connectRank r))

/-! ### The writer -/

/-- The first message of `q` is numbered, put in `sent` and then written. -/
def Pipe.grab (x : Pipe M) : Pipe M :=
  match x.q with
  | [] => { x with writer := .loop }
  | m :: q =>
    let seq := u32 (x.outSeq + 1)
    { x with q := q, outSeq := seq, sent := x.sent ++ [(seq, m)], writer := .sending seq m }

/-- A round of the writer's loop, up to where it gives back the lock. -/
def writerLoop (s : Net M) (i : Side) (p : ℕ) : Option (Net M) :=
  (s.pipe i p).bind fun x => match x.writer with
  | .loop =>
    if x.state = .closed then some (s.setPipe i p { x with writer := .done })
    else if x.state = .connecting ∨ (x.q ≠ [] ∧ x.state = .standby) then
      -- `connect()` closes the old socket
      some (s.setPipe i p { x with state := .connecting, sd := none, writer := .dial x.connectSeq })
    else if x.inSeqAcked < x.inSeq then some (s.setPipe i p { x with writer := .acking x.inSeq })
    else if x.q ≠ [] then some (s.setPipe i p x.grab)
    else none
  | _ => none

/-- `connect()` makes a socket and identifies itself. -/
def dial (s : Net M) (i : Side) (p : ℕ) (ok late : Bool) : Option (Net M) :=
  (s.pipe i p).bind fun x => match x.writer with
  | .dial cseq =>
    if ok then
      some { s.setPipe i p { x with writer := .wait s.socks.length } with
        socks := s.socks ++ [⟨i, p, none, ⟨[.hello cseq], false⟩, ⟨[], false⟩⟩] }
    else fault s i p { x with writer := .loop } false late
  | _ => none

/-- The end of `connect()`, when `READY` with the peer's `connect_seq` has come. -/
def finishConnect (s : Net M) (i : Side) (p : ℕ) (x : Pipe M) (k rseq : ℕ) : Net M :=
  let r := s.rank i
  let x := { x with
    state := .opened
    sd := some k
    connectSeq := u32 (x.connectSeq + 1)
    firstFault := false
    writer := .loop
    reader := match x.reader with
      | .off => .loop
      | e => e }
  if rseq = x.connectSeq then s.setPipe i p x
  else if rseq < x.connectSeq then
    -- REMOTE RESET
    s.setRank i { r with
      pipes := r.pipes.set p { x with connectSeq := rseq, q := [], sent := [], outSeq := 0, inSeq := 0 }
      remoteResets := r.remoteResets ++ [x.unsent] }
  else s.setRank i { r with pipes := r.pipes.set p x, asserts := r.asserts ++ [.wtf] }

/-- `connect()` reads the tag and finishes. -/
def readTag (s : Net M) (i : Side) (p : ℕ) (ok late : Bool) : Option (Net M) :=
  (s.pipe i p).bind fun x => match x.writer with
  | .wait k => (s.socks[k]?).bind fun c =>
    if ok then
      match c.bwd.frames with
      | .tag ready rseq :: _ =>
        let s := s.modSock k (Sock.modIn i Stream.tail)
        if x.state ≠ .connecting then fault s i p { x with writer := .loop } (!ready) late
        else if ready then some (finishConnect s i p x k rseq)
        else fault s i p { x with writer := .loop, connectSeq := rseq } true late
      | _ => none
    else fault (s.modSock k (Sock.modIn i Stream.lose)) i p { x with writer := .loop } false late
  | _ => none

/-- What is done to the stream when `f` is written. -/
def Stream.put (f : Frame M) (ok arrives : Bool) (t : Stream M) : Stream M :=
  let t := if ok ∨ arrives then t.write f else t
  if ok then t else t.kill

/-- `write_ack` and `write_message`. -/
def write (s : Net M) (i : Side) (p : ℕ) (ok arrives late : Bool) : Option (Net M) :=
  (s.pipe i p).bind fun x =>
    let go (f : Frame M) (next : Writer M) : Option (Net M) :=
      match x.sd with
      | none => if ok then none else fault s i p { x with writer := .loop } false late
      | some k =>
        let s := s.modSock k (Sock.modOut i (Stream.put f ok arrives))
        if ok then some (s.setPipe i p { x with writer := next }) else fault s i p { x with writer := .loop } false late
    match x.writer with
    | .acking seq => go (.ack seq) (.acked seq)
    | .sending seq m => go (.msg seq m) .loop
    | _ => none

/-- After an ack was written: the state is not looked at again before the next message
is grabbed. -/
def afterAck (s : Net M) (i : Side) (p : ℕ) : Option (Net M) :=
  (s.pipe i p).bind fun x => match x.writer with
  | .acked seq => some (s.setPipe i p { x with inSeqAcked := seq }.grab)
  | _ => none

/-! ### The reader -/

/-- A round of the reader's loop, up to where it gives back the lock. -/
def readerLoop (s : Net M) (i : Side) (p : ℕ) : Option (Net M) :=
  (s.pipe i p).bind fun x => match x.reader with
  | .loop =>
    if x.state = .closed then some (s.setPipe i p { x with reader := .done })
    else if x.state = .opened then some (s.setPipe i p { x with reader := .reading })
    else none
  | _ => none

/-- `tcp_read`s of one frame. -/
def read (s : Net M) (i : Side) (p : ℕ) (ok late : Bool) : Option (Net M) :=
  (s.pipe i p).bind fun x => match x.reader with
  | .reading =>
    if ok then
      x.sd.bind fun k => (s.socks[k]?).bind fun c => (c.inbound i).frames.head?.map fun f =>
        (s.modSock k (Sock.modIn i Stream.tail)).setPipe i p { x with reader := .got f }
    else
      let s := match x.sd with
        | none => s
        | some k => s.modSock k (Sock.modIn i Stream.lose)
      fault s i p { x with reader := .loop } false late
  | _ => none

/-- A frame is handled under the lock; a message is queued after that. -/
def handle (s : Net M) (i : Side) (p : ℕ) (late : Bool) : Option (Net M) :=
  (s.pipe i p).bind fun x => match x.reader with
  | .got (.ack seq) => some (s.setPipe i p { x with reader := .loop, sent := x.sent.dropWhile fun e => e.1 ≤ seq })
  | .got (.msg seq m) =>
    if seq ≤ x.inSeq then some (s.setPipe i p { x with reader := .loop })
    else
      let r := s.rank i
      let x := { x with reader := .queueing m, inSeq := u32 (x.inSeq + 1) }
      some (s.setRank i { r with
        pipes := r.pipes.set p x
        asserts := if x.inSeq = seq then r.asserts else r.asserts ++ [.seq] })
  | .got _ => fault s i p { x with reader := .loop } false late
  | _ => none

/-- `queue_message` -/
def queueMessage (s : Net M) (i : Side) (p : ℕ) : Option (Net M) :=
  (s.pipe i p).bind fun x => match x.reader with
  | .queueing m =>
    let r := s.rank i
    some (s.setRank i { r with pipes := r.pipes.set p { x with reader := .loop }, queue := r.queue ++ [m] })
  | _ => none

/-! ### Accepting -/

/-- Whether `accept` switches from the existing pipe to the new one. -/
def switches (i : Side) (cseq : ℕ) (other : Pipe M) : Bool :=
  (other.state = .connecting ∧ i = .high) ∨ (other.state = .opened ∧ cseq = other.connectSeq)

/-- The new pipe takes over what the existing one has not sent, or has sent without an
ack. -/
def Pipe.steal (x other : Pipe M) : Pipe M :=
  { x with
    outSeq := match other.sent with
      | [] => other.outSeq
      | e :: _ => e.1 - 1
    q := other.unsent }

/-- The registered pipe, whatever its state. -/
def Rank.existing (r : Rank M) : Option (ℕ × Pipe M) := r.rankPipe.bind fun p => (r.pipes[p]?).map fun x => (p, x)

/-- Whether the new pipe is registered, in place of what there is. -/
def Rank.takes (r : Rank M) (i : Side) (cseq : ℕ) : Bool :=
  match r.existing with
  | none => true
  | some (_, other) => switches i cseq other

/-- The pipes, the new one, and the `connect_seq` that is answered, after `accept` has
looked at the registered pipe. -/
def Rank.register (r : Rank M) (i : Side) (cseq : ℕ) (x : Pipe M) : List (Pipe M) × Pipe M × ℕ :=
  match r.existing with
  | none => (r.pipes, { x with state := .opened }, x.connectSeq)
  | some (o, other) =>
    if switches i cseq other then
      (r.pipes.set o { other with state := .closed, q := [], sent := [] }, { x.steal other with state := .opened },
        x.connectSeq)
    else (r.pipes, { x with state := .closed }, other.connectSeq)

/-- A new pipe for a connection: `accept()` up to where the loop of its reader starts.
The answer may not get out. -/
def accept (s : Net M) (i : Side) (k : ℕ) (ok late : Bool) : Option (Net M) :=
  let r := s.rank i
  (s.socks[k]?).bind fun c =>
    if i = c.side ∨ c.peer.isSome ∨ r.submitting.isSome then none
    else match c.fwd.frames with
    | .hello cseq :: _ =>
      let p := r.pipes.length
      let x : Pipe M := { Pipe.new .accepting with sd := some k, connectSeq := 1, reader := .loop }
      let res := r.register i cseq x
      let answer : Frame M := .tag (r.takes i cseq) res.2.2
      let x := if ok then res.2.1 else res.2.1.fault false late
      let x := { x with writer := if x.state = .closed then .off else .loop }
      let s := s.modSock k fun c => (c.modIn i Stream.tail).modOut i (Stream.put answer ok false)
      let s := s.modSock k fun c => { c with peer := some p }
      some (s.setRank i { r with
        pipes := res.1 ++ [x]
        rankPipe := if r.takes i cseq then some p else r.rankPipe })
    | _ => none

/-- The reaper unregisters a pipe whose threads have ended. -/
def reap (s : Net M) (i : Side) (p : ℕ) : Option (Net M) :=
  let r := s.rank i
  (s.pipe i p).bind fun x =>
    if r.submitting.isNone ∧ x.state = .closed ∧ x.writer.ended ∧ x.reader.ended then
      some (s.setRank i { r with rankPipe := if r.rankPipe = some p then none else r.rankPipe })
    else none

/-! ### Steps -/

inductive Act (M : Type)
  | submit (i : Side) (m : M)
  | sendNew (i : Side)
  | prepareDest (i : Side)
  | writerLoop (i : Side) (p : ℕ)
  | dial (i : Side) (p : ℕ) (ok late : Bool)
  | readTag (i : Side) (p : ℕ) (ok late : Bool)
  | write (i : Side) (p : ℕ) (ok arrives late : Bool)
  | afterAck (i : Side) (p : ℕ)
  | readerLoop (i : Side) (p : ℕ)
  | read (i : Side) (p : ℕ) (ok late : Bool)
  | handle (i : Side) (p : ℕ) (late : Bool)
  | queueMessage (i : Side) (p : ℕ)
  | accept (i : Side) (k : ℕ) (ok late : Bool)
  | reap (i : Side) (p : ℕ)

def step (s : Net M) : Act M → Option (Net M)
  | .submit i m => submit s i m
  | .sendNew i => sendNew s i
  | .prepareDest i => prepareDest s i
  | .writerLoop i p => writerLoop s i p
  | .dial i p ok late => dial s i p ok late
  | .readTag i p ok late => readTag s i p ok late
  | .write i p ok arrives late => write s i p ok arrives late
  | .afterAck i p => afterAck s i p
  | .readerLoop i p => readerLoop s i p
  | .read i p ok late => read s i p ok late
  | .handle i p late => handle s i p late
  | .queueMessage i p => queueMessage s i p
  | .accept i k ok late => accept s i k ok late
  | .reap i p => reap s i p

end Messenger
end Ceph
