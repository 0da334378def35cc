/-
# Simple locks

The lock of a part of an inode or of a dentry, on the MDS that has authority
over it and on those that have a replica. Readers share it, each on the MDS it
asked; an exclusive lock is granted by the authority alone, which first has the
replicas give up reading (`LOCK`) and gathers their acks. A request on a replica
asks for the exclusive lock with a slave request (`XLOCK`), and gives it back
with another (`UNXLOCK`).

A failed assertion is flagged (`failed`). The state that the lock guards,
freezing, migration and the loss of an MDS are not here. The waiters that a
change wakes, and the `simple_eval` after it, come as steps of their own, at any
time after.
-/
import Ceph.Lib.Links

namespace Ceph
namespace Mds

/-- Where an object is: the MDS with authority over it, and those with a replica. -/
structure Placement where
  auth : ℕ
  replicas : Finset ℕ
  auth_notMem : auth ∉ replicas

theorem Placement.ne_auth (p : Placement) {r : ℕ} (hr : r ∈ p.replicas) : r ≠ p.auth := by
  rintro rfl
  exact p.auth_notMem hr

/-- Whether the object is on `n`. -/
def Placement.On (p : Placement) (n : ℕ) : Prop := n = p.auth ∨ n ∈ p.replicas

theorem Placement.on_auth (p : Placement) : p.On p.auth := .inl rfl

/-- Whether messages go from `i` to `j`. -/
def Placement.Link (p : Placement) (i j : ℕ) : Prop := (i = p.auth ∧ j ∈ p.replicas) ∨ (i ∈ p.replicas ∧ j = p.auth)

instance (p : Placement) (n : ℕ) : Decidable (p.On n) := inferInstanceAs (Decidable (_ ∨ _))

namespace Simple

/-! ### The lock -/

inductive LState | sync | lock | glockr
deriving DecidableEq

/-- `is_stable`. -/
def LState.isStable : LState → Bool
  | .sync | .lock => true
  | .glockr => false

/-- `SimpleLock`. A request is the MDS that it came to and a number; `waitWr`: a
request waits for `WAIT_WR`. -/
structure Lock where
  state : LState
  gatherSet : Finset ℕ
  numRdlock : ℕ
  xlockBy : Option (ℕ × ℕ)
  waitWr : Bool

/-- The lock as made. -/
def fresh : Lock := ⟨.sync, ∅, 0, none, false⟩

/-- `can_rdlock`. -/
def Lock.canRdlock (l : Lock) : Bool := l.state = .sync

/-- `can_xlock`, with what it asserts. -/
def Lock.canXlock (l : Lock) (isAuth : Bool) (q : ℕ × ℕ) : Bool :=
  if l.xlockBy = some q then l.state = .lock else l.state = .lock && isAuth && l.xlockBy.isNone

/-! ### The MDSs -/

/-- `LOCK_AC_SYNC`, `LOCK_AC_LOCK`, `LOCK_AC_LOCKACK`. -/
inductive Action | sync | lock | lockack
deriving DecidableEq

/-- `OP_XLOCK`, `OP_XLOCKACK`, `OP_UNXLOCK`. -/
inductive Op | xlock | xlockack | unxlock
deriving DecidableEq

/-- `MLock` and `MMDSSlaveRequest`. -/
inductive Msg
  | mlock (action : Action)
  | slave (op : Op) (req : ℕ)
deriving DecidableEq

/-- The lock on each MDS, the messages in flight, the requests from replicas that
wait at the authority, and whether an assertion has failed. -/
structure State where
  locks : ℕ → Lock
  net : Links Msg
  slaves : Finset (ℕ × ℕ)
  failed : Bool

/-- `assert`. -/
def State.check (s : State) (b : Bool) : State := { s with failed := s.failed || !b }

/-- The lock of `n` changed. -/
def State.put (s : State) (n : ℕ) (l : Lock) : State := { s with locks := Function.update s.locks n l }

/-- `send_message_mds`. -/
def State.send (s : State) (i j : ℕ) (m : Msg) : State := { s with net := s.net.post i j m }

/-- `set_state`: nothing is gathered in a stable state. -/
def State.setState (s : State) (n : ℕ) (st : LState) : State :=
  (s.put n { s.locks n with state := st }).check (!st.isStable || decide ((s.locks n).gatherSet = ∅))

variable (p : Placement)

/-! ### Changes of state -/

/-- `simple_sync`. -/
def simpleSync (s : State) : State :=
  let s := s.check (s.locks p.auth).state.isStable
  if (s.locks p.auth).state = .sync then s
  else
    let s := s.check ((s.locks p.auth).state = .lock)
    let s := if p.replicas.Nonempty then { s with net := s.net.broadcast p.auth p.replicas (.mlock .sync) } else s
    s.setState p.auth .sync

/-- `simple_lock`: with no replicas the lock is in its new state at once. -/
def simpleLock (s : State) : State :=
  let s := s.check (s.locks p.auth).state.isStable
  if (s.locks p.auth).state = .lock then s
  else
    let s := s.check ((s.locks p.auth).state = .sync)
    if p.replicas.Nonempty then
      let s := { s with net := s.net.broadcast p.auth p.replicas (.mlock .lock) }
      let s := s.setState p.auth .glockr
      s.put p.auth { s.locks p.auth with gatherSet := (s.locks p.auth).gatherSet ∪ p.replicas }
    else s.setState p.auth .lock

/-- `simple_eval`. -/
def simpleEval (s : State) : State :=
  if (s.locks p.auth).xlockBy = none ∧ (s.locks p.auth).state ≠ .sync ∧ (s.locks p.auth).waitWr = false then
    simpleSync p s
  else s

/-- `simple_eval_gather`, as far as the waiters. -/
def simpleEvalGather (s : State) (n : ℕ) : State :=
  if (s.locks n).state = .glockr ∧ (s.locks n).gatherSet = ∅ ∧ (s.locks n).numRdlock = 0 then
    let s := if n = p.auth then s else s.send n p.auth (.mlock .lockack)
    let s := s.setState n .lock
    s.put n { s.locks n with waitWr := false }
  else s

/-- `handle_simple_lock`: `n` takes a message from `i`. -/
def handleSimpleLock (s : State) (i n : ℕ) : Action → State
  | .sync => (s.check ((s.locks n).state = .lock)).setState n .sync
  | .lock =>
    let s := s.check ((s.locks n).state = .sync)
    if 0 < (s.locks n).numRdlock then s.setState n .glockr else (s.setState n .lock).send n i (.mlock .lockack)
  | .lockack =>
    let s := (s.check ((s.locks n).state = .glockr)).check (decide (i ∈ (s.locks n).gatherSet))
    let s := s.put n { s.locks n with gatherSet := (s.locks n).gatherSet.erase i }
    if (s.locks n).gatherSet = ∅ then simpleEvalGather p s n else s

/-! ### Requests -/

/-- `simple_rdlock_start`. -/
def simpleRdlockStart (s : State) (n : ℕ) : State :=
  if (s.locks n).canRdlock then s.put n { s.locks n with numRdlock := (s.locks n).numRdlock + 1 } else s

/-- `simple_rdlock_finish`. -/
def simpleRdlockFinish (s : State) (n : ℕ) : State :=
  let s := s.check (decide (0 < (s.locks n).numRdlock))
  let s := s.put n { s.locks n with numRdlock := (s.locks n).numRdlock - 1 }
  if (s.locks n).numRdlock = 0 then simpleEvalGather p s n else s

/-- `get_xlock`. -/
def getXlock (s : State) (n : ℕ) (q : ℕ × ℕ) : State :=
  (s.check (s.locks n).xlockBy.isNone).put n { s.locks n with xlockBy := some q }

/-- `simple_xlock_start`, and whether the request has the lock now. -/
def simpleXlockStart (s : State) (n : ℕ) (q : ℕ × ℕ) : State × Bool :=
  if (s.locks n).xlockBy = some q then (s, true)
  else if n = p.auth then
    let s := if (s.locks n).state = .sync then simpleLock p s else s
    if (s.locks n).state = .lock then
      if (s.locks n).xlockBy.isSome then (s.put n { s.locks n with waitWr := true }, false)
      else (getXlock s n q, true)
    else (s, false)
  else (s.send n p.auth (.slave .xlock q.2), false)

/-- `simple_xlock_finish`, as far as the waiters. -/
def simpleXlockFinish (s : State) (n : ℕ) (q : ℕ × ℕ) : State :=
  let s := s.check ((s.locks n).canXlock (n = p.auth) q && (s.locks n).xlockBy.isSome)
  let s := s.put n { s.locks n with xlockBy := none, waitWr := false }
  if n = p.auth then s else s.send n p.auth (.slave .unxlock q.2)

/-- `dispatch_slave_request` of an `OP_XLOCK`: the ack is sent, or the request waits. -/
def dispatchXlock (s : State) (q : ℕ × ℕ) : State :=
  let r := simpleXlockStart p s p.auth q
  if r.2 then { r.1 with slaves := r.1.slaves.erase q }.send p.auth q.1 (.slave .xlockack q.2)
  else { r.1 with slaves := insert q r.1.slaves }

/-- `handle_slave_request`: `n` takes a message from `i`. -/
def handleSlaveRequest (s : State) (i n req : ℕ) : Op → State
  | .xlock =>
    let s := s.check (decide ((i, req) ∉ s.slaves))
    if n = p.auth then dispatchXlock p s (i, req) else s
  | .xlockack => getXlock s n (n, req)
  | .unxlock => simpleXlockFinish p (s.check (decide ((i, req) ∉ s.slaves))) n (i, req)

/-! ### Steps -/

/-- What happens: a request that came to `n` takes or asks for a lock or gives one
back, a waiting slave request is taken up again, the authority evaluates the lock,
or the oldest message from `i` to `j` is received. -/
inductive Act
  | rdlock (n : ℕ)
  | rdunlock (n : ℕ)
  | xlock (n req : ℕ)
  | xunlock (n req : ℕ)
  | retry (r req : ℕ)
  | eval
  | receive (i j : ℕ)

/-- A message from `i` to `j` handled. -/
def handle (s : State) (i j : ℕ) : Msg → State
  | .mlock action => handleSimpleLock p s i j action
  | .slave op req => handleSlaveRequest p s i j req op

def step (s : State) : Act → Option State
  | .rdlock n => if p.On n then some (simpleRdlockStart s n) else none
  | .rdunlock n => if 0 < (s.locks n).numRdlock then some (simpleRdlockFinish p s n) else none
  | .xlock n req => if p.On n then some (simpleXlockStart p s n (n, req)).1 else none
  | .xunlock n req => if (s.locks n).xlockBy = some (n, req) then some (simpleXlockFinish p s n (n, req)) else none
  | .retry r req => if (r, req) ∈ s.slaves then some (dispatchXlock p s (r, req)) else none
  | .eval => if (s.locks p.auth).state.isStable then some (simpleEval p s) else none
  | .receive i j =>
    match s.net i j with
    | [] => none
    | m :: _ => some (handle p { s with net := s.net.take i j 0 } i j m)

/-- No lock taken, no message in flight. -/
def start : State := ⟨fun _ => fresh, Links.empty, ∅, false⟩

end Simple
end Mds
end Ceph
