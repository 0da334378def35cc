/-
# The monitors' Paxos

`Paxos` of `mon/Paxos.cc`, one state machine: the leader of an election
collects promises from its quorum (`collect`, `handleCollect`, `handleLast`),
proposes one value at a time (`begin`, `handleBegin`, `handleAccept`),
commits it when a majority of the monitors has it (`commit`, `handleCommit`)
and hands out leases to read (`extendLease`, `handleLease`). Version `v` of
the machine's state is the blob stored under `v`; `lastCommitted` is the last
version known to be decided.

A handler is an `Out`: the monitor's memory afterwards, and its writes,
sends and wake-ups in order, so that a crash can cut it short anywhere.

Some things are recorded that the source does not keep, and that no handler
reads: the number under which a blob was accepted (`Store.under`), whether
`accepted_pn` has moved since, in memory or on disk (`Store.steady`,
`Store.onDisk`), and whose LASTs `num_last` counts (`Mon.lastsFrom`).
-/
import Mathlib.Data.Finset.Card
import Ceph.Lib.Handler

namespace Ceph
namespace Paxos

/-- A `bufferlist`. -/
abbrev Blob := List UInt8

/-- `MMonPaxos`' operations. -/
inductive Op
  | collect
  | last
  | begin
  | accept
  | commit
  | lease
  | leaseAck
deriving DecidableEq, Repr

/-- `MMonPaxos`. `values` is the `map<version_t,bufferlist>`, by increasing
version. -/
structure MMonPaxos where
  op : Op
  epoch : ℕ
  lastCommitted : ℕ := 0
  pnFrom : ℕ := 0
  pn : ℕ := 0
  uncommittedPn : ℕ := 0
  leaseExpire : ℕ := 0
  values : List (ℕ × Blob) := []
deriving DecidableEq, Repr

/-- `values[v]`: an absent version reads as an empty blob. -/
def MMonPaxos.value (m : MMonPaxos) (v : ℕ) : Blob := (m.values.lookup v).getD []

/-- `Paxos::state`. -/
inductive State
  | recovering
  | active
  | updating
deriving DecidableEq, Repr

/-- `Monitor::state`. -/
inductive Role
  | starting
  | leader
  | peon
deriving DecidableEq, Repr

/-- The lists of contexts that wait in a `Paxos`. -/
inductive Waiting
  | active
  | readable
  | writeable
  | commit
deriving DecidableEq, Repr

/-- A monitor's memory: the fields of `Monitor` that Paxos reads, then those of
`Paxos`. The timer events are kept as whether they are set. -/
structure Mon where
  role : Role
  monEpoch : ℕ
  leader : ℕ
  quorum : Finset ℕ
  state : State
  lastPn : ℕ
  lastCommitted : ℕ
  acceptedPn : ℕ
  acceptedPnFrom : ℕ
  leaseExpire : ℕ
  numLast : ℕ
  uncommittedV : ℕ
  uncommittedPn : ℕ
  uncommittedValue : Blob
  ackedLease : Finset ℕ
  leaseRenewEvent : Bool
  leaseAckTimeoutEvent : Bool
  leaseTimeoutEvent : Bool
  newValue : Blob
  accepted : Finset ℕ
  acceptTimeoutEvent : Bool
  lastsFrom : List ℕ      -- not in the source: whose LASTs `numLast` counts
deriving DecidableEq

/-- What a handler does outside the memory. -/
inductive Effect
  | putLastPn (pn : ℕ)
  | putAcceptedPn (pn : ℕ)
  | putLastCommitted (v : ℕ)
  -- `under` is not written: the number the blob was accepted under, or `none` for a committed one
  | putBl (v : ℕ) (b : Blob) (under : Option ℕ)
  | send (dst : ℕ) (m : MMonPaxos)
  | finishContexts (w : Waiting) (ok : Bool)
deriving DecidableEq

/-- The machine's directory in the monitor's store. -/
structure Store where
  lastPn : ℕ
  acceptedPn : ℕ
  lastCommitted : ℕ
  bl : ℕ → Option Blob
  under : ℕ → Option ℕ    -- not in the source: the number each blob was accepted under
  steady : Bool           -- not in the source: `accepted_pn` has not moved since a blob was accepted
  onDisk : Bool           -- not in the source: nor the stored one, which it was accepted under

/-- An empty store. -/
def Store.mkfs : Store := ⟨0, 0, 0, fun _ => none, fun _ => none, false, false⟩

/-- One write. -/
def Store.perform (st : Store) : Effect → Store
  | .putLastPn pn => { st with lastPn := pn, steady := false }
  | .putAcceptedPn pn => { st with acceptedPn := pn, steady := false, onDisk := false }
  | .putLastCommitted v => { st with lastCommitted := v, steady := false, onDisk := false }
  | .putBl v b u => { st with
      bl := Function.update st.bl v (some b)
      under := Function.update st.under v u
      steady := u.isSome
      onDisk := u = some st.acceptedPn }
  | .send _ _ => st
  | .finishContexts _ _ => st

def Store.performAll (st : Store) (es : List Effect) : Store := es.foldl Store.perform st

abbrev Handled := Out Mon Effect

/-- The ranks of `q` except `me`, in the order of a `set<int>`. -/
def others (n me : ℕ) (q : Finset ℕ) : List ℕ := (List.range n).filter fun p => p ∈ q ∧ p ≠ me

/-- A number above `gt` and `lastPn`, of `me`'s own residue. -/
def newProposalNumber (me gt lastPn : ℕ) : ℕ := (max lastPn gt / 100 + 1) * 100 + me

/-- `Paxos::cancel_events`. -/
def cancelEvents (m : Mon) : Mon :=
  { m with
    acceptTimeoutEvent := false
    leaseRenewEvent := false
    leaseAckTimeoutEvent := false
    leaseTimeoutEvent := false }

variable (n me lease : ℕ)

/-! ### Phase 1 -/

/-- `Paxos::collect`, with `get_new_proposal_number`. -/
def collect (st : Store) (oldpn : ℕ) (m : Mon) : Handled :=
  (Out.check { m with state := .recovering } (m.role = .leader)).andThen fun m =>
  -- look for uncommitted value
  let m := match st.bl (m.lastCommitted + 1) with
    | some v => { m with
        uncommittedV := m.lastCommitted + 1, uncommittedPn := m.acceptedPn, uncommittedValue := v }
    | none => { m with uncommittedV := 0, uncommittedPn := 0, uncommittedValue := [] }
  let pn := newProposalNumber me (max m.acceptedPn oldpn) m.lastPn
  .emit { m with
      lastPn := pn, acceptedPn := pn, acceptedPnFrom := m.lastCommitted, numLast := 1, lastsFrom := [] }
    (.putLastPn pn :: (others n me m.quorum).map fun p =>
      .send p { op := .collect, epoch := m.monEpoch, lastCommitted := m.lastCommitted, pn := pn })

/-- The stored versions above `lo`, up to `hi`. -/
def storedAbove (st : Store) (lo hi : ℕ) : List (ℕ × Blob) :=
  (List.range' (lo + 1) (hi - lo)).filterMap fun v => (st.bl v).map fun b => (v, b)

/-- The LAST that answers a COLLECT, but for its `pn` and `pn_from`. -/
def lastReply (st : Store) (c : MMonPaxos) (m : Mon) : MMonPaxos :=
  { op := .last
    epoch := m.monEpoch
    lastCommitted := m.lastCommitted
    -- an accepted but uncommitted value is at last_committed+1
    uncommittedPn := if (st.bl (m.lastCommitted + 1)).isSome then m.acceptedPn else 0
    values := storedAbove st c.lastCommitted m.lastCommitted ++
      ((st.bl (m.lastCommitted + 1)).toList.map fun b => (m.lastCommitted + 1, b)) }

/-- `Paxos::handle_collect`. -/
def handleCollect (st : Store) (src : ℕ) (c : MMonPaxos) (m : Mon) : Handled :=
  (Out.check m (m.role = .peon)).andThen fun m =>
  (Out.check { m with state := .recovering } (st.bl (m.lastCommitted + 1) ≠ some [])).andThen fun m =>
  if c.pn > m.acceptedPn then
    .emit { m with acceptedPn := c.pn, acceptedPnFrom := c.pnFrom }
      [.putAcceptedPn c.pn, .send src { lastReply st c m with pn := c.pn, pnFrom := c.pnFrom }]
  else
    .emit m [.send src { lastReply st c m with pn := m.acceptedPn, pnFrom := m.acceptedPnFrom }]

/-! ### Leases -/

/-- `Paxos::extend_lease` at time `now`. -/
def extendLease (now : ℕ) (m : Mon) : Handled :=
  (Out.check m (m.role = .leader)).andThen fun m =>
  (Out.check m (m.state = .active)).andThen fun m =>
  .emit { m with
      leaseExpire := now + lease
      ackedLease := {me}
      leaseAckTimeoutEvent := true
      leaseRenewEvent := true }
    ((others n me m.quorum).map fun p => .send p
      { op := .lease, epoch := m.monEpoch, lastCommitted := m.lastCommitted, leaseExpire := now + lease })

/-- `Paxos::is_readable` at time `now`. -/
def isReadable (now : ℕ) (m : Mon) : Bool :=
  (m.role = .peon ∨ m.role = .leader) ∧ m.state = .active ∧ 0 < m.lastCommitted ∧
    (m.quorum.card = 1 ∨ now < m.leaseExpire)

/-- `Paxos::handle_lease`. -/
def handleLease (src : ℕ) (l : MMonPaxos) (now : ℕ) (m : Mon) : Handled :=
  if m.role ≠ .peon ∨ m.lastCommitted ≠ l.lastCommitted then .ret m
  else
    let m := { m with
      leaseExpire := max m.leaseExpire l.leaseExpire
      state := .active
      leaseTimeoutEvent := true }
    .emit m
      ([.send src
          { op := .leaseAck, epoch := m.monEpoch, lastCommitted := m.lastCommitted,
            leaseExpire := m.leaseExpire },
        .finishContexts .active true] ++
      if isReadable now m then [.finishContexts .readable true] else [])

/-- `Paxos::handle_lease_ack`. -/
def handleLeaseAck (src : ℕ) (m : Mon) : Handled :=
  if ¬ m.leaseAckTimeoutEvent then .ret m
  else if src ∈ m.ackedLease then .ret m
  else
    let m := { m with ackedLease := insert src m.ackedLease }
    if m.ackedLease = m.quorum then .ret { m with leaseAckTimeoutEvent := false } else .ret m

/-! ### Phase 2 -/

/-- The contexts woken when an update is done. -/
def wakeAll : List Effect :=
  [.finishContexts .active true, .finishContexts .commit true, .finishContexts .readable true,
    .finishContexts .writeable true]

/-- `Paxos::commit`. -/
def commit (m : Mon) : Handled :=
  .emit { m with lastCommitted := m.lastCommitted + 1, newValue := [] }
    (.putLastCommitted (m.lastCommitted + 1) :: (others n me m.quorum).map fun p => .send p
      { op := .commit, epoch := m.monEpoch, pn := m.acceptedPn,
        values := [(m.lastCommitted + 1, m.newValue)] })

/-- `Paxos::begin`. -/
def begin (v : Blob) (m : Mon) : Handled :=
  (Out.check m (m.role = .leader)).andThen fun m =>
  (Out.check m (m.state = .active)).andThen fun m =>
  -- we must already have a majority for this to work
  (Out.check { m with state := .updating } (m.quorum.card = 1 ∨ m.numLast > n / 2)).andThen fun m =>
  (Out.check m (m.newValue = [])).andThen fun m =>
  (Out.emit { m with accepted := {me}, newValue := v }
    [.putBl (m.lastCommitted + 1) v (some m.acceptedPn)]).andThen fun m =>
  if m.quorum.card = 1 then
    (commit n me m).andThen fun m => .emit { m with state := .active } wakeAll
  else
    .emit { m with acceptTimeoutEvent := true }
      ((others n me m.quorum).map fun p => .send p
        { op := .begin, epoch := m.monEpoch, lastCommitted := m.lastCommitted, pn := m.acceptedPn,
          values := [(m.lastCommitted + 1, m.newValue)] })

/-- `Paxos::handle_begin`. -/
def handleBegin (src : ℕ) (b : MMonPaxos) (m : Mon) : Handled :=
  if b.pn < m.acceptedPn then .ret m
  else
    (Out.check m (b.pn = m.acceptedPn)).andThen fun m =>
    (Out.check m (b.lastCommitted = m.lastCommitted)).andThen fun m =>
    .emit { m with state := .updating, leaseExpire := 0 }
      [.putBl (m.lastCommitted + 1) (b.value (m.lastCommitted + 1)) (some m.acceptedPn),
        .send src
          { op := .accept, epoch := m.monEpoch, pn := m.acceptedPn, lastCommitted := m.lastCommitted }]

/-- `src` has accepted; with a new majority, the value is committed. -/
def countAccept (src : ℕ) (m : Mon) : Handled :=
  let m := { m with accepted := insert src m.accepted }
  if m.accepted.card = n / 2 + 1 then commit n me m else .ret m

/-- The round is done when the whole quorum has accepted. -/
def finishAccepts (now : ℕ) (m : Mon) : Handled :=
  if m.accepted = m.quorum then
    (extendLease n me lease now { m with acceptTimeoutEvent := false, state := .active }).andThen
      fun m => .emit m wakeAll
  else .ret m

/-- `Paxos::handle_accept`. -/
def handleAccept (src : ℕ) (a : MMonPaxos) (now : ℕ) (m : Mon) : Handled :=
  if a.pn ≠ m.acceptedPn then .ret m
  else if m.lastCommitted > 0 ∧ a.lastCommitted < m.lastCommitted - 1 then .ret m
  else
    (Out.check m (a.lastCommitted = m.lastCommitted ∨ a.lastCommitted + 1 = m.lastCommitted)).andThen
      fun m =>
    (Out.check m (m.state = .updating)).andThen fun m =>
    (Out.check m (src ∉ m.accepted)).andThen fun m =>
    (countAccept n me src m).andThen fun m => finishAccepts n me lease now m

/-- The loop of `handle_commit`: the values are stored one after the other, as
long as each is for the version after the last. -/
def storeCommitted : List (ℕ × Blob) → Mon → Handled
  | [], m => .ret m
  | (v, b) :: vs, m =>
    (Out.check m (v = m.lastCommitted + 1)).andThen fun m =>
    (Out.emit { m with lastCommitted := v } [.putBl v b none]).andThen fun m =>
    storeCommitted vs m

/-- `Paxos::handle_commit`. -/
def handleCommit (c : MMonPaxos) (m : Mon) : Handled :=
  (Out.check m (m.role = .peon)).andThen fun m =>
  (storeCommitted c.values m).andThen fun m => .emit m [.putLastCommitted m.lastCommitted]

/-! ### The end of phase 1 -/

/-- The committed values a LAST brings, and their writing. -/
def learned (last : MMonPaxos) (m : Mon) : List Effect :=
  if last.lastCommitted > m.lastCommitted then
    ((List.range' (m.lastCommitted + 1) (last.lastCommitted - m.lastCommitted)).map fun v =>
      .putBl v (last.value v) none) ++ [.putLastCommitted last.lastCommitted]
  else []

/-- The COMMIT with which the leader shares what a peon lacks. -/
def shared (st : Store) (src : ℕ) (last : MMonPaxos) (m : Mon) : List Effect :=
  if last.lastCommitted < m.lastCommitted then
    [.send src
      { op := .commit, epoch := m.monEpoch, lastCommitted := m.lastCommitted,
        values := (List.range' (last.lastCommitted + 1) (m.lastCommitted - last.lastCommitted)).map
          fun v => (v, (st.bl v).getD []) }]
  else []

/-- A LAST is counted, with the uncommitted value it reports. -/
def countLast (src : ℕ) (last : MMonPaxos) (m : Mon) : Mon :=
  let m := { m with numLast := m.numLast + 1, lastsFrom := src :: m.lastsFrom }
  if last.uncommittedPn ≠ 0 ∧ last.uncommittedPn > m.uncommittedPn then
    { m with
      uncommittedV := last.lastCommitted + 1
      uncommittedPn := last.uncommittedPn
      uncommittedValue := last.value (last.lastCommitted + 1) }
  else m

/-- Recovery is over when `num_last` has reached the size of the quorum. -/
def finishLasts (now : ℕ) (m : Mon) : Handled :=
  if m.numLast = m.quorum.card then
    let m := { m with state := .active }
    -- did we learn an old value?
    if m.uncommittedV = m.lastCommitted + 1 ∧ m.uncommittedValue ≠ [] then
      begin n me m.uncommittedValue m
    else
      (extendLease n me lease now m).andThen fun m => .emit m
        [.finishContexts .active true, .finishContexts .readable true, .finishContexts .writeable true]
  else .ret m

/-- `Paxos::handle_last`. -/
def handleLast (st : Store) (src : ℕ) (last : MMonPaxos) (now : ℕ) (m : Mon) : Handled :=
  if m.role ≠ .leader then .ret m
  else
    (Out.emit { m with lastCommitted := max m.lastCommitted last.lastCommitted }
      (shared st src last m ++ learned last m)).andThen fun m' =>
    -- do they accept your pn?
    if last.pn > m'.acceptedPn then collect n me (st.performAll (learned last m)) last.pn m'
    else finishLasts n me lease now (countLast src last m')

/-! ### Elections -/

/-- `Paxos::leader_init`. -/
def leaderInit (st : Store) (m : Mon) : Handled :=
  if m.quorum.card = 1 then .ret { m with state := .active }
  else collect n me st 0 { cancelEvents m with state := .recovering, leaseExpire := 0 }

/-- `Paxos::peon_init`. -/
def peonInit (m : Mon) : Handled :=
  .emit { cancelEvents m with state := .recovering, leaseExpire := 0 }
    [.finishContexts .writeable false, .finishContexts .commit false]

/-- `Monitor::win_election`. -/
def winElection (st : Store) (epoch : ℕ) (active : Finset ℕ) (m : Mon) : Handled :=
  leaderInit n me st { m with role := .leader, leader := me, monEpoch := epoch, quorum := active }

/-- `Monitor::lose_election`. -/
def loseElection (epoch l : ℕ) (m : Mon) : Handled :=
  peonInit { m with role := .peon, monEpoch := epoch, leader := l }

/-- `Monitor::call_election`, with `Paxos::election_starting`. -/
def callElection (m : Mon) : Handled :=
  if n = 1 then .ret m
  else .emit { cancelEvents { m with role := .starting } with newValue := [] }
    [.finishContexts .commit false]

/-! ### Messages and requests -/

/-- `Paxos::dispatch`. -/
def paxosDispatch (st : Store) (src : ℕ) (msg : MMonPaxos) (now : ℕ) (m : Mon) : Handled :=
  if m.role = .starting then .ret m
  else
    (Out.check m (m.role = .leader ∨ (m.role = .peon ∧ src = m.leader))).andThen fun m =>
    match msg.op with
    | .collect => handleCollect st src msg m
    | .last => handleLast n me lease st src msg now m
    | .begin => handleBegin src msg m
    | .accept => handleAccept n me lease src msg now m
    | .commit => handleCommit msg m
    | .lease => handleLease src msg now m
    | .leaseAck => handleLeaseAck src m

/-- `Monitor::dispatch` of a Paxos message: only those of this epoch pass. -/
def dispatch (st : Store) (src : ℕ) (msg : MMonPaxos) (now : ℕ) (m : Mon) : Handled :=
  (if msg.epoch > m.monEpoch then callElection n m else .ret m).andThen fun m =>
  if msg.epoch ≠ m.monEpoch then .ret m else paxosDispatch n me lease st src msg now m

/-- `Paxos::propose_new_value`. -/
def proposeNewValue (v : Blob) (m : Mon) : Handled :=
  (Out.check m (m.role = .leader ∧ m.state = .active)).andThen fun m => begin n me v (cancelEvents m)

/-- `Paxos::lease_renew_timeout`. -/
def leaseRenewTimeout (now : ℕ) (m : Mon) : Handled :=
  extendLease n me lease now { m with leaseRenewEvent := false }

/-- `Monitor`'s constructor and `Paxos::init`: what a started monitor holds. -/
def init (st : Store) : Mon where
  role := .starting
  monEpoch := 0
  leader := 0
  quorum := ∅
  state := .recovering
  lastPn := st.lastPn
  lastCommitted := st.lastCommitted
  acceptedPn := st.acceptedPn
  acceptedPnFrom := 0
  leaseExpire := 0
  numLast := 0
  uncommittedV := 0
  uncommittedPn := 0
  uncommittedValue := []
  ackedLease := ∅
  leaseRenewEvent := false
  leaseAckTimeoutEvent := false
  leaseTimeoutEvent := false
  newValue := []
  accepted := ∅
  acceptTimeoutEvent := false
  lastsFrom := []

end Paxos
end Ceph
