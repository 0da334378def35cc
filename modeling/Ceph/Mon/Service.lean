/-
# The service on top of Paxos

`PaxosService` of `mon/PaxosService.cc`, with the parts of `OSDMonitor` that it
calls: a monitor keeps the map of the last version it has read from Paxos, and
the leader collects changes to it in a pending incremental, which it proposes
as the next version. What the monitor does is driven by Paxos: contexts wait
in its lists, and run when `finish_contexts` is called at the end of a
handler, where they may propose in turn. `Svc.agenda` is what is left to run
of these calls, the innermost first; a handler starts when it is empty.

The maps themselves are left out: what `preprocess_query`, `prepare_update`
and `should_propose` answer, and the bytes that are encoded, are inputs
(`Choice`). `incEpoch` is the epoch that `Incremental::decode` reads.
-/
import Ceph.Mon.Handlers

namespace Ceph
namespace Service

open Paxos

variable {μ : Type}

/-- The contexts of a service. -/
inductive Ctx (μ : Type)
  | active               -- C_Active
  | commit               -- C_Commit
  | retry (m : μ)        -- C_RetryMessage
  | reply                -- C_Booted and C_Reported, which send a map

/-- What is left to run. -/
inductive Job (μ : Type)
  | finishContexts (w : Waiting) (ok : Bool)
  | finish (c : Ctx μ) (ok : Bool)
  | electionFinished

/-- A monitor with the Paxos of its OSD map. -/
structure Svc (μ : Type) where
  up : Bool
  mon : Mon
  store : Store
  osdmapEpoch : ℕ          -- osdmap.epoch
  pendingEpoch : ℕ         -- pending_inc.epoch
  havePending : Bool
  proposalTimer : Bool
  lastFull : ℕ             -- osdmap_full/last_epoch, in the store
  waiting : Waiting → List (Ctx μ)
  agenda : List (Job μ)
  encoded : List (ℕ × ℕ)   -- not in the source: pending_inc.epoch and version at each encode_pending

/-- What `should_propose` answers. -/
inductive Propose
  | never
  | now
  | later
deriving DecidableEq

/-- The clock, and what the service's own functions do with a message. -/
structure Choice (μ : Type) where
  now : ℕ
  answered : Bool := false            -- preprocess_query
  prepared : Bool := false            -- prepare_update
  waits : List (Ctx μ) := []          -- and what it lets wait for the commit
  propose : Propose := .never         -- should_propose
  bl : Blob := []                     -- pending_inc, encoded

/-- A piece of a handler, with the calls of `encode_pending`. -/
abbrev Result (μ : Type) := Out (Svc μ) (ℕ × ℕ)

/-- The waiting lists of the contexts that a Paxos handler finishes. -/
def wakes (es : List Effect) : List (Job μ) :=
  es.filterMap fun e => match e with
    | .finishContexts w ok => some (.finishContexts w ok)
    | _ => none

/-- A Paxos handler has run; what it finishes comes before the rest. -/
def paxos (o : Handled) (s : Svc μ) : Result μ :=
  ⟨{ s with
      mon := o.st
      store := s.store.performAll o.effs
      agenda := wakes o.effs ++ s.agenda }, [], o.ok⟩

variable (n me lease : ℕ) (mkfs : Bool) (incEpoch : Blob → ℕ)

/-- The loop of `update_from_paxos`, which applies `k` incrementals. A full map is
only in the incremental of epoch 1, and is of that epoch (`create_initial`). -/
def applyIncrementals (now : ℕ) : ℕ → Svc μ → Result μ
  | 0, s => .ret s
  | k + 1, s =>
    -- paxos->read
    (Out.check s (isReadable now s.mon ∧ (s.store.bl (s.osdmapEpoch + 1)).isSome)).andThen fun s =>
    (Out.check s (incEpoch ((s.store.bl (s.osdmapEpoch + 1)).getD []) = s.osdmapEpoch + 1)).andThen fun s =>
    applyIncrementals now k { s with osdmapEpoch := s.osdmapEpoch + 1 }

/-- At the start, the latest full map is loaded. -/
def loadFull (s : Svc μ) : Svc μ :=
  if s.osdmapEpoch = 0 ∧ 1 < s.mon.lastCommitted ∧ s.lastFull ≠ 0 then { s with osdmapEpoch := s.lastFull }
  else s

/-- `OSDMonitor::update_from_paxos`. -/
def updateFromPaxos (now : ℕ) (s : Svc μ) : Result μ :=
  (Out.check s (s.mon.state = .active)).andThen fun s =>
  if s.mon.lastCommitted = s.osdmapEpoch then .ret s
  else
    (Out.check s (s.osdmapEpoch ≤ s.mon.lastCommitted)).andThen fun s =>
    (applyIncrementals incEpoch now (s.mon.lastCommitted - (loadFull s).osdmapEpoch) (loadFull s)).andThen
      fun s => .ret { s with lastFull := s.osdmapEpoch }

/-- `OSDMonitor::create_pending`, and `have_pending` after it. -/
def createPending (s : Svc μ) : Svc μ :=
  { s with pendingEpoch := s.osdmapEpoch + 1, havePending := true }

/-- `OSDMonitor::encode_pending`. -/
def encodePending (s : Svc μ) : Result μ :=
  (Out.emit s [(s.pendingEpoch, s.mon.lastCommitted)]).andThen fun s =>
  .check s (s.mon.lastCommitted + 1 = s.pendingEpoch)

/-- `PaxosService::propose_pending`. -/
def proposePending (bl : Blob) (s : Svc μ) : Result μ :=
  (Out.check s s.havePending).andThen fun s =>
  (encodePending { s with proposalTimer := false }).andThen fun s =>
  paxos (proposeNewValue n me bl s.mon) { s with
    havePending := false
    waiting := Function.update s.waiting .commit (.commit :: s.waiting .commit) }

/-- `PaxosService::_active`. -/
def active (c : Choice μ) (s : Svc μ) : Result μ :=
  (Out.check s (s.mon.state = .active)).andThen fun s =>
  (updateFromPaxos incEpoch c.now s).andThen fun s =>
  if s.mon.role = .leader then
    (Out.ret (if s.havePending then s else createPending s)).andThen fun s =>
    if mkfs ∧ s.mon.lastCommitted = 0 then proposePending n me c.bl s else .ret s
  else .ret s

/-- `PaxosService::_commit`. -/
def committed (c : Choice μ) (s : Svc μ) : Result μ :=
  (updateFromPaxos incEpoch c.now s).andThen fun s =>
  if s.mon.role = .leader then
    (Out.check s (s.havePending = false)).andThen fun s => .ret (createPending s)
  else .ret s

/-- `PaxosService::election_finished`. -/
def electionFinished (c : Choice μ) (s : Svc μ) : Result μ :=
  (Out.ret (if s.havePending ∧ s.mon.role ≠ .leader then { s with havePending := false } else s)).andThen fun s =>
  if s.mon.state = .active then active n me mkfs incEpoch c s
  else .ret { s with waiting := Function.update s.waiting .active (s.waiting .active ++ [.active]) }

/-- `Paxos::is_writeable` at time `now`. -/
def isWriteable (now : ℕ) (m : Mon) : Bool :=
  m.quorum.card = 1 ∨ (m.role = .leader ∧ m.state = .active ∧ now < m.leaseExpire)

/-- `PaxosService::dispatch`. -/
def dispatch (m : μ) (c : Choice μ) (s : Svc μ) : Result μ :=
  if isReadable c.now s.mon = false then
    .ret { s with waiting := Function.update s.waiting .readable (s.waiting .readable ++ [.retry m]) }
  else
    (updateFromPaxos incEpoch c.now s).andThen fun s =>
    if c.answered then .ret s
    else if s.mon.role ≠ .leader then .ret s      -- forwarded to the leader
    else if isWriteable c.now s.mon = false then
      .ret { s with waiting := Function.update s.waiting .writeable (s.waiting .writeable ++ [.retry m]) }
    else
      (Out.ret { s with waiting := Function.update s.waiting .commit (s.waiting .commit ++ c.waits) }).andThen
        fun s =>
      if c.prepared = false then .ret s
      else match c.propose with
        | .never => .ret s
        | .now => proposePending n me c.bl s
        | .later => .ret { s with proposalTimer := true }

/-- One entry of the agenda. -/
def runJob (c : Choice μ) (s : Svc μ) : Job μ → Result μ
  | .finishContexts w ok =>
    .ret { s with
      waiting := Function.update s.waiting w []
      agenda := (s.waiting w).map (fun x => .finish x ok) ++ s.agenda }
  | .finish .active ok => if ok then active n me mkfs incEpoch c s else .ret s
  | .finish .commit ok => if ok then committed incEpoch c s else .ret s
  | .finish (.retry m) _ => dispatch n me incEpoch m c s
  | .finish .reply _ => .ret s
  | .electionFinished => electionFinished n me mkfs incEpoch c s

/-- What can happen to a monitor. `update` stands for the calls of
`propose_pending` outside `dispatch`: `tick`, `mark_all_down` and the fake
failures. -/
inductive Event (μ : Type)
  | win (epoch : ℕ) (q : Finset ℕ)
  | lose (epoch leader : ℕ)
  | deliver (src : ℕ) (msg : MMonPaxos) (now : ℕ)
  | callElection
  | leaseRenew (now : ℕ)
  | request (m : μ) (c : Choice μ)
  | proposalTimer (c : Choice μ)
  | update (c : Choice μ)
  | job (c : Choice μ)
  | restart

/-- A monitor starts on what its store holds. -/
def started (st : Store) (lastFull : ℕ) (encoded : List (ℕ × ℕ)) : Svc μ where
  up := true
  mon := init st
  store := st
  osdmapEpoch := 0
  pendingEpoch := 0
  havePending := false
  proposalTimer := false
  lastFull := lastFull
  waiting := fun _ => []
  agenda := []
  encoded := encoded

/-- Only a peon of this quorum answers the leader. -/
def Answered (s : Svc μ) (src : ℕ) (msg : MMonPaxos) : Prop :=
  s.mon.role = .leader → msg.epoch = s.mon.monEpoch → msg.op = .last → src ∈ s.mon.quorum ∧ src ≠ me

instance (s : Svc μ) (src : ℕ) (msg : MMonPaxos) : Decidable (Answered me s src msg) :=
  inferInstanceAs (Decidable (_ → _))

/-- The monitor after a handler; it dies if an assertion has failed. -/
def settle (o : Result μ) : Svc μ := { o.st with up := o.ok, encoded := o.effs ++ o.st.encoded }

/-- A handler, if the monitor is running and idle. -/
def idle (s : Svc μ) (o : Result μ) : Option (Svc μ) :=
  if s.up = true ∧ s.agenda = [] then some (settle o) else none

/-- One step of the monitor. -/
def step (s : Svc μ) : Event μ → Option (Svc μ)
  | .win e q =>
    if IsQuorum n me q then
      idle s (paxos (winElection n me s.store e q s.mon) { s with agenda := [.electionFinished] })
    else none
  | .lose e l => idle s (paxos (loseElection e l s.mon) { s with agenda := [.electionFinished] })
  | .deliver src msg now =>
    if Answered me s src msg then idle s (paxos (Paxos.dispatch n me lease s.store src msg now s.mon) s)
    else none
  | .callElection => idle s (paxos (callElection n s.mon) s)
  | .leaseRenew now => idle s (paxos (leaseRenewTimeout n me lease now s.mon) s)
  | .request m c => idle s (dispatch n me incEpoch m c s)
  | .proposalTimer c =>
    if s.proposalTimer then idle s (proposePending n me c.bl { s with proposalTimer := false }) else none
  | .update c => idle s (proposePending n me c.bl s)
  | .job c =>
    match s.up, s.agenda with
    | true, j :: js => some (settle (runJob n me mkfs incEpoch c { s with agenda := js } j))
    | _, _ => none
  | .restart => some (started s.store s.lastFull s.encoded)

end Service
end Ceph
