/-
# The primary's gathers

`ReplicatedPG` of `osd/ReplicatedPG.cc` at a primary: an operation that
modifies is sent to the replicas as a sub-op under an id, a `tid`, and a
`RepGather` collects their acks and commits, the commit of the primary's own
store and the failures of OSDs, until the client has its replies.

The part of `OSD` in front of the group is here too: a reply is dropped when
its sender is not up in the map at the address it was sent from, a reply that
is taken waits in the group's queue, and a new map is handled when that queue
is empty. An address holds the id of the process (`nonce`), so a restarted OSD
has another one; `proc` counts the processes of an OSD.

What happens is recorded in `log`, newest first.
-/
import Mathlib.Data.Finset.Basic
import Mathlib.Data.Prod.Lex
import Ceph.Lib.Run

namespace Ceph
namespace Osd

/-- `eversion_t`: an epoch and a version, ordered in this way. -/
abbrev EVersion := ℕ ×ₗ ℕ

/-- `eversion_t()`. -/
def EVersion.zero : EVersion := toLex (0, 0)

structure RepGather where
  wantsAck : Bool                       -- op->wants_ack()
  wantsCommit : Bool                    -- op->wants_commit()
  applied : Bool
  waitforAck : Finset ℕ
  waitforCommit : Finset ℕ
  sentAck : Bool
  sentCommit : Bool
  osds : Finset ℕ
  pgLocalLastComplete : EVersion
  pgCompleteThru : List (ℕ × EVersion)  -- a map; the last value of a key stands first

namespace RepGather

variable (g : RepGather)

/-- `can_send_ack`. -/
def canSendAck : Bool := ¬ g.sentAck ∧ ¬ g.sentCommit ∧ g.waitforAck = ∅

/-- `can_send_commit`. -/
def canSendCommit : Bool := ¬ g.sentCommit ∧ g.waitforAck = ∅ ∧ g.waitforCommit = ∅

/-- `can_delete`. -/
def canDelete : Bool := g.waitforAck = ∅ ∧ g.waitforCommit = ∅

/-- `pg_complete_thru[o]`; zero if we have not heard. -/
def completeThru (o : ℕ) : EVersion := (g.pgCompleteThru.lookup o).getD EVersion.zero

end RepGather

/-- `MOSDSubOpReply`, with the process of the OSD that sent it. -/
structure SubOpReply where
  tid : ℕ
  source : ℕ
  proc : ℕ
  commit : Bool
  completeThru : EVersion

/-- A message in the queue of the group. -/
inductive Work
  | op (wantsAck wantsCommit : Bool)
  | reply (r : SubOpReply)

/-- What happens to the operations of the group. -/
inductive Event
  | opened (tid : ℕ) (osds : Finset ℕ)    -- new_rep_gather
  | applied (tid : ℕ)                     -- by the primary's store
  | acked (tid osd : ℕ)
  | committed (tid osd : ℕ)
  | failed (osd : ℕ)                      -- on_osd_failure
  | ackReply (tid : ℕ)
  | commitReply (tid : ℕ)
  | deleted (tid : ℕ) (g : RepGather)

structure PG where
  ok : Bool                               -- no assertion has failed
  whoami : ℕ
  up : ℕ → Bool                           -- osdmap->is_up
  proc : ℕ → ℕ
  acting : List ℕ
  lastTid : ℕ                             -- osd->last_tid
  repGather : ℕ → Option RepGather
  waitingForRepop : ℕ → List SubOpReply
  lastComplete : EVersion                 -- info.last_complete
  peersCompleteThru : EVersion
  opQueue : List Work
  -- outside the group
  oncommit : List (ℕ × EVersion)          -- C_OSD_ModifyCommit, in the store
  issued : List (ℕ × ℕ × ℕ)               -- sub-ops: tid, OSD, its process
  answered : List (ℕ × ℕ × Bool)          -- the replies sent: tid, OSD, commit
  net : List SubOpReply
  log : List Event

namespace PG

/-- An assertion has failed. -/
def fail (s : PG) : PG := { s with ok := false }

/-- An event is recorded. -/
def note (s : PG) (e : Event) : PG := { s with log := e :: s.log }

/-- The content of the gather of `t`. -/
def setGather (s : PG) (t : ℕ) (g : RepGather) : PG :=
  { s with repGather := Function.update s.repGather t (some g) }

/-- The keys of `rep_gather`. -/
def tids (s : PG) : List ℕ := (List.range (s.lastTid + 1)).filter fun t => (s.repGather t).isSome

end PG

/-! ### Gathers -/

/-- `apply_repop`. The store calls back when the transaction is committed. -/
def applyRepop (t : ℕ) (g : RepGather) (s : PG) : RepGather × PG :=
  if g.applied then (g, s.fail)
  else ({ g with applied := true },
    { s.note (.applied t) with oncommit := s.oncommit ++ [(t, g.pgLocalLastComplete)] })

/-- The replies of `put_rep_gather`. -/
def sendReply (t : ℕ) (g : RepGather) (s : PG) : RepGather × PG :=
  if g.canSendCommit ∧ g.wantsCommit then ({ g with sentCommit := true }, s.note (.commitReply t))
  else if g.canSendAck ∧ g.wantsAck then
    let (g, s) := if g.applied then (g, s) else applyRepop t g s
    ({ g with sentAck := true }, s.note (.ackReply t))
  else (g, s)

/-- `peers_complete_thru` after the gather is done. -/
def adjustCompleteThru (g : RepGather) (s : PG) : EVersion :=
  if g.pgCompleteThru.isEmpty then s.peersCompleteThru
  else
    let min := s.acting.foldl
      (fun min o => if g.completeThru o < min then g.completeThru o else min) s.lastComplete
    if min > s.peersCompleteThru then min else s.peersCompleteThru

/-- The end of `put_rep_gather`. -/
def deleteIfDone (t : ℕ) (g : RepGather) (s : PG) : PG :=
  if g.canDelete then
    let s := { s with peersCompleteThru := adjustCompleteThru g s }
    if (s.repGather t).isNone then s.fail
    else { s.note (.deleted t g) with repGather := Function.update s.repGather t none }
  else s.setGather t g

/-- `put_rep_gather`. -/
def putRepGather (t : ℕ) (g : RepGather) (s : PG) : PG :=
  deleteIfDone t (sendReply t g s).1 (sendReply t g s).2

/-- `repop_ack`. -/
def repopAck (t : ℕ) (commit : Bool) (fromosd : ℕ) (thru : EVersion) (s : PG) : PG :=
  match s.repGather t with
  | none => s
  | some g =>
    if commit then
      if fromosd ∉ g.waitforCommit then s.fail
      else putRepGather t { g with
        waitforCommit := g.waitforCommit.erase fromosd
        waitforAck := g.waitforAck.erase fromosd
        pgCompleteThru := (fromosd, thru) :: g.pgCompleteThru } s
    else putRepGather t { g with waitforAck := g.waitforAck.erase fromosd } s

/-! ### Operations and replies -/

/-- `new_rep_gather`. Replies that came before the gather are dispatched again. -/
def newRepGather (t : ℕ) (wantsAck wantsCommit : Bool) (s : PG) : RepGather × PG :=
  let g : RepGather :=
    { wantsAck, wantsCommit, applied := false
      waitforAck := s.acting.toFinset, waitforCommit := s.acting.toFinset
      sentAck := false, sentCommit := false, osds := s.acting.toFinset
      pgLocalLastComplete := s.lastComplete, pgCompleteThru := [] }
  (g, { (s.setGather t g).note (.opened t g.osds) with
      net := s.net ++ s.waitingForRepop t
      waitingForRepop := Function.update s.waitingForRepop t [] })

/-- `issue_repop` to each of the replicas. -/
def issueRepops (t : ℕ) (s : PG) : PG :=
  { s with issued := s.issued ++ s.acting.tail.map fun o => (t, o, s.proc o) }

/-- `op_modify`, from where the operation is given a `rep_tid`. -/
def opModify (wantsAck wantsCommit : Bool) (s : PG) : PG :=
  let t := s.lastTid + 1
  let (g, s) := newRepGather t wantsAck wantsCommit { s with lastTid := t }
  let s := issueRepops t s
  if s.whoami ∉ g.waitforAck then s.fail
  else putRepGather t { g with waitforAck := g.waitforAck.erase s.whoami } s

/-- `sub_op_modify_reply`. -/
def subOpModifyReply (r : SubOpReply) (s : PG) : PG :=
  if (s.repGather r.tid).isSome then
    repopAck r.tid r.commit r.source r.completeThru
      (s.note (if r.commit then .committed r.tid r.source else .acked r.tid r.source))
  else { s with waitingForRepop :=
    Function.update s.waitingForRepop r.tid (s.waitingForRepop r.tid ++ [r]) }

/-- `op_modify_commit`. -/
def opModifyCommit (t : ℕ) (thru : EVersion) (s : PG) : PG :=
  match s.repGather t with
  | none => s
  | some g =>
    if s.whoami ∉ g.waitforCommit then s.fail
    else putRepGather t { g with
      waitforCommit := g.waitforCommit.erase s.whoami
      pgCompleteThru := (s.whoami, thru) :: g.pgCompleteThru } (s.note (.committed t s.whoami))

/-! ### Map changes -/

/-- `on_osd_failure`. -/
def onOsdFailure (s : PG) (o : ℕ) : PG :=
  let ls := s.tids.filter fun t =>
    (s.repGather t).any fun g => o ∈ g.waitforAck ∨ o ∈ g.waitforCommit
  ls.foldl (fun s t => repopAck t true o EVersion.zero s) (s.note (.failed o))

/-- One gather in `on_change`. -/
def applyIfNot (s : PG) (t : ℕ) : PG :=
  match s.repGather t with
  | none => s
  | some g =>
    if g.applied then s
    else
      let (g, s) := applyRepop t g s
      s.setGather t g

/-- `on_change`. -/
def onChange (s : PG) : PG := s.tids.foldl applyIfNot s

/-- A new map reaches the group in `advance_map`: the OSDs of `up` are up in it,
and it maps the group to `acting`. -/
def advanceMap (up : ℕ → Bool) (acting : List ℕ) (s : PG) : PG :=
  let old := s.acting
  let s := { s with
    up := up
    proc := fun o => if up o ∧ ¬ s.up o then s.proc o + 1 else s.proc o }
  if acting = old then s
  else onChange ((old.filter fun o => ¬ up o).foldl onOsdFailure { s with acting := acting })

/-! ### The system -/

/-- What can happen at the primary. -/
inductive Act
  | clientOp (wantsAck wantsCommit : Bool)                    -- an operation is queued
  | answer (t o p : ℕ) (commit : Bool) (thru : EVersion)      -- a replica sends a reply
  | dispatch (i : ℕ)                                          -- handle_sub_op_reply
  | dequeue                                                   -- a worker takes the next message
  | storeCommit (i : ℕ)                                       -- the store calls back
  | newMap (up : ℕ → Bool) (acting : List ℕ)
  | otherTid                                                  -- another group draws a tid
  | lastComplete (v : EVersion)                               -- info.last_complete moves

/-- A message of the queue is handled. -/
def handle (s : PG) : Work → PG
  | .op wantsAck wantsCommit =>
    if s.acting.head? = some s.whoami then opModify wantsAck wantsCommit s else s
  | .reply r => subOpModifyReply r s

/-- One step. A process of a replica answers a sub-op with one ack and one
commit, in any order. A group is mapped to different OSDs that are up, and a
primary that is not up has stopped. -/
def step (s : PG) (a : Act) : Option PG :=
  if s.ok = false then none
  else match a with
  | .clientOp wantsAck wantsCommit => some { s with opQueue := s.opQueue ++ [.op wantsAck wantsCommit] }
  | .answer t o p commit thru =>
    if (t, o, p) ∈ s.issued ∧ (t, o, commit) ∉ s.answered then some { s with
      answered := (t, o, commit) :: s.answered
      net := s.net ++ [⟨t, o, p, commit, thru⟩] }
    else none
  | .dispatch i =>
    match s.net[i]? with
    | none => none
    | some r =>
      let s := { s with net := s.net.eraseIdx i }
      -- require_same_or_newer_map
      if s.up r.source ∧ s.proc r.source = r.proc then some { s with opQueue := s.opQueue ++ [.reply r] }
      else some s
  | .dequeue =>
    match s.opQueue with
    | [] => none
    | w :: q => some (handle { s with opQueue := q } w)
  | .storeCommit i =>
    match s.oncommit[i]? with
    | none => none
    | some (t, thru) => some (opModifyCommit t thru { s with oncommit := s.oncommit.eraseIdx i })
  | .newMap up acting =>
    -- wait_for_no_ops
    if s.opQueue.isEmpty ∧ acting.Nodup ∧ (∀ o ∈ acting, up o) ∧ up s.whoami then
      some (advanceMap up acting s)
    else none
  | .otherTid => some { s with lastTid := s.lastTid + 1 }
  | .lastComplete v => some { s with lastComplete := v }

/-- OSD `whoami`, up, before the first map that gives it the group. -/
def init (whoami : ℕ) : PG where
  ok := true
  whoami := whoami
  up := fun o => o = whoami
  proc := fun _ => 0
  acting := []
  lastTid := 0
  repGather := fun _ => none
  waitingForRepop := fun _ => []
  lastComplete := EVersion.zero
  peersCompleteThru := EVersion.zero
  opQueue := []
  oncommit := []
  issued := []
  answered := []
  net := []
  log := []

end Osd
end Ceph
