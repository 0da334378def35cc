/-
# The recovery of a placement group

`PG::activate`, the writes of clients and of the primary, and recovery by
pulls and pushes (`osd/PG.cc`, `osd/ReplicatedPG.cc`): a PG knows from peering
which objects it misses, and as these arrive it walks `log.complete_to`
through its log and raises `info.last_complete`.

What peering leaves is a `Peered`: it carries what `read_log` and `merge_log`
make sure of, apart from logs that diverged. The store and the contents of objects are left out, and so are
the messages to replicas. An iterator of the log is the number of entries
before it, or `none` if it does not point into the log. One thing is recorded that the
source does not keep: whether `activate` has set `complete_to`.
-/
import Ceph.Osd.RepGather
import Mathlib.Data.Finset.Card
import Mathlib.Data.List.MinMax

namespace Ceph
namespace Osd
namespace Recovery

/-! ### Logs and missing objects -/

/-- The kinds of log entries. -/
inductive Op
  | lost
  | modify
  | clone
  | delete
deriving DecidableEq

/-- `Log::Entry`; objects have numbers. -/
structure Entry where
  op : Op
  oid : ℕ
  version : EVersion
deriving DecidableEq

/-- `is_update`. -/
def Entry.isUpdate (e : Entry) : Bool := e.op = .clone ∨ e.op = .modify

/-- `Missing::missing`. -/
abbrev Missing := List (ℕ × EVersion)

/-- `is_missing`. -/
def Missing.has (m : Missing) (o : ℕ) : Bool := m.any fun p => p.1 = o

/-- What `got` leaves. -/
def Missing.got (m : Missing) (o : ℕ) : Missing := m.filter fun p => p.1 ≠ o

/-- `log.objects[oid]`. -/
def latest (log : List Entry) (o : ℕ) : Option Entry := log.reverse.find? fun e => e.oid = o

/-- The objects that `read_log` finds missing: entries above `last_complete`, from the
newest on, whose object is not stored in that version. -/
def buildMissing (lastComplete : EVersion) (stored : ℕ → Option EVersion) : List Entry → List ℕ → Missing
  | [], _ => []
  | e :: es, did =>
    if e.version ≤ lastComplete then []
    else if did.contains e.oid then buildMissing lastComplete stored es did
    else if e.op = .delete then buildMissing lastComplete stored es (e.oid :: did)
    else
      let rest := buildMissing lastComplete stored es (e.oid :: did)
      if (stored e.oid).all (· < e.version) then (e.oid, e.version) :: rest else rest

/-- What peering leaves. The log is in order, and an object is missing in the version
of an entry above `last_complete`. -/
structure Peered where
  primary : Bool
  whoami : ℕ
  peers : List ℕ                        -- acting[1..]
  lastUpdate : EVersion
  lastComplete : EVersion
  log : List Entry
  bottom : EVersion
  backlog : Bool
  completeTo : Option ℕ                 -- what was there before
  requestedTo : Option ℕ
  missing : Missing
  loc : List ℕ
  peerMissing : ℕ → Missing
  sorted : log.Pairwise (·.version < ·.version)
  top : ∀ e ∈ log.getLast?, e.version = lastUpdate
  le : lastComplete ≤ lastUpdate
  logged : ∀ p ∈ missing, lastComplete < p.2 ∧ ∃ e ∈ log, e.oid = p.1 ∧ e.version = p.2
  nodup : (whoami :: peers).Nodup
  own : peerMissing whoami = []

theorem buildMissing_logged {lc : EVersion} {stored : ℕ → Option EVersion} : ∀ (es : List Entry) (did : List ℕ),
    ∀ p ∈ buildMissing lc stored es did, lc < p.2 ∧ ∃ e ∈ es, e.oid = p.1 ∧ e.version = p.2
  | [], _, p, hp => by cases hp
  | e :: es, did, p, hp => by
    have hrec (did : List ℕ) (hp : p ∈ buildMissing lc stored es did) :
        lc < p.2 ∧ ∃ x ∈ e :: es, x.oid = p.1 ∧ x.version = p.2 := by
      obtain ⟨hlt, x, hx, hxp⟩ := buildMissing_logged es did p hp
      exact ⟨hlt, x, List.mem_cons_of_mem _ hx, hxp⟩
    rw [buildMissing] at hp
    split_ifs at hp with hle hdid hdel hold
    · cases hp
    · exact hrec _ hp
    · exact hrec _ hp
    · rcases List.mem_cons.mp hp with rfl | hp
      · exact ⟨not_le.mp hle, e, List.mem_cons_self, rfl, rfl⟩
      · exact hrec _ hp
    · exact hrec _ hp

/-- `read_log`: a PG as it is read from the disk. -/
def readLog (lastUpdate lastComplete : EVersion) (log : List Entry) (bottom : EVersion) (backlog : Bool)
    (stored : ℕ → Option EVersion) (loc : List ℕ) (whoami : ℕ)
    (sorted : log.Pairwise (·.version < ·.version)) (top : ∀ e ∈ log.getLast?, e.version = lastUpdate)
    (le : lastComplete ≤ lastUpdate) : Peered where
  primary := false
  whoami := whoami
  peers := []
  lastUpdate := lastUpdate
  lastComplete := lastComplete
  log := log
  bottom := bottom
  backlog := backlog
  completeTo := none
  requestedTo := none
  missing := buildMissing lastComplete stored log.reverse []
  loc := loc
  peerMissing := fun _ => []
  sorted := sorted
  top := top
  le := le
  logged := fun p hp => by
    obtain ⟨hlt, e, he, hep⟩ := buildMissing_logged log.reverse [] p hp
    exact ⟨hlt, e, List.mem_reverse.mp he, hep⟩
  nodup := List.nodup_singleton _
  own := rfl

/-- A placement group. -/
structure PG where
  ok : Bool                             -- no assertion has failed
  active : Bool
  clean : Bool
  primary : Bool
  whoami : ℕ
  peers : List ℕ
  lastUpdate : EVersion
  lastComplete : EVersion
  log : List Entry
  top : EVersion
  bottom : EVersion
  backlog : Bool
  completeTo : Option ℕ
  requestedTo : Option ℕ
  missing : Missing
  loc : List ℕ
  objectsPulling : List ℕ
  uptodate : Finset ℕ
  peerMissing : ℕ → Missing
  pushing : List (ℕ × ℕ)
  -- not in the source
  pointed : Bool                        -- activate has set complete_to

/-- The PG after peering, before it is activated. -/
def Peered.toPG (p : Peered) : PG where
  ok := true
  active := false
  clean := false
  primary := p.primary
  whoami := p.whoami
  peers := p.peers
  lastUpdate := p.lastUpdate
  lastComplete := p.lastComplete
  log := p.log
  top := p.lastUpdate
  bottom := p.bottom
  backlog := p.backlog
  completeTo := p.completeTo
  requestedTo := p.requestedTo
  missing := p.missing
  loc := p.loc
  objectsPulling := []
  uptodate := ∅
  peerMissing := p.peerMissing
  pushing := []
  pointed := false

namespace PG

/-- `is_all_uptodate`. -/
def isAllUptodate (pg : PG) : Bool := pg.uptodate.card = (pg.whoami :: pg.peers).length

/-- `info.is_uptodate`. -/
def isUptodate (pg : PG) : Bool := pg.lastUpdate = pg.lastComplete

end PG

/-! ### Recovery -/

/-- `finish_recovery`. -/
def finishRecovery (pg : PG) : PG := { pg with clean := true }

/-- `push`; `none` if an assertion fails. -/
def push (o peer : ℕ) (pg : PG) : Option PG :=
  if pg.primary then
    if (pg.peerMissing peer).has o then
      some { pg with
        peerMissing := Function.update pg.peerMissing peer ((pg.peerMissing peer).got o)
        pushing := (o, peer) :: pg.pushing }
    else none
  else some pg

/-- An object is pushed to the peers that miss it. -/
def pushMissing (o : ℕ) : List ℕ → PG → Option PG
  | [], pg => some pg
  | p :: ps, pg =>
    if (pg.peerMissing p).has o then (push o p pg).bind (pushMissing o ps) else pushMissing o ps pg

/-- `rmissing.begin()`: the object that is missing in the lowest version. -/
def oldest (m : Missing) : ℕ :=
  ((m.argmin (·.2)).map (·.1)).getD 0

/-- `do_peer_recovery`. -/
def doPeerRecovery (pg : PG) : Option PG :=
  match (pg.whoami :: pg.peers).dropWhile fun p => pg.peerMissing p = [] with
  | [] => some (if pg.isAllUptodate then finishRecovery pg else pg)
  | p :: ps =>
    let o := oldest (pg.peerMissing p)
    (push o p pg).bind (pushMissing o ps)

/-- `pull`. -/
def pull (o : ℕ) (pg : PG) : Option PG :=
  if pg.loc.contains o ∧ ¬ pg.objectsPulling.contains o then
    some { pg with objectsPulling := o :: pg.objectsPulling }
  else none

/-- `do_recovery` would pull for this entry. -/
def wants (pg : PG) (e : Entry) : Bool :=
  ((latest pg.log e.oid).map fun l =>
    l.isUpdate && ! pg.objectsPulling.contains l.oid && pg.missing.has l.oid).getD false

/-- `do_recovery`; `busy` says that the OSD pulls as much as it may. -/
def doRecovery (busy : Bool) (pg : PG) : Option PG :=
  if pg.primary = false then none
  else if pg.isUptodate then
    if pg.isAllUptodate then some pg else doPeerRecovery pg
  else if busy ∧ pg.objectsPulling ≠ [] then some pg
  else pg.requestedTo.bind fun r =>
    let r := r + (pg.log.drop r).findIdx (wants pg)
    let pg := { pg with requestedTo := some r }
    match pg.log[r]? with
    | some e => pull e.oid pg
    | none =>
      if pg.objectsPulling ≠ [] then some pg
      else if pg.missing = [] ∧ pg.lastComplete = pg.lastUpdate then
        let pg := { pg with uptodate := insert pg.whoami pg.uptodate }
        some (if pg.isAllUptodate then finishRecovery pg else pg)
      else none

/-! ### Activation -/

/-- The first entry that is not below `last_complete`; `none` if there is none. -/
def firstNotBelow (pg : PG) : Option ℕ :=
  let i := pg.log.findIdx fun e => ¬ e.version < pg.lastComplete
  if i < pg.log.length then some i else none

/-- The complete pointer is initialised. In a PG that is complete, the source compares
`complete_to` with the end of the log and does not set it. -/
def initPointers (busy : Bool) (pg : PG) : Option PG :=
  if pg.lastComplete = pg.lastUpdate then some { pg with requestedTo := some pg.log.length }
  else (firstNotBelow pg).bind fun i =>
    let pg := { pg with completeTo := some i, pointed := true }
    if pg.primary then doRecovery busy { pg with requestedTo := some i } else some pg

/-- The primary looks who is up to date. -/
def startUp (busy : Bool) (pg : PG) : Option PG :=
  let me : Finset ℕ := if pg.isUptodate then {pg.whoami} else ∅
  let pg := { pg with uptodate := me ∪ (pg.peers.filter fun p => pg.peerMissing p = []).toFinset }
  if pg.isAllUptodate then some (finishRecovery pg) else doRecovery busy pg

/-- `activate`; `hack` is the fast startup, in which the primary does not look at its
replicas. -/
def activate (hack busy : Bool) (pg : PG) : Option PG :=
  if pg.active = false ∧ (pg.lastComplete ≥ pg.bottom ∨ pg.backlog = true) then
    (initPointers busy { pg with active := true }).bind fun pg =>
      if pg.primary ∧ ¬ hack then startUp busy pg else some pg
  else none

/-! ### Writes -/

/-- The iterator at the end of a log of `n` entries stays there when one is added. -/
def bump (n : ℕ) (i : Option ℕ) : Option ℕ := i.map fun i => if i = n then n + 1 else i

/-- The entries up to `s` are taken off the log; `none` if an assertion fails. -/
def pop (s : EVersion) : List Entry → Option ℕ → Option ℕ → Option (List Entry × Option ℕ × Option ℕ)
  | [], c, r => some ([], c, r)
  | e :: es, c, r =>
    if e.version > s then some (e :: es, c, r)
    else if c = some 0 ∨ r = some 0 then none
    else pop s es (c.map (· - 1)) (r.map (· - 1))

/-- `IndexedLog::trim`. -/
def trim (s : EVersion) (pg : PG) : Option PG :=
  let s := if pg.backlog ∧ s < pg.bottom then pg.bottom else s
  (pop s pg.log pg.completeTo pg.requestedTo).map fun r =>
    { pg with
      log := r.1, completeTo := r.2.1, requestedTo := r.2.2
      backlog := false, bottom := max pg.bottom s }

/-- `prepare_log_transaction`, with `append_log`. -/
def prepareLogTransaction (e : Entry) (trimTo : EVersion) (pg : PG) : Option PG :=
  if pg.top < e.version ∧ ((ofLex pg.top).2 = 0 ∨ (ofLex pg.top).2 < (ofLex e.version).2) then
    let n := pg.log.length
    let pg := { pg with
      log := pg.log ++ [e], top := e.version
      completeTo := bump n pg.completeTo, requestedTo := bump n pg.requestedTo }
    if pg.bottom < trimTo then trim trimTo pg else some pg
  else none

/-- The part of `prepare_op_transaction` that is about the PG. -/
def prepareOpTransaction (version : EVersion) (pg : PG) : Option PG :=
  let lastComplete := if pg.lastComplete = pg.lastUpdate then version else pg.lastComplete
  if pg.lastUpdate < version then some { pg with lastComplete, lastUpdate := version } else none

/-- A write is logged and applied. -/
def modify (e : Entry) (trimTo : EVersion) (pg : PG) : Option PG :=
  (prepareLogTransaction e trimTo pg).bind (prepareOpTransaction e.version)

/-- `op_modify`, of an object that is not missing. -/
def opModify (e : Entry) (trimTo : EVersion) (pg : PG) : Option PG :=
  (pushMissing e.oid pg.peers pg).bind (modify e trimTo)

/-- `sub_op_modify`. -/
def subOpModify (e : Entry) (trimTo : EVersion) (pg : PG) : Option PG :=
  if pg.missing.has e.oid then none else modify e trimTo pg

/-! ### Pushes -/

/-- `last_complete` is raised: the entries from `complete_to` on are passed, up to one
whose object is missing. -/
def walk (missing : Missing) : List Entry → EVersion → ℕ → EVersion × ℕ
  | [], lc, i => (lc, i)
  | e :: es, lc, i =>
    if missing.has e.oid then (lc, i)
    else walk missing es (if lc < e.version then e.version else lc) (i + 1)

/-- An object was received. -/
def received (o : ℕ) (pg : PG) : Option PG :=
  let missing := pg.missing.got o
  pg.completeTo.bind fun i =>
    if i = pg.log.length then none
    else
      let r := walk missing (pg.log.drop i) pg.lastComplete i
      some { pg with
        missing, loc := pg.loc.filter (· ≠ o), objectsPulling := pg.objectsPulling.filter (· ≠ o)
        lastComplete := r.1, completeTo := some r.2 }

/-- `sub_op_push`. -/
def subOpPush (o : ℕ) (v : EVersion) (busy : Bool) (pg : PG) : Option PG :=
  match pg.missing.lookup o with
  | none => some pg
  | some need =>
    if need ≤ v then
      (received o pg).bind fun pg =>
        if pg.primary then (pushMissing o pg.peers pg).bind (doRecovery busy) else some pg
    else none

/-- `sub_op_push_reply`. -/
def subOpPushReply (o peer : ℕ) (pg : PG) : Option PG :=
  if pg.pushing.contains (o, peer) then
    let pg := { pg with
      pushing := pg.pushing.filter (· ≠ (o, peer))
      uptodate := if pg.peerMissing peer = [] then insert peer pg.uptodate else pg.uptodate }
    if pg.pushing.any (·.1 = o) then some pg else doPeerRecovery pg
  else some pg

/-- `sub_op_pull`, from a replica. -/
def subOpPull (o peer : ℕ) (pg : PG) : Option PG :=
  if (pg.peerMissing peer).has o ∧ ¬ pg.missing.has o then push o peer pg else some pg

/-! ### The system -/

/-- What can happen. -/
inductive Act
  | peer (p : Peered)                   -- the map changes, and the PG peers again
  | activate (hack busy : Bool)
  | opModify (e : Entry) (trimTo : EVersion)
  | subOpModify (e : Entry) (trimTo : EVersion)
  | subOpPush (o : ℕ) (v : EVersion) (busy : Bool)
  | subOpPushReply (o peer : ℕ)
  | subOpPull (o peer : ℕ)
  | doRecovery (busy : Bool)

/-- The PG after a call; if an assertion failed, that is all there is to say. -/
def PG.after (pg : PG) (r : Option PG) : PG := r.getD { pg with ok := false }

/-- One step. -/
def step (pg : PG) (a : Act) : Option PG :=
  if pg.ok = false then none
  else match a with
  | .peer p => some p.toPG
  | .activate hack busy => some (pg.after (activate hack busy pg))
  | .opModify e trimTo =>
    -- an op on a missing object waits
    if pg.active ∧ pg.primary ∧ ¬ pg.missing.has e.oid then some (pg.after (opModify e trimTo pg)) else none
  | .subOpModify e trimTo =>
    if pg.active ∧ ¬ pg.primary then some (pg.after (subOpModify e trimTo pg)) else none
  | .subOpPush o v busy => if pg.active then some (pg.after (subOpPush o v busy pg)) else none
  | .subOpPushReply o peer =>
    if pg.active ∧ pg.primary then some (pg.after (subOpPushReply o peer pg)) else none
  | .subOpPull o peer =>
    if pg.active ∧ pg.peers.contains peer then some (pg.after (subOpPull o peer pg)) else none
  | .doRecovery busy =>
    if pg.active ∧ pg.primary then some (pg.after (doRecovery busy pg)) else none

end Recovery
end Osd
end Ceph
