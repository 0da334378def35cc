/-
# The Objecter's modifications

`Objecter` of `osdc/Objecter.cc`: a modification is striped over extents, and
each is sent to the primary of its placement group under an id, a `tid`. The
modification waits for the ack and for the commit of every tid; when the map
moves a group, its tids are submitted again under the same ids. Reads and
`stat`, which keep their own tables, are left out.

Some things are recorded that the source does not keep: the tids of each
modification, how often a tid was submitted and which submissions were acked,
the tids whose ack or commit was taken, and the callbacks.
-/
import Mathlib.Data.Finset.Basic
import Mathlib.Data.List.Sort
import Ceph.Lib.Run

namespace Ceph
namespace Osdc

/-- `Objecter::PG`. -/
structure PG where
  acting : List ℕ
  activeTids : List ℕ       -- set<tid_t>

/-- `g_conf.osd_rep`. -/
inductive Rep
  | primary
  | splay
  | chain
deriving DecidableEq

/-- The acker at the second place of `acting`, if it has one. -/
def second (acting : List ℕ) : Option ℕ := if acting.length > 1 then acting[1]? else acting[0]?

/-- `PG::acker`; `none` stands for -1. -/
def PG.acker (rep : Rep) (pg : PG) : Option ℕ :=
  if rep = .primary then pg.acting.head? else second pg.acting

/-- `OSDModify`. The two maps of waiting extents have the same extent under a tid;
of an extent, `layout` is its placement group. -/
structure OSDModify where
  isWrite : Bool            -- op == CEPH_OSD_OP_WRITE
  onack : Bool
  oncommit : Bool
  layout : ℕ → ℕ
  waitforAck : Finset ℕ
  tidVersion : ℕ → Option ℕ
  waitforCommit : Finset ℕ

/-- A callback of a modification. -/
inductive Callback
  | onack (w : ℕ)
  | oncommit (w : ℕ)
deriving DecidableEq

structure Objecter where
  ok : Bool                         -- no assertion has failed
  lastTid : ℕ
  osdmap : ℕ → List ℕ               -- pg_to_acting_osds
  pgs : List ℕ                      -- the keys of pg_map
  pg : ℕ → PG
  opModify : ℕ → Option ℕ
  wrs : ℕ → Option OSDModify        -- none: not made yet, or deleted
  numWrs : ℕ
  -- not in the source
  extents : ℕ → List ℕ              -- the groups of a modification's extents
  tids : ℕ → List ℕ                 -- and their tids
  attempts : ℕ → ℕ                  -- the submissions of a tid
  answered : Finset (ℕ × ℕ)         -- the submissions that were acked
  acked : Finset ℕ                  -- an ack or commit of the tid was taken
  committed : Finset ℕ              -- a commit was taken
  fired : List Callback

/-- An assertion has failed. -/
def Objecter.fail (s : Objecter) : Objecter := { s with ok := false }

/-- An element is put into a set. -/
def setInsert (x : ℕ) (l : List ℕ) : List ℕ := if x ∈ l then l else l.orderedInsert (· ≤ ·) x

/-- `get_pg` opens the group. -/
def getPg (p : ℕ) (s : Objecter) : Objecter :=
  if p ∈ s.pgs then s
  else { s with pgs := setInsert p s.pgs, pg := Function.update s.pg p ⟨s.osdmap p, []⟩ }

/-- `close_pg`. -/
def closePg (p : ℕ) (s : Objecter) : Objecter :=
  if p ∈ s.pgs ∧ (s.pg p).activeTids = [] then { s with pgs := s.pgs.erase p } else s.fail

/-- `modifyx_submit` of the extent with group `p` under `tid`. -/
def modifyxSubmit (w p tid : ℕ) (s : Objecter) : Objecter :=
  let s := getPg p s
  match s.wrs w with
  | none => s.fail
  | some wr => { s with
      wrs := Function.update s.wrs w (some { wr with
        waitforAck := insert tid wr.waitforAck
        waitforCommit := insert tid wr.waitforCommit
        layout := Function.update wr.layout tid p })
      opModify := Function.update s.opModify tid (some w)
      pg := Function.update s.pg p { s.pg p with activeTids := setInsert tid (s.pg p).activeTids }
      attempts := Function.update s.attempts tid (s.attempts tid + 1) }

/-- The next extent of a modification: `tid = ++last_tid`. -/
def submitNext (w : ℕ) (s : Objecter) (p : ℕ) : Objecter :=
  modifyxSubmit w p (s.lastTid + 1) { s with
    lastTid := s.lastTid + 1
    tids := Function.update s.tids w (s.tids w ++ [s.lastTid + 1]) }

/-- `modifyx` of a new modification with extents in the groups `ps`. -/
def modifyx (isWrite onack oncommit : Bool) (ps : List ℕ) (s : Objecter) : Objecter :=
  ps.foldl (submitNext s.numWrs) { s with
    wrs := Function.update s.wrs s.numWrs
      (some ⟨isWrite, onack, oncommit, fun _ => 0, ∅, fun _ => none, ∅⟩)
    numWrs := s.numWrs + 1
    extents := Function.update s.extents s.numWrs ps }

/-! ### Map changes -/

variable (rep : Rep) (bufferUncommitted : Bool)

/-- The change of a group matters. -/
def significant (old new : List ℕ) : Bool :=
  match rep with
  | .primary => ¬ (old ≠ [] ∧ new ≠ [] ∧ old.head? = new.head?)
  | .splay => ¬ (old ≠ [] ∧ new ≠ [] ∧ old.head? = new.head? ∧ second old = second new)
  | .chain => true

/-- `scan_pgs` on a new map, with the groups that changed. -/
def scanPgs (s : Objecter) (changed : List ℕ) (map : ℕ → List ℕ) : Objecter × List ℕ :=
  ({ s with
      osdmap := map
      pg := fun p => if p ∈ s.pgs then { s.pg p with acting := map p } else s.pg p },
    (s.pgs.filter fun p => map p ≠ (s.pg p).acting ∧ significant rep (s.pg p).acting (map p)).foldl
      (fun c p => setInsert p c) changed)

/-- A tid of a group that changed. -/
def kickTid (s : Objecter) (tid : ℕ) : Objecter :=
  match s.opModify tid with
  | none => s.fail
  | some w =>
    let s := { s with opModify := Function.update s.opModify tid none }
    match s.wrs w with
    | none => s.fail
    | some wr =>
      if (wr.tidVersion tid).isSome then
        -- missing commit; without the data, it cannot be replayed
        if wr.isWrite ∧ bufferUncommitted = false then s
        else modifyxSubmit w (wr.layout tid) tid s
      else if tid ∈ wr.waitforAck then modifyxSubmit w (wr.layout tid) tid s
      else s

/-- A group that changed. -/
def kickPg (s : Objecter) (p : ℕ) : Objecter :=
  let s := if p ∈ s.pgs then s else { s with pgs := setInsert p s.pgs, pg := Function.update s.pg p ⟨[], []⟩ }
  let tids := (s.pg p).activeTids
  tids.foldl (kickTid bufferUncommitted)
    (closePg p { s with pg := Function.update s.pg p { s.pg p with activeTids := [] } })

/-- `kick_requests`. -/
def kickRequests (changed : List ℕ) (s : Objecter) : Objecter := changed.foldl (kickPg bufferUncommitted) s

/-- `handle_osd_map` with some newer maps. -/
def handleOsdMap (maps : List (ℕ → List ℕ)) (s : Objecter) : Objecter :=
  let (s, changed) := maps.foldl (fun p map => scanPgs rep p.1 p.2 map) (s, [])
  kickRequests bufferUncommitted changed s

/-! ### Replies -/

/-- `MOSDOpReply`, with the submission that it answers. -/
structure Reply where
  tid : ℕ
  safe : Bool
  version : ℕ
  source : ℕ
  result : ℤ
  attempt : ℕ

/-- A tid leaves its group, which is closed when it was the last one. -/
def leaves (s : Objecter) (p tid : ℕ) : Objecter :=
  let pg : PG := { s.pg p with activeTids := (s.pg p).activeTids.erase tid }
  let s := { s with pg := Function.update s.pg p pg }
  if pg.activeTids = [] then closePg p s else s

/-- A commit is taken. -/
def takeCommit (r : Reply) (w : ℕ) (wr : OSDModify) (s : Objecter) : Objecter :=
  let p := wr.layout r.tid
  if ¬ ((wr.tidVersion r.tid).all fun v => r.version = v) then s.fail
  else if r.tid ∉ (s.pg p).activeTids then s.fail
  else
    let s := leaves s p r.tid
    let wr := { wr with
      waitforAck := wr.waitforAck.erase r.tid, waitforCommit := wr.waitforCommit.erase r.tid }
    let s := { s with
      opModify := Function.update s.opModify r.tid none
      acked := insert r.tid s.acked
      committed := insert r.tid s.committed }
    if wr.waitforCommit = ∅ then { s with
      wrs := Function.update s.wrs w none
      fired := s.fired ++ (if wr.onack then [.onack w] else []) ++ (if wr.oncommit then [.oncommit w] else []) }
    else { s with wrs := Function.update s.wrs w (some wr) }

/-- An ack is taken. -/
def takeAck (r : Reply) (w : ℕ) (wr : OSDModify) (s : Objecter) : Objecter :=
  if r.tid ∉ wr.waitforAck then s.fail
  else
    let wr := { wr with
      waitforAck := wr.waitforAck.erase r.tid
      tidVersion := Function.update wr.tidVersion r.tid (some r.version) }
    let s := { s with acked := insert r.tid s.acked }
    if wr.waitforAck = ∅ then { s with
      wrs := Function.update s.wrs w (some { wr with onack := false })
      fired := s.fired ++ (if wr.onack then [.onack w] else []) }
    else { s with wrs := Function.update s.wrs w (some wr) }

/-- `handle_osd_modify_reply`. -/
def handleOsdModifyReply (r : Reply) (s : Objecter) : Objecter :=
  match s.opModify r.tid with
  | none => s                 -- stray
  | some w =>
    match s.wrs w with
    | none => s.fail
    | some wr =>
      let s := getPg (wr.layout r.tid) s
      if (s.pg (wr.layout r.tid)).acker rep ≠ some r.source then s
      else if r.result < 0 then s.fail
      else if r.safe then takeCommit r w wr s
      else takeAck r w wr s

/-! ### Runs -/

inductive Event
  | modify (isWrite onack oncommit : Bool) (ps : List ℕ)
  | osdMap (maps : List (ℕ → List ℕ))
  | reply (r : Reply)

/-- A reply answers a submission, and no submission is acked twice. -/
def Answers (s : Objecter) (r : Reply) : Prop :=
  1 ≤ r.attempt ∧ r.attempt ≤ s.attempts r.tid ∧ (r.safe = false → (r.tid, r.attempt) ∉ s.answered)

instance (s : Objecter) (r : Reply) : Decidable (Answers s r) := inferInstanceAs (Decidable (_ ∧ _ ∧ _))

def step (s : Objecter) : Event → Option Objecter
  | .modify isWrite onack oncommit ps => if s.ok then some (modifyx isWrite onack oncommit ps s) else none
  | .osdMap maps => if s.ok then some (handleOsdMap rep bufferUncommitted maps s) else none
  | .reply r =>
    if s.ok ∧ Answers s r then
      some (handleOsdModifyReply rep r (if r.safe then s
        else { s with answered := insert (r.tid, r.attempt) s.answered }))
    else none

/-- A new Objecter, with its map. -/
def init (map : ℕ → List ℕ) : Objecter where
  ok := true
  lastTid := 0
  osdmap := map
  pgs := []
  pg := fun _ => ⟨[], []⟩
  opModify := fun _ => none
  wrs := fun _ => none
  numWrs := 0
  extents := fun _ => []
  tids := fun _ => []
  attempts := fun _ => 0
  answered := ∅
  acked := ∅
  committed := ∅
  fired := []

end Osdc
end Ceph
