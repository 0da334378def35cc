/-
# The log of a placement group and its index

`PG::IndexedLog` of `osd/PG.h` keeps, beside the list of entries, the newest
entry of each object and the ids of the requests logged; `PG::Missing` keeps
which objects are to be recovered, and in which version. Here are their
operations and those of `PG` that change them: `merge_log`,
`generate_backlog`, `drop_backlog`.

Objects and requests have numbers. The pointers of `objects` are entries here,
and the iterators `complete_to` and `requested_to` the versions of the entries
they point at. A failed assertion is an error; the one of `unindex` has a name
of its own, and so that it can be told from others, undefined behaviour (an
iterator used at the end of its list) counts among the others.
-/
import Ceph.Osd.Recovery

namespace Ceph
namespace Osd
namespace PGLog

open Recovery (Op)

/-- A failed assertion: that of `unindex`, or another. -/
inductive Assert
  | unindex
  | other
deriving DecidableEq, Repr

theorem toOption_eq_some {α : Type} {r : Except Assert α} {a : α} : r.toOption = some a ↔ r = .ok a := by
  cases r with
  | error b => exact ⟨nofun, nofun⟩
  | ok b => exact ⟨fun h => congrArg Except.ok (Option.some.inj h), fun h => congrArg some (Except.ok.inj h)⟩

/-- `eversion_t::version`. -/
def number (v : EVersion) : ℕ := (ofLex v).2

/-- `Log::Entry`. -/
structure Entry extends Recovery.Entry where
  reqid : ℕ
deriving DecidableEq

/-- `osd_reqid_t()`. -/
def noReqid : ℕ := 0

def Entry.isDelete (e : Entry) : Bool := e.op = .delete

/-! ### `Missing` -/

/-- The objects missing, the versions they are missing in, and where they may be. -/
structure Missing where
  missing : ℕ → Option EVersion
  rmissing : EVersion → Option ℕ
  loc : ℕ → Option ℕ

namespace Missing

def empty : Missing := ⟨fun _ => none, fun _ => none, fun _ => none⟩

/-- `is_missing(oid)`. -/
def isMissing (m : Missing) (oid : ℕ) : Bool := (m.missing oid).isSome

/-- `rmissing.erase(missing[oid])`. -/
def unlist (m : Missing) (oid : ℕ) : EVersion → Option ℕ :=
  match m.missing oid with
  | none => m.rmissing
  | some v => Function.update m.rmissing v none

/-- `add(oid, v)`: unless a newer version is missing. -/
def add (m : Missing) (oid : ℕ) (v : EVersion) : Missing :=
  if (m.missing oid).any (v < ·) then m
  else { m with
    missing := Function.update m.missing oid (some v)
    rmissing := Function.update (m.unlist oid) v (some oid) }

/-- `rm(oid, when)`: if an older version is missing. -/
def rm (m : Missing) (oid : ℕ) (when : EVersion) : Missing :=
  if (m.missing oid).any (· < when) then
    { missing := Function.update m.missing oid none
      rmissing := m.unlist oid
      loc := Function.update m.loc oid none }
  else m

end Missing

/-! ### `IndexedLog` -/

/-- `objects` and `caller_ops`. -/
structure Index where
  objects : ℕ → Option Entry
  callerOps : ℕ → Bool

namespace Index

def empty : Index := ⟨fun _ => none, fun _ => false⟩

/-- `objects[e.oid] = &e; caller_ops.insert(e.reqid)`. -/
def set (ix : Index) (e : Entry) : Index :=
  ⟨Function.update ix.objects e.oid (some e), Function.update ix.callerOps e.reqid true⟩

@[simp] theorem set_objects (ix : Index) (e : Entry) :
    (ix.set e).objects = Function.update ix.objects e.oid (some e) := rfl

/-- `index()`, of a whole log. -/
def all (log : List Entry) : Index := log.foldl set empty

/-- `index(e)`. -/
def index (ix : Index) (e : Entry) : Index :=
  if (ix.objects e.oid).all fun o => o.version < e.version then ix.set e
  else { ix with callerOps := Function.update ix.callerOps e.reqid true }

/-- `unindex(e)`: asserts that the object is indexed. -/
def unindex (ix : Index) (e : Entry) : Option Index :=
  (ix.objects e.oid).map fun o =>
    ⟨if o.version = e.version then Function.update ix.objects e.oid none else ix.objects,
      Function.update ix.callerOps e.reqid false⟩

end Index

/-- `Log`. -/
structure Log where
  log : List Entry
  top : EVersion
  bottom : EVersion
  backlog : Bool

structure IndexedLog extends Log where
  ix : Index
  completeTo : Option EVersion
  requestedTo : Option EVersion

/-- `is_dup`: `caller_ops` has the request. -/
def IndexedLog.isDup (l : IndexedLog) (r : ℕ) : Bool := l.ix.callerOps r

/-- `add`. -/
def IndexedLog.add (l : IndexedLog) (e : Entry) : Except Assert IndexedLog :=
  if l.top < e.version ∧ (number l.top = 0 ∨ number l.top < number e.version) then
    .ok { l with log := l.log ++ [e], top := e.version, ix := l.ix.set e }
  else .error .other

/-- `index()`. -/
def IndexedLog.index (l : IndexedLog) : IndexedLog := { l with ix := Index.all l.log }

/-- The loops that take entries off one end of the log: until `stop`, each
entry must pass `check` and is unindexed. -/
def unindexWhile (stop check : Entry → Bool) : List Entry → Index → Except Assert (List Entry × Index)
  | [], ix => .ok ([], ix)
  | e :: es, ix =>
    if stop e then .ok (e :: es, ix)
    else if check e then
      match ix.unindex e with
      | none => .error .unindex
      | some ix => unindexWhile stop check es ix
    else .error .other

/-- `trim`. -/
def IndexedLog.trim (l : IndexedLog) (s : EVersion) : Except Assert IndexedLog :=
  let s := if l.backlog ∧ s < l.bottom then l.bottom else s
  (unindexWhile (fun e => s < e.version)
      (fun e => l.completeTo ≠ some e.version ∧ l.requestedTo ≠ some e.version) l.log l.ix).map fun p =>
    { l with log := p.1, ix := p.2, backlog := false, bottom := if l.bottom < s then s else l.bottom }

/-- `trim_write_ahead`. -/
def IndexedLog.trimWriteAhead (l : IndexedLog) (lastUpdate : EVersion) : Except Assert IndexedLog :=
  (unindexWhile (fun e => e.version ≤ lastUpdate) (fun _ => true) l.log.reverse l.ix).map fun p =>
    { l with log := p.1.reverse, ix := p.2 }

/-! ### `PG` -/

/-- What `merge_log` and its like change of a PG. -/
structure PG where
  log : IndexedLog
  missing : Missing
  lastUpdate : EVersion
  lastComplete : EVersion
  logBottom : EVersion
  logBacklog : Bool
  oldestUpdate : EVersion

/-- An entry merged: the object is missing, or deleted. -/
def mergeEntry (m : Missing) (e : Entry) : Missing :=
  if e.isUpdate then m.add e.oid e.version else m.rm e.oid e.version

/-- The entries of the old log above the split point, which are discarded. -/
def discardDivergent (split : EVersion) (ix : Index) : List Entry → Missing → Missing
  | [], m => m
  | oe :: old, m =>
    if split < oe.version then
      discardDivergent split ix old
        (if (ix.objects oe.oid).all fun o => o.version < oe.version then m.add oe.oid oe.version else m)
    else m

/-- The walk from the top of the new log to the split point. -/
def findSplit (top : EVersion) (ix : Index) (old : List Entry) : List Entry → Missing → EVersion → Missing × EVersion
  | [], m, oldest => (m, oldest)
  | p :: ps, m, oldest =>
    if p.version ≤ top then
      if p.version < top then (discardDivergent p.version ix old m, if p.version < oldest then p.version else oldest)
      else (m, oldest)
    else findSplit top ix old ps (if p.isDelete then m.rm p.oid p.version else m.add p.oid p.version) oldest

/-- `merge_log` with nothing in common: the other log takes the place of ours. -/
def swapLog (pg : PG) (olog : Log) : PG :=
  let ix := Index.all olog.log
  let r := findSplit pg.log.top ix pg.log.log.reverse olog.log.reverse pg.missing pg.oldestUpdate
  { pg with
    log := { pg.log with log := olog.log, top := olog.top, bottom := olog.bottom, backlog := olog.backlog, ix := ix }
    missing := r.1, oldestUpdate := r.2
    lastUpdate := olog.top, logBottom := olog.bottom, logBacklog := olog.backlog }

/-- The part of the other log that extends ours on the bottom. -/
def below (bottom : EVersion) (es : List Entry) : List Entry := es.takeWhile fun e => e.version ≤ bottom

/-- The other log goes further down and reaches ours. -/
def extendsBottom (pg : PG) (olog : Log) : Prop :=
  olog.bottom < pg.log.bottom ∧ pg.log.bottom ≤ olog.top ∧ pg.log.backlog = false

instance (pg : PG) (olog : Log) : Decidable (extendsBottom pg olog) := inferInstanceAs (Decidable (_ ∧ _))

/-- `merge_log`: extend on bottom. What is left of the other log is returned. -/
def extendBottom (pg : PG) (olog : Log) : Except Assert (PG × List Entry) :=
  if extendsBottom pg olog then
    let part := below pg.log.bottom olog.log
    let rest := olog.log.dropWhile fun e => e.version ≤ pg.log.bottom
    if rest = [] then .error .other
    else .ok ({ pg with
      log := { pg.log with
        log := part ++ pg.log.log, bottom := olog.bottom, backlog := olog.backlog, ix := part.foldl Index.index pg.log.ix }
      missing := part.foldl (fun m e => if pg.lastComplete < e.version then mergeEntry m e else m) pg.missing
      logBottom := olog.bottom, logBacklog := olog.backlog }, rest)
  else .ok (pg, olog.log)

/-- The part of the other log that extends ours on top, newest first. -/
def above (top : EVersion) (es : List Entry) : List Entry := es.reverse.takeWhile fun e => ¬ e.version < top

/-- The divergent entries at the end of our log (newest first) are removed:
those from the first of the new ones on. -/
def removeDivergent (fromVersion : EVersion) (ix : Index) (m : Missing) : List Entry → Except Assert (List Entry)
  | [] => .error .other
  | oldtail :: rest =>
    if number oldtail.version + 1 = number fromVersion then .ok (oldtail :: rest)
    else if number oldtail.version < number fromVersion then .error .other
    else match ix.objects oldtail.oid with
      | none => .error .other
      | some o =>
        if o.version ≠ oldtail.version ∧ m.isMissing oldtail.oid then removeDivergent fromVersion ix m rest
        else .error .other

/-- The other log goes further up and reaches ours. -/
def extendsTop (pg : PG) (olog : Log) : Prop := pg.log.top < olog.top ∧ olog.bottom ≤ pg.log.top

instance (pg : PG) (olog : Log) : Decidable (extendsTop pg olog) := inferInstanceAs (Decidable (_ ∧ _))

/-- `merge_log`: extend on top, with what is left of the other log. -/
def extendTop (pg : PG) (olog : Log) (es : List Entry) : Except Assert PG :=
  if extendsTop pg olog then
    let fresh := above pg.log.top es
    let ix := fresh.foldl Index.index pg.log.ix
    let m := fresh.foldl mergeEntry pg.missing
    match fresh.getLast? with
    | none => .error .other
    | some first =>
      (removeDivergent first.version ix m pg.log.log.reverse).map fun kept =>
        { pg with
          log := { pg.log with log := kept.reverse ++ fresh.reverse, top := olog.top, ix := ix }
          missing := m, lastUpdate := olog.top }
  else .ok pg

/-- `merge_log` merges the two logs rather than taking the other one. -/
def mergeable (pg : PG) (olog : Log) : Prop :=
  ¬ (pg.log.top = EVersion.zero ∨ pg.log.top < olog.bottom ∧ olog.backlog = true)

instance (pg : PG) (olog : Log) : Decidable (mergeable pg olog) := inferInstanceAs (Decidable (¬ _))

/-- `merge_log`. -/
def mergeLog (pg : PG) (olog : Log) : Except Assert PG :=
  if mergeable pg olog then (extendBottom pg olog).bind fun p => extendTop p.1 olog p.2
  else .ok (swapLog pg olog)

/-- `add[e.version] = e`. -/
def putEntry (es : List Entry) (e : Entry) : List Entry :=
  es.takeWhile (fun x => x.version < e.version) ++ e :: es.dropWhile fun x => x.version ≤ e.version

/-- The entries that `generate_backlog` makes of the objects found. -/
def backlogEntries (ix : Index) (stored : ℕ → EVersion) (olist : List ℕ) : List Entry :=
  (olist.filter fun oid => (ix.objects oid).isNone).foldl
    (fun add oid => putEntry add ⟨⟨.modify, oid, stored oid⟩, noReqid⟩) []

/-- `generate_backlog`, with the objects in the store and their versions. -/
def generateBacklog (stored : ℕ → EVersion) (olist : List ℕ) (l : IndexedLog) : Except Assert IndexedLog :=
  if l.backlog then .error .other
  else
    let add := backlogEntries l.ix stored olist
    .ok { l with log := add ++ l.log, backlog := true, ix := add.reverse.foldl Index.index l.ix }

/-- `drop_backlog`. -/
def dropBacklog (l : IndexedLog) : Except Assert IndexedLog :=
  if l.backlog then
    (unindexWhile (fun e => l.bottom < e.version) (fun _ => true) l.log l.ix).map fun p =>
      { l with log := p.1, ix := p.2, backlog := false }
  else .error .other

end PGLog
end Osd
end Ceph
