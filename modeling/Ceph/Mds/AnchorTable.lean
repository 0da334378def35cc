/-
# The anchor table

An inode with more than one link is anchored: the anchor table keeps where it
is, and where the directories above it are, each with a count of the anchored
inodes that are found through it. An anchor is created, destroyed or moved in
two steps: `create_prepare` and its like note what is to be done under a number
(the table's version), `commit` and `rollback` finish it. What a `create`
enters is there at once, an `update` changes nothing before it is committed.

A failed assertion is `none`, and so is a walk that goes round for ever. The
requests' answers and the journal are not here.
-/
import Mathlib.Data.Finmap

namespace Ceph
namespace Anchors

/-- `MDS_INO_BASE`: inodes below it are the system's. -/
def inoBase : ℕ := 6 * 256

/-- `dirfrag_t`: a directory and a fragment of it. -/
structure Dirfrag where
  ino : ℕ
  frag : ℕ
deriving DecidableEq

structure Anchor where
  ino : ℕ
  dirfrag : Dirfrag
  nref : ℤ
deriving DecidableEq

/-- `anchor_map`. -/
abbrev AnchorMap := Finmap fun _ : ℕ => Anchor

/-! ### Basic updates -/

/-- `add`: an anchor that is there stays as it is. -/
def add (m : AnchorMap) (ino : ℕ) (dirfrag : Dirfrag) : Option AnchorMap :=
  if dirfrag.ino < inoBase ∨ dirfrag.ino ∈ m then some (if ino ∈ m then m else m.insert ino ⟨ino, dirfrag, 0⟩) else none

/-- The anchors of a trace. -/
def addAll : AnchorMap → List Anchor → Option AnchorMap
  | m, [] => some m
  | m, a :: trace => (add m a.ino a.dirfrag).bind fun m => addAll m trace

/-- An anchor changed, or erased. -/
def store (m : AnchorMap) (ino : ℕ) : Option Anchor → AnchorMap
  | none => m.erase ino
  | some anchor => m.insert ino anchor

theorem lookup_store (m : AnchorMap) (ino : ℕ) (r : Option Anchor) (i : ℕ) :
    (store m ino r).lookup i = if i = ino then r else m.lookup i := by
  by_cases hi : i = ino
  · rw [if_pos hi, hi]
    cases r with
    | none => exact Finmap.lookup_erase ino m
    | some anchor => exact Finmap.lookup_insert m
  · rw [if_neg hi]
    cases r with
    | none => exact Finmap.lookup_erase_ne hi
    | some anchor => exact Finmap.lookup_insert_of_ne m hi

/-- The loop of `inc` and `dec`: the anchor and those above it are changed, or
erased. -/
def climb (f : Anchor → Option Anchor) : ℕ → AnchorMap → ℕ → Option AnchorMap
  | 0, _, _ => none
  | n + 1, m, ino =>
    match m.lookup ino with
    | none => some m
    | some anchor =>
      let m := store m ino (f anchor)
      if anchor.dirfrag.ino = 0 then some m else climb f n m anchor.dirfrag.ino

/-- A reference more. -/
def bump (anchor : Anchor) : Option Anchor := some { anchor with nref := anchor.nref + 1 }

/-- A reference less; with none left the anchor goes. -/
def drop (anchor : Anchor) : Option Anchor :=
  if anchor.nref - 1 = 0 then none else some { anchor with nref := anchor.nref - 1 }

/-- `inc`. -/
def inc (m : AnchorMap) (ino : ℕ) : Option AnchorMap := if ino ∈ m then climb bump (m.keys.card + 1) m ino else none

/-- `dec`. -/
def dec (m : AnchorMap) (ino : ℕ) : Option AnchorMap := if ino ∈ m then climb drop (m.keys.card + 1) m ino else none

/-- The loop of `handle_lookup`. -/
def lookupFrom (m : AnchorMap) : ℕ → ℕ → List Anchor → Option (List Anchor)
  | 0, _, _ => none
  | n + 1, curino, trace =>
    match m.lookup curino with
    | none => none
    | some anchor =>
      if anchor.dirfrag.ino < inoBase then some (anchor :: trace)
      else lookupFrom m n anchor.dirfrag.ino (anchor :: trace)

/-- `handle_lookup`: the trace that is sent back. -/
def handleLookup (m : AnchorMap) (ino : ℕ) : Option (List Anchor) := lookupFrom m m.keys.card ino []

/-! ### Transactions -/

/-- `AnchorTable`. -/
structure Table where
  anchorMap : AnchorMap
  pendingReqmds : ℕ → Option ℕ
  pendingCreate : ℕ → Option ℕ
  pendingDestroy : ℕ → Option ℕ
  pendingUpdate : ℕ → Option (ℕ × List Anchor)
  version : ℕ

/-- `create_fresh`. -/
def createFresh : Table := ⟨∅, fun _ => none, fun _ => none, fun _ => none, fun _ => none, 1⟩

/-- The version goes up, and the request's MDS is noted under it. -/
def Table.bumped (t : Table) (reqmds : ℕ) : Table :=
  { t with version := t.version + 1, pendingReqmds := Function.update t.pendingReqmds (t.version + 1) (some reqmds) }

/-- `create_prepare`. -/
def createPrepare (t : Table) (ino : ℕ) (trace : List Anchor) (reqmds : ℕ) : Option Table :=
  (addAll t.anchorMap trace).bind fun m => (inc m ino).map fun m =>
    { t.bumped reqmds with
      anchorMap := m, pendingCreate := Function.update t.pendingCreate (t.version + 1) (some ino) }

/-- `destroy_prepare`. -/
def destroyPrepare (t : Table) (ino reqmds : ℕ) : Table :=
  { t.bumped reqmds with pendingDestroy := Function.update t.pendingDestroy (t.version + 1) (some ino) }

/-- `update_prepare`. -/
def updatePrepare (t : Table) (ino : ℕ) (trace : List Anchor) (reqmds : ℕ) : Table :=
  { t.bumped reqmds with pendingUpdate := Function.update t.pendingUpdate (t.version + 1) (some (ino, trace)) }

/-- A transaction finished: its MDS is forgotten, and the version goes up. -/
def Table.finished (t : Table) (atid : ℕ) : Table :=
  { t with version := t.version + 1, pendingReqmds := Function.update t.pendingReqmds atid none }

/-- `commit`. -/
def commit (t : Table) (atid : ℕ) : Option Table :=
  match t.pendingCreate atid with
  | some _ => some { t.finished atid with pendingCreate := Function.update t.pendingCreate atid none }
  | none =>
    match t.pendingDestroy atid with
    | some ino => (dec t.anchorMap ino).map fun m =>
        { t.finished atid with anchorMap := m, pendingDestroy := Function.update t.pendingDestroy atid none }
    | none =>
      match t.pendingUpdate atid with
      | some (ino, trace) => (dec t.anchorMap ino).bind fun m => (addAll m trace).bind fun m => (inc m ino).map fun m =>
          { t.finished atid with anchorMap := m, pendingUpdate := Function.update t.pendingUpdate atid none }
      | none => none

/-- `rollback`. -/
def rollback (t : Table) (atid : ℕ) : Option Table :=
  match t.pendingCreate atid with
  | some ino => (dec t.anchorMap ino).map fun m =>
      { t.finished atid with anchorMap := m, pendingCreate := Function.update t.pendingCreate atid none }
  | none =>
    match t.pendingDestroy atid with
    | some _ => some { t.finished atid with pendingDestroy := Function.update t.pendingDestroy atid none }
    | none =>
      match t.pendingUpdate atid with
      | some _ => some { t.finished atid with pendingUpdate := Function.update t.pendingUpdate atid none }
      | none => none

end Anchors
end Ceph
