/-
# Writing into the cache

`apply_write` maps a write to heads, allocates blocks for it and copies the data into the heads, one after
the other. A block at the edge of the write that is only partly overwritten needs the rest of its data: if that is not there, then
the data goes to fragments, and the block is read, unless a commit has started. `check_partial_edges` looks for this
before anything is changed, and puts the write off.

Where a commit has started, no head becomes partial. One that is partial already keeps what it has, but the
object may grow meanwhile, so that more is missing than before.

The memory for new data has anything in it, and whether the data of the caller is in whole pages is left open.
-/
import Ceph.Ebofs.AllocWrite
import Ceph.Ebofs.BadBytes
import Ceph.Lib.Checked

namespace Ceph
namespace Ebofs
namespace Cache

open List BufferHead
open Option hiding min_le_left
open Checked
open Fragments
open IntervalSet
open Tiles
open Wire (Bytes)

/-! ### The check -/

/-- `find_bh_containing`. -/
def findBhContaining (b : ℕ) (heads : List BufferHead) : Option BufferHead :=
  (findBh b heads).2.head?.filter fun bh => bh.start ≤ b ∧ b < bh.fin

/-- `last()`. -/
def BufferHead.last (bh : BufferHead) : ℕ := bh.fin - 1

/-- `off_in_bh == 0 || bh->have_partial_range(0, off_in_bh)`. -/
def frontKnown (off : ℕ) (bh : BufferHead) : Option Bool :=
  if off % blockSize = 0 then some true else havePartialRange 0 (off % blockSize) bh.frags

/-- Whether the partial head can be completed; `none` is a failed assertion. -/
def checkHead (off len : ℕ) (bh : BufferHead) : Option Bool :=
  if bh.state = .missing ∨ bh.state = .rx then some false
  else if bh.state = .partialBh then
    let fin := max blockSize (off % blockSize + len)
    (frontKnown off bh).bind fun front =>
      if front then if fin = blockSize then some true else havePartialRange fin (blockSize - fin) bh.frags
      else some false
  else some true

/-- Whether the partial tail can be completed. -/
def checkTail (off len lastBlock : ℕ) (bh : BufferHead) : Option Bool :=
  if bh.state = .missing ∨ bh.state = .rx then some false
  else if bh.state = .partialBh then
    let fin := max blockSize (off % blockSize + len)
    let stop := if lastBlock * blockSize < bh.fin * blockSize then lastBlock * blockSize % blockSize else blockSize
    (frontKnown off bh).bind fun front =>
      if front then if stop ≤ fin then some true else havePartialRange fin (stop - fin) bh.frags
      else some false
  else some true

/-- The head of an edge is there, and passes. -/
def checkEdge (b : ℕ) (heads : List BufferHead) (check : BufferHead → Option Bool) : Option Bool :=
  match findBhContaining b heads with
  | none => some false
  | some bh => check bh

/-- The first and the last block of a write. -/
def firstBlock (off : ℕ) : ℕ := off / blockSize

def finalBlock (off len : ℕ) : ℕ := (len + off - 1) / blockSize

/-- `check_partial_edges`: whether the write can go on, and whether it has a partial head and a partial tail. -/
def checkPartialEdges (on : Onode) (off len : ℕ) (commitStarting : Bool) (heads : List BufferHead) :
    Option (Bool × Bool × Bool) :=
  let partialHead := decide (off < on.lastBlock * blockSize ∧ off % blockSize ≠ 0)
  let partialTail := decide (off + len < on.objectSize ∧ (off + len) % blockSize ≠ 0)
  if (partialHead ∨ partialTail) ∧ commitStarting then
    -- verify that partials don't depend on unread data!
    (if partialHead then checkEdge (firstBlock off) heads (checkHead off len) else some true).bind fun ok =>
      if ok then
        (if partialTail then checkEdge (finalBlock off len) heads (checkTail off len on.lastBlock) else some true).map
          fun ok => (ok, partialHead, partialTail)
      else some (false, partialHead, partialTail)
  else some (true, partialHead, partialTail)

/-! ### One head -/

inductive Failed
  | assertion
  | partialInCommit       -- assert(!commit_starting)
  | turns
deriving DecidableEq

/-- What `apply_write` has found when it comes to the heads. -/
structure Job where
  off : ℕ
  bl : Bytes
  paged : ℕ → ℕ → Bool          -- whether a part of the data is in whole pages
  raw : UInt8                   -- what new memory has
  partialHead : Bool
  partialTail : Bool
  oldObjectSize : ℕ
  oldLastBlock : ℕ
  alloc : IntervalSet
  ends : OldEnds
  version : ℕ
  epoch : ℕ
  commitStarting : Bool

/-- What changes from head to head. -/
structure Progress where
  on : Onode
  bc : BufferCache
  opos : ℕ
  left : ℕ
  blpos : ℕ
  finished : List ℕ

def Progress.advance (s : Progress) (len : ℕ) : Progress :=
  { s with opos := s.opos + len, left := s.left - len, blpos := s.blpos + len }

/-- A head is split inside of it. At its start there is a head already. -/
def splitInside (bh : BufferHead) (after : ℕ) (bc : BufferCache) : Option (BufferHead × BufferHead × BufferCache) :=
  if bh.start < after ∧ after < bh.fin then split bh after bc else none

/-- Break bh over disk extent boundaries. -/
def breakHead (on : Onode) (bh : BufferHead) (bc : BufferCache) :
    Option (BufferHead × List BufferHead × List Extent × BufferCache) :=
  (mapExtents on bh.start bh.length).bind fun exv =>
    match exv with
    | ex :: _ :: _ => (splitInside bh (bh.start + ex.length) bc).map fun (bh, right, bc) => (bh, [right], exv, bc)
    | _ => some (bh, [], exv, bc)

/-- Mark holes 'clean'. -/
def markHole (oldLastBlock : ℕ) (exv : List Extent) (bh : BufferHead) (bc : BufferCache) :
    Option (BufferHead × BufferCache) :=
  if oldLastBlock ≤ bh.start then if bh.state = .missing then setState bh .clean bc else none
  else exv.head?.bind fun ex =>
    if ex.start = 0 then if bh.state = .missing ∨ bh.state = .clean then setState bh .clean bc else none
    else some (bh, bc)

/-- Need to split off partial? (partials can only be ONE block) -/
def splitPartial (j : Job) (bh : BufferHead) (bc : BufferCache) : Option (BufferHead × List BufferHead × BufferCache) :=
  if (bh.state = .missing ∨ bh.state = .rx) ∧ 1 < bh.length then
    (if bh.start = firstBlock j.off ∧ j.partialHead then
      (splitInside bh (bh.start + 1) bc).map fun (bh, right, bc) => (bh, [right], bc)
    else some (bh, [], bc)).bind fun (bh, right, bc) =>
      if bh.last = finalBlock j.off j.bl.length ∧ j.partialTail then
        (splitInside bh bh.last bc).map fun (bh, right', bc) => (bh, right' :: right, bc)
      else some (bh, right, bc)
  else some (bh, [], bc)

/-- The checksum of a block that is only partially overwritten is carried over. -/
def carryCsum (j : Job) (bh : BufferHead) (on : Onode) : Option Onode :=
  let carry (b : ℕ) (csum : UInt64) :=
    (getExtentCsum on b 1).map fun _ => { setExtentCsum b csum on with dataCsum := on.dataCsum + csum }
  if bh.start = firstBlock j.off ∧ j.alloc.contains (firstBlock j.off) then carry bh.start j.ends.csumFirst
  else if bh.fin - 1 = finalBlock j.off j.bl.length ∧ j.alloc.contains (finalBlock j.off j.bl.length) then
    carry (bh.fin - 1) j.ends.csumLast
  else some on

/-- A partial is completed. -/
def completePartial (raw : UInt8) (bh : BufferHead) (on : Onode) (bc : BufferCache) :
    Option (Onode × BufferHead × BufferCache) :=
  (bhCancelRead bh bc).bind fun (_, bh, bc) =>
    (applyFrags { bh with data := List.replicate blockSize raw } on).bind fun (bh, on) =>
      (setState bh .dirty bc).bind fun (bh, bc) => (bhWrite on bh 0 bc).map fun (bh, bc) => (on, bh, bc)

/-- The data of a block that is not there goes to fragments. -/
def writePartial (j : Job) (off len : ℕ) (bh : BufferHead) (s : Progress) : Except Failed (BufferHead × Progress) :=
  if bh.length ≠ 1 then .error .assertion
  else (need .assertion (substrOf j.bl s.blpos len)).bind fun sb =>
    (need .assertion (if bh.state = .corrupt then writeCorrupt bh off sb s.on s.bc
      else (carryCsum j bh s.on).bind fun on =>
        (addPartial off sb bh.frags).map fun pm => (on, { bh with frags := pm }, s.bc))).bind fun (on, bh, bc) =>
      let s := { s.advance len with on := on, bc := bc }
      (need .assertion (if bh.state = .partialBh then
        partialIsComplete (on.objectSize - bh.start * blockSize) bh.frags else some false)).bind fun complete =>
        if complete then
          (need .assertion (completePartial j.raw bh s.on s.bc)).map fun (on, bh, bc) => (bh, { s with on := on, bc := bc })
        else if bh.state = .rx then
          (need .assertion (setState bh .partialBh s.bc)).bind fun (bh, bc) =>
            if j.commitStarting then .error .partialInCommit else .ok (bh, { s with bc := bc })
        else if bh.state = .missing ∨ bh.state = .corrupt then
          (need .assertion (setState bh .partialBh s.bc)).bind fun (bh, bc) =>
            if j.commitStarting then .error .partialInCommit
            else
              -- take care to read from _old_ disk block locations!
              (need .assertion (if bh.start = firstBlock j.off then bhRead s.on bh j.ends.bfirst bc
                else if bh.start = finalBlock j.off j.bl.length then bhRead s.on bh j.ends.blast bc
                else none)).map fun (bh, bc) => (bh, { s with bc := bc })
        else .ok (bh, s)

/-- The checksums of the blocks from `b` on, as the data has them. -/
def setCsums (b n : ℕ) (data : Bytes) (on : Onode) : Option Onode :=
  (getExtentCsum on b n).bind fun _ =>
    (List.range n).foldlM (fun on i => (on.csumOf (b + i)).map fun old =>
      { setExtentCsum (b + i) (blockCsum data i) on with dataCsum := on.dataCsum - old + blockCsum data i }) on

/-- A head that has its data is dirty, and is written. -/
def writeOut (on : Onode) (bh : BufferHead) (bc : BufferCache) : Option (BufferHead × BufferCache) :=
  (if bh.state ≠ .dirty then setState bh .dirty bc else some (bh, bc)).bind fun (bh, bc) => bhWrite on bh 0 bc

/-- The data that a head had, or that a hole has. -/
def BufferHead.oldData (bh : BufferHead) : Bytes :=
  if bh.data ≠ [] then bh.data else List.replicate (bh.length * blockSize) 0

/-- Just write into the bh! -/
def writeInto (j : Job) (off len : ℕ) (bh : BufferHead) (s : Progress) : Option (BufferHead × Progress) :=
  if (bh.state = .clean ∨ bh.state = .dirty ∨ bh.state = .tx) ∧ bh.oldData.length = bh.length * blockSize then
    (substrOf j.bl s.blpos len).bind fun sub => (copyIn bh.oldData off sub).bind fun data =>
      let bh := { bh with data := data }
      let first := off / blockSize
      let last := (off + len + (blockSize - 1)) / blockSize
      (setCsums (bh.start + first) (last - first) data s.on).bind fun on =>
        (writeOut on bh s.bc).map fun (bh, bc) => (bh, { s.advance len with on := on, bc := bc })
  else none

/-- The data of a head that is written to a block boundary, or to the end of the object. -/
def wholeData (j : Job) (off : ℕ) (sub : Bytes) (bh : BufferHead) (s : Progress) : Option Bytes :=
  let n := bh.length * blockSize
  if off = 0 ∧ j.paged s.blpos sub.length then if sub.length = n then some sub else none
  else
    let zstart := j.oldObjectSize - bh.start * blockSize
    -- zero leader?
    (if off ≠ 0 ∧ j.oldObjectSize < s.opos then
      copyIn (List.replicate n j.raw) zstart (List.replicate (off - zstart) 0)
    else some (List.replicate n j.raw)).bind fun data => (copyIn data off sub).bind fun data =>
      -- zero the past-eof tail, too
      if sub.length < n then copyIn data (off + sub.length) (List.replicate (n - (off + sub.length)) 0) else some data

/-- We're now writing up to a block boundary, or EOF. -/
def writeWhole (j : Job) (off : ℕ) (bh : BufferHead) (s : Progress) : Option (BufferHead × Progress) :=
  if bh.length * blockSize ≤ off + s.left ∨ s.on.objectSize ≤ s.opos + s.left then
    let len := min (bh.length * blockSize - off) s.left
    (substrOf j.bl s.blpos len).bind fun sub => (wholeData j off sub bh s).bind fun data =>
      let bh := { bh with data := data }
      (setCsums bh.start ((off + len + (blockSize - 1)) / blockSize) data s.on).bind fun on =>
        -- old partial?
        (if bh.state = .partialBh then (bhCancelRead bh s.bc).map Prod.snd else some (bh, s.bc)).bind fun (bh, bc) =>
          (writeOut on bh bc).map fun (bh, bc) => (bh, { s.advance len with on := on, bc := bc })
  else none

/-- Whether a head is at an edge that is partial. -/
def AtEdge (j : Job) (bh : BufferHead) : Prop :=
  bh.start = firstBlock j.off ∧ j.partialHead ∨ bh.last = finalBlock j.off j.bl.length ∧ j.partialTail

instance (j : Job) (bh : BufferHead) : Decidable (AtEdge j bh) := inferInstanceAs (Decidable (_ ∨ _))

/-- The data of a head, once it has been broken. -/
def writeData (j : Job) (bh : BufferHead) (s : Progress) : Except Failed (BufferHead × Progress) :=
  let off := s.opos - bh.start * blockSize
  -- partial at head or tail?
  if AtEdge j bh then
    let len := min s.left (bh.fin * blockSize - s.opos)
    if bh.state = .partialBh ∨ bh.state = .rx ∨ bh.state = .missing ∨ bh.state = .corrupt then writePartial j off len bh s
    else need .assertion (writeInto j off len bh s)
  else need .assertion (writeWhole j off bh s)

/-- A turn: the head, what is split off from it, and how far the write is. -/
def writeHead (j : Job) (bh : BufferHead) (s : Progress) : Except Failed (BufferHead × List BufferHead × Progress) :=
  (need .assertion (breakHead s.on { bh with version := j.version, epochModified := j.epoch } s.bc)).bind
    fun (bh, right, exv, bc) => (need .assertion (markHole j.oldLastBlock exv bh bc)).bind fun (bh, bc) =>
      let (bh, finished) := takeReadWaiters bh s.finished
      (need .assertion (splitPartial j bh bc)).bind fun (bh, right', bc) =>
        (writeData j bh { s with bc := bc, finished := finished }).map fun (bh, s) => (bh, right' ++ right, s)

/-- The loop over the hits. What is split off from a head comes next. -/
def writeHits (j : Job) : ℕ → List BufferHead → Progress → Except Failed (List BufferHead × Progress)
  | _, [], s => .ok ([], s)
  | 0, _ :: _, _ => .error .turns
  | fuel + 1, bh :: hits, s => (writeHead j bh s).bind fun (bh, right, s) =>
    (writeHits j fuel (right ++ hits) s).map fun (done, s) => (bh :: done, s)

/-! ### The write -/

structure Conf where
  realloc : Bool              -- g_conf.ebofs_realloc
  fakeWrites : Bool
  commitStarting : Bool

/-- An object and its cache. -/
structure Object (α : Type) where
  disk : Disk α
  heads : List BufferHead
  bc : BufferCache
  writeCount : ℕ

/-- What is written, where, and when. -/
structure Request where
  off : ℕ
  bl : Bytes
  paged : ℕ → ℕ → Bool
  raw : UInt8
  epoch : ℕ

/-- `apply_write`: the object, what is returned, and the waiters that are finished. Each turn of the loop takes a block,
at least. -/
def applyWrite {α : Type} (al : Allocator α) (conf : Conf) (q : Request) (o : Object α) :
    Except Failed (Object α × ℤ × List ℕ) :=
  let len := q.bl.length
  let bstart := firstBlock q.off
  let blen := finalBlock q.off len + 1 - bstart
  -- check partial edges
  (need .assertion (checkPartialEdges o.disk.on q.off len conf.commitStarting o.heads)).bind
    fun (ok, partialHead, partialTail) =>
      if ok then
        -- extending object?
        let on := { o.disk.on with objectSize := max o.disk.on.objectSize (q.off + len) }
        (need .assertion (mapWrite on bstart blen q.epoch o.heads o.bc)).bind fun (heads, hits, bc) =>
          let before := heads.filter fun bh => bh.start < bstart
          let behind := heads.filter fun bh => bstart + blen ≤ bh.start
          (need .assertion (allocWrite al conf.realloc bstart blen q.epoch (hits.map Prod.snd) { o.disk with on := on }
            bc)).bind fun (hits, disk, bc, alloc, ends) =>
              if conf.fakeWrites then
                let on := { disk.on with uncommitted := disk.on.uncommitted.clear }
                .ok (⟨{ disk with on := on }, before ++ hits ++ behind, bc, o.writeCount⟩, 0, [])
              else
                let j : Job := ⟨q.off, q.bl, q.paged, q.raw, partialHead, partialTail, o.disk.on.objectSize,
                  o.disk.on.lastBlock, alloc, ends, o.writeCount + 1, q.epoch, conf.commitStarting⟩
                (writeHits j blen hits ⟨disk.on, bc, q.off, len, 0, []⟩).bind fun (done, s) =>
                  if s.left = 0 ∧ s.opos = q.off + len ∧ s.blpos = len then
                    .ok (⟨{ disk with on := { s.on with dirty := true } }, before ++ done ++ behind, s.bc,
                      o.writeCount + 1⟩, 0, s.finished)
                  else .error .assertion
      else .ok (o, -1, [])

/-! ### What it leaves -/

/-- A partial head has all bytes of its block that the object has. -/
def Complete (size : ℕ) (bh : BufferHead) : Prop :=
  ∀ x, x < min (size - bh.start * blockSize) blockSize → (value bh.frags x).isSome

/-- Partial heads have one block, and fragments inside of it. -/
structure OneBlockPartial (bh : BufferHead) : Prop where
  one : bh.length = 1
  apart : Apart bh.frags
  inside : ∀ f ∈ bh.frags, fin f ≤ blockSize

/-- A partial head that was partial before, and has what it had. -/
structure Carried (a b : BufferHead) : Prop where
  state : a.state = .partialBh
  start : b.start = a.start
  known : ∀ x, (value a.frags x).isSome → (value b.frags x).isSome

/-- What is partial was partial before. -/
structure Tracks (orig : List BufferHead) (bh : BufferHead) : Prop extends OneBlockPartial bh where
  before : ∃ a ∈ orig, Carried a bh

/-- A block at an edge that is partial. -/
def EdgeBlock (j : Job) (x : ℕ) : Prop :=
  x = firstBlock j.off ∧ j.partialHead ∨ x = finalBlock j.off j.bl.length ∧ j.partialTail

/-- A head that is written next: at a partial edge its data is there. -/
structure Sound (orig : List BufferHead) (j : Job) (bh : BufferHead) : Prop where
  edge : ∀ x, EdgeBlock j x → bh.start ≤ x → x < bh.fin → bh.state ≠ .missing ∧ bh.state ≠ .rx
  tracks : bh.state = .partialBh → Tracks orig bh

/-- How far the write is when it comes to block `b`. -/
structure Sync (j : Job) (b : ℕ) (s : Progress) : Prop where
  opos : s.opos = min (j.off + j.bl.length) (max j.off (b * blockSize))
  left : s.left + s.opos = j.off + j.bl.length

/-- A head stays where it is. -/
structure SamePlace (a b : BufferHead) : Prop where
  start : b.start = a.start
  length : b.length = a.length

theorem SamePlace.refl (a : BufferHead) : SamePlace a a := ⟨rfl, rfl⟩

theorem SamePlace.trans {a b c : BufferHead} (h : SamePlace a b) (h' : SamePlace b c) : SamePlace a c :=
  ⟨h'.start.trans h.start, h'.length.trans h.length⟩

theorem SamePlace.fin {a b : BufferHead} (h : SamePlace a b) : b.fin = a.fin := by
  unfold BufferHead.fin
  rw [h.start, h.length]

/-! ### The steps -/

section steps

variable {on on' : Onode} {bh bh' bh₁ : BufferHead} {bc bc' : BufferCache} {orig : List BufferHead} {j : Job}
  {s s' : Progress} {off len after : ℕ} {st : State} {raw : UInt8} {sb : Bytes} {right : List BufferHead}

theorem setState_place (h : setState bh st bc = some (bh', bc')) : SamePlace bh bh' ∧ bh'.state = st := by
  obtain rfl := setState_some h
  exact ⟨⟨rfl, rfl⟩, rfl⟩

theorem bhWrite_place {block : ℕ} (h : bhWrite on bh block bc = some (bh', bc')) : SamePlace bh bh' ∧ bh'.state = .tx := by
  obtain ⟨⟨hstart, hlength⟩, htx⟩ := bhWrite_some h
  exact ⟨⟨hstart, hlength⟩, htx⟩

theorem bhCancelRead_place {ok : Bool} (h : bhCancelRead bh bc = some (ok, bh', bc')) : SamePlace bh bh' := by
  unfold bhCancelRead at h
  split at h
  · obtain ⟨⟨bh₁, bc1⟩, hset, h⟩ := map_eq_some_iff.mp h
    obtain ⟨-, h⟩ := Prod.mk.inj h
    cases h
    obtain ⟨hplace, -⟩ := setState_place hset
    exact ⟨hplace.start, hplace.length⟩
  · cases h
    exact .refl bh

theorem applyFrags_place (h : applyFrags bh on = some (bh', on')) : SamePlace bh bh' := by
  obtain ⟨csum, -, h⟩ := bind_eq_some_iff.mp h
  obtain ⟨pb, -, h⟩ := map_eq_some_iff.mp h
  cases h
  exact ⟨rfl, rfl⟩

theorem completePartial_place (h : completePartial raw bh on bc = some (on', bh', bc')) :
    SamePlace bh bh' ∧ bh'.state = .tx := by
  obtain ⟨⟨ok, bh₁, bc1⟩, hcancel, h⟩ := bind_eq_some_iff.mp h
  obtain ⟨⟨bh2, on2⟩, happly, h⟩ := bind_eq_some_iff.mp h
  obtain ⟨⟨bh3, bc3⟩, hset, h⟩ := bind_eq_some_iff.mp h
  obtain ⟨⟨bh4, bc4⟩, hwrite, h⟩ := map_eq_some_iff.mp h
  obtain ⟨-, rfl, -⟩ := h
  obtain ⟨hplace, hstate⟩ := bhWrite_place hwrite
  have hfrags := applyFrags_place happly
  refine ⟨((bhCancelRead_place hcancel).trans ⟨hfrags.start, hfrags.length⟩).trans ?_, hstate⟩
  exact (setState_place hset).1.trans hplace

theorem writeOut_place (h : writeOut on bh bc = some (bh', bc')) : SamePlace bh bh' ∧ bh'.state = .tx := by
  obtain ⟨⟨bh₁, bc1⟩, hset, h⟩ := bind_eq_some_iff.mp h
  obtain ⟨hplace, hstate⟩ := bhWrite_place h
  refine ⟨?_, hstate⟩
  split_ifs at hset with hdirty
  · exact (setState_place hset).1.trans hplace
  · cases hset
    exact hplace

theorem writeInto_place (h : writeInto j off len bh s = some (bh', s')) :
    SamePlace bh bh' ∧ bh'.state = .tx ∧ s'.opos = s.opos + len ∧ s'.left = s.left - len := by
  unfold writeInto at h
  split_ifs at h
  obtain ⟨sub, -, h⟩ := bind_eq_some_iff.mp h
  obtain ⟨data, -, h⟩ := bind_eq_some_iff.mp h
  obtain ⟨on', -, h⟩ := bind_eq_some_iff.mp h
  obtain ⟨⟨bh₁, bc1⟩, hout, h⟩ := map_eq_some_iff.mp h
  obtain ⟨rfl, rfl⟩ := h
  obtain ⟨hplace, hstate⟩ := writeOut_place hout
  exact ⟨⟨hplace.start, hplace.length⟩, hstate, rfl, rfl⟩

theorem writeWhole_place (h : writeWhole j off bh s = some (bh', s')) : SamePlace bh bh' ∧ bh'.state = .tx ∧
    s'.opos = s.opos + min (bh.length * blockSize - off) s.left ∧
      s'.left = s.left - min (bh.length * blockSize - off) s.left := by
  unfold writeWhole at h
  split_ifs at h
  obtain ⟨sub, -, h⟩ := bind_eq_some_iff.mp h
  obtain ⟨data, -, h⟩ := bind_eq_some_iff.mp h
  obtain ⟨on', -, h⟩ := bind_eq_some_iff.mp h
  obtain ⟨⟨bh₁, bc1⟩, hcancel, h⟩ := bind_eq_some_iff.mp h
  obtain ⟨⟨bh2, bc2⟩, hout, h⟩ := map_eq_some_iff.mp h
  obtain ⟨rfl, rfl⟩ := h
  obtain ⟨hplace, hstate⟩ := writeOut_place hout
  refine ⟨?_, hstate, rfl, rfl⟩
  have hfirst : SamePlace bh bh₁ := by
    split_ifs at hcancel with hpart
    · obtain ⟨⟨ok, bh3, bc3⟩, hread, ⟨⟩⟩ := map_eq_some_iff.mp hcancel
      have hread' := bhCancelRead_place hread
      exact ⟨hread'.start, hread'.length⟩
    · cases hcancel
      exact ⟨rfl, rfl⟩
  exact hfirst.trans hplace

theorem writeCorrupt_place (h : writeCorrupt bh off sb on bc = some (on', bh', bc')) :
    SamePlace bh bh' ∧ bh'.state = .clean := by
  unfold writeCorrupt at h
  split_ifs at h
  obtain ⟨on1, -, h⟩ := bind_eq_some_iff.mp h
  obtain ⟨csums, -, h⟩ := bind_eq_some_iff.mp h
  obtain ⟨⟨bh₁, bc1⟩, hset, h⟩ := bind_eq_some_iff.mp h
  obtain ⟨pm, -, h⟩ := map_eq_some_iff.mp h
  obtain ⟨-, rfl, -⟩ := h
  obtain ⟨hplace, hstate⟩ := setState_place hset
  exact ⟨⟨hplace.start, hplace.length⟩, hstate⟩

theorem Tracks.addPartial {pm : Partial} (h : Tracks orig bh) (hsb : sb ≠ []) (hadd : addPartial off sb bh.frags = some pm) :
    Tracks orig { bh with frags := pm } := by
  have hin : off + sb.length ≤ blockSize := by
    unfold Ebofs.addPartial at hadd
    split_ifs at hadd with hin
    exact hin
  obtain ⟨pm', hadd', hapart, hinside, hvalue, -⟩ := addPartial_spec h.apart h.inside hin
  obtain rfl : pm' = pm := some.inj (hadd'.symm.trans hadd)
  obtain ⟨a, ha, hcarried⟩ := h.before
  refine ⟨⟨h.one, hapart, hinside⟩, a, ha, hcarried.state, hcarried.start, fun x hx => ?_⟩
  rw [hvalue (fun hnil => absurd hnil hsb) x, isSome_or, hcarried.known x hx, Bool.or_true]

/-- **A block whose data is there** does not become partial, and a partial one keeps what it has. -/
theorem writePartial_safe (hedge : bh.state ≠ .missing ∧ bh.state ≠ .rx)
    (htracks : bh.state = .partialBh → Tracks orig bh) (hlen : 0 < len) :
    Safe (· ≠ .assertion) (fun r => SamePlace bh r.1 ∧ (r.1.state = .partialBh → Tracks orig r.1) ∧
      r.2.opos = s.opos + len ∧ r.2.left = s.left - len) (writePartial j off len bh s) := by
  have hassert : ¬ Failed.assertion ≠ .assertion := fun h => h rfl
  unfold writePartial
  by_cases hone : bh.length = 1
  swap
  · rw [if_pos hone]
    exact hassert
  rw [if_neg (not_not.mpr hone)]
  refine Safe.bind (P := fun sb => sb.length = len) (safe_need hassert fun sb hsb => length_substrOf hsb) fun sb hsb => ?_
  have hne : sb ≠ [] := fun h => by
    rw [h] at hsb
    exact absurd hsb hlen.ne
  -- the fragment is there, and the state is not one that becomes partial
  refine Safe.bind (P := fun r : Onode × BufferHead × BufferCache => SamePlace bh r.2.1 ∧
    (r.2.1.state = .partialBh → Tracks orig r.2.1) ∧ r.2.1.state ≠ .missing ∧ r.2.1.state ≠ .rx ∧ r.2.1.state ≠ .corrupt)
    (safe_need hassert ?_) ?_
  · rintro ⟨on, bh₁, bc⟩ hadd
    by_cases hcorrupt : bh.state = .corrupt
    · rw [if_pos hcorrupt] at hadd
      obtain ⟨hplace, hclean⟩ := writeCorrupt_place hadd
      rw [hclean]
      exact ⟨hplace, nofun, nofun, nofun, nofun⟩
    · rw [if_neg hcorrupt] at hadd
      obtain ⟨on1, -, hadd⟩ := bind_eq_some_iff.mp hadd
      obtain ⟨pm, hpm, heq⟩ := map_eq_some_iff.mp hadd
      obtain ⟨-, rfl, -⟩ := heq
      exact ⟨⟨rfl, rfl⟩, fun hp => (htracks hp).addPartial hne hpm, hedge.1, hedge.2, hcorrupt⟩
  rintro ⟨on, bh₁, bc⟩ ⟨hplace, htracks1, hmissing, hrx, hcorrupt⟩
  refine Safe.bind (P := fun _ => True) (safe_need hassert fun _ _ => trivial) fun complete _ => ?_
  cases complete with
  | true =>
    refine Safe.map (P := fun r : Onode × BufferHead × BufferCache => SamePlace bh₁ r.2.1 ∧ r.2.1.state = .tx)
      (safe_need hassert fun r hr => completePartial_place hr) fun r hr => ?_
    refine ⟨hplace.trans hr.1, fun h => ?_, rfl, rfl⟩
    rw [hr.2] at h
    nomatch h
  | false =>
    rw [if_neg Bool.false_ne_true, if_neg hrx, if_neg (not_or.mpr ⟨hmissing, hcorrupt⟩)]
    exact safe_ok ⟨hplace, htracks1, rfl, rfl⟩

/-! ### A turn -/

theorem splitInside_some {left r : BufferHead} (h : splitInside bh after bc = some (left, r, bc')) :
    left = bh.leftOf after ∧ r = bh.rightOf after ∧ bh.start < after ∧ after < bh.fin := by
  unfold splitInside at h
  split_ifs at h with hin
  obtain ⟨hleft, hright⟩ := split_some h
  exact ⟨hleft, hright, hin⟩

/-- What a head is broken into. -/
structure Broken (orig : List BufferHead) (j : Job) (bh bh' : BufferHead) (right : List BufferHead) : Prop where
  tiled : Tiled BufferHead.start BufferHead.fin bh.start bh.fin (bh' :: right)
  sound : ∀ b ∈ bh' :: right, Sound orig j b

theorem Sound.inside (hs : Sound orig j bh) (hstate : bh₁.state = bh.state) (hlow : bh.start ≤ bh₁.start)
    (hhigh : bh₁.fin ≤ bh.fin) (htracks : bh.state = .partialBh → Tracks orig bh₁) : Sound orig j bh₁ := by
  refine ⟨fun x hx h1 h2 => ?_, fun h => htracks (hstate.symm.trans h)⟩
  rw [hstate]
  exact hs.edge x hx (hlow.trans h1) (h2.trans_le hhigh)

theorem Tracks.of_same (h : Tracks orig bh) (hplace : SamePlace bh bh₁) (hfrags : bh₁.frags = bh.frags) : Tracks orig bh₁ := by
  obtain ⟨⟨hone, hapart, hinside⟩, a, ha, hcarried⟩ := h
  refine ⟨⟨hplace.length.trans hone, ?_, ?_⟩, a, ha, hcarried.state, hplace.start.trans hcarried.start, ?_⟩
  · rwa [hfrags]
  · rwa [hfrags]
  · rw [hfrags]
    exact hcarried.known

theorem Sound.of_same (hs : Sound orig j bh) (hstate : bh₁.state = bh.state) (hplace : SamePlace bh bh₁)
    (hfrags : bh₁.frags = bh.frags) : Sound orig j bh₁ :=
  hs.inside hstate hplace.start.ge hplace.fin.le fun hp => (hs.tracks hp).of_same hplace hfrags

theorem broken_self (hs : Sound orig j bh) (hpos : bh.start < bh.fin) : Broken orig j bh bh [] :=
  ⟨⟨rfl, hpos, rfl⟩, forall_mem_singleton.mpr hs⟩

theorem splitInside_broken {left r : BufferHead} (hs : Sound orig j bh) (h : splitInside bh after bc = some (left, r, bc')) :
    Broken orig j bh left [r] := by
  obtain ⟨rfl, rfl, hlow, hhigh⟩ := splitInside_some h
  have hleft : (bh.leftOf after).fin = after := leftOf_fin hlow.le
  have hright : (bh.rightOf after).fin = bh.fin := rightOf_fin hlow.le hhigh.le
  have hno : bh.state ≠ .partialBh := fun hp => by
    have hone := (hs.tracks hp).one
    unfold BufferHead.fin at hhigh
    omega
  constructor
  · refine ⟨rfl, hlow.trans_le hleft.ge, ?_⟩
    rw [hleft]
    exact ⟨rfl, hright ▸ hhigh, hright⟩
  · refine forall_mem_cons.mpr ⟨?_, forall_mem_singleton.mpr ?_⟩
    · exact hs.inside rfl le_rfl (hleft.le.trans hhigh.le) fun hp => absurd hp hno
    · exact hs.inside rfl hlow.le hright.le fun hp => absurd hp hno

theorem breakHead_broken {exv : List Extent} (hs : Sound orig j bh) (hpos : bh.start < bh.fin)
    (h : breakHead on bh bc = some (bh', right, exv, bc')) : Broken orig j bh bh' right := by
  obtain ⟨exv', -, h⟩ := bind_eq_some_iff.mp h
  split at h
  · obtain ⟨⟨left, r, bc1⟩, hsplit, h⟩ := map_eq_some_iff.mp h
    obtain ⟨rfl, rfl, -⟩ := h
    exact splitInside_broken hs hsplit
  · cases h
    exact broken_self hs hpos

theorem Broken.more {right' : List BufferHead} (h : Broken orig j bh bh₁ right) (h' : Broken orig j bh₁ bh' right') :
    Broken orig j bh bh' (right' ++ right) := by
  obtain ⟨hstart, -, hrest⟩ := h.tiled
  have htiled := tiled_append.mpr ⟨_, h'.tiled, hrest⟩
  rw [hstart] at htiled
  refine ⟨htiled, ?_⟩
  exact forall_mem_append.mpr ⟨h'.sound, fun b hb => h.sound b (mem_cons_of_mem _ hb)⟩

theorem splitPartial_broken (hs : Sound orig j bh) (hpos : bh.start < bh.fin)
    (h : splitPartial j bh bc = some (bh', right, bc')) : Broken orig j bh bh' right := by
  unfold splitPartial at h
  by_cases hmissing : (bh.state = .missing ∨ bh.state = .rx) ∧ 1 < bh.length
  · rw [if_pos hmissing] at h
    obtain ⟨⟨bh₁, right1, bc1⟩, hfirst, h⟩ := bind_eq_some_iff.mp h
    have hbroken : Broken orig j bh bh₁ right1 := by
      split_ifs at hfirst
      · obtain ⟨⟨left, r, bc2⟩, hsplit, heq⟩ := map_eq_some_iff.mp hfirst
        obtain ⟨rfl, rfl, -⟩ := heq
        exact splitInside_broken hs hsplit
      · cases hfirst
        exact broken_self hs hpos
    dsimp only at h
    split_ifs at h
    · obtain ⟨⟨left, r, bc2⟩, hsplit, heq⟩ := map_eq_some_iff.mp h
      obtain ⟨rfl, rfl, -⟩ := heq
      exact hbroken.more (splitInside_broken (hbroken.sound bh₁ mem_cons_self) hsplit)
    · cases h
      exact hbroken
  · rw [if_neg hmissing] at h
    obtain ⟨rfl, rfl, -⟩ := h
    exact broken_self hs hpos

theorem markHole_sound {oldLast : ℕ} {exv : List Extent} (hs : Sound orig j bh)
    (h : markHole oldLast exv bh bc = some (bh', bc')) : SamePlace bh bh' ∧ Sound orig j bh' := by
  have hset : ∀ {bc bc' : BufferCache}, setState bh .clean bc = some (bh', bc') → SamePlace bh bh' ∧ Sound orig j bh' := by
    intro bc bc' hset
    obtain ⟨hplace, hclean⟩ := setState_place hset
    refine ⟨hplace, fun _ _ _ _ => ?_, fun hp => ?_⟩
    · rw [hclean]
      exact ⟨nofun, nofun⟩
    · rw [hclean] at hp
      nomatch hp
  unfold markHole at h
  by_cases hold : oldLast ≤ bh.start
  · rw [if_pos hold] at h
    split_ifs at h
    exact hset h
  · rw [if_neg hold] at h
    obtain ⟨ex, -, h⟩ := bind_eq_some_iff.mp h
    split_ifs at h
    · exact hset h
    · cases h
      exact ⟨.refl bh, hs⟩

theorem Sync.next {d : ℕ} (h : Sync j bh.start s) (hlow : s.opos ≤ bh.fin * blockSize)
    (hd : d = min s.left (bh.fin * blockSize - s.opos)) (hopos : s'.opos = s.opos + d) (hleft : s'.left = s.left - d)
    (hoff : j.off ≤ bh.fin * blockSize) : Sync j bh.fin s' := by
  have h2 := h.left
  constructor
  · omega
  · omega

/-- **The data of a head** leaves no partial head that was not there. -/
theorem writeData_safe (hs : Sound orig j bh) (hsync : Sync j bh.start s) (hpos : bh.start < bh.fin)
    (hlow : firstBlock j.off ≤ bh.start) (hhigh : bh.fin ≤ finalBlock j.off j.bl.length + 1) (hlen : 0 < j.bl.length) :
    Safe (· ≠ .assertion) (fun r => SamePlace bh r.1 ∧ (r.1.state = .partialBh → Tracks orig r.1) ∧ Sync j bh.fin r.2)
      (writeData j bh s) := by
  have hassert : ¬ Failed.assertion ≠ .assertion := fun h => h rfl
  -- the write is in the head, and not at its end
  have hin : bh.start * blockSize ≤ s.opos ∧ s.opos < bh.fin * blockSize ∧ 0 < s.left ∧ j.off ≤ bh.fin * blockSize := by
    have h1 := hsync.opos
    have h2 := hsync.left
    unfold firstBlock blockSize at hlow
    unfold finalBlock blockSize at hhigh
    unfold blockSize at h1 ⊢
    omega
  have htx : ∀ b : BufferHead, b.state = .tx → b.state = .partialBh → Tracks orig b := fun b h h' => by
    rw [h] at h'
    nomatch h'
  unfold writeData
  split_ifs with hedge hstate
  · have hready : bh.state ≠ .missing ∧ bh.state ≠ .rx := by
      rcases hedge with ⟨hx, hp⟩ | ⟨hx, hp⟩
      · exact hs.edge bh.start (.inl ⟨hx, hp⟩) le_rfl hpos
      · refine hs.edge bh.last (.inr ⟨hx, hp⟩) (Nat.le_sub_one_of_lt hpos) (Nat.sub_one_lt_of_lt hpos)
    have hsafe := @writePartial_safe bh orig j s (s.opos - bh.start * blockSize) (min s.left (bh.fin * blockSize - s.opos))
      hready hs.tracks (by omega)
    cases hrun : writePartial j (s.opos - bh.start * blockSize) (min s.left (bh.fin * blockSize - s.opos)) bh s with
    | error e => exact hsafe.error hrun
    | ok r =>
      obtain ⟨hplace, htracks, hopos, hleft⟩ := hsafe.value hrun
      exact ⟨hplace, htracks, hsync.next hin.2.1.le rfl hopos hleft hin.2.2.2⟩
  · refine safe_need hassert fun r hr => ?_
    obtain ⟨hplace, hstate', hopos, hleft⟩ := writeInto_place hr
    exact ⟨hplace, htx _ hstate', hsync.next hin.2.1.le rfl hopos hleft hin.2.2.2⟩
  · refine safe_need hassert fun r hr => ?_
    obtain ⟨hplace, hstate', hopos, hleft⟩ := writeWhole_place hr
    refine ⟨hplace, htx _ hstate', hsync.next hin.2.1.le ?_ hopos hleft hin.2.2.2⟩
    have hfin : bh.fin * blockSize = bh.start * blockSize + bh.length * blockSize := add_mul _ _ _
    omega

/-- What a turn leaves. -/
structure TurnDone (orig : List BufferHead) (j : Job) (bh : BufferHead) (r : BufferHead × List BufferHead × Progress) :
    Prop where
  tiled : Tiled BufferHead.start BufferHead.fin bh.start bh.fin (r.1 :: r.2.1)
  sound : ∀ b ∈ r.2.1, Sound orig j b
  tracks : r.1.state = .partialBh → Tracks orig r.1
  sync : Sync j r.1.fin r.2.2

/-- **A turn.** -/
theorem writeHead_safe (hs : Sound orig j bh) (hsync : Sync j bh.start s) (hpos : bh.start < bh.fin)
    (hlow : firstBlock j.off ≤ bh.start) (hhigh : bh.fin ≤ finalBlock j.off j.bl.length + 1) (hlen : 0 < j.bl.length) :
    Safe (· ≠ .assertion) (TurnDone orig j bh) (writeHead j bh s) := by
  have hassert : ¬ Failed.assertion ≠ .assertion := fun h => h rfl
  have hs0 : Sound orig j { bh with version := j.version, epochModified := j.epoch } := hs.of_same rfl ⟨rfl, rfl⟩ rfl
  refine Safe.bind (P := fun r => Broken orig j bh r.1 r.2.1) (safe_need hassert fun r hr => ?_) ?_
  · obtain ⟨htiled, hsound⟩ := breakHead_broken hs0 hpos hr
    exact ⟨htiled, hsound⟩
  rintro ⟨bh₁, right, exv, bc1⟩ hbroken
  refine Safe.bind (P := fun r => SamePlace bh₁ r.1 ∧ Sound orig j r.1) (safe_need hassert fun r hr => ?_) ?_
  · exact markHole_sound (hbroken.sound bh₁ mem_cons_self) hr
  rintro ⟨bh2, bc2⟩ ⟨hplace, hs2⟩
  have hbroken2 : Broken orig j bh bh2 right := by
    obtain ⟨hstart, hlt, hrest⟩ := hbroken.tiled
    refine ⟨⟨hplace.start.trans hstart, hplace.fin ▸ hlt, ?_⟩, ?_⟩
    · rw [hplace.fin]
      exact hrest
    · exact forall_mem_cons.mpr ⟨hs2, fun b hb => hbroken.sound b (mem_cons_of_mem _ hb)⟩
  refine Safe.bind (P := fun r => Broken orig j bh r.1 (r.2.1 ++ right)) (safe_need hassert fun r hr => ?_) ?_
  · refine hbroken2.more ?_
    have hs3 : Sound orig j (takeReadWaiters bh2 s.finished).1 := hs2.of_same rfl ⟨rfl, rfl⟩ rfl
    have hpos2 : bh2.start < bh2.fin := by
      obtain ⟨hstart, hlt, -⟩ := hbroken2.tiled
      rwa [hstart]
    obtain ⟨htiled, hsound⟩ := splitPartial_broken hs3 hpos2 hr
    exact ⟨htiled, hsound⟩
  rintro ⟨bh3, right', bc3⟩ hbroken3
  obtain ⟨hstart, hlt, hrest⟩ := hbroken3.tiled
  have hsync3 : Sync j bh3.start { s with bc := bc3, finished := (takeReadWaiters bh2 s.finished).2 } := by
    rw [hstart]
    exact ⟨hsync.opos, hsync.left⟩
  have hsafe := writeData_safe (hbroken3.sound bh3 mem_cons_self) hsync3 (hstart ▸ hlt) (hlow.trans hstart.ge)
    (hrest.le.trans hhigh) hlen
  refine Safe.map hsafe ?_
  rintro ⟨bh4, s'⟩ ⟨hplace4, htracks, hsync'⟩
  refine ⟨⟨hplace4.start.trans hstart, ?_, ?_⟩, fun b hb => hbroken3.sound b (mem_cons_of_mem _ hb), htracks, ?_⟩
  · rwa [hplace4.fin]
  · rw [hplace4.fin]
    exact hrest
  · rw [hplace4.fin]
    exact hsync'

/-- **The loop**, by the blocks that are left. -/
theorem writeHits_safe {fuel cur : ℕ} {hits : List BufferHead} (hlen : 0 < j.bl.length)
    (hfuel : finalBlock j.off j.bl.length + 1 - cur ≤ fuel) (hlow : firstBlock j.off ≤ cur)
    (htiled : Tiled start BufferHead.fin cur (finalBlock j.off j.bl.length + 1) hits)
    (hs : ∀ b ∈ hits, Sound orig j b) (hsync : Sync j cur s) :
    Safe (· ≠ .assertion) (fun r => ∀ b ∈ r.1, b.state = .partialBh → Tracks orig b) (writeHits j fuel hits s) := by
  induction fuel generalizing cur hits s with
  | zero =>
    cases hits with
    | nil => exact nofun
    | cons bh hits =>
      obtain ⟨-, hlt, hrest⟩ := htiled
      have hle := hrest.le
      omega
  | succ fuel ih =>
    cases hits with
    | nil => exact nofun
    | cons bh hits =>
      obtain ⟨rfl, hlt, hrest⟩ := htiled
      obtain ⟨hbh, hhits⟩ := forall_mem_cons.mp hs
      refine Safe.bind (writeHead_safe hbh hsync hlt hlow hrest.le hlen) ?_
      rintro ⟨bh', right, s'⟩ ⟨⟨hstart, hlt', hright⟩, hsound, htracks, hsync'⟩
      refine Safe.map (ih ?_ (hlow.trans hlt'.le) (tiled_append.mpr ⟨_, hright, hrest⟩)
        (forall_mem_append.mpr ⟨hsound, hhits⟩) hsync') fun r hr => forall_mem_cons.mpr ⟨htracks, hr⟩
      have hnext : bh.start < bh'.fin := hlt'
      omega

end steps

/-! ### The check, and the write -/

section write

variable {α : Type} {on : Onode} {off len b : ℕ} {bh : BufferHead} {heads heads' : List BufferHead}
  {others : State → ℕ} {bc bc' : BufferCache} {passes partialHead partialTail : Bool}

theorem findBhContaining_some (hin : InOrder start BufferHead.fin heads)
    (h : findBhContaining b heads = some bh) : bh ∈ heads ∧ bh.start ≤ b ∧ b < bh.fin := by
  obtain ⟨hfirst, hcond⟩ := filter_eq_some_iff.mp h
  refine ⟨?_, of_decide_eq_true hcond⟩
  rw [← (@findBh_spec b heads hin).1]
  exact mem_append_right _ (mem_of_head? hfirst)

theorem checkHead_ready (h : checkHead off len bh = some true) : bh.state ≠ .missing ∧ bh.state ≠ .rx := by
  unfold checkHead at h
  by_cases hno : bh.state = .missing ∨ bh.state = .rx
  · rw [if_pos hno] at h
    nomatch h
  · exact not_or.mp hno

theorem checkTail_ready {lastBlock : ℕ} (h : checkTail off len lastBlock bh = some true) :
    bh.state ≠ .missing ∧ bh.state ≠ .rx := by
  unfold checkTail at h
  by_cases hno : bh.state = .missing ∨ bh.state = .rx
  · rw [if_pos hno] at h
    nomatch h
  · exact not_or.mp hno

/-- **What the check asks for** when a commit has started: there is a head for each edge that is partial, with its data. -/
theorem checkPartialEdges_ready (hin : InOrder start BufferHead.fin heads)
    (h : checkPartialEdges on off len true heads = some (true, partialHead, partialTail)) :
    ∀ x, x = firstBlock off ∧ partialHead ∨ x = finalBlock off len ∧ partialTail →
      ∃ a ∈ heads, a.start ≤ x ∧ x < a.fin ∧ a.state ≠ .missing ∧ a.state ≠ .rx := by
  have hedge : ∀ {b : ℕ} {check : BufferHead → Option Bool}, checkEdge b heads check = some true →
      (∀ bh, check bh = some true → bh.state ≠ .missing ∧ bh.state ≠ .rx) →
        ∃ a ∈ heads, a.start ≤ b ∧ b < a.fin ∧ a.state ≠ .missing ∧ a.state ≠ .rx := fun {b check} hcheck hready => by
    unfold checkEdge at hcheck
    cases hfind : findBhContaining b heads with
    | none =>
      rw [hfind] at hcheck
      nomatch hcheck
    | some bh =>
      rw [hfind] at hcheck
      obtain ⟨hmem, hstart, hfin⟩ := findBhContaining_some hin hfind
      exact ⟨bh, hmem, hstart, hfin, hready bh hcheck⟩
  unfold checkPartialEdges at h
  generalize decide (off < on.lastBlock * blockSize ∧ off % blockSize ≠ 0) = ph at h
  generalize decide (off + len < on.objectSize ∧ (off + len) % blockSize ≠ 0) = pt at h
  by_cases hsome : (ph = true ∨ pt = true) ∧ true = true
  · rw [if_pos hsome] at h
    obtain ⟨ok, hhead, h⟩ := bind_eq_some_iff.mp h
    cases ok with
    | false => exact absurd h (by simp)
    | true =>
      obtain ⟨ok, htail, h⟩ := map_eq_some_iff.mp h
      obtain ⟨rfl, rfl, rfl⟩ := h
      rintro x (⟨rfl, hp⟩ | ⟨rfl, hp⟩)
      · rw [if_pos hp] at hhead
        exact hedge hhead fun _ => checkHead_ready
      · rw [if_pos hp] at htail
        exact hedge htail fun _ => checkTail_ready
  · rw [if_neg hsome] at h
    obtain ⟨-, rfl, rfl⟩ := h
    rintro x (⟨-, hp⟩ | ⟨-, hp⟩)
    · exact absurd ⟨.inl hp, rfl⟩ hsome
    · exact absurd ⟨.inr hp, rfl⟩ hsome

/-- The heads that a write is mapped to are sound, if those before were. -/
theorem Walked.sound {start fin : ℕ} {hits : List (ℕ × BufferHead)} {j : Job}
    (hw : Walked on others start fin heads heads' hits bc') (ht : Tidy others heads bc)
    (hpart : ∀ bh ∈ heads, bh.state = .partialBh → OneBlockPartial bh)
    (hready : ∀ x, EdgeBlock j x → ∃ a ∈ heads, a.start ≤ x ∧ x < a.fin ∧ a.state ≠ .missing ∧ a.state ≠ .rx) :
    ∀ n ∈ heads', Sound heads j n := by
  refine fun n hn => ⟨fun x hx hlow hhigh => ?_, fun hp => ?_⟩
  · -- the piece that has the block
    obtain ⟨a, ha, hstart, hfin, hmissing, hrx⟩ := hready x hx
    obtain ⟨ps, ⟨cs, hcs, -⟩, hsub⟩ := hw.kept a ha
    obtain ⟨b, hb, hbx⟩ := (hcs.tiled (ht.inOrder.pos a ha)).covered_iff.mpr ⟨hstart, hfin⟩
    obtain rfl : b = n := hw.inOrder.unique (hsub b hb) hn hbx ⟨hlow, hhigh⟩
    rcases (hcs.version b hb).2 with h | ⟨h, -⟩ | ⟨-, h⟩
    · rw [h]
      exact ⟨hmissing, hrx⟩
    · exact absurd h hrx
    · rw [h]
      exact ⟨nofun, nofun⟩
  · rcases hw.made n hn with ⟨-, -, -, h | h⟩ | ⟨a, ha, ps, ⟨cs, hcs, -⟩, hmem⟩
    · rw [hp] at h
      nomatch h
    · rw [hp] at h
      nomatch h
    have hstate : a.state = .partialBh := by
      rcases (hcs.version n hmem).2 with h | ⟨-, h⟩ | ⟨-, h⟩
      · rw [← h, hp]
      · rw [hp] at h
        nomatch h
      · rw [hp] at h
        nomatch h
    have hone := hpart a ha hstate
    cases hcs with
    | whole hk =>
      obtain rfl := mem_singleton.mp hmem
      refine ⟨⟨hk.length_eq.trans hone.one, ?_, ?_⟩, a, ha, hstate, hk.start_eq, fun x hx => ?_⟩
      · rw [hk.frags_eq]
        exact hone.apart
      · rw [hk.frags_eq]
        exact hone.inside
      · rwa [hk.frags_eq]
    | cons hlow hhigh _ _ =>
      have hlen := hone.one
      unfold BufferHead.fin at hhigh
      omega

theorem Backed.sound {orig : List BufferHead} {j : Job} {a b : BufferHead} (h : Backed a b) (ha : Sound orig j a) :
    Sound orig j b := by
  have hplace : SamePlace a b := ⟨h.kept.start_eq, h.kept.length_eq⟩
  rcases h.state with hstate | ⟨-, hstate⟩
  · exact ha.of_same hstate hplace h.kept.frags_eq
  · refine ⟨fun _ _ _ _ => ?_, fun hp => ?_⟩
    · rw [hstate]
      exact ⟨nofun, nofun⟩
    · rw [hstate] at hp
      nomatch hp

theorem backed_tiled {m n : ℕ} {l l' : List BufferHead} (h : List.Forall₂ Backed l l')
    (ht : Tiled start BufferHead.fin m n l) : Tiled start BufferHead.fin m n l' := by
  induction h generalizing m with
  | nil => exact ht
  | cons hab _ ih =>
    obtain ⟨hstart, hlt, hrest⟩ := ht
    refine ⟨hab.kept.start_eq.trans hstart, hab.kept.fin_eq ▸ hlt, ?_⟩
    rw [hab.kept.fin_eq]
    exact ih hrest

theorem backed_sound {orig l l' : List BufferHead} {j : Job} (h : List.Forall₂ Backed l l')
    (hl : ∀ b ∈ l, Sound orig j b) : ∀ b ∈ l', Sound orig j b := by
  induction h with
  | nil => exact hl
  | cons hab _ ih =>
    obtain ⟨ha, hl⟩ := forall_mem_cons.mp hl
    exact forall_mem_cons.mpr ⟨hab.sound ha, ih hl⟩

theorem mapWrite_walked {start epoch : ℕ} {hits : List (ℕ × BufferHead)} (hext : on.Contiguous) (ht : Tidy others heads bc)
    (hepoch : 0 < epoch) (h : mapWrite on start len epoch heads bc = some (heads', hits, bc')) :
    Walked on others start (start + len) heads heads' hits bc' := by
  obtain ⟨hok, hfails⟩ := @mapWrite_spec on start len epoch heads others bc hext ht hepoch
  by_cases hall : ∀ h ∈ heads, Queued epoch bc.queue h → Resubmits on start (start + len) h
  · obtain ⟨heads1, hits1, bc1, hrun, hw⟩ := hok hall
    rw [h] at hrun
    obtain ⟨rfl, rfl, rfl⟩ := hrun
    exact hw
  · rw [hfails hall] at h
    nomatch h

/-- The write does not start a partial while a commit does; what is partial was partial before, and has what it had. -/
structure KeepsPartials (o : Object α) (x : Except Failed (Object α × ℤ × List ℕ)) : Prop where
  noStart : x ≠ .error .partialInCommit
  ends : x ≠ .error .turns
  kept : ∀ o' r finished, x = .ok (o', r, finished) → r = 0 ∧
    ∀ b ∈ o'.heads, b.state = .partialBh → ∃ a ∈ o.heads, Carried a b

/-- The run of a write that passes the check. -/
theorem applyWrite_safe (al : Allocator α) {conf : Conf} {q : Request} {o : Object α} (hext : o.disk.on.Contiguous)
    (ht : Tidy others o.heads o.bc) (hpart : ∀ bh ∈ o.heads, bh.state = .partialBh → OneBlockPartial bh)
    (hepoch : 0 < q.epoch) (hlen : 0 < q.bl.length) (hcommit : conf.commitStarting = true)
    (hcheck : checkPartialEdges o.disk.on q.off q.bl.length true o.heads = some (true, partialHead, partialTail)) :
    Safe (· ≠ .assertion) (fun r => r.2.1 = 0 ∧ ∀ b ∈ r.1.heads, b.state = .partialBh → Tracks o.heads b)
      (applyWrite al conf q o) := by
  have hassert : ¬ Failed.assertion ≠ .assertion := fun h => h rfl
  have hblocks : firstBlock q.off + (finalBlock q.off q.bl.length + 1 - firstBlock q.off) = finalBlock q.off q.bl.length + 1 := by
    unfold firstBlock finalBlock blockSize
    omega
  unfold applyWrite
  dsimp only
  rw [hcommit, hcheck, hblocks]
  refine Safe.bind (P := fun r => r = (true, partialHead, partialTail))
    (safe_need hassert fun r hr => (some.inj hr).symm) ?_
  rintro _ rfl
  generalize hon : ({ o.disk.on with objectSize := max o.disk.on.objectSize (q.off + q.bl.length) } : Onode) = on
  have hext' : on.Contiguous := hon ▸ hext
  -- the heads that the write is mapped to
  refine Safe.bind (P := fun r => Walked on others (firstBlock q.off) (finalBlock q.off q.bl.length + 1) o.heads r.1 r.2.1 r.2.2)
    (safe_need hassert fun r hr => ?_) ?_
  · have hw := mapWrite_walked hext' ht hepoch hr
    rwa [hblocks] at hw
  rintro ⟨heads', hits, bc1⟩ hw
  refine Safe.bind (P := fun r => List.Forall₂ Backed (hits.map Prod.snd) r.1) (safe_need hassert fun r hr => ?_) ?_
  · exact (allocWrite_spec hr).1
  rintro ⟨hits', disk, bc2, alloc, ends⟩ hbacked
  generalize hj : Job.mk q.off q.bl q.paged q.raw partialHead partialTail o.disk.on.objectSize o.disk.on.lastBlock alloc ends
    (o.writeCount + 1) q.epoch true = j
  have hready : ∀ x, EdgeBlock j x → ∃ a ∈ o.heads, a.start ≤ x ∧ x < a.fin ∧ a.state ≠ .missing ∧ a.state ≠ .rx := by
    rw [← hj]
    exact checkPartialEdges_ready ht.inOrder hcheck
  have hsound := hw.sound ht hpart hready
  have hhits : ∀ b ∈ hits', Sound o.heads j b := by
    refine backed_sound hbacked fun b hb => ?_
    obtain ⟨p, hp, rfl⟩ := List.mem_map.mp hb
    exact hsound p.2 (hw.keys p hp).2
  -- the heads outside, with those of the range in between
  have hall : ∀ done : List BufferHead, (∀ b ∈ done, b.state = .partialBh → Tracks o.heads b) →
      ∀ b ∈ (heads'.filter fun bh => bh.start < firstBlock q.off) ++ done ++
        heads'.filter (fun bh => finalBlock q.off q.bl.length + 1 ≤ bh.start), b.state = .partialBh → Tracks o.heads b := by
    intro done hdone
    refine forall_mem_append.mpr ⟨forall_mem_append.mpr ⟨fun b hb => ?_, hdone⟩, fun b hb => ?_⟩
    · exact (hsound b (mem_of_mem_filter hb)).tracks
    · exact (hsound b (mem_of_mem_filter hb)).tracks
  by_cases hfake : conf.fakeWrites = true
  · rw [if_pos hfake]
    exact ⟨rfl, hall hits' fun b hb => (hhits b hb).tracks⟩
  rw [if_neg hfake]
  have hoff : j.off = q.off ∧ j.bl = q.bl := by
    rw [← hj]
    exact ⟨rfl, rfl⟩
  have hsync : Sync j (firstBlock q.off) ⟨disk.on, bc2, q.off, q.bl.length, 0, []⟩ := by
    constructor
    · rw [hoff.1, hoff.2]
      dsimp only
      unfold firstBlock blockSize
      omega
    · rw [hoff.1, hoff.2]
      exact add_comm _ _
  refine Safe.bind (writeHits_safe (hoff.2 ▸ hlen) ?_ (by rw [hoff.1]) ?_ hhits hsync) ?_
  · rw [hoff.1, hoff.2]
  · rw [hoff.1, hoff.2]
    exact backed_tiled hbacked hw.tiled
  rintro ⟨done, s⟩ hdone
  split_ifs
  · exact ⟨rfl, hall done hdone⟩
  · exact hassert

/-- **A write while a commit starts**: if the check lets it pass, then no partial is started, and each one keeps what it has;
otherwise nothing changes. -/
theorem apply_write_during_commit (al : Allocator α) {conf : Conf} {q : Request} {o : Object α}
    (hext : o.disk.on.Contiguous) (ht : Tidy others o.heads o.bc)
    (hpart : ∀ bh ∈ o.heads, bh.state = .partialBh → OneBlockPartial bh) (hepoch : 0 < q.epoch)
    (hlen : 0 < q.bl.length) (hcommit : conf.commitStarting = true)
    (hcheck : checkPartialEdges o.disk.on q.off q.bl.length true o.heads = some (passes, partialHead, partialTail)) :
    if passes then KeepsPartials o (applyWrite al conf q o) else applyWrite al conf q o = .ok (o, -1, []) := by
  cases passes with
  | true =>
    have hsafe := applyWrite_safe al hext ht hpart hepoch hlen hcommit hcheck
    refine ⟨fun h => hsafe.error h nofun, fun h => hsafe.error h nofun, fun o' r finished h => ?_⟩
    obtain ⟨hr, hall⟩ := hsafe.value h
    exact ⟨hr, fun b hb hp => (hall b hb hp).before⟩
  | false =>
    unfold applyWrite
    dsimp only
    rw [hcommit, hcheck]
    rfl

end write

/-! ### An object that grows while a commit starts -/

/-- All new blocks are at 20. -/
def oneSpan : Allocator Unit where
  release _ _ := some ()
  allocate n _ := if h : 0 < n then some (⟨⟨20, n⟩, h, le_rfl⟩, ()) else none

/-- The object was truncated to 50 bytes, which were written before, while its block is read. -/
def truncated : Object Unit where
  disk := ⟨⟨50, 1, 0, [(0, ⟨⟨10, 1⟩, [0]⟩)], IntervalSet.empty, IntervalSet.empty, false⟩, 1, ()⟩
  heads := [{ BufferHead.new 0 1 with
    state := .partialBh
    rxIoh := 1
    rxFrom := ⟨10, 1⟩
    frags := [(0, List.replicate 50 0)] }]
  bc := ⟨fun s => if s = .partialBh then 1 else 0, 1, fun _ => 0, [], 1⟩
  writeCount := 1

/-- The second block is written. -/
def secondBlock : Request := ⟨blockSize, List.replicate blockSize 0, fun _ _ => true, 0, 1⟩

def committing : Conf := ⟨false, false, true⟩

theorem truncated_tidy : Tidy (fun _ => 0) truncated.heads truncated.bc := by
  exact {
    filled := forall_mem_singleton.mpr (.inl rfl)
    unflushed := forall_mem_singleton.mpr nofun
    known := forall_mem_singleton.mpr ⟨le_rfl, Nat.zero_le _⟩
    distinct := pairwise_singleton _ _
    inOrder := inOrder_cons.mpr ⟨zero_lt_one, nofun, nofun, .nil⟩
    sorted := forall_mem_singleton.mpr (by decide)
    inPlace := forall_mem_singleton.mpr (by decide)
    counted := fun s => by cases s <;> rfl }

theorem truncated_oneBlock : ∀ bh ∈ truncated.heads, bh.state = .partialBh → OneBlockPartial bh := by
  refine forall_mem_singleton.mpr fun _ => ⟨rfl, pairwise_singleton _ _, forall_mem_singleton.mpr ?_⟩
  decide

theorem truncated_check : checkPartialEdges truncated.disk.on secondBlock.off secondBlock.bl.length true truncated.heads =
    some (true, false, false) := by
  decide +kernel

theorem truncated_contiguous : truncated.disk.on.Contiguous := ⟨rfl, by decide, rfl⟩

theorem apply_write_during_commit_append : KeepsPartials truncated (applyWrite oneSpan committing secondBlock truncated) :=
  apply_write_during_commit oneSpan truncated_contiguous truncated_tidy truncated_oneBlock one_pos
    (by rw [secondBlock, length_replicate]; decide) rfl truncated_check

/-- What was complete or absent is not left incomplete. -/
def LeavesNone {α : Type} (o o' : Object α) : Prop :=
  ∀ b ∈ o'.heads, b.state = .partialBh → ¬ Complete o'.disk.on.objectSize b →
    ∃ a ∈ o.heads, a.start = b.start ∧ a.state = .partialBh ∧ ¬ Complete o.disk.on.objectSize a

/-- The size of the object, and which heads know their byte 50. -/
def outcome (x : Except Failed (Object Unit × ℤ × List ℕ)) : Option (ℕ × List (ℕ × State × Bool)) :=
  match x with
  | .ok (o, _, _) => some (o.disk.on.objectSize, o.heads.map fun bh => (bh.start, bh.state, (value bh.frags 50).isSome))
  | .error _ => none

/-- The object grows, so that more of its first block is missing. -/
theorem apply_write_grows_object : truncated.disk.on.Contiguous ∧ Tidy (fun _ => 0) truncated.heads truncated.bc ∧
    checkPartialEdges truncated.disk.on secondBlock.off secondBlock.bl.length true truncated.heads =
      some (true, false, false) ∧
    ∃ o' r finished, applyWrite oneSpan committing secondBlock truncated = .ok (o', r, finished) ∧
      ¬ LeavesNone truncated o' := by
  refine ⟨truncated_contiguous, truncated_tidy, truncated_check, ?_⟩
  have hout : outcome (applyWrite oneSpan committing secondBlock truncated) =
      some (2 * blockSize, [(0, .partialBh, false), (1, .tx, false)]) := by
    decide +kernel
  cases hrun : applyWrite oneSpan committing secondBlock truncated with
  | error e =>
    rw [hrun] at hout
    nomatch hout
  | ok r =>
    obtain ⟨o', r, finished⟩ := r
    rw [hrun] at hout
    refine ⟨o', r, finished, rfl, fun hleaves => ?_⟩
    obtain ⟨hsize, hheads⟩ := Prod.mk.inj (some.inj hout)
    obtain ⟨b, bs, hb, hfirst, -⟩ := map_eq_cons_iff.mp hheads
    simp only [Prod.mk.injEq] at hfirst
    obtain ⟨hstart, hstate, hmissing⟩ := hfirst
    obtain ⟨a, ha, -, -, hcomplete⟩ := hleaves b (hb ▸ mem_cons_self) hstate fun hcomplete => by
      -- byte 50 was behind the end of the object
      have hknown := hcomplete 50 (by rw [hstart, hsize]; decide)
      exact Bool.false_ne_true (hmissing.symm.trans hknown)
    refine hcomplete fun x hx => value_isSome.mpr ?_
    obtain rfl := mem_singleton.mp ha
    exact ⟨_, mem_cons_self, Nat.zero_le _, hx.trans_le (min_le_left _ _)⟩

end Cache
end Ebofs
end Ceph
