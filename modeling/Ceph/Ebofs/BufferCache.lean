/-
# Cached blocks of an object

The cache of an EBOFS object (`ObjectCache`) is an ordered map of buffer heads, each with a state, a range
of blocks of the object and their data, if they are there. `BufferCache` counts the blocks
of each state, and has the I/O: a handle that is still in the device's queue can be cancelled.
The onode says where the blocks are on disk, and what their checksums are.

A walk over the map has the heads that it has passed, and those from its iterator on. The
LRU lists, reference counts and shadows are left out.
-/
import Ceph.Ebofs.PartialBlock
import Ceph.Ebofs.Superblock
import Ceph.Include.IntervalSet
import Ceph.Osdc.SplitWaiters

namespace Ceph
namespace Ebofs
namespace Cache

open List
open Option hiding min_eq_left
open IntervalSet
open Osdc.ObjectCacher (keptWaiters movedWaiters)
open Wire (Bytes)

/-! ### Heads and onodes -/

inductive State
  | missing
  | clean
  | dirty
  | tx
  | rx
  | partialBh
  | corrupt
deriving DecidableEq

/-- `BufferHead`. -/
structure BufferHead where
  state : State
  start : ℕ
  length : ℕ
  data : Bytes                              -- if empty, defined as zero (hole)
  rxIoh : ℕ
  rxFrom : Extent
  txIoh : ℕ
  txBlock : ℕ
  frags : Partial
  waitforRead : List (ℕ × List ℕ)           -- map<block_t, list<Context*>>
  epochModified : ℕ
  version : ℕ
  lastFlushed : ℕ
deriving DecidableEq

/-- `BufferHead(o, start, len)`. -/
def BufferHead.new (start length : ℕ) : BufferHead :=
  ⟨.missing, start, length, [], 0, ⟨0, 0⟩, 0, 0, [], [], 0, 0, 0⟩

/-- There is data for all blocks, or for none. -/
def BufferHead.Filled (bh : BufferHead) : Prop := bh.data = [] ∨ bh.data.length = bh.length * blockSize

/-- `end()`. -/
def BufferHead.fin (bh : BufferHead) : ℕ := bh.start + bh.length

/-- `take_read_waiters`. -/
def takeReadWaiters (bh : BufferHead) (finished : List ℕ) : BufferHead × List ℕ :=
  ({ bh with waitforRead := [] }, bh.waitforRead.foldl (fun f w => w.2 ++ f) finished)

structure ExtentCsum where
  ex : Extent
  csum : List UInt64
deriving DecidableEq

/-- `Onode`: what the cache uses of it. -/
structure Onode where
  objectSize : ℕ
  lastBlock : ℕ
  dataCsum : UInt64
  extentMap : List (ℕ × ExtentCsum)         -- map<block_t, ExtentCsum>
  badByteExtents : IntervalSet
  uncommitted : IntervalSet
  dirty : Bool
deriving DecidableEq

/-- The last entry of the extent map that begins at `offset` or before. -/
def Onode.entryAt (on : Onode) (offset : ℕ) : Option (ℕ × ExtentCsum) :=
  (on.extentMap.filter fun p => p.1 ≤ offset).getLast?

/-- `get_extent_csum_ptr`: the checksums from there on. -/
def getExtentCsum (on : Onode) (offset len : ℕ) : Option (List UInt64) :=
  (on.entryAt offset).bind fun p =>
    if p.2.ex.start ≠ 0 ∧ offset + len ≤ p.1 + p.2.ex.length then some (p.2.csum.drop (offset - p.1)) else none

/-- `*get_extent_csum_ptr(offset, 1) = csum`. -/
def setExtentCsum (offset : ℕ) (csum : UInt64) (on : Onode) : Onode :=
  match on.entryAt offset with
  | none => on
  | some p =>
    { on with extentMap := on.extentMap.map fun q =>
        if q.1 = p.1 then (q.1, { q.2 with csum := q.2.csum.set (offset - q.1) csum }) else q }

/-- The loop of `map_extents`, from an iterator on. -/
def mapExtentsLoop (start len : ℕ) : List (ℕ × ExtentCsum) → Option (List Extent)
  | [] => some []
  | p :: rest =>
    if len = 0 then some []
    else if p.1 ≠ start then none
    else
      let n := min len p.2.ex.length
      (mapExtentsLoop (start + n) (len - n) rest).map (⟨p.2.ex.start, n⟩ :: ·)

/-- `map_extents`. Its search for the last block finds what `lower_bound` does. -/
def mapExtents (on : Onode) (start len : ℕ) : Option (List Extent) :=
  let before := on.extentMap.filter fun p => p.1 < start
  let rest := on.extentMap.filter fun p => start ≤ p.1
  match before.getLast? with
  | none => mapExtentsLoop start len rest
  | some p =>
    if rest.head?.all (fun q => start < q.1) ∧ start - p.1 < p.2.ex.length then
      let n := min len (p.2.ex.length - (start - p.1))
      let ex := if p.2.ex.start ≠ 0 then p.2.ex.start + (start - p.1) else 0
      (mapExtentsLoop (start + n) (len - n) rest).map (⟨ex, n⟩ :: ·)
    else mapExtentsLoop start len rest

/-! ### The cache -/

/-- The counters `stat_*`, `partial_reads` and `epoch_unflushed`, and of the device the I/Os that can be cancelled.
`stat_all` is left out: it changes with the others, and is asserted to be their sum. -/
structure BufferCache where
  stat : State → ℤ
  partialReads : ℤ
  unflushed : ℕ → ℤ
  queue : List ℕ
  lastIoh : ℕ

def statAdd (bh : BufferHead) (bc : BufferCache) : BufferCache :=
  { bc with
    stat := Function.update bc.stat bh.state (bc.stat bh.state + bh.length)
    partialReads := if bh.state = .partialBh then bc.partialReads + 1 else bc.partialReads }

/-- `stat_sub`, which asserts that what is left is not negative. -/
def statSub (bh : BufferHead) (bc : BufferCache) : Option BufferCache :=
  if 0 ≤ bc.stat bh.state - bh.length then
    some { bc with
      stat := Function.update bc.stat bh.state (bc.stat bh.state - bh.length)
      partialReads := if bh.state = .partialBh then bc.partialReads - 1 else bc.partialReads }
  else none

/-- `set_state`. -/
def setState (bh : BufferHead) (s : State) (bc : BufferCache) : Option (BufferHead × BufferCache) :=
  (statSub bh bc).map fun bc => ({ bh with state := s }, statAdd { bh with state := s } bc)

/-- The left half of a head that is split. -/
def BufferHead.leftOf (bh : BufferHead) (after : ℕ) : BufferHead :=
  let n := after - bh.start
  { bh with
    length := n
    data := bh.data.take (n * blockSize)
    rxFrom := if bh.state = .rx then { bh.rxFrom with length := n } else bh.rxFrom
    waitforRead := keptWaiters after bh.waitforRead }

/-- The right half. -/
def BufferHead.rightOf (bh : BufferHead) (after : ℕ) : BufferHead :=
  let n := after - bh.start
  { BufferHead.new after (bh.length - n) with
    state := bh.state
    data := (bh.data.drop (n * blockSize)).take ((bh.length - n) * blockSize)
    rxFrom := if bh.state = .rx then ⟨bh.rxFrom.start + n, bh.rxFrom.length - n⟩ else ⟨0, 0⟩
    waitforRead := movedWaiters after bh.waitforRead
    epochModified := bh.epochModified
    version := bh.version
    lastFlushed := bh.lastFlushed }

/-- `split`: `after` is inside the head. The halves take its place in the map. -/
def split (orig : BufferHead) (after : ℕ) (bc : BufferCache) : Option (BufferHead × BufferHead × BufferCache) :=
  let right := orig.rightOf after
  (statSub orig (statAdd right bc)).bind fun bc =>
    if orig.data.length = 0 ∨ orig.data.length = ((orig.leftOf after).length + right.length) * blockSize then
      some (orig.leftOf after, right, statAdd (orig.leftOf after) bc)
    else none

/-- A new I/O. -/
def submit (bc : BufferCache) : BufferCache := { bc with queue := (bc.lastIoh + 1) :: bc.queue, lastIoh := bc.lastIoh + 1 }

/-- `cancel_io`. -/
def cancelIo (ioh : ℕ) (bc : BufferCache) : Option BufferCache :=
  if ioh ≠ 0 ∧ ioh ∈ bc.queue then some { bc with queue := bc.queue.erase ioh } else none

/-- `inc_unflushed` and `dec_unflushed`. -/
def countUnflushed (epoch : ℕ) (d : ℤ) (bc : BufferCache) : BufferCache :=
  { bc with unflushed := Function.update bc.unflushed epoch (bc.unflushed epoch + d) }

/-- The one extent of a head, which is no hole. -/
def oneExtent (on : Onode) (bh : BufferHead) : Option Extent :=
  (mapExtents on bh.start bh.length).bind fun exv =>
    match exv with
    | [ex] => if ex.start ≠ 0 then some ex else none
    | _ => none

/-- `bh_read`. -/
def bhRead (on : Onode) (bh : BufferHead) (src : ℕ) (bc : BufferCache) : Option (BufferHead × BufferCache) :=
  (if bh.state = .missing then setState bh .rx bc else if bh.state = .partialBh then some (bh, bc) else none).bind
    fun (bh, bc) => (oneExtent on bh).bind fun ex =>
      let ex := if src ≠ 0 then ⟨src, 1⟩ else ex
      if bh.rxIoh = 0 then some ({ bh with rxIoh := bc.lastIoh + 1, rxFrom := ex }, submit bc) else none

/-- `bh_cancel_read`: whether it is cancelled. -/
def bhCancelRead (bh : BufferHead) (bc : BufferCache) : Option (Bool × BufferHead × BufferCache) :=
  match cancelIo bh.rxIoh bc with
  | some bc => (setState { bh with rxIoh := 0 } .missing bc).map (true, ·)
  | none => some (false, bh, bc)

/-- `bh_write`. -/
def bhWrite (on : Onode) (bh : BufferHead) (shouldbe : ℕ) (bc : BufferCache) : Option (BufferHead × BufferCache) :=
  if 0 < bh.version ∧ bh.state = .dirty then
    (setState bh .tx bc).bind fun (bh, bc) => (oneExtent on bh).bind fun ex =>
      if (shouldbe ≠ 0 → ex.length = 1 ∧ ex.start = shouldbe) ∧ bh.lastFlushed < bh.version then
        some ({ bh with txBlock := ex.start, txIoh := bc.lastIoh + 1 }, countUnflushed bh.epochModified 1 (submit bc))
      else none
  else none

/-- `bh_cancel_write`. -/
def bhCancelWrite (bh : BufferHead) (curEpoch : ℕ) (bc : BufferCache) : Option (Bool × BufferHead × BufferCache) :=
  if bh.state = .tx ∧ bh.epochModified = curEpoch ∧ 0 < bh.epochModified then
    match cancelIo bh.txIoh bc with
    | some bc => (setState { bh with txIoh := 0 } .dirty bc).map fun (bh, bc) =>
      (true, bh, countUnflushed bh.epochModified (-1) bc)
    | none => some (false, bh, bc)
  else none

/-! ### What is got -/

section got

variable {bh bh' left right : BufferHead} {after : ℕ} {bc bc' : BufferCache} {s : State}

theorem leftOf_fin (h : bh.start ≤ after) : (bh.leftOf after).fin = after := Nat.add_sub_cancel' h

theorem rightOf_fin (h : bh.start ≤ after) (h' : after ≤ bh.fin) : (bh.rightOf after).fin = bh.fin := by
  unfold BufferHead.fin at h' ⊢
  simp only [BufferHead.rightOf, BufferHead.new]
  omega

theorem filled_split (h : bh.Filled) (hafter : bh.start ≤ after ∧ after ≤ bh.fin) :
    (bh.leftOf after).Filled ∧ (bh.rightOf after).Filled := by
  obtain ⟨hlow, hhigh⟩ := hafter
  unfold BufferHead.fin at hhigh
  rcases h with h | h
  · exact ⟨.inl (by rw [BufferHead.leftOf, h, take_nil]), .inl (by rw [BufferHead.rightOf, h, drop_nil, take_nil])⟩
  · have hle : (after - bh.start) * blockSize ≤ bh.length * blockSize := Nat.mul_le_mul_right _ (by omega)
    refine ⟨.inr ?_, .inr ?_⟩
    · rw [BufferHead.leftOf, length_take, h]
      exact min_eq_left hle
    · rw [BufferHead.rightOf, length_take, length_drop, h, ← Nat.sub_mul]
      exact min_self _

theorem split_some (h : split bh after bc = some (left, right, bc')) : left = bh.leftOf after ∧ right = bh.rightOf after := by
  obtain ⟨bc'', -, h⟩ := bind_eq_some_iff.mp h
  split_ifs at h
  simp only [some.injEq, Prod.mk.injEq] at h
  exact ⟨h.1.symm, h.2.1.symm⟩

theorem setState_some (h : setState bh s bc = some (bh', bc')) : bh' = { bh with state := s } := by
  obtain ⟨bc'', -, h⟩ := map_eq_some_iff.mp h
  exact (Prod.mk.inj h).1.symm

theorem bhWrite_some {on : Onode} {block : ℕ} (h : bhWrite on bh block bc = some (bh', bc')) :
    (bh'.start = bh.start ∧ bh'.length = bh.length) ∧ bh'.state = .tx := by
  unfold bhWrite at h
  split_ifs at h
  obtain ⟨⟨bh1, bc1⟩, hset, h⟩ := bind_eq_some_iff.mp h
  obtain ⟨ex, -, h⟩ := bind_eq_some_iff.mp h
  obtain rfl := setState_some hset
  split_ifs at h
  cases h
  exact ⟨⟨rfl, rfl⟩, rfl⟩

end got

/-! ### The counters -/

/-- The length of all heads of a state. -/
def total (s : State) (heads : List BufferHead) : ℕ := (heads.map fun bh => if bh.state = s then bh.length else 0).sum

/-- The counters are those of the heads, and of all others. -/
def Counted (others : State → ℕ) (heads : List BufferHead) (bc : BufferCache) : Prop :=
  ∀ s, bc.stat s = others s + total s heads

section counted

variable {bh : BufferHead} {heads l₁ l₂ : List BufferHead} {others : State → ℕ} {bc : BufferCache} {s : State} {after : ℕ}

@[simp] theorem total_nil (s : State) : total s [] = 0 := rfl

@[simp] theorem total_cons (s : State) (bh : BufferHead) (l : List BufferHead) :
    total s (bh :: l) = (if bh.state = s then bh.length else 0) + total s l := by
  simp [total]

@[simp] theorem total_append (s : State) (l₁ l₂ : List BufferHead) : total s (l₁ ++ l₂) = total s l₁ + total s l₂ := by
  simp [total]

theorem counted_append : Counted others (l₁ ++ l₂) bc ↔ Counted (fun s => others s + total s l₂) l₁ bc := by
  refine forall_congr' fun s => ?_
  rw [total_append]
  dsimp only
  omega

theorem statAdd_counted (h : Counted others heads bc) : Counted others (bh :: heads) (statAdd bh bc) := by
  intro s
  have hs := h s
  rw [total_cons, statAdd]
  by_cases heq : bh.state = s
  · subst heq
    simp only [Function.update_self, if_true]
    omega
  · simp only [Function.update_of_ne (Ne.symm heq), if_neg heq]
    omega

theorem statSub_counted (h : Counted others (bh :: heads) bc) : ∃ bc', statSub bh bc = some bc' ∧ Counted others heads bc' := by
  have hself := h bh.state
  rw [total_cons, if_pos rfl] at hself
  refine ⟨_, if_pos (by omega), fun s => ?_⟩
  have hs := h s
  rw [total_cons] at hs
  by_cases heq : bh.state = s
  · subst heq
    simp only [Function.update_self]
    omega
  · simp only [Function.update_of_ne (Ne.symm heq)]
    rw [if_neg heq] at hs
    omega

/-- **A state is set**, and counted. -/
theorem setState_counted (s : State) (h : Counted others (bh :: heads) bc) :
    ∃ bc', setState bh s bc = some ({ bh with state := s }, bc') ∧ Counted others ({ bh with state := s } :: heads) bc' := by
  obtain ⟨bc', hsub, hc⟩ := statSub_counted h
  exact ⟨_, by rw [setState, hsub]; rfl, statAdd_counted hc⟩

/-- **A head is split**, and its halves are counted. -/
theorem split_counted (h : Counted others (bh :: heads) bc) (hafter : bh.start < after ∧ after < bh.fin)
    (hdata : bh.Filled) :
    ∃ bc', split bh after bc = some (bh.leftOf after, bh.rightOf after, bc') ∧
      Counted others (bh.leftOf after :: bh.rightOf after :: heads) bc' := by
  have hadd : Counted others (bh :: bh.rightOf after :: heads) (statAdd (bh.rightOf after) bc) := by
    intro s
    have hs := @statAdd_counted (bh.rightOf after) _ _ _ h s
    rw [total_cons, total_cons] at hs ⊢
    omega
  obtain ⟨bc', hsub, hc⟩ := statSub_counted hadd
  have hlen : (bh.leftOf after).length + (bh.rightOf after).length = bh.length := by
    unfold BufferHead.fin at hafter
    simp only [BufferHead.leftOf, BufferHead.rightOf, BufferHead.new]
    omega
  refine ⟨statAdd (bh.leftOf after) bc', ?_, statAdd_counted hc⟩
  rw [split, hsub, bind_some, hlen]
  exact if_pos (hdata.imp_left fun h => by rw [h]; rfl)

end counted

end Cache
end Ebofs
end Ceph
