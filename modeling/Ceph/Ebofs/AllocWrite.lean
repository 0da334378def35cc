/-
# Blocks for a write

`alloc_write` finds the blocks of a write that the last commit has, since these must not be overwritten. It
releases them, allocates new ones and maps the object to them (`set_extent`). With `ebofs_realloc` it also
takes back the writes of heads in the range, from the last one on, to put these in new blocks, too.

The allocator is a parameter. It gives at most what is asked for, and something.
-/
import Ceph.Ebofs.MapWrite
import Ceph.Ebofs.RxFinish

namespace Ceph
namespace Ebofs
namespace Cache

open Option
open IntervalSet

/-! ### The allocator, and the heads -/

/-- What is asked of an allocator. -/
structure Allocator (α : Type) where
  release : Extent → α → Option α
  allocate : (n : ℕ) → α → Option ({ ex : Extent // 0 < ex.length ∧ ex.length ≤ n } × α)

/-- An onode, the blocks that it has, and the free ones. -/
structure Disk (α : Type) where
  on : Onode
  allocBlocks : ℤ
  free : α

/-- Where the first and the last block of the write were before, and their checksums. -/
structure OldEnds where
  bfirst : ℕ
  blast : ℕ
  csumFirst : UInt64
  csumLast : UInt64

/-- `allocate` and `set_extent`, until all blocks are there. -/
def allocSpan {α : Type} (al : Allocator α) (left cur : ℕ) (m : Mapping) (free : α) : Option (Mapping × α) :=
  if left = 0 then some (m, free)
  else
    match al.allocate left free with
    | none => none
    | some (⟨ex, _⟩, free) => allocSpan al (left - ex.length) (cur + ex.length) (setExtent cur ex m) free
termination_by left
decreasing_by omega

/-- Old blocks are released, and noted if they are the first or the last of the range. -/
def releaseOld {α : Type} (al : Allocator α) (on : Onode) (start len : ℕ) (s : α × OldEnds) (i : ℕ × ℕ) :
    Option (α × OldEnds) :=
  (mapExtents on i.1 i.2).bind fun old =>
    (old.foldlM (fun free ex => if ex.start ≠ 0 then al.release ex free else some free) s.1).bind fun free =>
      (match old.head? with
        | some ex =>
          if ex.start ≠ 0 ∧ i.1 = start then
            (on.csumOf start).map fun csum => { s.2 with bfirst := ex.start, csumFirst := csum }
          else some s.2
        | none => some s.2).bind fun ends =>
          match old.getLast? with
          | some ex =>
            if ex.start ≠ 0 ∧ i.1 + i.2 = start + len ∧ start + len ≤ on.lastBlock then
              (on.csumOf (start + len - 1)).map fun csum =>
                (free, { ends with blast := ex.start + ex.length - 1, csumLast := csum })
            else some (free, ends)
          | none => some (free, ends)

/-- What the loop over the tx heads changes. -/
structure Moving (α : Type) where
  bc : BufferCache
  free : α
  alloc : IntervalSet

/-- A tx head in the range is written elsewhere. -/
def moveTx {α : Type} (al : Allocator α) (on : Onode) (epoch : ℕ) (bh : BufferHead) (s : Moving α) :
    Option (BufferHead × Moving α) :=
  if s.alloc.containsRange bh.start bh.length then some (bh, s)
  else (mapExtents on bh.start bh.length).bind fun old =>
    match old with
    | [ex] =>
      if bh.epochModified = epoch then
        (bhCancelWrite bh epoch s.bc).bind fun (_, bh, bc) => (al.release ex s.free).bind fun free =>
          (s.alloc.insert bh.start bh.length).map fun alloc => (bh, ⟨bc, free, alloc⟩)
      else none
    | _ => none

/-- The loop over those that `find_tx` finds, from the last one on. -/
def moveTxs {α : Type} (al : Allocator α) (on : Onode) (start len epoch : ℕ) :
    List BufferHead → Moving α → Option (List BufferHead × Moving α)
  | [], s => some ([], s)
  | bh :: rest, s => (moveTxs al on start len epoch rest s).bind fun (rest, s) =>
    if start ≤ bh.start ∧ bh.fin ≤ start + len ∧ bh.state = .tx then
      (moveTx al on epoch bh s).map fun (bh, s) => (bh :: rest, s)
    else some (bh :: rest, s)

/-- `alloc_write`, with the heads in the range. -/
def allocWrite {α : Type} (al : Allocator α) (realloc : Bool) (start len epoch : ℕ) (hits : List BufferHead) (d : Disk α)
    (bc : BufferCache) : Option (List BufferHead × Disk α × BufferCache × IntervalSet × OldEnds) :=
  -- first decide what pages to (re)allocate
  (empty.insert start len).bind fun alloc => (intersectionOf alloc d.on.uncommitted).bind fun alreadyUncom =>
    (alloc.subtract alreadyUncom).bind fun alloc =>
      -- release it (into limbo)
      (alloc.m.foldlM (releaseOld al d.on start len) (d.free, ⟨0, 0, 0, 0⟩)).bind fun (free, ends) =>
        -- reallocate uncommitted too?
        (if realloc then moveTxs al d.on start len epoch hits ⟨bc, free, alloc⟩ else some (hits, ⟨bc, free, alloc⟩)).bind
          fun (hits, s) =>
            if s.alloc.m = [] then some (hits, { d with free := s.free }, s.bc, s.alloc, ends)
            else (unionOf d.on.uncommitted s.alloc).bind fun uncommitted =>
              -- allocate the space
              (s.alloc.m.foldlM (fun (r : Mapping × α) i => allocSpan al i.2 i.1 r.1 r.2)
                (⟨d.on.extentMap, d.on.lastBlock, d.allocBlocks, d.on.dataCsum⟩, s.free)).map fun (m, free) =>
                  let on := { d.on with
                    extentMap := m.extentMap
                    lastBlock := m.lastBlock
                    dataCsum := m.dataCsum
                    uncommitted := uncommitted
                    dirty := true }
                  (hits, ⟨on, m.allocBlocks, free⟩, s.bc, s.alloc, ends)

/-! ### What it does to the heads -/

/-- The same head, but a write may be taken back. -/
structure Backed (a b : BufferHead) : Prop where
  kept : Kept a b
  state : b.state = a.state ∨ a.state = .tx ∧ b.state = .dirty

section heads

variable {α : Type} {al : Allocator α} {on : Onode} {start len epoch : ℕ} {bh bh' : BufferHead}
  {hits hits' : List BufferHead} {s s' : Moving α} {bc bc' : BufferCache} {ok : Bool}

theorem Backed.refl (a : BufferHead) : Backed a a := ⟨.refl a, .inl rfl⟩

theorem bhCancelWrite_backed (h : bhCancelWrite bh epoch bc = some (ok, bh', bc')) : Backed bh bh' := by
  unfold bhCancelWrite at h
  split_ifs at h with htx
  cases hcancel : cancelIo bh.txIoh bc with
  | none =>
    rw [hcancel] at h
    obtain ⟨-, h⟩ := Prod.mk.inj (some.inj h)
    cases h
    exact .refl bh
  | some bc1 =>
    rw [hcancel] at h
    obtain ⟨⟨bh1, bc2⟩, hset, heq⟩ := map_eq_some_iff.mp h
    obtain rfl := setState_some hset
    obtain ⟨-, heq⟩ := Prod.mk.inj heq
    cases heq
    exact ⟨⟨rfl, .inr (.inr ⟨htx.1, rfl⟩)⟩, .inr ⟨htx.1, rfl⟩⟩

theorem moveTx_backed (h : moveTx al on epoch bh s = some (bh', s')) : Backed bh bh' := by
  unfold moveTx at h
  by_cases hin : s.alloc.containsRange bh.start bh.length
  · rw [if_pos hin] at h
    cases h
    exact .refl bh
  · rw [if_neg hin] at h
    obtain ⟨old, -, h⟩ := bind_eq_some_iff.mp h
    split at h
    · split_ifs at h
      obtain ⟨⟨ok, bh1, bc1⟩, hcancel, h⟩ := bind_eq_some_iff.mp h
      obtain ⟨free, -, h⟩ := bind_eq_some_iff.mp h
      obtain ⟨alloc, -, h⟩ := map_eq_some_iff.mp h
      cases h
      exact bhCancelWrite_backed hcancel
    · nomatch h

/-- **The heads stay** as they are, but for writes that are taken back. -/
theorem moveTxs_backed (h : moveTxs al on start len epoch hits s = some (hits', s')) : List.Forall₂ Backed hits hits' := by
  induction hits generalizing hits' s' with
  | nil =>
    cases h
    exact .nil
  | cons bh rest ih =>
    obtain ⟨⟨rest', s1⟩, hrest, h⟩ := bind_eq_some_iff.mp h
    split_ifs at h with htx
    · obtain ⟨⟨bh', s2⟩, hmove, ⟨⟩⟩ := map_eq_some_iff.mp h
      exact .cons (moveTx_backed hmove) (ih hrest)
    · cases h
      exact .cons (.refl bh) (ih hrest)

/-- **New blocks leave the heads and the size of the object.** -/
theorem allocWrite_spec {realloc : Bool} {d d' : Disk α} {alloc : IntervalSet} {ends : OldEnds}
    (h : allocWrite al realloc start len epoch hits d bc = some (hits', d', bc', alloc, ends)) :
    List.Forall₂ Backed hits hits' ∧ d'.on.objectSize = d.on.objectSize := by
  obtain ⟨a1, -, h⟩ := bind_eq_some_iff.mp h
  obtain ⟨a2, -, h⟩ := bind_eq_some_iff.mp h
  obtain ⟨a3, -, h⟩ := bind_eq_some_iff.mp h
  obtain ⟨⟨free, ends1⟩, -, h⟩ := bind_eq_some_iff.mp h
  obtain ⟨⟨hits1, s⟩, hmove, h⟩ := bind_eq_some_iff.mp h
  have hbacked : List.Forall₂ Backed hits hits1 := by
    split_ifs at hmove
    · exact moveTxs_backed hmove
    · cases hmove
      exact List.forall₂_same.mpr fun a _ => .refl a
  dsimp only at h
  split_ifs at h with hnone
  · cases h
    exact ⟨hbacked, rfl⟩
  · obtain ⟨uncom, -, h⟩ := bind_eq_some_iff.mp h
    obtain ⟨⟨m, free'⟩, -, h⟩ := map_eq_some_iff.mp h
    obtain ⟨rfl, rfl, -⟩ := h
    exact ⟨hbacked, rfl⟩

end heads

end Cache
end Ebofs
end Ceph
