/-
# The objects and collections of EBOFS

The operations of `ebofs/Ebofs.cc` on objects and collections, under the
source's names and with its return codes: `_write`, `_zero`, `_truncate`,
`_remove`, `_clone`, `_setattr`, and so on. An operation is one step, as it is
under `ebofs_lock`; the waits for a commit in the middle of a write are left
out.

How the blocks of an object are kept (buffer cache, extents, allocator) is
another layer: `Blocks δ` is what it does with the data `δ` of an object and
with the count of free blocks, and everything here is for an arbitrary one.
-/
import Mathlib.Data.Finset.Card
import Ceph.Lib.Wire

namespace Ceph
namespace Ebofs

open Wire (Bytes)

/-- `pobject_t`, with its `object_t`. -/
structure PObject where
  volume : UInt32
  rank : UInt32
  ino : UInt64
  bno : UInt32
  rev : UInt32
deriving DecidableEq

/-- `coll_t`. -/
abbrev Coll := UInt64

/-- A C string. -/
def CStr := { b : Bytes // 0 ∉ b }

instance : DecidableEq CStr := inferInstanceAs (DecidableEq { b : Bytes // 0 ∉ b })

/-- `map<string,bufferptr>`. -/
abbrev Attrs := Bytes → Option Bytes

/-- `Onode`: what is kept of an object. -/
structure Onode (δ : Type) where
  readonly : Bool
  objectSize : ℤ
  data : δ
  attr : Attrs
  collections : List Coll     -- set<coll_t>

/-- The state under `ebofs_lock`. `collection_tab` and the cnodes are one map. -/
structure Store (δ : Type) where
  onodes : PObject → Option (Onode δ)
  cnodes : Coll → Option Attrs
  coTab : Finset (Coll × PObject)
  freeBlocks : ℕ
  dirtyOnodes : Finset PObject
  dirtyCnodes : Finset Coll

/-- What the layer below does with an object's data. The first argument and
result is `free_blocks`; `zero` also tells whether the onode became dirty, and
`share` gives the data of the cloned object and of the clone. -/
structure Blocks (δ : Type) where
  empty : δ
  write : ℕ → δ → ℤ → Bytes → ℕ × δ
  zero : ℕ → δ → ℤ → ℕ → ℕ × δ × Bool
  truncate : ℕ → δ → ℤ → ℕ × δ
  share : ℕ → δ → ℕ × δ × δ
  release : ℕ → δ → ℕ

/-! ### Return codes -/

def ENOENT : ℤ := 2
def EACCES : ℤ := 13
def EEXIST : ℤ := 17
def EINVAL : ℤ := 22
def ENOSPC : ℤ := 28

/-- A `size_t` returned as an `int`. -/
def asInt (len : UInt64) : ℤ := (len.toNat : ℤ).bmod (2 ^ 32)

variable {δ : Type} (B : Blocks δ)

/-! ### Onodes -/

/-- `dirty_onode`, of an onode that has changed. -/
def Store.putOnode (s : Store δ) (oid : PObject) (on : Onode δ) : Store δ :=
  { s with onodes := Function.update s.onodes oid (some on), dirtyOnodes := insert oid s.dirtyOnodes }

/-- `new_onode`. -/
def newOnode : Onode δ := ⟨false, 0, B.empty, fun _ => none, []⟩

/-- `get_onode`, or a new one. -/
def getOrNew (oid : PObject) (s : Store δ) : Onode δ × Store δ :=
  match s.onodes oid with
  | some on => (on, s)
  | none => (newOnode B, s.putOnode oid (newOnode B))

/-- The blocks that a write may need: `unsigned max`. -/
def mayNeed (offset : Int64) (length : UInt64) (s : Store δ) : ℕ :=
  ((length + offset.toUInt64).toNat / 4096 + 10 + (s.dirtyOnodes.card + s.dirtyCnodes.card)) % 2 ^ 32

/-- `_write`; `none`: an assertion failed. -/
def write (oid : PObject) (offset : Int64) (length : UInt64) (bl : Bytes) (s : Store δ) :
    Option (ℤ × Store δ) :=
  if bl.length ≠ length.toNat then none
  else
    let (on, s) := getOrNew B oid s
    if s.freeBlocks ≤ mayNeed offset length s then some (-ENOSPC, s)
    else if on.readonly then some (-EACCES, s)
    else if length = 0 then some (0, s.putOnode oid on)
    else
      -- apply_write
      let (free, data) := B.write s.freeBlocks on.data offset.toInt bl
      some (asInt length, { s with freeBlocks := free }.putOnode oid
        { on with data := data, objectSize := max on.objectSize (offset.toInt + length.toNat) })

/-- `_truncate`. -/
def truncate (oid : PObject) (size : Int64) (s : Store δ) : ℤ × Store δ :=
  match s.onodes oid with
  | none => (-ENOENT, s)
  | some on =>
    if on.readonly then (-EACCES, s)
    else if size.toInt > on.objectSize then (-EINVAL, s)
    else if size.toInt < on.objectSize then
      let (free, data) := B.truncate s.freeBlocks on.data size.toInt
      (0, { s with freeBlocks := free }.putOnode oid { on with data := data, objectSize := size.toInt })
    else (0, s)

/-- `_zero`. -/
def zero (oid : PObject) (offset : Int64) (length : UInt64) (s : Store δ) : ℤ × Store δ :=
  let (on, s) := getOrNew B oid s
  if on.readonly then (-EACCES, s)
  else if length ≠ 0 ∧ offset.toInt < on.objectSize then
    if on.objectSize ≤ offset.toInt + length.toInt64.toInt then (asInt length, (truncate B oid offset s).2)
    else
      -- apply_zero
      let (free, data, dirty) := B.zero s.freeBlocks on.data offset.toInt length.toNat
      let s := { s with freeBlocks := free }
      let on := { on with data := data }
      (asInt length, if dirty then s.putOnode oid on
        else { s with onodes := Function.update s.onodes oid (some on) })
  else (asInt length, s)

/-- `_remove`, with `remove_onode`. -/
def remove (oid : PObject) (s : Store δ) : ℤ × Store δ :=
  match s.onodes oid with
  | none => (-ENOENT, s)
  | some on => (0, { s with
      onodes := Function.update s.onodes oid none
      coTab := s.coTab.filter fun p => ¬ (p.1 ∈ on.collections ∧ p.2 = oid)
      freeBlocks := B.release s.freeBlocks on.data
      dirtyOnodes := s.dirtyOnodes.erase oid })

/-- The onode is changed by `f`, if it is there and may be changed. -/
def changeOnode (oid : PObject) (f : Onode δ → Onode δ) (s : Store δ) : ℤ × Store δ :=
  match s.onodes oid with
  | none => (-ENOENT, s)
  | some on => if on.readonly then (-EACCES, s) else (0, s.putOnode oid (f on))

/-- `_setattr`. -/
def setattr (oid : PObject) (name : CStr) (value : Bytes) : Store δ → ℤ × Store δ :=
  changeOnode oid fun on => { on with attr := Function.update on.attr name.1 (some value) }

/-- `_setattrs`. -/
def setattrs (oid : PObject) (attrset : Attrs) : Store δ → ℤ × Store δ :=
  changeOnode oid fun on => { on with attr := attrset }

/-- `_rmattr`. -/
def rmattr (oid : PObject) (name : CStr) : Store δ → ℤ × Store δ :=
  changeOnode oid fun on => { on with attr := Function.update on.attr name.1 none }

/-! ### Collections -/

/-- `_collection_add`. -/
def collectionAdd (cid : Coll) (oid : PObject) (s : Store δ) : ℤ × Store δ :=
  if s.cnodes cid = none then (-ENOENT, s)
  else match s.onodes oid with
    | none => (-ENOENT, s)
    | some on =>
      if cid ∈ on.collections then (-ENOENT, s)
      else (0, { s with coTab := insert (cid, oid) s.coTab }.putOnode oid
        { on with collections := cid :: on.collections })

/-- `_collection_remove`. -/
def collectionRemove (cid : Coll) (oid : PObject) (s : Store δ) : ℤ × Store δ :=
  if s.cnodes cid = none then (-ENOENT, s)
  else match s.onodes oid with
    | none => (-ENOENT, s)
    | some on =>
      if cid ∈ on.collections then
        (0, { s with coTab := s.coTab.erase (cid, oid) }.putOnode oid
          { on with collections := on.collections.erase cid })
      else (-ENOENT, s)

/-- `_clone`, if `g_conf.ebofs_cloneable`. -/
def clone (cloneable : Bool) (src dst : PObject) (s : Store δ) : ℤ × Store δ :=
  if cloneable = false then (-1, s)
  else match s.onodes src, s.onodes dst with
    | none, _ => (-ENOENT, s)
    | some _, some _ => (-EEXIST, s)
    | some fon, none =>
      let (free, fdata, tdata) := B.share s.freeBlocks fon.data
      let s := { s with
        freeBlocks := free
        onodes := Function.update s.onodes src (some { fon with data := fdata }) }
      let s := s.putOnode dst ⟨true, fon.objectSize, tdata, fon.attr, []⟩
      (0, fon.collections.foldl (fun s c => (collectionAdd c dst s).2) s)

/-- `_create_collection`. -/
def createCollection (cid : Coll) (s : Store δ) : ℤ × Store δ :=
  if (s.cnodes cid).isSome then (-EEXIST, s)
  else (0, { s with
    cnodes := Function.update s.cnodes cid (some fun _ => none)
    dirtyCnodes := insert cid s.dirtyCnodes })

/-- `_destroy_collection`. -/
def destroyCollection (cid : Coll) (s : Store δ) : ℤ × Store δ :=
  if s.cnodes cid = none then (-ENOENT, s)
  else
    -- collection_list
    let objects := (s.coTab.filter fun p => p.1 = cid).image Prod.snd
    (0, { s with
      onodes := fun o => if o ∈ objects then
          (s.onodes o).map fun on => { on with collections := on.collections.erase cid }
        else s.onodes o
      cnodes := Function.update s.cnodes cid none
      coTab := s.coTab.filter fun p => p.1 ≠ cid
      dirtyOnodes := s.dirtyOnodes ∪ objects.filter fun o => (s.onodes o).isSome
      dirtyCnodes := s.dirtyCnodes.erase cid })

/-- The attributes of a collection are changed by `f`. -/
def changeCnode (cid : Coll) (f : Attrs → Attrs) (s : Store δ) : ℤ × Store δ :=
  match s.cnodes cid with
  | none => (-ENOENT, s)
  | some attr => (0, { s with
      cnodes := Function.update s.cnodes cid (some (f attr))
      dirtyCnodes := insert cid s.dirtyCnodes })

/-- `_collection_setattr`. -/
def collectionSetattr (cid : Coll) (name : CStr) (value : Bytes) : Store δ → ℤ × Store δ :=
  changeCnode cid fun attr => Function.update attr name.1 (some value)

/-- `_collection_rmattr`. -/
def collectionRmattr (cid : Coll) (name : CStr) : Store δ → ℤ × Store δ :=
  changeCnode cid fun attr => Function.update attr name.1 none

end Ebofs
end Ceph
