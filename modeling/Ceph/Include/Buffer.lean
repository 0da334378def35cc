/-
# Buffers

`buffer` of `include/buffer.h`: a `ptr` is a part of a raw buffer, and a `list`
(a bufferlist) is a `std::list` of them with its length, an append buffer for
small appends and a cached position, `last_p`. Lists share raw buffers, so a
pool of lists and the raw buffers are one state.

The nodes of a `std::list` are what iterators point at: `erase` ends a node,
`splice` and `swap` take it to another list, and an iterator at `end()` stays
with its list. `none` is a failed assertion, undefined behaviour (a node that
is gone) or a loop that never ends. Numbers are `unsigned`, 32 bits.
-/
import Mathlib.Data.List.FinRange
import Ceph.Lib.Wire

namespace Ceph
namespace Buffer

open Wire (Bytes)

/-- An `unsigned`. -/
def u32 (k : ℕ) : ℕ := k % 2 ^ 32

/-- `a - b` of `unsigned`s. -/
def usub (a b : ℕ) : ℕ := u32 (2 ^ 32 + a - b)

/-- What `sysconf` says, a power of two, and what fresh memory holds: byte `k` of raw
buffer `r`. -/
structure Machine where
  pageSize : ℕ
  pageSize_pos : 0 < pageSize
  pageSize_le : pageSize ≤ 2 ^ 31
  junk : ℕ → ℕ → UInt8

/-- The raw buffers, in the order in which they were made. -/
abbrev Raws := List Bytes

/-- A raw buffer of `len` bytes that nobody has written. -/
def Machine.create (m : Machine) (raws : Raws) (len : ℕ) : Bytes :=
  (List.range len).map (m.junk raws.length)

/-- `b` with `d` copied to `pos`. -/
def patch (b : Bytes) (pos : ℕ) (d : Bytes) : Bytes := b.take pos ++ d ++ b.drop (pos + d.length)

/-! ### Pointers -/

/-- `buffer::ptr` -/
structure Ptr where
  raw : Option ℕ
  off : ℕ
  len : ℕ
  deriving DecidableEq, Repr

namespace Ptr

/-- `ptr()` -/
def null : Ptr := ⟨none, 0, 0⟩

/-- `end()` -/
def stop (p : Ptr) : ℕ := u32 (p.off + p.len)

/-- The raw buffer that is pointed into. -/
def data (raws : Raws) (p : Ptr) : Bytes := (p.raw.bind (raws[·]?)).getD []

/-- The bytes that are pointed at. -/
def bytes (raws : Raws) (p : Ptr) : Bytes := ((p.data raws).drop p.off).take p.len

/-- `unused_tail_length` -/
def unusedTailLength (raws : Raws) (p : Ptr) : ℕ :=
  if p.raw.isSome then usub (p.data raws).length p.stop else 0

/-- `ptr(p, o, l)` -/
def sub (p : Ptr) (o l : ℕ) : Option Ptr :=
  if u32 (o + l) ≤ p.len ∧ p.raw.isSome then some ⟨p.raw, u32 (p.off + o), l⟩ else none

/-- `copy_out` -/
def copyOut (raws : Raws) (p : Ptr) (o l : ℕ) : Option Bytes :=
  if p.raw.isSome ∧ o ≤ p.len ∧ u32 (o + l) ≤ p.len then some (((p.bytes raws).drop o).take l) else none

/-- `copy_in` -/
def copyIn (raws : Raws) (p : Ptr) (o : ℕ) (src : Bytes) : Option Raws :=
  p.raw.bind fun r =>
    if o ≤ p.len ∧ u32 (o + src.length) ≤ p.len then some (raws.modify r (patch · (p.off + o) src)) else none

end Ptr

/-! ### Lists -/

/-- A node of a `std::list<ptr>`. -/
structure Node where
  id : ℕ
  ptr : Ptr
  deriving DecidableEq, Repr

/-- What a `std::list` iterator points at: a node, or `end()` of list `i`. -/
inductive Pos (n : ℕ)
  | node (id : ℕ)
  | fin (i : Fin n)
  deriving DecidableEq

/-- `list::iterator` -/
structure Iter (n : ℕ) where
  off : ℕ
  p : Pos n
  pOff : ℕ
  deriving DecidableEq

/-- `buffer::list` -/
structure BList (n : ℕ) where
  nodes : List Node
  len : ℕ
  appendBuffer : Ptr
  lastP : Iter n
  deriving DecidableEq

/-- A list just constructed. -/
def BList.empty {n : ℕ} (i : Fin n) : BList n := ⟨[], 0, Ptr.null, ⟨0, .fin i, 0⟩⟩

/-- A pool of lists. `held` are `ptr`s that the callers keep; `next` is the next
node. -/
structure State (n : ℕ) where
  raws : Raws
  lists : Fin n → BList n
  held : List Ptr
  next : ℕ

namespace State

variable {n : ℕ}

def init (n : ℕ) : State n := ⟨[], BList.empty, [], 0⟩

def set (s : State n) (i : Fin n) (l : BList n) : State n := { s with lists := Function.update s.lists i l }

def nodes (s : State n) (i : Fin n) : List Node := (s.lists i).nodes

/-- The bytes of list `i`. -/
def content (s : State n) (i : Fin n) : Bytes := (s.nodes i).flatMap (·.ptr.bytes s.raws)

/-- `length()` -/
def length (s : State n) (i : Fin n) : ℕ := (s.lists i).len

end State

variable {n : ℕ}

/-! ### Appending -/

/-- `clear` -/
def clear (s : State n) (i : Fin n) : State n := s.set i { s.lists i with nodes := [], len := 0 }

/-- Nodes for the pointers `ps`, numbered from `id`. -/
def mkNodes (id : ℕ) : List Ptr → List Node
  | [] => []
  | p :: ps => ⟨id, p⟩ :: mkNodes (id + 1) ps

/-- The pointers `ps` are pushed back, and `_len` grows by `len`. -/
def appendPtrs (s : State n) (i : Fin n) (ps : List Ptr) (len : ℕ) : State n :=
  { s.set i { s.lists i with nodes := s.nodes i ++ mkNodes s.next ps, len := u32 ((s.lists i).len + len) } with
    next := s.next + ps.length }

/-- `append(ptr)`, which is `push_back`. -/
def appendPtr (s : State n) (i : Fin n) (p : Ptr) : State n := appendPtrs s i [p] p.len

/-- `append(list)`; a list appended to itself grows before its own `end()`. -/
def appendList (s : State n) (i j : Fin n) : Option (State n) :=
  if i = j ∧ s.nodes i ≠ [] then none
  else some (appendPtrs s i ((s.nodes j).map (·.ptr)) (s.lists j).len)

/-- The nodes after `append(ptr, off, len)`: the last one is extended where the
new part is next to it in memory. -/
def pushRange (id : ℕ) (nodes : List Node) (p : Ptr) (off len : ℕ) : Option (List Node) :=
  if u32 (len + off) ≤ p.len then
    match nodes.getLast? with
    | some b =>
      if b.ptr.raw = p.raw ∧ b.ptr.stop = u32 (p.off + off) then
        some (nodes.dropLast ++ [⟨b.id, { b.ptr with len := u32 (b.ptr.len + len) }⟩])
      else (p.sub off len).map fun q => nodes ++ [⟨id, q⟩]
    | none => (p.sub off len).map fun q => nodes ++ [⟨id, q⟩]
  else none

/-- `append(ptr, off, len)` -/
def appendRange (s : State n) (i : Fin n) (p : Ptr) (off len : ℕ) : Option (State n) :=
  (pushRange s.next (s.nodes i) p off len).map fun ns =>
    { s.set i { s.lists i with nodes := ns, len := u32 ((s.lists i).len + len) } with next := s.next + 1 }

/-- What fits is put into the append buffer; the rest is returned. -/
def fillGap (s : State n) (i : Fin n) (data : Bytes) : Option (State n × Bytes) :=
  let ab := (s.lists i).appendBuffer
  let gap := min (ab.unusedTailLength s.raws) data.length
  if ab.unusedTailLength s.raws = 0 then some (s, data)
  else
    ab.raw.bind fun r =>
      let ab' : Ptr := { ab with len := u32 (ab.len + gap) }
      let s' := { s.set i { s.lists i with appendBuffer := ab' } with
        raws := s.raws.modify r (patch · ab.stop (data.take gap)) }
      (appendRange s' i ab' (usub ab'.stop gap) gap).map fun t => (t, data.drop gap)

/-- A new append buffer, with room for `len` bytes and for whole pages. -/
def newAppendBuffer (m : Machine) (s : State n) (i : Fin n) (len : ℕ) : State n :=
  let alen := u32 (m.pageSize * ((len - 1) / m.pageSize + 1))
  { s.set i { s.lists i with appendBuffer := ⟨some s.raws.length, 0, 0⟩ } with
    raws := s.raws ++ [m.create s.raws alen] }

/-- `k` rounds of the loop of `append`. -/
def appendLoop (m : Machine) : ℕ → State n → Fin n → Bytes → Option (State n)
  | 0, s, _, data => if data = [] then some s else none
  | k + 1, s, i, data =>
    if data = [] then some s
    else
      (fillGap s i data).bind fun r =>
        if r.2 = [] then some r.1 else appendLoop m k (newAppendBuffer m r.1 i r.2.length) i r.2

/-- `append(data, len)`. The second round has room for all that is left, unless
`alen` has wrapped to 0, and then no round ever has. -/
def append (m : Machine) (s : State n) (i : Fin n) (data : Bytes) : Option (State n) :=
  appendLoop m 2 s i data

/-- `append_zero` -/
def appendZero (s : State n) (i : Fin n) (len : ℕ) : State n :=
  appendPtr { s with raws := s.raws ++ [List.replicate len 0] } i ⟨some s.raws.length, 0, len⟩

/-! ### Moving -/

/-- `claim_append`; to splice a `std::list` into itself is undefined. -/
def claimAppend (s : State n) (i j : Fin n) : Option (State n) :=
  if i = j then none
  else
    some ((s.set i { s.lists i with
      nodes := s.nodes i ++ s.nodes j, len := u32 ((s.lists i).len + (s.lists j).len) }).set j
        { s.lists j with nodes := [], len := 0 })

/-- `claim` -/
def claim (s : State n) (i j : Fin n) : Option (State n) := claimAppend (clear s i) i j

/-- `swap`; the cached positions stay. -/
def swap (s : State n) (i j : Fin n) : State n :=
  let a := s.lists i
  let b := s.lists j
  (s.set i { b with lastP := a.lastP }).set j { a with lastP := b.lastP }

/-- `operator=`; the nodes are new ones. -/
def assign (s : State n) (i j : Fin n) : State n :=
  if i = j then s
  else
    { s.set i { s.lists i with
        nodes := mkNodes s.next ((s.nodes j).map (·.ptr)), len := (s.lists j).len } with
      next := s.next + (s.nodes j).length }

/-- The loop of `rebuild`: what is copied to `pos`, one segment after the other. -/
def rebuildLoop (raws : Raws) (total : ℕ) : List Node → ℕ → Bytes → Option Bytes
  | [], _, nb => some nb
  | x :: xs, pos, nb =>
    if x.ptr.raw.isSome ∧ pos ≤ total ∧ u32 (pos + x.ptr.len) ≤ total then
      rebuildLoop raws total xs (u32 (pos + x.ptr.len)) (patch nb pos (x.ptr.bytes raws))
    else none

/-- `rebuild` -/
def rebuild (m : Machine) (s : State n) (i : Fin n) : Option (State n) :=
  let l := s.lists i
  (rebuildLoop s.raws l.len l.nodes 0 (m.create s.raws l.len)).map fun nb =>
    { s.set i { l with nodes := [⟨s.next, ⟨some s.raws.length, 0, l.len⟩⟩] } with
      raws := s.raws ++ [nb], next := s.next + 1 }

/-- `c_str`, and the segment whose address it returns. -/
def cStr (m : Machine) (s : State n) (i : Fin n) : Option (State n × Ptr) :=
  match s.nodes i with
  | [] => some (s, Ptr.null)
  | [x] => if x.ptr.raw.isSome then some (s, x.ptr) else none
  | _ => (rebuild m s i).bind fun t => (t.nodes i).head?.map fun x => (t, x.ptr)

/-- `operator[]` -/
def getByte (s : State n) (i : Fin n) (k : ℕ) : Option UInt8 :=
  if k < s.length i then go (s.nodes i) k else none
where
  go : List Node → ℕ → Option UInt8
    | [], _ => none
    | x :: xs, k => if x.ptr.len ≤ k then go xs (k - x.ptr.len) else (x.ptr.bytes s.raws)[k]?

/-! ### Cutting -/

/-- The walk to offset `off`: the nodes before, those from the one that is
reached, and the offset in that one. -/
def skip : List Node → ℕ → Option (List Node × List Node × ℕ)
  | xs, 0 => some ([], xs, 0)
  | [], _ + 1 => none
  | x :: xs, off + 1 =>
    if x.ptr.len ≤ off + 1 then (skip xs (off + 1 - x.ptr.len)).map fun r => (x :: r.1, r.2)
    else some ([], x :: xs, off + 1)

/-- The second loop of `substr_of`. -/
def substrLoop : List Node → ℕ → ℕ → Option (List Ptr)
  | _, _, 0 => some []
  | [], _, _ + 1 => none
  | x :: xs, off, len + 1 =>
    if u32 (off + (len + 1)) < x.ptr.len then (x.ptr.sub off (len + 1)).map fun q => [q]
    else
      let howmuch := usub x.ptr.len off
      (x.ptr.sub off howmuch).bind fun q => (substrLoop xs 0 (usub (len + 1) howmuch)).map fun qs => q :: qs

/-- `substr_of`: list `i` becomes a part of list `j`. -/
def substrOf (s : State n) (i j : Fin n) (off len : ℕ) : Option (State n) :=
  if u32 (off + len) ≤ s.length j then
    let t := clear s i
    (skip (t.nodes j) off).bind fun r =>
      (substrLoop r.2.1 r.2.2 len).map fun qs => appendPtrs t i qs ((qs.map (·.len)).sum)
  else none

/-- The part of a segment that is cut out goes to `claim_by`, if there is one. -/
def claimPart (s : State n) (claimBy : Option (Fin n)) (p : Ptr) (off len : ℕ) : Option (State n) :=
  match claimBy with
  | none => some s
  | some j => appendRange s j p off len

/-- List `i` with other nodes, and `_len` less `gone`. -/
def setNodes (s : State n) (i : Fin n) (nodes : List Node) (gone : ℕ) : State n :=
  s.set i { s.lists i with nodes := nodes, len := usub (s.lists i).len gone }

/-- The second loop of `splice`; `k` is where `curbuf` stands. -/
def spliceLoop (claimBy : Option (Fin n)) (i : Fin n) (k : ℕ) : ℕ → State n → ℕ → ℕ → Option (State n)
  | 0, s, _, len => if len = 0 then some s else none
  | fuel + 1, s, off, len =>
    if len = 0 then some s
    else
      (s.nodes i)[k]?.bind fun x =>
        if u32 (off + len) < x.ptr.len then
          (claimPart s claimBy x.ptr off len).map fun t =>
            setNodes t i ((t.nodes i).set k
              ⟨x.id, { x.ptr with off := u32 (off + len + x.ptr.off), len := usub x.ptr.len (len + off) }⟩)
              (u32 (off + len))
        else
          let howmuch := usub x.ptr.len off
          (claimPart s claimBy x.ptr off howmuch).bind fun t =>
            spliceLoop claimBy i k fuel (setNodes t i ((t.nodes i).eraseIdx k) x.ptr.len) 0 (usub len howmuch)

/-- `splice` -/
def splice (s : State n) (i : Fin n) (off len : ℕ) (claimBy : Option (Fin n)) : Option (State n) :=
  if off < s.length i ∧ 0 < len then
    (skip (s.nodes i) off).bind fun r =>
      -- `r.1` stays, and `curbuf` is the head of `r.2.1`
      let fuel := (len + 1) * ((s.nodes i).length + 1)
      if r.2.2 = 0 then spliceLoop claimBy i r.1.length fuel s 0 len
      else
        r.2.1.head?.bind fun x => (x.ptr.sub 0 r.2.2).bind fun q =>
          let l := s.lists i
          let t := { s.set i { l with nodes := r.1 ++ ⟨s.next, q⟩ :: r.2.1, len := u32 (l.len + r.2.2) } with
            next := s.next + 1 }
          spliceLoop claimBy i (r.1.length + 1) fuel t r.2.2 len
  else none

/-! ### Positions -/

/-- Where the walk to the nodes `xs` of list `j` stands. -/
def position (j : Fin n) : List Node → Pos n
  | [] => .fin j
  | x :: _ => .node x.id

/-- The list that holds a node, and its nodes from this one on. -/
def locate (s : State n) (id : ℕ) : Option (Fin n × List Node) :=
  (List.finRange n).findSome? fun j =>
    let xs := (s.nodes j).dropWhile (fun x => x.id ≠ id)
    if xs = [] then none else some (j, xs)

/-- `*p` -/
def deref (s : State n) : Pos n → Option Ptr
  | .node id => (locate s id).bind fun r => r.2.head?.map (·.ptr)
  | .fin _ => none

/-- `advance` -/
def advance (s : State n) (it : Iter n) (o : ℕ) : Option (Iter n) :=
  let off := u32 (it.off + o)
  let pOff := u32 (it.pOff + o)
  if pOff = 0 then some ⟨off, it.p, 0⟩
  else
    match it.p with
    | .node id => (locate s id).bind fun r => (skip r.2 pOff).map fun w => ⟨off, position r.1 w.2.1, w.2.2⟩
    | .fin _ => none

/-- `seek` -/
def seek (s : State n) (i : Fin n) (o : ℕ) : Option (Iter n) := advance s ⟨0, position i (s.nodes i), 0⟩ o

def setLastP (s : State n) (i : Fin n) (it : Iter n) : State n := s.set i { s.lists i with lastP := it }

/-- `last_p.advance` -/
def advanceLast (s : State n) (i : Fin n) (o : ℕ) : Option (State n) :=
  (advance s (s.lists i).lastP o).map (setLastP s i)

/-- `last_p.seek` -/
def seekLast (s : State n) (i : Fin n) (o : ℕ) : Option (State n) := (seek s i o).map (setLastP s i)

/-! ### Copying -/

section copy

variable {α : Type}

/-- The loop of the `copy`s of an iterator, here `last_p` of list `i`; `put` is
what is done with each part of a segment. A round that finds an empty segment
makes no progress, and neither does any round after it. -/
def copyLoop (put : State n → α → Ptr → ℕ → ℕ → Option (State n × α)) (i : Fin n) :
    ℕ → State n → α → ℕ → Option (State n × α)
  | 0, s, a, len => if len = 0 then some (s, a) else none
  | fuel + 1, s, a, len =>
    if len = 0 then some (s, a)
    else
      (deref s (s.lists i).lastP.p).bind fun p =>
        let pOff := (s.lists i).lastP.pOff
        let howmuch := min len (usub p.len pOff)
        (put s a p pOff howmuch).bind fun r =>
          (advanceLast r.1 i howmuch).bind fun t => copyLoop put i fuel t r.2 (len - howmuch)

/-- A `copy` of an iterator: from `end()` it seeks again. -/
def iterCopy (put : State n → α → Ptr → ℕ → ℕ → Option (State n × α)) (s : State n) (i : Fin n) (a : α)
    (len : ℕ) : Option (State n × α) :=
  let it := (s.lists i).lastP
  if it.p = .fin i then (seekLast s i it.off).bind fun t => copyLoop put i len t a len
  else copyLoop put i len s a len

/-- `last_p` is taken to `off`, if its offset is another one. -/
def toOffset (s : State n) (i : Fin n) (off : ℕ) : Option (State n) :=
  if (s.lists i).lastP.off ≠ off then seekLast s i off else some s

end copy

/-- Bytes are read. -/
def putBytes (s : State n) (dest : Bytes) (p : Ptr) (o l : ℕ) : Option (State n × Bytes) :=
  (p.copyOut s.raws o l).map fun b => (s, dest ++ b)

/-- Parts of segments are appended to list `j`. -/
def putList (j : Fin n) (s : State n) (_ : Unit) (p : Ptr) (o l : ℕ) : Option (State n × Unit) :=
  (appendRange s j p o l).map fun t => (t, ())

/-- Bytes of `src` are written. -/
def putIn (s : State n) (src : Bytes) (p : Ptr) (o l : ℕ) : Option (State n × Bytes) :=
  (p.copyIn s.raws o (src.take l)).map fun raws => ({ s with raws := raws }, src.drop l)

/-- `iterator::copy_in(len, list)`, one segment of the other list after the other. -/
def copyInSegments (i : Fin n) : List Node → State n → ℕ → Option (State n)
  | [], s, _ => some s
  | x :: xs, s, left =>
    let l := min x.ptr.len left
    if x.ptr.raw.isSome then
      (iterCopy putIn s i ((x.ptr.bytes s.raws).take l) l).bind fun t =>
        if left - l = 0 then some t.1 else copyInSegments i xs t.1 (left - l)
    else none

/-- A way to take the cached position to an offset. -/
abbrev Goto (n : ℕ) := State n → Fin n → ℕ → Option (State n)

section list

variable (go : Goto n)

/-- `copy(off, len, char *)` -/
def copyWith (s : State n) (i : Fin n) (off len : ℕ) : Option (State n × Bytes) :=
  if u32 (off + len) ≤ s.length i then (go s i off).bind fun t => iterCopy putBytes t i [] len else none

/-- `copy(off, len, string)` -/
def copyStringWith (s : State n) (i : Fin n) (off len : ℕ) : Option (State n × Bytes) :=
  (go s i off).bind fun t => iterCopy putBytes t i [] len

/-- `copy(off, len, list)` -/
def copyListWith (s : State n) (i : Fin n) (off len : ℕ) (j : Fin n) : Option (State n) :=
  if u32 (off + len) ≤ s.length i then
    (go s i off).bind fun t => (iterCopy (putList j) t i () len).map Prod.fst
  else none

/-- `copy_in(off, len, const char *)` -/
def copyInWith (s : State n) (i : Fin n) (off : ℕ) (src : Bytes) : Option (State n) :=
  if u32 (off + src.length) ≤ s.length i then
    (go s i off).bind fun t => (iterCopy putIn t i src src.length).map Prod.fst
  else none

/-- `copy_in(off, len, list)` -/
def copyInListWith (s : State n) (i : Fin n) (off len : ℕ) (j : Fin n) : Option (State n) :=
  (go s i off).bind fun t =>
    -- the iterator seeks before its loop, as each round of it does
    let it := (t.lists i).lastP
    if it.p = .fin i then (seekLast t i it.off).bind fun u => copyInSegments i (u.nodes j) u len
    else copyInSegments i (t.nodes j) t len

end list

/-- The five as they are in `list`: through the cached position. -/
abbrev copy : State n → Fin n → ℕ → ℕ → Option (State n × Bytes) := copyWith toOffset
abbrev copyString : State n → Fin n → ℕ → ℕ → Option (State n × Bytes) := copyStringWith toOffset
abbrev copyList : State n → Fin n → ℕ → ℕ → Fin n → Option (State n) := copyListWith toOffset
abbrev copyIn : State n → Fin n → ℕ → Bytes → Option (State n) := copyInWith toOffset
abbrev copyInList : State n → Fin n → ℕ → ℕ → Fin n → Option (State n) := copyInListWith toOffset

/-! ### Operations -/

/-- What callers do with a pool of lists. -/
inductive Op (n : ℕ)
  /-- `buffer::copy` -/
  | create (data : Bytes)
  /-- `ptr(p, o, l)` of the pointer held as `h` -/
  | sub (h o l : ℕ)
  | append (i : Fin n) (data : Bytes)
  | appendPtr (i : Fin n) (h : ℕ)
  | appendRange (i : Fin n) (h off len : ℕ)
  | appendList (i j : Fin n)
  | appendZero (i : Fin n) (len : ℕ)
  | clear (i : Fin n)
  | claim (i j : Fin n)
  | claimAppend (i j : Fin n)
  | swap (i j : Fin n)
  | assign (i j : Fin n)
  | substrOf (i j : Fin n) (off len : ℕ)
  | splice (i : Fin n) (off len : ℕ) (claimBy : Option (Fin n))
  | rebuild (i : Fin n)
  | cStr (i : Fin n)
  | getByte (i : Fin n) (k : ℕ)

/-- The state after an operation, and the bytes it returns. -/
def apply (m : Machine) (s : State n) : Op n → Option (State n × Bytes)
  | .create data =>
    some ({ s with raws := s.raws ++ [data], held := s.held ++ [⟨some s.raws.length, 0, data.length⟩] }, [])
  | .sub h o l => s.held[h]?.bind fun p => (p.sub o l).map fun q => ({ s with held := s.held ++ [q] }, [])
  | .append i data => (append m s i data).map (·, [])
  | .appendPtr i h => s.held[h]?.map fun p => (appendPtr s i p, [])
  | .appendRange i h off len => s.held[h]?.bind fun p => (appendRange s i p off len).map (·, [])
  | .appendList i j => (appendList s i j).map (·, [])
  | .appendZero i len => some (appendZero s i len, [])
  | .clear i => some (clear s i, [])
  | .claim i j => (claim s i j).map (·, [])
  | .claimAppend i j => (claimAppend s i j).map (·, [])
  | .swap i j => some (swap s i j, [])
  | .assign i j => some (assign s i j, [])
  | .substrOf i j off len => (substrOf s i j off len).map (·, [])
  | .splice i off len claimBy => (splice s i off len claimBy).map (·, [])
  | .rebuild i => (rebuild m s i).map (·, [])
  | .cStr i => (cStr m s i).map fun r => (r.1, r.2.bytes r.1.raws)
  | .getByte i k => (getByte s i k).map fun b => (s, [b])

end Buffer
end Ceph
