/-
# The extents of an onode

`set_extent` maps blocks of an object to an extent on disk, or to a hole, and `truncate_extents` cuts
the object. Both keep the number of the mapped blocks and the sum of their checksums as they go.

For the object, an onode is a list of blocks, each a block on disk with its checksum, or a hole. Two calls do
not do what they should at the end of the object: a new extent is merged with a hole before it
that has as many blocks as the number of the first new block, since a hole has block 0 for its start, and a hole is merged
with an extent that is the only one. Elsewhere the number of blocks cut off is kept in an `unsigned` or an `int`.

A mapped extent has its checksums in memory, so there are fewer than 2^32 of them.
-/
import Ceph.Ebofs.BufferCache
import Ceph.Lib.Tiles
import Mathlib

namespace Ceph
namespace Ebofs
namespace Cache

open List Keyed ExtentCsum
open Option hiding max_eq_left max_eq_right
open Tiles

/-! ### The code -/

/-- The end of an entry of the extent map. -/
def entryEnd (p : ℕ × ExtentCsum) : ℕ := p.1 + p.2.ex.length

/-- `resize_tail`. -/
def ExtentCsum.resizeTail (p : ExtentCsum) : ExtentCsum :=
  { p with csum := p.csum.take p.ex.length ++ List.replicate (p.ex.length - p.csum.length) 0 }

/-- `resize_head`. -/
def ExtentCsum.resizeHead (p : ExtentCsum) : ExtentCsum :=
  { p with csum := List.replicate (p.ex.length - p.csum.length) 0 ++ p.csum.drop (p.csum.length - p.ex.length) }

/-- The extents of an onode, with what it knows of all of them. -/
structure Mapping where
  extentMap : List (ℕ × ExtentCsum)
  lastBlock : ℕ
  allocBlocks : ℤ
  dataCsum : UInt64

/-- `extent_map[k]`. -/
def extentEntry (k : ℕ) (l : List (ℕ × ExtentCsum)) : ExtentCsum :=
  ((Keyed.find Prod.fst k l).map Prod.snd).getD ⟨⟨0, 0⟩, []⟩

/-- `extent_map[k] = p`. -/
def putExtent (k : ℕ) (p : ExtentCsum) (l : List (ℕ × ExtentCsum)) : List (ℕ × ExtentCsum) := Keyed.insert Prod.fst (k, p) l

/-- The checksums of `n` blocks of an extent, from block `i` on. -/
def csumSum (p : ExtentCsum) (i n : ℕ) : UInt64 := ((p.csum.drop i).take n).sum

/-- `set_extent` at the end. -/
def appendExtent (ex : Extent) (m : Mapping) : Mapping :=
  let resized (p : ExtentCsum) := if ex.start ≠ 0 then p.resizeTail else p
  let added :=
    match m.extentMap.getLast? with
    | some (k, p) =>
      if (k ≠ 0 ∧ ex.start ≠ 0 ∧ p.ex.start + p.ex.length = ex.start) ∨ (k = 0 ∧ ex.start = 0) then
        putExtent k (resized { p with ex := ⟨p.ex.start, p.ex.length + ex.length⟩ }) m.extentMap
      else putExtent m.lastBlock (resized { extentEntry m.lastBlock m.extentMap with ex := ex }) m.extentMap
    | none => putExtent m.lastBlock (resized { extentEntry m.lastBlock m.extentMap with ex := ex }) m.extentMap
  { m with
    extentMap := added
    lastBlock := m.lastBlock + ex.length
    allocBlocks := if ex.start ≠ 0 then m.allocBlocks + ex.length else m.allocBlocks }

/-- `set_extent` past the end. -/
def appendBehind (offset : ℕ) (ex : Extent) (m : Mapping) : Mapping :=
  if ex.start ≠ 0 then
    let hole := { extentEntry m.lastBlock m.extentMap with ex := ⟨0, offset - m.lastBlock⟩ }
    let l := putExtent m.lastBlock hole m.extentMap
    { m with
      extentMap := putExtent offset { extentEntry offset l with ex := ex }.resizeTail l
      lastBlock := offset + ex.length
      allocBlocks := m.allocBlocks + ex.length }
  else m

/-- The trailing bit of an extent that a chunk is cut out of the middle of. -/
def cutMiddle (fin : ℕ) (p : ℕ × ExtentCsum) (m : Mapping) : Mapping :=
  let n := p.2.ex.length - (fin - p.1)
  if p.2.ex.start ≠ 0 then
    let right := { p.2 with ex := ⟨p.2.ex.start + (fin - p.1), n⟩ }.resizeHead
    { m with
      extentMap := putExtent fin right m.extentMap
      allocBlocks := m.allocBlocks + n
      dataCsum := m.dataCsum + csumSum right 0 n }
  else { m with extentMap := putExtent fin { p.2 with ex := ⟨0, n⟩ } m.extentMap }

/-- The preceding extent, with its tail cut off. -/
def cutTail (offset fin : ℕ) (p : ℕ × ExtentCsum) (m : Mapping) : Mapping :=
  if offset < p.1 + p.2.ex.length then
    let newlen := offset - p.1
    let m := if fin < p.1 + p.2.ex.length then cutMiddle fin p m else m
    let left := { p.2 with ex := ⟨p.2.ex.start, newlen⟩ }
    if p.2.ex.start ≠ 0 then
      { m with
        extentMap := putExtent p.1 left.resizeTail m.extentMap
        allocBlocks := m.allocBlocks - (p.2.ex.length - newlen : ℕ)
        dataCsum := m.dataCsum - csumSum p.2 newlen (p.2.ex.length - newlen) }
    else { m with extentMap := putExtent p.1 left m.extentMap }
  else m

/-- The loop over the overlapping extents, from the first one on. -/
def overlapLoop (fin : ℕ) : List (ℕ × ExtentCsum) → ℤ → UInt64 → List (ℕ × ExtentCsum) × ℤ × UInt64
  | [], blocks, csum => ([], blocks, csum)
  | p :: rest, blocks, csum =>
    if fin ≤ p.1 then (p :: rest, blocks, csum)
    else if p.1 + p.2.ex.length ≤ fin then
      -- completely subsumed
      if p.2.ex.start ≠ 0 then overlapLoop fin rest (blocks - p.2.ex.length) (csum - csumSum p.2 0 p.2.ex.length)
      else overlapLoop fin rest blocks csum
    else
      -- spans next extent, cut off head
      let overlap : ℕ := (fin - p.1) % 2 ^ 32       -- unsigned
      if p.2.ex.start ≠ 0 then
        let n := { p.2 with ex := ⟨p.2.ex.start + overlap, p.2.ex.length - overlap⟩ }
        (putExtent fin n.resizeHead rest, blocks - overlap, csum - csumSum n 0 overlap)
      else (putExtent fin { p.2 with ex := ⟨0, p.2.ex.length - overlap⟩ } rest, blocks, csum)

/-- `set_extent`. -/
def setExtent (offset : ℕ) (ex : Extent) (m : Mapping) : Mapping :=
  if offset = m.lastBlock then appendExtent ex m
  else if m.lastBlock < offset then appendBehind offset ex m
  else
    -- remove any extent bits we overwrite
    let fin := offset + ex.length
    let m :=
      match (m.extentMap.filter fun p => p.1 < offset).getLast? with
      | some p => cutTail offset fin p m
      | none => m
    let (rest, blocks, csum) := overlapLoop fin (m.extentMap.filter fun p => offset ≤ p.1) m.allocBlocks m.dataCsum
    let l := (m.extentMap.filter fun p => p.1 < offset) ++ rest
    let n := { extentEntry offset l with ex := ex }
    { extentMap := putExtent offset (if ex.start ≠ 0 then n.resizeTail else n) l
      lastBlock := max m.lastBlock fin
      allocBlocks := if ex.start ≠ 0 then blocks + ex.length else blocks
      dataCsum := csum }

/-- A value that is kept in an `int`. -/
def toInt (n : ℕ) : ℤ := (BitVec.ofNat 32 n).toInt

/-- A value that is kept in a `block_t` or an `unsigned`. -/
def toUnsigned (w : ℕ) (n : ℤ) : ℕ := (n % 2 ^ w).toNat

/-- The extent that the object ends in, and what is released of it. -/
def truncateLast (len : ℕ) (p : ℕ × ExtentCsum) : ExtentCsum × List Extent :=
  let newlen := toInt (len - p.1)
  let kept := { p.2 with ex := ⟨p.2.ex.start, toUnsigned 64 newlen⟩ }
  if p.2.ex.start ≠ 0 then
    (kept.resizeTail, [⟨(p.2.ex.start + newlen).toNat, (p.2.ex.length - newlen).toNat⟩])
  else (kept, [])

/-- The extents that `extra` has, with their checksums. -/
def dropExtents (l : List (ℕ × ExtentCsum)) (blocks : ℤ) (csum : UInt64) : List Extent × ℤ × UInt64 :=
  l.foldl (fun (extra, blocks, csum) p =>
    if p.2.ex.start ≠ 0 then
      (extra ++ [p.2.ex], blocks - p.2.ex.length, csum - csumSum p.2 0 p.2.ex.length)
    else (extra, blocks, csum)) ([], blocks, csum)

/-- `truncate_extents`. -/
def truncateExtents (len : ℕ) (m : Mapping) : Option (Mapping × List Extent) :=
  let before := m.extentMap.filter fun p => p.1 < len
  let rest := m.extentMap.filter fun p => len ≤ p.1
  let (dropped, blocks, csum) := dropExtents rest m.allocBlocks m.dataCsum
  match before.getLast? with
  | none => some ({ extentMap := [], lastBlock := len, allocBlocks := blocks, dataCsum := csum }, dropped)
  | some p =>
    if rest.head?.all (fun q => len < q.1) ∧ len - p.1 < p.2.ex.length then
      let (kept, extra) := truncateLast len p
      let cut := toUnsigned 32 (toInt (len - p.1))
      if 0 < kept.ex.length then
        some ({
          extentMap := before.dropLast ++ [(p.1, kept)]
          lastBlock := len
          allocBlocks := blocks - (extra.map Extent.length).sum
          dataCsum := if p.2.ex.start ≠ 0 then csum - csumSum p.2 cut (p.2.ex.length - cut) else csum }, extra ++ dropped)
      else none
    else some ({ extentMap := before, lastBlock := len, allocBlocks := blocks, dataCsum := csum }, dropped)

/-! ### What the extents stand for -/

/-- A block of an object: its block on disk, with the checksum, or nothing in a hole. -/
abbrev Block := Option (ℕ × UInt64)

/-- A mapped extent has a checksum for each block, a hole has none. -/
def ExtentCsum.Sized (p : ExtentCsum) : Prop := p.csum.length = if p.ex.start = 0 then 0 else p.ex.length

/-- The blocks of an extent. -/
def ExtentCsum.blocks (p : ExtentCsum) : List Block :=
  if p.ex.start = 0 then List.replicate p.ex.length none
  else ((List.range' p.ex.start p.ex.length).zip p.csum).map some

/-- The blocks of an object. -/
def blocks (l : List (ℕ × ExtentCsum)) : List Block := l.flatMap fun p => p.2.blocks

/-- How many of the blocks are mapped. -/
def mapped (b : List Block) : ℤ := (b.countP Option.isSome : ℕ)

/-- The sum of their checksums. -/
def csums (b : List Block) : UInt64 := (b.map fun x => x.elim 0 Prod.snd).sum

/-- The extents follow each other from block 0 on, and the onode knows what they have. -/
structure Represents (m : Mapping) (b : List Block) : Prop where
  contiguous : Tiled Prod.fst entryEnd 0 m.lastBlock m.extentMap
  sized : ∀ p ∈ m.extentMap, p.2.Sized
  blocks_eq : blocks m.extentMap = b
  allocBlocks : m.allocBlocks = mapped b
  dataCsum : m.dataCsum = csums b

/-- The blocks of a new extent. -/
def freshBlocks (ex : Extent) : List Block :=
  if ex.start = 0 then List.replicate ex.length none else (List.range' ex.start ex.length).map fun d => some (d, 0)

/-- An object with blocks set. What is between its end and these becomes a hole, but there is none at the end. -/
def setBlocks (offset : ℕ) (ex : Extent) (b : List Block) : List Block :=
  if ex.start = 0 ∧ b.length < offset then b
  else b.take offset ++ List.replicate (offset - b.length) none ++ freshBlocks ex ++ b.drop (offset + ex.length)

section basics

variable {p : ExtentCsum} {b c : List Block} {l l' : List (ℕ × ExtentCsum)} {m n i d : ℕ}

@[simp] theorem blocks_nil : blocks [] = [] := rfl

@[simp] theorem blocks_cons {e : ℕ × ExtentCsum} : blocks (e :: l) = e.2.blocks ++ blocks l := rfl

@[simp] theorem blocks_append : blocks (l ++ l') = blocks l ++ blocks l' := flatMap_append

@[simp] theorem mapped_nil : mapped [] = 0 := rfl

@[simp] theorem mapped_append : mapped (b ++ c) = mapped b + mapped c := by
  simp [mapped]

@[simp] theorem mapped_holes : mapped (replicate n none) = 0 := by
  simp [mapped, countP_replicate]

@[simp] theorem csums_nil : csums [] = 0 := rfl

@[simp] theorem csums_append : csums (b ++ c) = csums b + csums c := by
  induction b with
  | nil => simp
  | cons x b ih =>
    unfold csums at ih ⊢
    grind

@[simp] theorem csums_holes : csums (replicate n none) = 0 := by
  induction n with
  | zero => rfl
  | succ n ih =>
    unfold csums at ih ⊢
    simp only [replicate_succ, map_cons, sum_cons, ih, elim_none]
    rfl

theorem mapped_split (b : List Block) (n : ℕ) : mapped (b.take n) + mapped (b.drop n) = mapped b := by
  rw [← mapped_append, take_append_drop]

theorem csums_split (b : List Block) (n : ℕ) : csums (b.take n) + csums (b.drop n) = csums b := by
  rw [← csums_append, take_append_drop]

theorem length_blocks (h : p.Sized) : p.blocks.length = p.ex.length := by
  unfold ExtentCsum.Sized at h
  unfold ExtentCsum.blocks
  split_ifs with hs
  · exact length_replicate
  · rw [if_neg hs] at h
    simp [h]

theorem length_blocks_tiled (h : Tiled Prod.fst entryEnd m n l) (hs : ∀ p ∈ l, p.2.Sized) : (blocks l).length + m = n := by
  induction l generalizing m with
  | nil => simpa using h
  | cons e l ih =>
    obtain ⟨hlo, -, hrest⟩ := h
    obtain ⟨he, hs⟩ := forall_mem_cons.mp hs
    have := ih hrest hs
    unfold entryEnd at this
    rw [blocks_cons, length_append, length_blocks he]
    omega

theorem part_counts (h : p.Sized) (hn : i + n ≤ p.ex.length) :
    mapped ((p.blocks.drop i).take n) = (if p.ex.start ≠ 0 then (n : ℤ) else 0) ∧
      csums ((p.blocks.drop i).take n) = if p.ex.start ≠ 0 then csumSum p i n else 0 := by
  by_cases hs : p.ex.start = 0
  · rw [if_neg (not_not.mpr hs), if_neg (not_not.mpr hs), ExtentCsum.blocks, if_pos hs, drop_replicate, take_replicate]
    exact ⟨mapped_holes, csums_holes⟩
  have hlen := length_blocks h
  unfold ExtentCsum.Sized at h
  rw [if_neg hs] at h
  rw [if_pos hs, if_pos hs]
  constructor
  · have hall : ∀ x ∈ (p.blocks.drop i).take n, Option.isSome x = true := by
      intro x hx
      have hx := mem_of_mem_drop (mem_of_mem_take hx)
      rw [ExtentCsum.blocks, if_neg hs] at hx
      obtain ⟨y, -, rfl⟩ := mem_map.mp hx
      rfl
    rw [mapped, countP_eq_length.mpr hall, length_take, length_drop, hlen]
    omega
  · have hzip : (p.blocks.map fun x => x.elim 0 Prod.snd) = p.csum := by
      rw [ExtentCsum.blocks, if_neg hs, List.map_map]
      exact map_snd_zip (by simp [h])
    rw [csumSum, csums, map_take, map_drop, hzip]

theorem rest_counts (h : p.Sized) (hi : i ≤ p.ex.length) :
    mapped (p.blocks.drop i) = (if p.ex.start ≠ 0 then (p.ex.length - i : ℕ) else 0 : ℤ) ∧
      csums (p.blocks.drop i) = if p.ex.start ≠ 0 then csumSum p i (p.ex.length - i) else 0 := by
  have hwhole : (p.blocks.drop i).take (p.ex.length - i) = p.blocks.drop i :=
    take_of_length_le (by rw [length_drop, length_blocks h])
  have hcounts := part_counts h (show i + (p.ex.length - i) ≤ p.ex.length by omega)
  rwa [hwhole] at hcounts

end basics

/-! ### Pieces of an extent -/

/-- An extent with its tail cut off. -/
def ExtentCsum.head (n : ℕ) (p : ExtentCsum) : ExtentCsum :=
  if p.ex.start ≠ 0 then { p with ex := ⟨p.ex.start, n⟩ : ExtentCsum }.resizeTail else { p with ex := ⟨p.ex.start, n⟩ }

/-- An extent with its head cut off. -/
def ExtentCsum.tail (d : ℕ) (p : ExtentCsum) : ExtentCsum :=
  if p.ex.start ≠ 0 then { p with ex := ⟨p.ex.start + d, p.ex.length - d⟩ : ExtentCsum }.resizeHead
  else { p with ex := ⟨0, p.ex.length - d⟩ }

/-- A new extent. -/
def freshExtent (ex : Extent) : ExtentCsum := if ex.start ≠ 0 then ⟨ex, List.replicate ex.length 0⟩ else ⟨ex, []⟩

section pieces

variable {p : ExtentCsum} {ex : Extent} {n d : ℕ}

@[simp] theorem length_head : (p.head n).ex.length = n := by
  unfold ExtentCsum.head
  split_ifs <;> rfl

@[simp] theorem length_tail : (p.tail d).ex.length = p.ex.length - d := by
  unfold ExtentCsum.tail
  split_ifs <;> rfl

@[simp] theorem length_fresh : (freshExtent ex).ex.length = ex.length := by
  unfold freshExtent
  split_ifs <;> rfl

theorem head_spec (h : p.Sized) (hn : n ≤ p.ex.length) : (p.head n).Sized ∧ (p.head n).blocks = p.blocks.take n := by
  unfold ExtentCsum.Sized at h ⊢
  by_cases hs : p.ex.start = 0
  · rw [ExtentCsum.head, if_neg (not_not.mpr hs)]
    refine ⟨by simpa [hs] using h, ?_⟩
    simp [ExtentCsum.blocks, hs, hn]
  · rw [if_neg hs] at h
    have hcut : p.csum.take n ++ replicate (n - p.csum.length) 0 = p.csum.take n := by
      rw [Nat.sub_eq_zero_of_le (by omega), replicate_zero, append_nil]
    rw [ExtentCsum.head, if_pos hs]
    unfold resizeTail ExtentCsum.blocks
    rw [hcut, if_neg hs, if_neg hs, if_neg hs]
    refine ⟨by simp [h, hn], ?_⟩
    rw [← map_take, zip, take_zipWith, take_range'_of_length_ge hn]

theorem tail_spec (h : p.Sized) (hd : d ≤ p.ex.length) : (p.tail d).Sized ∧ (p.tail d).blocks = p.blocks.drop d := by
  unfold ExtentCsum.Sized at h ⊢
  by_cases hs : p.ex.start = 0
  · rw [ExtentCsum.tail, if_neg (not_not.mpr hs)]
    refine ⟨by simpa [hs] using h, ?_⟩
    simp [ExtentCsum.blocks, hs]
  · rw [if_neg hs] at h
    have hcut : replicate (p.ex.length - d - p.csum.length) 0 ++ p.csum.drop (p.csum.length - (p.ex.length - d)) =
        p.csum.drop d := by
      rw [Nat.sub_eq_zero_of_le (by omega), replicate_zero, nil_append, h, Nat.sub_sub_self hd]
    have hs' : ¬ p.ex.start + d = 0 := by omega
    rw [ExtentCsum.tail, if_pos hs]
    unfold resizeHead ExtentCsum.blocks
    rw [hcut, if_neg hs', if_neg hs', if_neg hs]
    refine ⟨by simp [h], ?_⟩
    rw [← map_drop, zip, drop_zipWith, drop_range', mul_one]

theorem fresh_spec (ex : Extent) : (freshExtent ex).Sized ∧ (freshExtent ex).blocks = freshBlocks ex := by
  unfold freshExtent ExtentCsum.Sized ExtentCsum.blocks freshBlocks
  by_cases hs : ex.start = 0
  · simp [hs]
  · simp only [ne_eq, hs, not_false_eq_true, if_true, if_false]
    refine ⟨length_replicate, ?_⟩
    apply ext_getElem
    · simp
    · simp

theorem fresh_mapped : mapped (freshBlocks ex) = if ex.start ≠ 0 then (ex.length : ℤ) else 0 := by
  unfold freshBlocks
  split_ifs with hs hs'
  · exact absurd hs hs'
  · exact mapped_holes
  · rw [mapped, countP_eq_length.mpr, length_map, length_range']
    intro x hx
    obtain ⟨y, -, rfl⟩ := mem_map.mp hx
    rfl

theorem fresh_csums : csums (freshBlocks ex) = 0 := by
  unfold freshBlocks
  split_ifs with hs
  · exact csums_holes
  · have hzero : ((range' ex.start ex.length).map fun d => some (d, (0 : UInt64))).map (fun x : Block => x.elim 0 Prod.snd) =
        replicate ex.length 0 := by
      exact eq_replicate_iff.mpr ⟨by simp, by simp [eq_comm]⟩
    unfold csums
    rw [hzero]
    induction ex.length with
    | zero => rfl
    | succ n ih => rw [replicate_succ, sum_cons, ih]; rfl

end pieces

/-! ### Setting blocks -/

/-- The extents before `offset` and from `j` on are left, and the counts are those of these. -/
structure Parted (b : List Block) (offset j n : ℕ) (m : Mapping) (pre post : List (ℕ × ExtentCsum)) : Prop where
  map : m.extentMap = pre ++ post
  front : Tiled Prod.fst entryEnd 0 offset pre
  back : Tiled Prod.fst entryEnd j n post
  sized : ∀ p ∈ pre ++ post, p.2.Sized
  blocks_front : blocks pre = b.take offset
  blocks_back : blocks post = b.drop j
  allocBlocks : m.allocBlocks = mapped (b.take offset) + mapped (b.drop j)
  dataCsum : m.dataCsum = csums (b.take offset) + csums (b.drop j)

section set

variable {m : Mapping} {b : List Block} {pre post l : List (ℕ × ExtentCsum)} {p : ℕ × ExtentCsum} {ex : Extent}
  {offset fin j k n : ℕ} {blocks₀ : ℤ} {csum₀ : UInt64}

variable {e : ExtentCsum}

theorem putExtent_cut (hpre : ∀ q ∈ pre, q.1 < k) (hpost : ∀ q ∈ post, k < q.1) :
    putExtent k e (pre ++ post) = pre ++ (k, e) :: post := insert_cut hpre hpost

theorem putExtent_last (h : ∀ q ∈ pre, q.1 < k) : putExtent k e pre = pre ++ [(k, e)] := by
  have hcut := @putExtent_cut pre [] k e h (nofun)
  rwa [append_nil] at hcut

theorem putExtent_first (h : ∀ q ∈ post, k < q.1) : putExtent k e post = (k, e) :: post :=
  @putExtent_cut [] post k e (nofun) h

theorem extentEntry_new (h : ∀ q ∈ l, q.1 ≠ k) : extentEntry k l = ⟨⟨0, 0⟩, []⟩ := by
  have hnone : find Prod.fst k l = none := find?_eq_none.mpr fun q hq => by simpa using h q hq
  rw [extentEntry, hnone]
  rfl

theorem fresh_entry (ex : Extent) (h : ∀ q ∈ l, q.1 ≠ k) :
    (if ex.start ≠ 0 then { extentEntry k l with ex := ex : ExtentCsum }.resizeTail else { extentEntry k l with ex := ex }) =
      freshExtent ex := by
  rw [extentEntry_new h, freshExtent]
  split_ifs
  · rw [resizeTail]
    simp
  · rfl

theorem sorted_of_tiled (h : Tiled Prod.fst entryEnd j n l) : Keyed.Sorted Prod.fst l :=
  h.inOrder.apart.imp_of_mem fun ha _ hle => (h.inOrder.pos _ ha).trans_le hle

/-- **The loop over the overlapping extents** leaves what is behind the new one. -/
theorem overlapLoop_spec (blocks₀ : ℤ) (csum₀ : UInt64) (h : Tiled Prod.fst entryEnd j n l) (hs : ∀ p ∈ l, p.2.Sized) (hj : j ≤ fin)
    (hhead : ∀ p ∈ l, p.1 < fin → fin < entryEnd p → fin - p.1 < 2 ^ 32) :
    ∃ l', overlapLoop fin l blocks₀ csum₀ =
        (l', blocks₀ - mapped ((blocks l).take (fin - j)), csum₀ - csums ((blocks l).take (fin - j))) ∧
      Tiled Prod.fst entryEnd fin (max n fin) l' ∧ (∀ p ∈ l', p.2.Sized) ∧ blocks l' = (blocks l).drop (fin - j) := by
  induction l generalizing j blocks₀ csum₀ with
  | nil =>
    obtain rfl : j = n := h
    refine ⟨[], ?_, (max_eq_right hj).symm, nofun, by simp⟩
    rw [overlapLoop, blocks_nil, take_nil, mapped_nil, csums_nil, sub_zero, UInt64.sub_zero]
  | cons p l ih =>
    obtain ⟨rfl, hpos, hrest⟩ := h
    obtain ⟨hp, hs⟩ := forall_mem_cons.mp hs
    obtain ⟨hhead0, hhead⟩ := forall_mem_cons.mp hhead
    have hlen := length_blocks hp
    have hn := hrest.le
    rw [overlapLoop]
    rcases hj.eq_or_lt with heq | hlt
    · -- nothing is left to remove
      rw [if_pos heq.ge, heq, Nat.sub_self, take_zero, mapped_nil, csums_nil, Int.sub_zero, UInt64.sub_zero]
      refine ⟨p :: l, rfl, ?_, forall_mem_cons.mpr ⟨hp, hs⟩, rfl⟩
      rw [max_eq_left (by unfold entryEnd at hn; omega)]
      exact ⟨heq, heq ▸ hpos, hrest⟩
    rw [if_neg (not_le.mpr hlt)]
    by_cases hsub : p.1 + p.2.ex.length ≤ fin
    · rw [if_pos hsub]
      have htake : (blocks (p :: l)).take (fin - p.1) = p.2.blocks ++ (blocks l).take (fin - entryEnd p) := by
        rw [blocks_cons, take_append, take_of_length_le (by omega), hlen, entryEnd, Nat.sub_sub]
      have hdrop : (blocks (p :: l)).drop (fin - p.1) = (blocks l).drop (fin - entryEnd p) := by
        rw [blocks_cons, drop_append, drop_eq_nil_of_le (by omega), nil_append, hlen, entryEnd, Nat.sub_sub]
      obtain ⟨hmap, hsum⟩ := rest_counts hp (Nat.zero_le _)
      rw [drop_zero, Nat.sub_zero] at hmap hsum
      rw [htake, hdrop, mapped_append, csums_append, ← sub_sub, hmap, hsum]
      have hcsum : ∀ c d : UInt64, csum₀ - (c + d) = csum₀ - c - d := fun c d => by grind
      rw [hcsum]
      split_ifs with hreal
      · exact ih _ _ hrest hs hsub hhead
      · rw [sub_zero, UInt64.sub_zero]
        exact ih _ _ hrest hs hsub hhead
    · -- the last one is cut
      dsimp only
      have hcut : (fin - p.1) % 2 ^ 32 = fin - p.1 := Nat.mod_eq_of_lt (hhead0 hlt (not_le.mp hsub))
      obtain ⟨htail, htailb⟩ := tail_spec (d := fin - p.1) hp (by omega)
      have hput : ∀ e : ExtentCsum, putExtent fin e l = (fin, e) :: l := fun e =>
        putExtent_first fun q hq => (not_le.mp hsub).trans_le (hrest.within q hq).1
      have htake : (blocks (p :: l)).take (fin - p.1) = (p.2.blocks.drop 0).take (fin - p.1) := by
        rw [blocks_cons, take_append_of_le_length (by omega), drop_zero]
      refine ⟨(fin, p.2.tail (fin - p.1)) :: l, ?_, ?_, forall_mem_cons.mpr ⟨htail, hs⟩, ?_⟩
      · obtain ⟨hmap, hsum⟩ := part_counts hp (show 0 + (fin - p.1) ≤ p.2.ex.length by omega)
        rw [hcut, htake, hput, hput, hmap, hsum, ExtentCsum.tail]
        split_ifs
        · rfl
        · rw [sub_zero, UInt64.sub_zero]
      · have hend : entryEnd (fin, p.2.tail (fin - p.1)) = entryEnd p := by
          unfold entryEnd
          rw [length_tail]
          omega
        rw [max_eq_left (by unfold entryEnd at hn; omega)]
        exact ⟨rfl, hend ▸ not_le.mp hsub, hend.symm ▸ hrest⟩
      · rw [blocks_cons, blocks_cons, htailb, drop_append_of_le_length (by omega)]

theorem cut_inside {x : ℕ} (h : Tiled Prod.fst entryEnd 0 n (pre ++ p :: post)) (hs : ∀ q ∈ pre ++ p :: post, q.2.Sized)
    (hlow : p.1 ≤ x) (hhigh : x ≤ entryEnd p) :
    (blocks (pre ++ p :: post)).take x = blocks pre ++ p.2.blocks.take (x - p.1) ∧
      (blocks (pre ++ p :: post)).drop x = p.2.blocks.drop (x - p.1) ++ blocks post := by
  obtain ⟨hpre, hp, hpost⟩ : (∀ q ∈ pre, q.2.Sized) ∧ p.2.Sized ∧ ∀ q ∈ post, q.2.Sized := by
    simpa [or_imp, forall_and] using hs
  obtain ⟨k, hfront, hk, -, -⟩ := tiled_append.mp h
  have hlen := length_blocks_tiled hfront hpre
  have hlenp := length_blocks hp
  unfold entryEnd at hhigh
  rw [blocks_append, blocks_cons]
  constructor
  · rw [take_append, take_of_length_le (by omega), take_append_of_le_length (by omega)]
    congr 2
    omega
  · rw [drop_append, drop_eq_nil_of_le (by omega), nil_append, drop_append_of_le_length (by omega)]
    congr 2
    omega

theorem cutMiddle_eq (hp : p.2.Sized) (hlow : p.1 ≤ fin) (hhigh : fin ≤ entryEnd p) :
    cutMiddle fin p m = { m with
      extentMap := putExtent fin (p.2.tail (fin - p.1)) m.extentMap
      allocBlocks := m.allocBlocks + mapped (p.2.blocks.drop (fin - p.1))
      dataCsum := m.dataCsum + csums (p.2.blocks.drop (fin - p.1)) } := by
  unfold entryEnd at hhigh
  obtain ⟨htail, htailb⟩ := tail_spec (d := fin - p.1) hp (by omega)
  obtain ⟨hmap, -⟩ := rest_counts hp (show fin - p.1 ≤ p.2.ex.length by omega)
  obtain ⟨-, hsum⟩ := rest_counts htail (Nat.zero_le _)
  rw [drop_zero, Nat.sub_zero, htailb, length_tail] at hsum
  rw [hmap, hsum]
  unfold cutMiddle ExtentCsum.tail
  split_ifs with hreal hstart hstart
  · rfl
  · exact absurd (Nat.add_pos_left (pos_of_ne_zero hreal) _).ne' hstart
  · exact absurd rfl hstart
  · rw [add_zero, UInt64.add_zero]

theorem cutTail_eq (hp : p.2.Sized) (hlow : p.1 ≤ offset) (hhigh : offset < entryEnd p) :
    cutTail offset fin p m = let m := if fin < entryEnd p then cutMiddle fin p m else m
      { m with
        extentMap := putExtent p.1 (p.2.head (offset - p.1)) m.extentMap
        allocBlocks := m.allocBlocks - mapped (p.2.blocks.drop (offset - p.1))
        dataCsum := m.dataCsum - csums (p.2.blocks.drop (offset - p.1)) } := by
  have hhigh' : offset < p.1 + p.2.ex.length := hhigh
  unfold cutTail
  rw [if_pos hhigh']
  obtain ⟨hmap, hsum⟩ := rest_counts hp (show offset - p.1 ≤ p.2.ex.length by omega)
  rw [hmap, hsum, ExtentCsum.head]
  by_cases hreal : p.2.ex.start ≠ 0
  · simp only [if_pos hreal]
    rfl
  · simp only [if_neg hreal, sub_zero]
    rfl

/-- **The tail of the extent before** is cut off, and the rest of it that is behind the new extent stays. -/
theorem cutTail_parted (h : Represents m b) (hmap : m.extentMap = pre ++ p :: post) (hlow : p.1 < offset)
    (hle : offset ≤ entryEnd p) (hin : offset < fin) :
    ∃ j pre' post', Parted b offset j m.lastBlock (cutTail offset fin p m) pre' post' ∧
      (cutTail offset fin p m).lastBlock = m.lastBlock ∧ offset ≤ j ∧ j ≤ fin ∧ ∀ q ∈ post', q.1 < fin → q ∈ m.extentMap := by
  have htiled := h.contiguous
  have hsized := h.sized
  have hb := h.blocks_eq
  rw [hmap] at htiled hsized hb
  have hsorted := sorted_of_tiled htiled
  obtain ⟨k, hfront, hk, hpos, hback⟩ := tiled_append.mp htiled
  obtain ⟨hpre, hp, hpost⟩ : (∀ q ∈ pre, q.2.Sized) ∧ p.2.Sized ∧ ∀ q ∈ post, q.2.Sized := by
    simpa [or_imp, forall_and] using hsized
  obtain ⟨htake, hdrop⟩ := cut_inside htiled hsized hlow.le hle
  rw [hb] at htake hdrop
  have hcount := h.allocBlocks
  have hsum := h.dataCsum
  rw [← mapped_split b offset, hdrop, mapped_append] at hcount
  rw [← csums_split b offset, hdrop, csums_append] at hsum
  rcases hle.eq_or_lt with heq | hlt
  · have hsame : cutTail offset fin p m = m := if_neg (by unfold entryEnd at heq; omega)
    rw [hsame]
    refine ⟨offset, pre ++ [p], post, ?_, rfl, le_rfl, hin.le, fun q hq _ => hmap ▸ by simp [hq]⟩
    have hnone : p.2.blocks.drop (offset - p.1) = [] :=
      drop_eq_nil_of_le (by rw [length_blocks hp]; unfold entryEnd at heq; omega)
    rw [hnone, nil_append] at hdrop
    rw [hnone, mapped_nil, zero_add] at hcount
    rw [hnone, csums_nil, UInt64.zero_add] at hsum
    exact {
      map := by rw [hmap, append_assoc, singleton_append]
      front := tiled_append.mpr ⟨k, hfront, hk, hpos, heq.symm⟩
      back := heq ▸ hback
      sized := by simpa [or_imp, forall_and] using hsized
      blocks_front := by
        rw [htake, take_of_length_le (by rw [length_blocks hp]; unfold entryEnd at heq; omega)]
        simp
      blocks_back := hdrop.symm
      allocBlocks := by rw [hcount, hdrop]
      dataCsum := by rw [hsum, hdrop] }
  · obtain ⟨hhead, hheadb⟩ := head_spec (n := offset - p.1) hp (by unfold entryEnd at hlt; omega)
    have hfront' : Tiled Prod.fst entryEnd 0 offset (pre ++ [(p.1, p.2.head (offset - p.1))]) := by
      refine tiled_append.mpr ⟨k, hfront, hk, ?_, ?_⟩
      · unfold entryEnd
        rw [length_head]
        omega
      · rw [tiled_nil, entryEnd, length_head]
        omega
    have hfrontb : blocks (pre ++ [(p.1, p.2.head (offset - p.1))]) = b.take offset := by
      rw [htake, blocks_append, blocks_cons, hheadb, blocks_nil, append_nil]
    rw [cutTail_eq hp hlow.le hlt]
    dsimp only
    by_cases hmiddle : fin < entryEnd p
    · -- a chunk is cut out of the middle
      obtain ⟨-, hdrop'⟩ := cut_inside htiled hsized (hlow.trans hin).le hmiddle.le
      rw [hb] at hdrop'
      obtain ⟨htail, htailb⟩ := tail_spec (d := fin - p.1) hp (by unfold entryEnd at hmiddle; omega)
      have hback' : Tiled Prod.fst entryEnd fin m.lastBlock ((fin, p.2.tail (fin - p.1)) :: post) := by
        have hend : entryEnd (fin, p.2.tail (fin - p.1)) = entryEnd p := by
          unfold entryEnd at hmiddle ⊢
          rw [length_tail]
          omega
        exact ⟨rfl, hend ▸ hmiddle, hend.symm ▸ hback⟩
      have hput : putExtent fin (p.2.tail (fin - p.1)) (pre ++ p :: post) =
          pre ++ p :: (fin, p.2.tail (fin - p.1)) :: post := by
        have hbefore : ∀ q ∈ pre ++ [p], q.1 < fin := forall_mem_append.mpr
          ⟨fun q hq => (before_lt hsorted q hq).trans (hlow.trans hin),
            forall_mem_singleton.mpr (hlow.trans hin)⟩
        calc putExtent fin (p.2.tail (fin - p.1)) (pre ++ p :: post)
          _ = putExtent fin (p.2.tail (fin - p.1)) ((pre ++ [p]) ++ post) := by rw [append_assoc, singleton_append]
          _ = (pre ++ [p]) ++ (fin, p.2.tail (fin - p.1)) :: post :=
            putExtent_cut hbefore fun q hq => hmiddle.trans_le (hback.within q hq).1
          _ = pre ++ p :: (fin, p.2.tail (fin - p.1)) :: post := by rw [append_assoc, singleton_append]
      rw [if_pos hmiddle, cutMiddle_eq hp (hlow.trans hin).le hmiddle.le]
      dsimp only
      refine ⟨fin, pre ++ [(p.1, p.2.head (offset - p.1))], (fin, p.2.tail (fin - p.1)) :: post, ?_, rfl, hin.le, le_rfl,
        forall_mem_cons.mpr ⟨fun hcon => absurd hcon (lt_irrefl fin), fun q hq _ => hmap ▸ by simp [hq]⟩⟩
      exact {
        map := by
          obtain ⟨h1, -, h2, -, -⟩ := sorted_cut.mp hsorted
          have hbehind : ∀ q ∈ (fin, p.2.tail (fin - p.1)) :: post, p.1 < q.1 := fun q hq =>
            (hlow.trans hin).trans_le (hback'.within q hq).1
          have hsorted' : Keyed.Sorted Prod.fst (pre ++ p :: (fin, p.2.tail (fin - p.1)) :: post) :=
            sorted_cut.mpr ⟨h1, sorted_of_tiled hback', h2, hbehind, fun q hq c hc => (h2 q hq).trans (hbehind c hc)⟩
          rw [hmap, hput, append_assoc, singleton_append]
          exact insert_replace hsorted' rfl
        front := hfront'
        back := hback'
        sized := by
          simp only [append_assoc, singleton_append, forall_mem_append, forall_mem_cons]
          exact ⟨hpre, hhead, htail, hpost⟩
        blocks_front := hfrontb
        blocks_back := by rw [hdrop', blocks_cons, htailb]
        allocBlocks := by
          rw [hcount, hdrop', mapped_append]
          ring
        dataCsum := by
          rw [hsum, hdrop', csums_append]
          grind }
    · obtain ⟨-, hdrop'⟩ := cut_inside htiled hsized (hlow.trans hlt).le le_rfl
      have hnone : p.2.blocks.drop (entryEnd p - p.1) = [] :=
        drop_eq_nil_of_le (by rw [length_blocks hp]; unfold entryEnd; omega)
      rw [hb, hnone, nil_append] at hdrop'
      rw [if_neg hmiddle]
      refine ⟨entryEnd p, pre ++ [(p.1, p.2.head (offset - p.1))], post, ?_, rfl, hlt.le, not_lt.mp hmiddle,
        fun q hq _ => hmap ▸ by simp [hq]⟩
      exact {
        map := by
          rw [hmap, append_assoc, singleton_append]
          exact insert_replace hsorted rfl
        front := hfront'
        back := hback
        sized := by
          simp only [append_assoc, singleton_append, forall_mem_append, forall_mem_cons]
          exact ⟨hpre, hhead, hpost⟩
        blocks_front := hfrontb
        blocks_back := hdrop'.symm
        allocBlocks := by
          rw [hcount, hdrop']
          ring
        dataCsum := by
          grind }

theorem Parted.filters (h : Parted b offset j n m pre post) (hj : offset ≤ j) :
    (m.extentMap.filter fun q => q.1 < offset) = pre ∧ (m.extentMap.filter fun q => offset ≤ q.1) = post := by
  have hpre : ∀ q ∈ pre, q.1 < offset := fun q hq =>
    (h.front.inOrder.pos q hq).trans_le (h.front.within q hq).2
  have hpost : ∀ q ∈ post, offset ≤ q.1 := fun q hq => hj.trans (h.back.within q hq).1
  rw [h.map]
  exact filters_cut hpre hpost

/-- What `set_extent` does to the extent before the new one. -/
def cutBefore (offset fin : ℕ) (m : Mapping) : Mapping :=
  match (m.extentMap.filter fun p => p.1 < offset).getLast? with
  | some p => cutTail offset fin p m
  | none => m

theorem cutBefore_parted (h : Represents m b) (hlt : offset < m.lastBlock) (hin : offset < fin) :
    ∃ j pre post, Parted b offset j m.lastBlock (cutBefore offset fin m) pre post ∧
      (cutBefore offset fin m).lastBlock = m.lastBlock ∧ offset ≤ j ∧ j ≤ fin ∧ ∀ q ∈ post, q.1 < fin → q ∈ m.extentMap := by
  have hcut := filter_cut (sorted_of_tiled h.contiguous) offset
  have hbehind : ∀ q ∈ m.extentMap.filter fun q => offset ≤ q.1, offset ≤ q.1 := fun q hq => by
    simpa using (mem_filter.mp hq).2
  unfold cutBefore
  generalize (m.extentMap.filter fun q => offset ≤ q.1) = post at hcut hbehind
  cases hlast : (m.extentMap.filter fun q => q.1 < offset).getLast? with
  | none =>
    rw [getLast?_eq_none_iff.mp hlast, nil_append] at hcut
    have htiled := h.contiguous
    have hzero : offset = 0 := by
      rw [← hcut] at htiled
      cases post with
      | nil =>
        obtain hnil : 0 = m.lastBlock := htiled
        omega
      | cons q post =>
        have := hbehind q mem_cons_self
        have := htiled.1
        omega
    refine ⟨0, [], m.extentMap, ?_, rfl, hzero.le, Nat.zero_le _, fun q hq _ => hq⟩
    exact {
      map := rfl
      front := hzero.symm
      back := htiled
      sized := h.sized
      blocks_front := by rw [hzero]; rfl
      blocks_back := h.blocks_eq
      allocBlocks := by rw [hzero, take_zero, mapped_nil, zero_add]; exact h.allocBlocks
      dataCsum := by rw [hzero, take_zero, csums_nil, UInt64.zero_add]; exact h.dataCsum }
  | some p =>
    obtain ⟨pre, hpre⟩ := getLast?_eq_some_iff.mp hlast
    have hlow : p.1 < offset := by
      have hp : p ∈ m.extentMap.filter fun q => q.1 < offset := hpre ▸ by simp
      simpa using (mem_filter.mp hp).2
    rw [hpre, append_assoc, singleton_append] at hcut
    refine cutTail_parted h hcut.symm hlow ?_ hin
    have htiled := h.contiguous
    rw [← hcut] at htiled
    obtain ⟨k, -, -, -, hback⟩ := tiled_append.mp htiled
    cases post with
    | nil => exact (hlt.trans_eq hback.symm).le
    | cons q post => exact (hbehind q mem_cons_self).trans_eq hback.1

/-- What a step of `set_extent` asks: it does not take an extent for a part of the hole before it, nor a hole for a part
of the only extent, and the head that is cut off an extent fits in an `unsigned`. -/
structure Sets (offset : ℕ) (ex : Extent) (m : Mapping) : Prop where
  behindHole : offset = m.lastBlock → ex.start ≠ 0 →
    ∀ p ∈ m.extentMap.getLast?, p.1 ≠ 0 → p.2.ex.start = 0 → p.2.ex.length ≠ ex.start
  behindOnly : offset = m.lastBlock → ex.start = 0 → ∀ p ∈ m.extentMap.getLast?, p.1 = 0 → p.2.ex.start = 0
  overlap : ∀ p ∈ m.extentMap, offset ≤ p.1 → p.1 < offset + ex.length → offset + ex.length < entryEnd p →
    offset + ex.length - p.1 < 2 ^ 32

theorem length_of_represents (h : Represents m b) : b.length = m.lastBlock := by
  rw [← h.blocks_eq]
  exact length_blocks_tiled h.contiguous h.sized

/-- Inside the object. -/
theorem setInside_represents (h : Represents m b) (hpos : 0 < ex.length) (hlt : offset < m.lastBlock) (hsets : Sets offset ex m) :
    Represents (setExtent offset ex m) (setBlocks offset ex b) := by
  have hin : offset < offset + ex.length := Nat.lt_add_of_pos_right hpos
  obtain ⟨j, pre, post, hparted, hlast, hj, hjfin, hold⟩ := cutBefore_parted h hlt hin
  obtain ⟨hfilter, hfilter'⟩ := hparted.filters hj
  obtain ⟨l', hloop, hback, hsized, hblocks⟩ := overlapLoop_spec
    (cutBefore offset (offset + ex.length) m).allocBlocks (cutBefore offset (offset + ex.length) m).dataCsum hparted.back
    (fun q hq => hparted.sized q (mem_append_right pre hq)) hjfin
    fun q hq hqfin => hsets.overlap q (hold q hq hqfin) (hj.trans (hparted.back.within q hq).1) hqfin
  have hlen := length_of_represents h
  have hpre : ∀ q ∈ pre, q.1 < offset := fun q hq =>
    (hparted.front.inOrder.pos q hq).trans_le (hparted.front.within q hq).2
  have hpost : ∀ q ∈ l', offset < q.1 := fun q hq => hin.trans_le (hback.within q hq).1
  have hnew : ∀ q ∈ pre ++ l', q.1 ≠ offset := forall_mem_append.mpr
    ⟨fun q hq => (hpre q hq).ne, fun q hq => (hpost q hq).ne'⟩
  obtain ⟨hfresh, hfreshb⟩ := fresh_spec ex
  have hset : setExtent offset ex m = {
      extentMap := pre ++ (offset, freshExtent ex) :: l'
      lastBlock := max m.lastBlock (offset + ex.length)
      allocBlocks := mapped (b.take offset) + mapped (b.drop (offset + ex.length)) + mapped (freshBlocks ex)
      dataCsum := csums (b.take offset) + csums (b.drop (offset + ex.length)) } := by
    have hcode : setExtent offset ex m =
        let r := overlapLoop (offset + ex.length) ((cutBefore offset (offset + ex.length) m).extentMap.filter fun p => offset ≤ p.1)
          (cutBefore offset (offset + ex.length) m).allocBlocks (cutBefore offset (offset + ex.length) m).dataCsum
        let l := ((cutBefore offset (offset + ex.length) m).extentMap.filter fun p => p.1 < offset) ++ r.1
        { extentMap := putExtent offset (if ex.start ≠ 0 then { extentEntry offset l with ex := ex : ExtentCsum }.resizeTail
            else { extentEntry offset l with ex := ex }) l
          lastBlock := max (cutBefore offset (offset + ex.length) m).lastBlock (offset + ex.length)
          allocBlocks := if ex.start ≠ 0 then r.2.1 + ex.length else r.2.1
          dataCsum := r.2.2 } := by
      rw [setExtent, if_neg hlt.ne, if_neg hlt.le.not_gt]
      rfl
    have hsum : (b.drop j).take (offset + ex.length - j) ++ b.drop (offset + ex.length) = b.drop j := by
      have hboth := take_append_drop (offset + ex.length - j) (b.drop j)
      rwa [drop_drop, Nat.add_sub_cancel' hjfin] at hboth
    have hcount : mapped (b.drop j) = mapped ((b.drop j).take (offset + ex.length - j)) + mapped (b.drop (offset + ex.length)) := by
      rw [← mapped_append, hsum]
    have hcsum : csums (b.drop j) = csums ((b.drop j).take (offset + ex.length - j)) + csums (b.drop (offset + ex.length)) := by
      rw [← csums_append, hsum]
    rw [hcode, hfilter, hfilter', hloop]
    dsimp only
    rw [fresh_entry ex hnew, putExtent_cut hpre hpost, hlast, hparted.allocBlocks, hparted.dataCsum, hparted.blocks_back, hcount,
      hcsum, fresh_mapped]
    congr 1
    · split_ifs <;> ring
    · grind
  have hsetb : setBlocks offset ex b = b.take offset ++ freshBlocks ex ++ b.drop (offset + ex.length) := by
    rw [setBlocks, if_neg (by omega), Nat.sub_eq_zero_of_le (by omega), replicate_zero, append_nil]
  rw [hset, hsetb]
  exact {
    contiguous := by
      refine tiled_append.mpr ⟨offset, hparted.front, rfl, ?_, ?_⟩
      · unfold entryEnd
        rwa [length_fresh]
      · unfold entryEnd at hback ⊢
        rwa [length_fresh]
    sized := by
      simp only [forall_mem_append, forall_mem_cons]
      exact ⟨fun q hq => hparted.sized q (mem_append_left _ hq), hfresh, hsized⟩
    blocks_eq := by
      rw [blocks_append, blocks_cons, hparted.blocks_front, hblocks, hparted.blocks_back, hfreshb, drop_drop,
        Nat.add_sub_cancel' hjfin, append_assoc]
    allocBlocks := by
      rw [mapped_append, mapped_append]
      ring
    dataCsum := by
      rw [csums_append, csums_append, fresh_csums]
      grind }

variable {c : List Block}

theorem represents_snoc (h : Represents m b) (hpos : 0 < e.ex.length) (he : e.Sized)
    (heb : e.blocks = c) :
    Represents {
      extentMap := m.extentMap ++ [(m.lastBlock, e)]
      lastBlock := m.lastBlock + e.ex.length
      allocBlocks := m.allocBlocks + mapped c
      dataCsum := m.dataCsum + csums c } (b ++ c) where
  contiguous := tiled_append.mpr ⟨m.lastBlock, h.contiguous, rfl, Nat.lt_add_of_pos_right hpos, rfl⟩
  sized := forall_mem_append.mpr ⟨h.sized, forall_mem_singleton.mpr he⟩
  blocks_eq := by rw [blocks_append, h.blocks_eq, blocks_cons, heb, blocks_nil, append_nil]
  allocBlocks := by rw [h.allocBlocks, mapped_append]
  dataCsum := by rw [h.dataCsum, csums_append]

theorem below_last (h : Represents m b) : ∀ q ∈ m.extentMap, q.1 < m.lastBlock := fun q hq =>
  (h.contiguous.inOrder.pos q hq).trans_le (h.contiguous.within q hq).2

/-- An extent with more blocks at its end. -/
theorem grow_spec (he : e.Sized)
    (h : e.ex.start ≠ 0 ∧ ex.start ≠ 0 ∧ e.ex.start + e.ex.length = ex.start ∨ e.ex.start = 0 ∧ ex.start = 0) :
    let g : ExtentCsum := { e with ex := ⟨e.ex.start, e.ex.length + ex.length⟩ }
    let g := if ex.start ≠ 0 then g.resizeTail else g
    g.ex.length = e.ex.length + ex.length ∧ g.Sized ∧ g.blocks = e.blocks ++ freshBlocks ex := by
  dsimp only
  unfold ExtentCsum.Sized at he
  rcases h with ⟨hreal, hnew, hend⟩ | ⟨hhole, hnew⟩
  · rw [if_neg hreal] at he
    have hcsum : e.csum.take (e.ex.length + ex.length) ++ replicate (e.ex.length + ex.length - e.csum.length) 0 =
        e.csum ++ replicate ex.length 0 := by
      rw [take_of_length_le (by omega), he, Nat.add_sub_cancel_left]
    rw [if_pos hnew, resizeTail]
    rw [hcsum]
    refine ⟨rfl, ?_, ?_⟩
    · rw [ExtentCsum.Sized, if_neg hreal, length_append, he, length_replicate]
    · rw [ExtentCsum.blocks, if_neg hreal, ExtentCsum.blocks, if_neg hreal, freshBlocks, if_neg hnew, range'_append_1.symm,
        zip_append (by rw [length_range', he]), map_append, hend]
      congr 1
      apply ext_getElem
      · simp
      · simp
  · rw [if_pos hhole] at he
    rw [if_neg (not_not.mpr hnew)]
    refine ⟨rfl, by rwa [ExtentCsum.Sized, if_pos hhole], ?_⟩
    rw [ExtentCsum.blocks, if_pos hhole, ExtentCsum.blocks, if_pos hhole, freshBlocks, if_pos hnew, replicate_append_replicate]

/-- The last extent grows. -/
theorem represents_grow {g : ExtentCsum} (h : Represents m b) (hmap : m.extentMap = pre ++ [(k, e)])
    (hlen : e.ex.length + n = g.ex.length) (hg : g.Sized) (hgb : g.blocks = e.blocks ++ c) :
    Represents {
      extentMap := pre ++ [(k, g)]
      lastBlock := m.lastBlock + n
      allocBlocks := m.allocBlocks + mapped c
      dataCsum := m.dataCsum + csums c } (b ++ c) := by
  have htiled := h.contiguous
  have hsized := h.sized
  have hb := h.blocks_eq
  rw [hmap] at htiled hsized hb
  obtain ⟨i, hfront, hk, hpos, hend⟩ := tiled_append.mp htiled
  rw [tiled_nil, entryEnd] at hend
  exact {
    contiguous := by
      refine tiled_append.mpr ⟨i, hfront, hk, ?_, ?_⟩
      · unfold entryEnd at hpos ⊢
        dsimp only at hpos ⊢
        omega
      · rw [tiled_nil, entryEnd]
        dsimp only at hend ⊢
        omega
    sized := forall_mem_append.mpr
      ⟨fun q hq => hsized q (mem_append_left _ hq), forall_mem_singleton.mpr hg⟩
    blocks_eq := by
      rw [← hb, blocks_append, blocks_cons, hgb, blocks_append, blocks_cons, blocks_nil, append_nil, append_nil,
        append_assoc]
    allocBlocks := by rw [h.allocBlocks, mapped_append]
    dataCsum := by rw [h.dataCsum, csums_append] }

/-- **At the end.** -/
theorem appendExtent_represents (h : Represents m b) (hpos : 0 < ex.length) (hsets : Sets m.lastBlock ex m) :
    Represents (appendExtent ex m) (b ++ freshBlocks ex) := by
  obtain ⟨hfresh, hfreshb⟩ := fresh_spec ex
  have hnew : ∀ q ∈ m.extentMap, q.1 ≠ m.lastBlock := fun q hq => (below_last h q hq).ne
  have hcount : (if ex.start ≠ 0 then m.allocBlocks + ex.length else m.allocBlocks) = m.allocBlocks + mapped (freshBlocks ex) := by
    rw [fresh_mapped]
    split_ifs <;> ring
  have hcsum : m.dataCsum = m.dataCsum + csums (freshBlocks ex) := by rw [fresh_csums, UInt64.add_zero]
  have hput : ∀ e, putExtent m.lastBlock e m.extentMap = m.extentMap ++ [(m.lastBlock, e)] := fun e =>
    putExtent_last (below_last h)
  have hseparate : Represents {
      extentMap := putExtent m.lastBlock (if ex.start ≠ 0 then { extentEntry m.lastBlock m.extentMap with ex := ex : ExtentCsum }.resizeTail
        else { extentEntry m.lastBlock m.extentMap with ex := ex }) m.extentMap
      lastBlock := m.lastBlock + ex.length
      allocBlocks := if ex.start ≠ 0 then m.allocBlocks + ex.length else m.allocBlocks
      dataCsum := m.dataCsum } (b ++ freshBlocks ex) := by
    have hsnoc := represents_snoc h (by rwa [length_fresh]) hfresh hfreshb
    rw [length_fresh] at hsnoc
    rw [fresh_entry ex hnew, hput, hcount, hcsum]
    exact hsnoc
  unfold appendExtent
  cases hlast : m.extentMap.getLast? with
  | none => exact hseparate
  | some p =>
    obtain ⟨k, e⟩ := p
    dsimp only
    by_cases hmerge : (k ≠ 0 ∧ ex.start ≠ 0 ∧ e.ex.start + e.ex.length = ex.start) ∨ (k = 0 ∧ ex.start = 0)
    · rw [if_pos hmerge]
      obtain ⟨pre, hmap⟩ := getLast?_eq_some_iff.mp hlast
      have hgrow : e.ex.start ≠ 0 ∧ ex.start ≠ 0 ∧ e.ex.start + e.ex.length = ex.start ∨ e.ex.start = 0 ∧ ex.start = 0 := by
        rcases hmerge with ⟨hk, hstart, hend⟩ | ⟨hk, hstart⟩
        · refine .inl ⟨fun hhole => hsets.behindHole rfl hstart _ hlast hk hhole ?_, hstart, hend⟩
          rwa [hhole, zero_add] at hend
        · exact .inr ⟨hsets.behindOnly rfl hstart _ hlast hk, hstart⟩
      have he : e.Sized := h.sized (k, e) (hmap ▸ by simp)
      obtain ⟨hlen, hg, hgb⟩ := grow_spec he hgrow
      have hsorted := sorted_of_tiled h.contiguous
      rw [hmap] at hsorted
      have hreplace : ∀ g, putExtent k g m.extentMap = pre ++ [(k, g)] := fun g => by
        rw [hmap]
        exact insert_replace hsorted rfl
      have hresult := represents_grow h hmap hlen.symm hg hgb
      rw [hreplace, hcount, hcsum]
      exact hresult
    · rw [if_neg hmerge]
      exact hseparate

/-- **Behind the end.** -/
theorem appendBehind_represents (h : Represents m b) (hpos : 0 < ex.length) (hlt : m.lastBlock < offset) :
    Represents (appendBehind offset ex m) (setBlocks offset ex b) := by
  have hlen := length_of_represents h
  unfold appendBehind setBlocks
  by_cases hreal : ex.start = 0
  · rw [if_neg (not_not.mpr hreal), if_pos ⟨hreal, hlen ▸ hlt⟩]
    exact h
  rw [if_pos hreal, if_neg fun hcon => hreal hcon.1]
  dsimp only
  let hole : ExtentCsum := ⟨⟨0, offset - m.lastBlock⟩, []⟩
  have hholeb : hole.blocks = replicate (offset - m.lastBlock) none := rfl
  have hsnoc := represents_snoc h (Nat.sub_pos_of_lt hlt : 0 < hole.ex.length) (show hole.Sized from rfl) hholeb
  rw [mapped_holes, csums_holes, add_zero, UInt64.add_zero] at hsnoc
  obtain ⟨hfresh, hfreshb⟩ := fresh_spec ex
  have hsnoc' := represents_snoc hsnoc (by rwa [length_fresh]) hfresh hfreshb
  have hoffset : m.lastBlock + (offset - m.lastBlock) = offset := Nat.add_sub_cancel' hlt.le
  rw [length_fresh, fresh_mapped, fresh_csums, if_pos hreal, UInt64.add_zero] at hsnoc'
  rw [hoffset] at hsnoc'
  have hput : putExtent m.lastBlock hole m.extentMap = m.extentMap ++ [(m.lastBlock, hole)] :=
    putExtent_last (below_last h)
  have hbelow : ∀ q ∈ m.extentMap ++ [(m.lastBlock, hole)], q.1 < offset := forall_mem_append.mpr
    ⟨fun q hq => (below_last h q hq).trans hlt, forall_mem_singleton.mpr hlt⟩
  have hentry := fresh_entry ex (k := offset) (l := m.extentMap ++ [(m.lastBlock, hole)]) fun q hq => (hbelow q hq).ne
  rw [if_pos hreal] at hentry
  have hput' : putExtent offset (freshExtent ex) (m.extentMap ++ [(m.lastBlock, hole)]) =
      m.extentMap ++ [(m.lastBlock, hole)] ++ [(offset, freshExtent ex)] :=
    putExtent_last hbelow
  rw [extentEntry_new fun q hq => (below_last h q hq).ne]
  rw [hput, hentry, hput', take_of_length_le (by omega), drop_eq_nil_of_le (by omega), append_nil, hlen]
  exact hsnoc'

/-- **`set_extent` sets the blocks** of the object. -/
theorem setExtent_represents (h : Represents m b) (hpos : 0 < ex.length) (hsets : Sets offset ex m) :
    Represents (setExtent offset ex m) (setBlocks offset ex b) := by
  have hlen := length_of_represents h
  rcases lt_trichotomy offset m.lastBlock with hlt | rfl | hlt
  · exact setInside_represents h hpos hlt hsets
  · have hset : setBlocks m.lastBlock ex b = b ++ freshBlocks ex := by
      rw [setBlocks, if_neg (by omega), take_of_length_le (by omega), Nat.sub_eq_zero_of_le (by omega),
        replicate_zero, append_nil, drop_eq_nil_of_le (by omega), append_nil]
    rw [setExtent, if_pos rfl, hset]
    exact appendExtent_represents h hpos hsets
  · rw [setExtent, if_neg hlt.ne', if_pos hlt]
    exact appendBehind_represents h hpos hlt

end set

/-! ### Truncating -/

/-- Where the mapped blocks are on disk. -/
def onDisk (b : List Block) : List ℕ := b.filterMap fun x => x.map Prod.fst

/-- The blocks of extents on disk. -/
def diskBlocks (extra : List Extent) : List ℕ := extra.flatMap fun ex => List.range' ex.start ex.length

/-- What a step of `truncate_extents` asks: what is left of an extent fits in an `int`. -/
def Cuts (len : ℕ) (m : Mapping) : Prop := ∀ p ∈ m.extentMap, p.1 < len → len < entryEnd p → len - p.1 < 2 ^ 31

section truncate

variable {m : Mapping} {b c : List Block} {pre post l : List (ℕ × ExtentCsum)} {p : ℕ × ExtentCsum} {e : ExtentCsum}
  {extra : List Extent} {len n i : ℕ} {blocks₀ : ℤ} {csum₀ : UInt64}

theorem toInt_of_lt (h : n < 2 ^ 31) : toInt n = n := by
  unfold toInt
  rw [BitVec.toInt_eq_toNat_of_lt]
  · rw [BitVec.toNat_ofNat, Nat.mod_eq_of_lt (by omega)]
  · rw [BitVec.toNat_ofNat, Nat.mod_eq_of_lt (by omega)]
    omega

@[simp] theorem onDisk_append : onDisk (b ++ c) = onDisk b ++ onDisk c := filterMap_append

@[simp] theorem onDisk_holes : onDisk (replicate n none) = [] := by
  simp [onDisk]

@[simp] theorem diskBlocks_append {l l' : List Extent} : diskBlocks (l ++ l') = diskBlocks l ++ diskBlocks l' :=
  flatMap_append

@[simp] theorem diskBlocks_singleton {ex : Extent} : diskBlocks [ex] = range' ex.start ex.length := by
  simp [diskBlocks]

theorem onDisk_rest (he : e.Sized) (hs : e.ex.start ≠ 0) :
    onDisk (e.blocks.drop i) = range' (e.ex.start + i) (e.ex.length - i) := by
  unfold ExtentCsum.Sized at he
  rw [if_neg hs] at he
  rw [onDisk, ExtentCsum.blocks, if_neg hs, ← map_drop, zip, drop_zipWith, drop_range', mul_one,
    filterMap_map]
  simp only [Function.comp_def, map_some, filterMap_eq_map']
  exact map_fst_zip (by simp [he])

/-- **The extents that are dropped** are those of the blocks. -/
theorem dropExtents_spec (hs : ∀ p ∈ l, p.2.Sized) :
    ∃ extra, dropExtents l blocks₀ csum₀ = (extra, blocks₀ - mapped (blocks l), csum₀ - csums (blocks l)) ∧
      diskBlocks extra = onDisk (blocks l) := by
  induction l using reverseRecOn with
  | nil => exact ⟨[], by rw [blocks_nil, mapped_nil, csums_nil, sub_zero, UInt64.sub_zero]; rfl, rfl⟩
  | append_singleton l p ih =>
    obtain ⟨hs, hp⟩ := forall_mem_append.mp hs
    have hp := hp p (mem_singleton_self p)
    obtain ⟨extra, hdrop, hdisk⟩ := ih hs
    obtain ⟨hmap, hsum⟩ := rest_counts hp (Nat.zero_le _)
    rw [drop_zero, Nat.sub_zero] at hmap hsum
    have hcsum : csum₀ - (csums (blocks l) + csums p.2.blocks) = csum₀ - csums (blocks l) - csums p.2.blocks := by grind
    rw [dropExtents] at hdrop
    rw [dropExtents, foldl_append, hdrop, blocks_append, blocks_cons, blocks_nil, append_nil, mapped_append, csums_append,
      hcsum, ← sub_sub, onDisk_append, ← hdisk]
    simp only [foldl_cons, foldl_nil]
    rw [hmap, hsum]
    split_ifs with hreal
    · have hrest := onDisk_rest (i := 0) hp hreal
      rw [drop_zero] at hrest
      refine ⟨extra ++ [p.2.ex], rfl, ?_⟩
      rw [diskBlocks_append, hrest, diskBlocks_singleton]
      rfl
    · refine ⟨extra, by rw [sub_zero, UInt64.sub_zero], ?_⟩
      rw [ExtentCsum.blocks, if_pos (not_not.mp hreal), onDisk_holes, append_nil]

/-- Where the `int` does not overflow. -/
theorem truncateLast_eq (hn : len - p.1 < 2 ^ 31) : truncateLast len p = (p.2.head (len - p.1),
      if p.2.ex.start ≠ 0 then [⟨p.2.ex.start + (len - p.1), p.2.ex.length - (len - p.1)⟩] else []) := by
  have hkept : toUnsigned 64 ((len - p.1 : ℕ) : ℤ) = len - p.1 := by
    unfold toUnsigned
    omega
  have hstart : ((p.2.ex.start : ℤ) + (len - p.1 : ℕ)).toNat = p.2.ex.start + (len - p.1) := by omega
  have hrest : ((p.2.ex.length : ℤ) - (len - p.1 : ℕ)).toNat = p.2.ex.length - (len - p.1) := by omega
  unfold truncateLast ExtentCsum.head
  dsimp only
  rw [toInt_of_lt hn, hkept, hstart, hrest]
  split_ifs <;> rfl

/-- **`truncate_extents` cuts the object**, and releases the blocks that it had from there on. -/
theorem truncateExtents_represents (h : Represents m b) (hlen : len ≤ m.lastBlock) (hcuts : Cuts len m) :
    ∃ m' extra, truncateExtents len m = some (m', extra) ∧ Represents m' (b.take len) ∧
      diskBlocks extra = onDisk (b.drop len) := by
  obtain ⟨pre, post, hcut, hbefore, hbehind⟩ := exists_lower_cut (sorted_of_tiled h.contiguous) len
  obtain ⟨hlt, hge⟩ := filters_cut hbefore hbehind
  rw [← hcut] at hlt hge
  unfold truncateExtents
  rw [hlt, hge]
  have htiled := h.contiguous
  have hsized := h.sized
  have hb := h.blocks_eq
  rw [hcut] at htiled hsized hb
  obtain ⟨hpre, hpost⟩ := forall_mem_append.mp hsized
  obtain ⟨k, hfront, hback⟩ := tiled_append.mp htiled
  have hlenpre := length_blocks_tiled hfront hpre
  obtain ⟨dropped, hdropped, hdisk⟩ := @dropExtents_spec post m.allocBlocks m.dataCsum hpost
  have hcount := h.allocBlocks
  have hsum := h.dataCsum
  rw [← hb, blocks_append, mapped_append] at hcount
  rw [← hb, blocks_append, csums_append] at hsum
  dsimp only
  rw [hdropped]
  dsimp only
  -- where no extent is cut
  have hclean : len = k → Represents {
      extentMap := pre
      lastBlock := len
      allocBlocks := m.allocBlocks - mapped (blocks post)
      dataCsum := m.dataCsum - csums (blocks post) } (b.take len) ∧ diskBlocks dropped = onDisk (b.drop len) := by
    rintro rfl
    have htake : b.take len = blocks pre := by rw [← hb, blocks_append, take_left' (by omega)]
    have hdrop : b.drop len = blocks post := by rw [← hb, blocks_append, drop_left' (by omega)]
    rw [htake, hdrop]
    exact ⟨{
      contiguous := hfront
      sized := hpre
      blocks_eq := rfl
      allocBlocks := by rw [hcount]; ring
      dataCsum := by rw [hsum]; grind }, hdisk⟩
  have hk : len ≤ k := by
    cases post with
    | nil => exact hlen.trans_eq hback.symm
    | cons q post => exact (hbehind q mem_cons_self).trans_eq hback.1
  cases hlast : pre.getLast? with
  | none =>
    obtain rfl := getLast?_eq_none_iff.mp hlast
    obtain hzero : 0 = k := hfront
    obtain ⟨hrep, hdisk⟩ := hclean (by omega)
    exact ⟨_, dropped, rfl, hrep, hdisk⟩
  | some p =>
    obtain ⟨pre', rfl⟩ := getLast?_eq_some_iff.mp hlast
    obtain ⟨j, hfront', hj, hpos, hend⟩ := tiled_append.mp hfront
    rw [tiled_nil] at hend
    have hlow : p.1 < len := hbefore p (by simp)
    dsimp only
    by_cases hinside : len < k
    · obtain ⟨hpre', hp⟩ := forall_mem_append.mp hpre
      have hp := hp p (mem_singleton_self p)
      have hn := hcuts p (hcut.symm ▸ by simp) hlow (hend.symm ▸ hinside)
      have hlt : len - p.1 < p.2.ex.length := by
        unfold entryEnd at hend
        omega
      have hhead : (post.head?.all fun q => len < q.1) = true := by
        cases post with
        | nil => rfl
        | cons q post => simpa using hinside.trans_eq hback.1.symm
      have hcutn : toUnsigned 32 (toInt (len - p.1)) = len - p.1 := by
        rw [toInt_of_lt hn]
        unfold toUnsigned
        omega
      obtain ⟨hkept, hkeptb⟩ := head_spec (n := len - p.1) hp hlt.le
      rw [append_assoc, singleton_append] at htiled hsized hb
      obtain ⟨htake, hdrop⟩ := cut_inside htiled hsized hlow.le (hend.symm ▸ hinside.le)
      rw [hb] at htake hdrop
      rw [if_pos ⟨hhead, hlt⟩, truncateLast_eq hn]
      dsimp only
      rw [length_head, if_pos (by omega), hcutn, dropLast_concat]
      refine ⟨_, _, rfl, ?_, ?_⟩
      · have hcounts : ((if p.2.ex.start ≠ 0 then [⟨p.2.ex.start + (len - p.1), p.2.ex.length - (len - p.1)⟩]
              else [] : List Extent).map Extent.length).sum = mapped (p.2.blocks.drop (len - p.1)) ∧
            (if p.2.ex.start ≠ 0 then m.dataCsum - csums (blocks post) - csumSum p.2 (len - p.1) (p.2.ex.length - (len - p.1))
              else m.dataCsum - csums (blocks post)) =
              m.dataCsum - csums (blocks post) - csums (p.2.blocks.drop (len - p.1)) := by
          obtain ⟨hmap, hsum⟩ := rest_counts hp hlt.le
          rw [hmap, hsum]
          split_ifs
          · exact ⟨by simp, rfl⟩
          · exact ⟨rfl, by rw [UInt64.sub_zero]⟩
        have hall := mapped_split p.2.blocks (len - p.1)
        have hall' := csums_split p.2.blocks (len - p.1)
        rw [blocks_append, mapped_append, blocks_cons, blocks_nil, append_nil] at hcount
        rw [blocks_append, csums_append, blocks_cons, blocks_nil, append_nil] at hsum
        rw [hcounts.1, hcounts.2, htake]
        exact {
          contiguous := by
            refine tiled_append.mpr ⟨j, hfront', hj, ?_, ?_⟩
            · unfold entryEnd
              rw [length_head]
              omega
            · rw [tiled_nil, entryEnd, length_head]
              exact Nat.add_sub_cancel' hlow.le
          sized := forall_mem_append.mpr ⟨hpre', forall_mem_singleton.mpr hkept⟩
          blocks_eq := by rw [blocks_append, blocks_cons, hkeptb, blocks_nil, append_nil]
          allocBlocks := by
            rw [hcount, mapped_append, ← hall]
            ring
          dataCsum := by
            rw [hsum, csums_append, ← hall']
            grind }
      · rw [hdrop, onDisk_append, diskBlocks_append, hdisk]
        congr 1
        split_ifs with hreal
        · rw [diskBlocks_singleton, onDisk_rest hp hreal]
        · rw [ExtentCsum.blocks, if_pos (not_not.mp hreal), drop_replicate, onDisk_holes]
          rfl
    · rw [if_neg]
      · obtain ⟨hrep, hdisk⟩ := hclean (by omega)
        exact ⟨_, dropped, rfl, hrep, hdisk⟩
      · unfold entryEnd at hend
        omega

end truncate

/-! ### Runs -/

inductive ExtentAct
  | set (offset : ℕ) (ex : { ex : Extent // 0 < ex.length })
  | truncate (len : ℕ)

/-- The calls one after the other, and all that is released. -/
def runExtents : List ExtentAct → Mapping → Option (Mapping × List Extent)
  | [], m => some (m, [])
  | .set offset ex :: acts, m => runExtents acts (setExtent offset ex.1 m)
  | .truncate len :: acts, m => (truncateExtents len m).bind fun (m, extra) =>
    (runExtents acts m).map fun (m, released) => (m, extra ++ released)

/-- What they should do to the blocks of the object, and the blocks on disk that they should release. -/
def setAndTruncate : List ExtentAct → List Block → List Block × List ℕ
  | [], b => (b, [])
  | .set offset ex :: acts, b => setAndTruncate acts (setBlocks offset ex.1 b)
  | .truncate len :: acts, b =>
    let (c, released) := setAndTruncate acts (b.take len)
    (c, onDisk (b.drop len) ++ released)

/-- Every call meets the condition where it is made. An object is truncated in its blocks. -/
def Meets : List ExtentAct → Mapping → Prop
  | [], _ => True
  | .set offset ex :: acts, m => Sets offset ex.1 m ∧ Meets acts (setExtent offset ex.1 m)
  | .truncate len :: acts, m => len ≤ m.lastBlock ∧ Cuts len m ∧ ∀ r ∈ truncateExtents len m, Meets acts r.1

instance (offset : ℕ) (ex : Extent) (m : Mapping) : Decidable (Sets offset ex m) :=
  decidable_of_iff (_ ∧ _ ∧ _) ⟨fun h => ⟨h.1, h.2.1, h.2.2⟩, fun h => ⟨h.behindHole, h.behindOnly, h.overlap⟩⟩

instance (len : ℕ) (m : Mapping) : Decidable (Cuts len m) :=
  inferInstanceAs (Decidable (∀ p ∈ m.extentMap, p.1 < len → len < entryEnd p → len - p.1 < 2 ^ 31))

instance decidableMeets : ∀ (acts : List ExtentAct) (m : Mapping), Decidable (Meets acts m)
  | [], _ => isTrue trivial
  | .set offset ex :: acts, m =>
    have := decidableMeets acts (setExtent offset ex.1 m)
    inferInstanceAs (Decidable (_ ∧ _))
  | .truncate _ :: acts, _ =>
    have := fun r : Mapping × List Extent => decidableMeets acts r.1
    inferInstanceAs (Decidable (_ ∧ _ ∧ _))

/-- **The extents are the map of the blocks**, after any calls that meet the condition. -/
theorem extents_block_map {acts : List ExtentAct} {m : Mapping} {b : List Block} (h : Represents m b) (hmeets : Meets acts m) :
    ∃ m' released, runExtents acts m = some (m', released) ∧ Represents m' (setAndTruncate acts b).1 ∧
      diskBlocks released = (setAndTruncate acts b).2 := by
  induction acts generalizing m b with
  | nil => exact ⟨m, [], rfl, h, rfl⟩
  | cons a acts ih =>
    cases a with
    | set offset ex => exact ih (setExtent_represents h ex.2 hmeets.1) hmeets.2
    | truncate len =>
      obtain ⟨hlen, hcuts, hrest⟩ := hmeets
      obtain ⟨m₁, extra, hcut, h₁, hextra⟩ := truncateExtents_represents h hlen hcuts
      obtain ⟨m', released, hrun, h', hreleased⟩ := ih h₁ (hrest _ hcut)
      refine ⟨m', extra ++ released, ?_, h', ?_⟩
      · rw [runExtents, hcut, bind_some]
        dsimp only
        rw [hrun]
        rfl
      · rw [diskBlocks_append, hextra, hreleased]
        rfl

/-- An onode without extents. -/
def noExtents : Mapping := ⟨[], 0, 0, 0⟩

theorem noExtents_represents : Represents noExtents [] := ⟨rfl, nofun, rfl, rfl, rfl⟩

/-- A write behind a hole, one in the middle of an extent, and a truncation. -/
def writes : List ExtentAct :=
  [.set 0 ⟨⟨10, 3⟩, by decide⟩, .set 5 ⟨⟨20, 3⟩, by decide⟩, .set 1 ⟨⟨30, 1⟩, by decide⟩, .truncate 6]

theorem extents_block_map_writes : ∃ m' released, runExtents writes noExtents = some (m', released) ∧
    Represents m' (setAndTruncate writes []).1 ∧ diskBlocks released = (setAndTruncate writes []).2 :=
  extents_block_map noExtents_represents (by decide)

/-- Two blocks of a hole are left at the end, and block 2 on disk comes next. -/
def growsHole : List ExtentAct :=
  [.set 0 ⟨⟨10, 1⟩, by decide⟩, .set 4 ⟨⟨20, 1⟩, by decide⟩, .truncate 3, .set 3 ⟨⟨2, 1⟩, by decide⟩]

/-- The new block is lost in the hole. -/
theorem extents_grow_hole : ∃ m' released, runExtents growsHole noExtents = some (m', released) ∧
    ¬ Represents m' (setAndTruncate growsHole []).1 := by
  have hrun : (runExtents growsHole noExtents).map (fun r => blocks r.1.extentMap) = some [some (10, 0), none, none, none] := by
    decide
  obtain ⟨⟨m', released⟩, hrun, hblocks⟩ := map_eq_some_iff.mp hrun
  refine ⟨m', released, hrun, fun h => ?_⟩
  have hspec : (setAndTruncate growsHole []).1 = [some (10, 0), none, none, some (2, 0)] := by decide
  have hcon := hblocks.symm.trans (h.blocks_eq.trans hspec)
  exact absurd hcon (by decide)

end Cache
end Ebofs
end Ceph
