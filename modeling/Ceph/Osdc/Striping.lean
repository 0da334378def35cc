/-
# Striping files over objects

`Filer::file_to_extents` of `osdc/Filer.cc`: a range of a file is walked unit
by unit, and what falls into one object becomes one extent of it, with the
extents of the read or write buffer that it is made of. The number of an
object is 32 bits wide, so those of a very long file come round again.

An extent that the walk has made stands for consecutive bytes of its object
(`Mapped`), and the extents for the bytes walked so far, each once. The
bytes of an object are walked in their order (`Stripes.byteAt_strictMono`), so the
next piece of an object begins where its extent ends, and no assertion fails.
-/
import Mathlib.Data.List.Lex
import Mathlib.Data.List.Sort
import Ceph.Lib.Stripes
import Ceph.Lib.Wire

namespace Ceph
namespace Osdc

open List Option

/-! ### Layouts and extents -/

/-- The part of `ceph_file_layout` that maps a file to objects. -/
structure FileLayout where
  stripeUnit : ℕ
  stripeCount : ℕ
  objectSize : ℕ

/-- `object_t`. -/
structure ObjectT where
  ino : ℕ
  bno : ℕ                   -- 32 bits
  rev : ℕ
deriving DecidableEq

/-- The bytes that `operator<` compares. -/
def ObjectT.bytes (o : ObjectT) : Wire.Bytes := Wire.le 8 o.ino ++ Wire.le 4 o.bno ++ Wire.le 4 o.rev

/-- `ObjectExtent`. Of `ceph_object_layout`, `layout` is the placement group. -/
structure ObjectExtent where
  oid : ObjectT
  start : ℕ
  length : ℕ
  layout : ℕ
  bufferExtents : List (ℕ × ℕ)        -- map<size_t,size_t>: offset -> length
deriving DecidableEq

namespace FileLayout

/-- `stripes_per_object`. -/
def stripesPerObject (l : FileLayout) : ℕ := l.objectSize / l.stripeUnit

/-- `objectno`. -/
def objectNo (l : FileLayout) (cur : ℕ) : ℕ :=
  let blockno := cur / l.stripeUnit
  let stripeno := blockno / l.stripeCount
  let stripepos := blockno % l.stripeCount
  let objectsetno := stripeno / l.stripesPerObject
  objectsetno * l.stripeCount + stripepos

/-- `x_offset`. -/
def xOffset (l : FileLayout) (cur : ℕ) : ℕ :=
  let stripeno := cur / l.stripeUnit / l.stripeCount
  let blockStart := stripeno % l.stripesPerObject * l.stripeUnit
  blockStart + cur % l.stripeUnit

/-- What is left of the unit, or all that is left. -/
def xLen (l : FileLayout) (cur left : ℕ) : ℕ :=
  let max := l.stripeUnit - cur % l.stripeUnit
  if max < left then max else left

end FileLayout

/-- A piece is added to an extent; `none` is a failed assertion. -/
def ObjectExtent.add (ex : ObjectExtent) (xOffset xLen pos : ℕ) : Option ObjectExtent :=
  if ex.start + ex.length = xOffset then
    some { ex with length := ex.length + xLen, bufferExtents := ex.bufferExtents ++ [(pos, xLen)] }
  else if ex.length = 0 ∧ ex.start = 0 then
    some { ex with start := xOffset, length := xLen, bufferExtents := ex.bufferExtents ++ [(pos, xLen)] }
  else none

/-- A piece is added to the extent of its object, which may be new. -/
def addPiece (oid : ObjectT) (layout xOffset xLen pos : ℕ) : List ObjectExtent → Option (List ObjectExtent)
  | [] => (ObjectExtent.add ⟨oid, 0, 0, layout, []⟩ xOffset xLen pos).map fun ex => [ex]
  | ex :: exts =>
    if ex.oid = oid then (ex.add xOffset xLen pos).map (· :: exts)
    else (addPiece oid layout xOffset xLen pos exts).map (ex :: ·)

theorem xLen_pos {l : FileLayout} {left : ℕ} (cur : ℕ) (hleft : 0 < left) (hunit : 0 < l.stripeUnit) :
    0 < l.xLen cur left := by
  have := Nat.mod_lt cur hunit
  unfold FileLayout.xLen
  dsimp only
  split <;> omega

/-- The loop of `file_to_extents`. The position is an `off_t`, of 63 bits; `none` is a
failed assertion, an overflow or a division by 0. -/
def fileLoop (l : FileLayout) (objectLayout : ObjectT → ℕ) (ino rev offset cur left : ℕ) (exts : List ObjectExtent) :
    Option (List ObjectExtent) :=
  if hleft : 0 < left then
    if hunit : 0 < l.stripeUnit then
      if l.stripeCount = 0 ∨ 2 ^ 63 ≤ cur + l.xLen cur left then none
      else
        let oid : ObjectT := ⟨ino, l.objectNo cur % 2 ^ 32, rev⟩
        (addPiece oid (objectLayout oid) (l.xOffset cur) (l.xLen cur left) (cur - offset) exts).bind fun exts =>
          fileLoop l objectLayout ino rev offset (cur + l.xLen cur left) (left - l.xLen cur left) exts
    else none
  else some exts
termination_by left
decreasing_by
  have := xLen_pos cur hleft hunit
  omega

/-- `off_t left = len`: a length of 63 bits or more is negative, and the loop is over. -/
def leftOf (len : ℕ) : ℕ := if len < 2 ^ 63 then len else 0

/-- `file_to_extents`: the extents in the order of their objects. -/
def fileToExtents (l : FileLayout) (objectLayout : ObjectT → ℕ) (ino offset len rev : ℕ) : Option (List ObjectExtent) :=
  if 0 < l.stripeUnit ∧ l.stripeUnit ≤ l.objectSize then
    (fileLoop l objectLayout ino rev offset offset (leftOf len) []).map
      (·.insertionSort fun a b => a.oid.bytes ≤ b.oid.bytes)
  else none

/-! ### What an extent stands for -/

/-- The object of a byte of the file. -/
def objectOf (l : FileLayout) (ino rev y : ℕ) : ObjectT := ⟨ino, l.objectNo y % 2 ^ 32, rev⟩

/-- The positions of the buffer that the extent is made of, in their order. -/
def ObjectExtent.positions (ex : ObjectExtent) : List ℕ := ex.bufferExtents.flatMap fun b => List.range' b.1 b.2

/-- The `i`-th position is at the `i`-th byte of the extent. -/
def Mapped (l : FileLayout) (offset : ℕ) (ex : ObjectExtent) : Prop :=
  ex.positions.map (fun p => (l.objectNo (offset + p) % 2 ^ 32, l.xOffset (offset + p))) =
    (List.range' ex.start ex.length).map fun x => (ex.oid.bno, x)

section extent

variable {l : FileLayout} {offset : ℕ} {ex ex' : ObjectExtent} {x n pos : ℕ}

theorem Mapped.position (h : Mapped l offset ex) {p : ℕ} (hp : p ∈ ex.positions) :
    l.objectNo (offset + p) % 2 ^ 32 = ex.oid.bno ∧
      ex.start ≤ l.xOffset (offset + p) ∧ l.xOffset (offset + p) < ex.start + ex.length := by
  have hmem := mem_map_of_mem (f := fun p => (l.objectNo (offset + p) % 2 ^ 32, l.xOffset (offset + p))) hp
  rw [h] at hmem
  obtain ⟨y, hy, heq⟩ := mem_map.mp hmem
  obtain ⟨hno, hoff⟩ := Prod.ext_iff.mp heq
  have hoff : y = l.xOffset (offset + p) := hoff
  exact ⟨hno.symm, hoff ▸ mem_range'_1.mp hy⟩

theorem Mapped.byte (h : Mapped l offset ex) {y : ℕ} (hy : ex.start ≤ y ∧ y < ex.start + ex.length) :
    ∃ p ∈ ex.positions, l.objectNo (offset + p) % 2 ^ 32 = ex.oid.bno ∧ l.xOffset (offset + p) = y := by
  have hmem := mem_map_of_mem (f := fun x => (ex.oid.bno, x)) (mem_range'_1.mpr hy)
  rw [← h] at hmem
  obtain ⟨p, hp, heq⟩ := mem_map.mp hmem
  exact ⟨p, hp, Prod.ext_iff.mp heq⟩

theorem Mapped.length_positions (h : Mapped l offset ex) : ex.positions.length = ex.length := by
  have hlen := congrArg length h
  rwa [length_map, length_map, length_range'] at hlen

/-- The `i`-th position lands at the `i`-th byte. -/
theorem Mapped.getElem (h : Mapped l offset ex) {i : ℕ} (hi : i < ex.positions.length) :
    l.objectNo (offset + ex.positions[i]) % 2 ^ 32 = ex.oid.bno ∧ l.xOffset (offset + ex.positions[i]) =
      ex.start + i := by
  have hi' : i < ex.length := h.length_positions ▸ hi
  have hget := congrArg (fun ps => ps[i]?) h
  simp only [getElem?_map, getElem?_eq_getElem hi, getElem?_range' hi', map_some, one_mul] at hget
  exact Prod.ext_iff.mp (some.inj hget)

/-- What `add` does, in both branches. -/
theorem add_spec (hadd : ex.add x n pos = some ex') :
    ex'.oid = ex.oid ∧ ex'.layout = ex.layout ∧ ex'.length = ex.length + n ∧ ex'.start + ex.length = x ∧
      (ex.length ≠ 0 → ex'.start = ex.start) ∧ ex'.bufferExtents = ex.bufferExtents ++ [(pos, n)] := by
  unfold ObjectExtent.add at hadd
  split_ifs at hadd with hjoin hnew
  · cases hadd
    exact ⟨rfl, rfl, rfl, hjoin, fun _ => rfl, rfl⟩
  · cases hadd
    obtain ⟨hlen, hstart⟩ := hnew
    exact ⟨rfl, rfl, by rw [hlen, zero_add], by rw [hlen]; rfl, fun hne => absurd hlen hne, rfl⟩

theorem add_positions (hadd : ex.add x n pos = some ex') : ex'.positions = ex.positions ++ List.range' pos n := by
  rw [ObjectExtent.positions, (add_spec hadd).2.2.2.2.2, flatMap_append, flatMap_singleton]
  rfl

theorem Mapped.add (h : Mapped l offset ex) (hadd : ex.add x n pos = some ex')
    (hpiece : (List.range' pos n).map (fun p => (l.objectNo (offset + p) % 2 ^ 32, l.xOffset (offset + p))) =
      (List.range' x n).map fun y => (ex.oid.bno, y)) : Mapped l offset ex' := by
  obtain ⟨hoid, -, hlen, hend, hstart, -⟩ := add_spec hadd
  have hsplit : List.range' ex'.start ex'.length = List.range' ex.start ex.length ++ List.range' x n := by
    by_cases h0 : ex.length = 0
    · rw [hlen, h0, zero_add, range'_zero, nil_append, ← hend, h0, add_zero]
    · rw [hlen, hstart h0, ← hend, hstart h0, range'_append_1]
  rw [Mapped, add_positions hadd, map_append, h, hpiece, hsplit, map_append, hoid]

end extent

/-! ### What the loop has walked -/

/-- The extents of the first `n` bytes from `offset` on: one for each object, and each byte in one of them. -/
structure Walked (l : FileLayout) (objectLayout : ObjectT → ℕ) (ino rev offset n : ℕ) (exts : List ObjectExtent) :
    Prop where
  nodup : (exts.map (·.oid)).Nodup
  perm : (exts.flatMap (·.positions)).Perm (List.range n)
  mapped : ∀ ex ∈ exts, Mapped l offset ex
  pos : ∀ ex ∈ exts, 0 < ex.length
  oid : ∀ ex ∈ exts, ex.oid.ino = ino ∧ ex.oid.rev = rev ∧ ex.layout = objectLayout ex.oid
  ordered : ∀ ex ∈ exts, ex.positions.Pairwise (· < ·)
  pieces : ∀ ex ∈ exts, ∀ b ∈ ex.bufferExtents, 0 < b.2

section walk

variable {l : FileLayout} {objectLayout : ObjectT → ℕ} {ino rev offset n : ℕ} {exts exts' : List ObjectExtent}
  {oid : ObjectT} {layout x k pos : ℕ}

theorem addPiece_cases : ∀ {exts exts' : List ObjectExtent}, addPiece oid layout x k pos exts = some exts' →
    ∃ pre old ex post, exts' = pre ++ ex :: post ∧ old.add x k pos = some ex ∧ old.oid = oid ∧
      (exts = pre ++ old :: post ∨ exts = pre ∧ post = [] ∧ old = ⟨oid, 0, 0, layout, []⟩ ∧ ∀ e ∈ exts, e.oid ≠ oid)
  | [], exts', h => by
    obtain ⟨ex, hadd, rfl⟩ := map_eq_some_iff.mp h
    exact ⟨[], _, ex, [], rfl, hadd, rfl, .inr ⟨rfl, rfl, rfl, fun e he => nomatch he⟩⟩
  | e :: exts, exts', h => by
    rw [addPiece] at h
    by_cases heq : e.oid = oid
    · rw [if_pos heq] at h
      obtain ⟨ex, hadd, rfl⟩ := map_eq_some_iff.mp h
      exact ⟨[], e, ex, exts, rfl, hadd, heq, .inl rfl⟩
    · rw [if_neg heq] at h
      obtain ⟨rest, hrec, rfl⟩ := map_eq_some_iff.mp h
      obtain ⟨pre, old, ex, post, rfl, hadd, ho, hcase⟩ := addPiece_cases hrec
      refine ⟨e :: pre, old, ex, post, rfl, hadd, ho, ?_⟩
      rcases hcase with rfl | ⟨rfl, hpost, hnew, hne⟩
      · exact .inl rfl
      · exact .inr ⟨rfl, hpost, hnew, forall_mem_cons.mpr ⟨heq, hne⟩⟩

theorem addPiece_isSome : ∀ {exts : List ObjectExtent}, (∀ ex ∈ exts, ex.oid = oid → ex.start + ex.length = x) →
    (addPiece oid layout x k pos exts).isSome = true
  | [], _ => by
    rw [addPiece, isSome_map, ObjectExtent.add]
    split <;> rfl
  | e :: exts, h => by
    obtain ⟨he, hexts⟩ := forall_mem_cons.mp h
    rw [addPiece]
    by_cases heq : e.oid = oid
    · rw [if_pos heq, isSome_map, ObjectExtent.add, if_pos (he heq)]
      rfl
    · rw [if_neg heq, isSome_map]
      exact addPiece_isSome hexts

theorem walked_nil : Walked l objectLayout ino rev offset 0 [] where
  nodup := nodup_nil
  perm := .refl _
  mapped := nofun
  pos := nofun
  oid := nofun
  ordered := nofun
  pieces := nofun

/-- **A piece more.** -/
theorem Walked.addPiece (h : Walked l objectLayout ino rev offset n exts) (hk : 0 < k)
    (hoid : oid.ino = ino ∧ oid.rev = rev)
    (hpiece : (List.range' n k).map (fun p => (l.objectNo (offset + p) % 2 ^ 32, l.xOffset (offset + p))) =
      (List.range' x k).map fun y => (oid.bno, y))
    (hadd : addPiece oid (objectLayout oid) x k n exts = some exts') :
    Walked l objectLayout ino rev offset (n + k) exts' := by
  obtain ⟨pre, old, ex, post, rfl, hex, rfl, hcase⟩ := addPiece_cases hadd
  obtain ⟨hexo, hexl, hlen, -, -, hbuf⟩ := add_spec hex
  have hpos := add_positions hex
  -- a new extent is one without bytes before
  have hL : ((pre ++ old :: post).map (·.oid)).Nodup ∧
    ((pre ++ old :: post).flatMap (·.positions)).Perm (range n) ∧
      (∀ e ∈ pre ++ old :: post, Mapped l offset e ∧
        (e.oid.ino = ino ∧ e.oid.rev = rev ∧ e.layout = objectLayout e.oid) ∧
        e.positions.Pairwise (· < ·) ∧ ∀ b ∈ e.bufferExtents, 0 < b.2) ∧ ∀ e ∈ pre ++ post, 0 < e.length := by
    rcases hcase with rfl | ⟨rfl, rfl, hnew, hne⟩
    · refine ⟨h.nodup, h.perm, fun e he => ⟨h.mapped e he, h.oid e he, h.ordered e he, h.pieces e he⟩, fun e he => ?_⟩
      refine h.pos e (mem_append.mpr ((mem_append.mp he).imp_right (mem_cons_of_mem _)))
    · have hpos0 : old.positions = [] := by rw [hnew]; rfl
      have hbuf0 : old.bufferExtents = [] := by rw [hnew]
      have hlen0 : old.length = 0 := by rw [hnew]
      refine ⟨?_, ?_, fun e he => ?_, fun e he => h.pos e (by rwa [append_nil] at he)⟩
      · rw [map_append, map_singleton]
        refine nodup_append.mpr ⟨h.nodup, nodup_singleton _, fun a ha b hb hab => ?_⟩
        obtain ⟨e, he, rfl⟩ := mem_map.mp ha
        exact hne e he (hab.trans (mem_singleton.mp hb))
      · rw [flatMap_append, flatMap_singleton, hpos0, append_nil]
        exact h.perm
      · rcases mem_append.mp he with he | he
        · exact ⟨h.mapped e he, h.oid e he, h.ordered e he, h.pieces e he⟩
        · obtain rfl := mem_singleton.mp he
          refine ⟨?_, ⟨hoid.1, hoid.2, by rw [hnew]⟩, by rw [hpos0]; exact .nil, by rw [hbuf0]; exact nofun⟩
          rw [Mapped, hpos0, hlen0]
          rfl
  obtain ⟨hnodup, hperm, hall, hlength⟩ := hL
  obtain ⟨hmapped, ⟨hino, hrev, hlay⟩, hord, hpieces⟩ := hall old (mem_append_cons_self)
  have hlt : ∀ p ∈ old.positions, p < n := fun p hp =>
    mem_range.mp (hperm.subset (mem_flatMap.mpr ⟨old, mem_append_cons_self, hp⟩))
  have hothers : ∀ e, e ∈ pre ++ ex :: post → e = ex ∨ e ∈ pre ++ post := fun e he =>
    mem_cons.mp (perm_middle.mem_iff.mp he)
  have hrest : ∀ e ∈ pre ++ post, e ∈ pre ++ old :: post := fun e he =>
    perm_middle.mem_iff.mpr (mem_cons_of_mem _ he)
  refine ⟨?_, ?_, fun e he => ?_, fun e he => ?_, fun e he => ?_, fun e he => ?_, fun e he => ?_⟩
  · rw [map_append, map_cons, hexo, ← map_cons (f := fun e : ObjectExtent => e.oid), ← map_append]
    exact hnodup
  · have hrange : range (n + k) = range n ++ List.range' n k := by
      rw [range_eq_range', range_eq_range', ← range'_append_1, zero_add]
    have hswap : (List.range' n k ++ post.flatMap (·.positions)).Perm (post.flatMap (·.positions) ++ List.range' n k) :=
      perm_append_comm
    rw [flatMap_append, flatMap_cons] at hperm
    rw [flatMap_append, flatMap_cons, hpos, hrange, append_assoc]
    refine ((hswap.append_left old.positions).append_left (pre.flatMap (·.positions))).trans ?_
    rw [← append_assoc old.positions, ← append_assoc (pre.flatMap _)]
    exact hperm.append_right _
  all_goals rcases hothers e he with rfl | he
  · exact hmapped.add hex hpiece
  · exact (hall e (hrest e he)).1
  · omega
  · exact hlength e he
  · exact ⟨hexo ▸ hino, hexo ▸ hrev, by rw [hexl, hexo, hlay]⟩
  · exact (hall e (hrest e he)).2.1
  · rw [hpos]
    refine pairwise_append.mpr ⟨hord, pairwise_lt_range', fun a ha b hb => ?_⟩
    exact (hlt a ha).trans_le (mem_range'_1.mp hb).1
  · exact (hall e (hrest e he)).2.2.1
  · rw [hbuf]
    exact forall_mem_append.mpr ⟨hpieces, fun b hb => by rw [mem_singleton.mp hb]; exact hk⟩
  · exact (hall e (hrest e he)).2.2.2

end walk

/-! ### The whole walk -/

/-- The layouts that `file_to_extents` takes. -/
structure FileLayout.Valid (l : FileLayout) : Prop where
  unit : 0 < l.stripeUnit
  count : 0 < l.stripeCount
  size : l.stripeUnit ≤ l.objectSize

/-- The stripes of such a layout. -/
def FileLayout.stripes (l : FileLayout) (hunit : 0 < l.stripeUnit) (hcount : 0 < l.stripeCount)
    (hsize : l.stripeUnit ≤ l.objectSize) : Stripes :=
  ⟨l.stripeUnit, l.stripeCount, l.stripesPerObject, hunit, hcount, Nat.div_pos hsize hunit⟩

section loop

variable {l : FileLayout} {objectLayout : ObjectT → ℕ} {ino rev offset cur left : ℕ} {exts exts' : List ObjectExtent}

theorem xLen_le (l : FileLayout) (cur left : ℕ) : l.xLen cur left ≤ left := by
  unfold FileLayout.xLen
  dsimp only
  split <;> omega

theorem xLen_le_unit (l : FileLayout) (cur left : ℕ) : l.xLen cur left ≤ l.stripeUnit - cur % l.stripeUnit := by
  unfold FileLayout.xLen
  dsimp only
  split <;> omega

theorem fileLoop_step (hleft : 0 < left) (hunit : 0 < l.stripeUnit)
    (hok : ¬ (l.stripeCount = 0 ∨ 2 ^ 63 ≤ cur + l.xLen cur left))
    (hadd : addPiece ⟨ino, l.objectNo cur % 2 ^ 32, rev⟩ (objectLayout ⟨ino, l.objectNo cur % 2 ^ 32, rev⟩)
      (l.xOffset cur) (l.xLen cur left) (cur - offset) exts = some exts') :
    fileLoop l objectLayout ino rev offset cur left exts =
      fileLoop l objectLayout ino rev offset (cur + l.xLen cur left) (left - l.xLen cur left) exts' := by
  rw [fileLoop, dif_pos hleft, dif_pos hunit, if_neg hok]
  simp only [hadd, bind_some]

theorem fileLoop_zero : fileLoop l objectLayout ino rev offset cur 0 exts = some exts := by
  rw [fileLoop, dif_neg (lt_irrefl 0)]

theorem stripes_object (hl : l.Valid)
    (y : ℕ) : (l.stripes hl.unit hl.count hl.size).object y = l.objectNo y := rfl

theorem stripes_offset (hl : l.Valid)
    (y : ℕ) : (l.stripes hl.unit hl.count hl.size).offset y = l.xOffset y := rfl

theorem piece_mapped (hl : l.Valid)
    (hcur : offset ≤ cur) {k : ℕ} (hk : k ≤ l.stripeUnit - cur % l.stripeUnit) :
    (List.range' (cur - offset) k).map (fun p => (l.objectNo (offset + p) % 2 ^ 32, l.xOffset (offset + p))) =
      (List.range' (l.xOffset cur) k).map fun y => (l.objectNo cur % 2 ^ 32, y) := by
  have hshift : ∀ s : ℕ, List.range' s k = (range k).map (s + ·) := fun s => by
    rw [range_eq_range', map_add_range', add_zero]
  rw [hshift, hshift, List.map_map, List.map_map]
  refine map_congr_left fun i hi => ?_
  have hin : cur % l.stripeUnit + i < l.stripeUnit := by
    have := mem_range.mp hi
    omega
  have hpos : offset + (cur - offset + i) = cur + i := by omega
  change (l.objectNo (offset + (cur - offset + i)) % 2 ^ 32, l.xOffset (offset + (cur - offset + i))) = _
  rw [hpos, ← stripes_object hl, ← stripes_offset hl, Stripes.object_add hin,
    Stripes.offset_add hin]
  rfl

/-- **The loop** walks what is left. -/
theorem fileLoop_walked (hsize : l.stripeUnit ≤ l.objectSize) (hcur : offset ≤ cur)
    (h : Walked l objectLayout ino rev offset (cur - offset) exts)
    (hloop : fileLoop l objectLayout ino rev offset cur left exts = some exts') :
    Walked l objectLayout ino rev offset (cur - offset + left) exts' := by
  induction left using Nat.strong_induction_on generalizing cur exts with
  | _ left ih =>
    unfold fileLoop at hloop
    split_ifs at hloop with hleft hunit hbad
    · obtain ⟨next, hadd, hloop⟩ := bind_eq_some_iff.mp hloop
      have hcount : 0 < l.stripeCount := pos_of_ne_zero fun h0 => hbad (.inl h0)
      have hlen := xLen_pos cur hleft hunit
      have hle := xLen_le l cur left
      have hnext := h.addPiece hlen ⟨rfl, rfl⟩ (piece_mapped ⟨hunit, hcount, hsize⟩ hcur (xLen_le_unit l cur left)) hadd
      rw [← Nat.sub_add_comm hcur] at hnext
      have hend : cur + l.xLen cur left - offset + (left - l.xLen cur left) = cur - offset + left := by omega
      rw [← hend]
      exact ih _ (by omega) (by omega) hnext hloop
    · cases hloop
      obtain rfl : left = 0 := by omega
      exact h

/-- The loop has not gone over the end of an `off_t`. -/
theorem fileLoop_lt (hleft : 0 < left) (hloop : fileLoop l objectLayout ino rev offset cur left exts = some exts') :
    cur + left < 2 ^ 63 := by
  induction left using Nat.strong_induction_on generalizing cur exts with
  | _ left ih =>
    unfold fileLoop at hloop
    split_ifs at hloop with hunit hbad
    obtain ⟨next, -, hloop⟩ := bind_eq_some_iff.mp hloop
    have hlen := xLen_pos cur hleft hunit
    have hle := xLen_le l cur left
    rcases hle.lt_or_eq with hlt | heq
    · have := ih _ (by omega) (by omega) hloop
      omega
    · omega

theorem Walked.ext {n : ℕ} (h : Walked l objectLayout ino rev offset n exts) {ex ex' : ObjectExtent} (hex : ex ∈ exts)
    (hex' : ex' ∈ exts) (hbno : ex.oid.bno = ex'.oid.bno) : ex = ex' := by
  refine inj_on_of_nodup_map h.nodup hex hex' ?_
  obtain ⟨hi, hr, -⟩ := h.oid ex hex
  obtain ⟨hi', hr', -⟩ := h.oid ex' hex'
  cases heq : ex.oid
  cases heq' : ex'.oid
  simp only [heq, heq'] at hi hr hi' hr' hbno
  rw [hi, hr, hi', hr', hbno]

theorem Walked.ext_of_position {n p : ℕ} (h : Walked l objectLayout ino rev offset n exts) {ex ex' : ObjectExtent}
    (hex : ex ∈ exts) (hex' : ex' ∈ exts) (hp : p ∈ ex.positions) (hp' : p ∈ ex'.positions) : ex = ex' :=
  h.ext hex hex' (((h.mapped ex hex).position hp).1.symm.trans ((h.mapped ex' hex').position hp').1)

/-- The objects of the bytes from `a` up to `b` are told apart by their 32 bits. -/
def ToldApart (l : FileLayout) (a b : ℕ) : Prop :=
  ∀ y, a ≤ y → y < b → ∀ z, a ≤ z → z < b → l.objectNo y % 2 ^ 32 = l.objectNo z % 2 ^ 32 → l.objectNo y = l.objectNo z

theorem ToldApart.mono {a b c : ℕ} (h : ToldApart l a c) (hbc : b ≤ c) : ToldApart l a b :=
  fun y hy hy' z hz hz' => h y hy (hy'.trans_le hbc) z hz (hz'.trans_le hbc)

theorem toldApart_of_lt {a b : ℕ} (h : ∀ y, a ≤ y → y < b → l.objectNo y < 2 ^ 32) : ToldApart l a b := by
  intro y hy hy' z hz hz' heq
  rwa [Nat.mod_eq_of_lt (h y hy hy'), Nat.mod_eq_of_lt (h z hz hz')] at heq

/-- The next byte of an object is at the end of its extent. -/
theorem Walked.next (hl : l.Valid)
    (hcur : offset ≤ cur) (h : Walked l objectLayout ino rev offset (cur - offset) exts)
    (hno : ToldApart l offset (cur + 1)) {ex : ObjectExtent} (hex : ex ∈ exts)
    (hoid : ex.oid.bno = l.objectNo cur % 2 ^ 32) : ex.start + ex.length = l.xOffset cur := by
  let s := l.stripes hl.unit hl.count hl.size
  have hbefore : ∀ y, s.byteAt (l.objectNo cur) y < cur ↔ y < l.xOffset cur := fun y => by
    have hcurAt : s.byteAt (l.objectNo cur) (l.xOffset cur) = cur := s.byteAt_offset cur
    have hlt := (s.byteAt_strictMono (l.objectNo cur)).lt_iff_lt (a := y) (b := l.xOffset cur)
    rwa [hcurAt] at hlt
  -- the bytes of the extent are walked ones of the object
  have hin : ∀ y, ex.start ≤ y → y < ex.start + ex.length →
      offset ≤ s.byteAt (l.objectNo cur) y ∧ s.byteAt (l.objectNo cur) y < cur := by
    intro y hy hy'
    obtain ⟨p, hp, hbno, hoff⟩ := (h.mapped ex hex).byte ⟨hy, hy'⟩
    have hlt := mem_range.mp (h.perm.subset (mem_flatMap.mpr ⟨ex, hex, hp⟩))
    have hobj := hno _ (by omega) (by omega) cur hcur (by omega) (hbno.trans hoid)
    have hat : s.byteAt (l.objectNo cur) y = offset + p := by
      rw [← hobj, ← hoff]
      exact s.byteAt_offset (offset + p)
    omega
  have hpos := h.pos ex hex
  have hlast := (hbefore _).mp (hin (ex.start + ex.length - 1) (by omega) (by omega)).2
  refine le_antisymm (by omega) (not_lt.mp fun hlt => ?_)
  -- a byte between the extent and the piece would have been walked
  have hfirst := (hin ex.start le_rfl (by omega)).1
  have hgap : s.byteAt (l.objectNo cur) (ex.start + ex.length) < cur := (hbefore _).mpr hlt
  have hgap' : offset ≤ s.byteAt (l.objectNo cur) (ex.start + ex.length) :=
    hfirst.trans ((s.byteAt_strictMono _).monotone (Nat.le_add_right _ _))
  have hbound : ex.start + ex.length < s.rows * s.unit := hlt.trans (s.offset_lt cur)
  have hobj : l.objectNo (s.byteAt (l.objectNo cur) (ex.start + ex.length)) = l.objectNo cur :=
    Stripes.object_byteAt hbound
  have hoff : l.xOffset (s.byteAt (l.objectNo cur) (ex.start + ex.length)) = ex.start + ex.length :=
    Stripes.offset_byteAt hbound
  obtain ⟨p, hp⟩ : ∃ p, s.byteAt (l.objectNo cur) (ex.start + ex.length) = offset + p :=
    ⟨_, (Nat.add_sub_cancel' hgap').symm⟩
  rw [hp] at hgap hobj hoff
  obtain ⟨ex', hex', hp'⟩ := mem_flatMap.mp (h.perm.symm.subset (mem_range.mpr (by omega : p < cur - offset)))
  obtain ⟨hbno, -, hend⟩ := (h.mapped ex' hex').position hp'
  rw [hobj, ← hoid] at hbno
  have hsame : ex' = ex := h.ext hex' hex hbno.symm
  rw [hsame, hoff] at hend
  exact absurd hend (lt_irrefl _)

/-- **No assertion fails** as long as the objects have numbers of their own. -/
theorem fileLoop_isSome (hl : l.Valid)
    (hcur : offset ≤ cur) (hend : cur + left < 2 ^ 63) (hno : ToldApart l offset (cur + left))
    (h : Walked l objectLayout ino rev offset (cur - offset) exts) :
    (fileLoop l objectLayout ino rev offset cur left exts).isSome = true := by
  induction left using Nat.strong_induction_on generalizing cur exts with
  | _ left ih =>
    rcases eq_zero_or_pos left with rfl | hleft
    · rw [fileLoop_zero]
      rfl
    · have hlen := xLen_pos cur hleft hl.unit
      have hle := xLen_le l cur left
      have hsome : (addPiece ⟨ino, l.objectNo cur % 2 ^ 32, rev⟩ (objectLayout ⟨ino, l.objectNo cur % 2 ^ 32, rev⟩)
          (l.xOffset cur) (l.xLen cur left) (cur - offset) exts).isSome = true := by
        refine addPiece_isSome fun ex hex hoid => ?_
        exact h.next hl hcur (hno.mono (by omega)) hex (congrArg ObjectT.bno hoid)
      obtain ⟨next, hadd⟩ := isSome_iff_exists.mp hsome
      have hnext := h.addPiece hlen ⟨rfl, rfl⟩ (piece_mapped hl hcur (xLen_le_unit l cur left)) hadd
      rw [← Nat.sub_add_comm hcur] at hnext
      have hcount := hl.count
      rw [fileLoop_step hleft hl.unit (by omega) hadd]
      exact ih _ (by omega) (by omega) (by omega) (hno.mono (by omega)) hnext

theorem Walked.of_perm {n : ℕ} (h : Walked l objectLayout ino rev offset n exts) (hp : exts'.Perm exts) :
    Walked l objectLayout ino rev offset n exts' where
  nodup := (hp.map _).nodup_iff.mpr h.nodup
  perm := (hp.flatMap_right _).trans h.perm
  mapped ex hex := h.mapped ex (hp.subset hex)
  pos ex hex := h.pos ex (hp.subset hex)
  oid ex hex := h.oid ex (hp.subset hex)
  ordered ex hex := h.ordered ex (hp.subset hex)
  pieces ex hex := h.pieces ex (hp.subset hex)

/-- **What `file_to_extents` returns** stands for the range. -/
theorem fileToExtents_walked {len : ℕ} (h : fileToExtents l objectLayout ino offset len rev = some exts) :
    Walked l objectLayout ino rev offset (leftOf len) exts := by
  unfold fileToExtents at h
  split_ifs at h with hvalid
  obtain ⟨exts', hloop, rfl⟩ := map_eq_some_iff.mp h
  have hnil : Walked l objectLayout ino rev offset (offset - offset) [] := by
    rw [Nat.sub_self]
    exact walked_nil
  have hwalked := fileLoop_walked hvalid.2 le_rfl hnil hloop
  rw [Nat.sub_self, Nat.zero_add] at hwalked
  exact hwalked.of_perm (perm_insertionSort _ _)

theorem fileToExtents_lt {len : ℕ} (hlen : 0 < len) (hlen63 : len < 2 ^ 63)
    (h : fileToExtents l objectLayout ino offset len rev = some exts) : offset + len < 2 ^ 63 := by
  unfold fileToExtents at h
  split_ifs at h
  obtain ⟨exts', hloop, -⟩ := map_eq_some_iff.mp h
  rw [leftOf, if_pos hlen63] at hloop
  exact fileLoop_lt hlen hloop

theorem fileToExtents_isSome (objectLayout : ObjectT → ℕ) (ino rev : ℕ) {len : ℕ} (hl : l.Valid) (hend : offset + len < 2 ^ 63)
    (hno : ToldApart l offset (offset + len)) : (fileToExtents l objectLayout ino offset len rev).isSome = true := by
  have hleft : leftOf len = len := if_pos (by omega)
  have hnil : Walked l objectLayout ino rev offset (offset - offset) [] := by
    rw [Nat.sub_self]
    exact walked_nil
  rw [fileToExtents, if_pos ⟨hl.unit, hl.size⟩, isSome_map, hleft]
  exact fileLoop_isSome hl le_rfl hend hno hnil

end loop

theorem foldlM_others {β : Type} {oid : ObjectT} {before after : List ObjectExtent} {ex : ObjectExtent}
    (f : β → ObjectExtent → Option β) (r : β) (hoid : ex.oid = oid) (hothers : ∀ e ∈ before ++ after, e.oid ≠ oid) :
    (before ++ ex :: after).foldlM (fun r e => if e.oid ≠ oid then some r else f r e) r = f r ex := by
  have hskip : ∀ (l : List ObjectExtent) (r : β), (∀ e ∈ l, e.oid ≠ oid) →
      l.foldlM (fun r e => if e.oid ≠ oid then some r else f r e) r = some r := by
    intro l
    induction l with
    | nil => exact fun _ _ => rfl
    | cons e l ih =>
      intro r hl
      obtain ⟨he, hl⟩ := forall_mem_cons.mp hl
      rw [foldlM_cons, if_pos he]
      exact ih r hl
  obtain ⟨hbefore, hafter⟩ := forall_mem_append.mp hothers
  rw [foldlM_append, hskip before r hbefore, bind_eq_bind, bind_some, foldlM_cons,
    if_neg (not_not.mpr hoid), bind_eq_bind, Option.bind_congr fun r _ => hskip after r hafter,
    bind_fun_some]

/-! ### Exact striping -/

/-- There is one extent for each object, the buffer extents are a partition of the buffer,
each byte is in the object and at the offset of the formula, and there no other byte is. -/
def Exact (l : FileLayout) (objectLayout : ObjectT → ℕ) (ino offset len rev : ℕ) : Prop :=
  ∃ exts, fileToExtents l objectLayout ino offset len rev = some exts ∧
    (exts.map (·.oid)).Nodup ∧ (exts.flatMap (·.positions)).Perm (List.range len) ∧
    (∀ ex ∈ exts, ex.oid.ino = ino ∧ ex.oid.rev = rev ∧
      ex.positions.map (fun p => (l.objectNo (offset + p), l.xOffset (offset + p))) =
        (List.range' ex.start ex.length).map fun x => (ex.oid.bno, x)) ∧
    ∀ a b, l.objectNo a = l.objectNo b → l.xOffset a = l.xOffset b → a = b

/-- **File striping is exact** where file positions fit in 63 bits and object numbers in 32. -/
theorem file_to_extents_exact (l : FileLayout) (objectLayout : ObjectT → ℕ) (ino offset len rev : ℕ)
    (hunit : 0 < l.stripeUnit) (hcount : 0 < l.stripeCount) (hsize : l.stripeUnit ≤ l.objectSize)
    (hend : offset + len < 2 ^ 63) (hno : ∀ y, offset ≤ y → y < offset + len → l.objectNo y < 2 ^ 32) :
    Exact l objectLayout ino offset len rev := by
  obtain ⟨exts, hexts⟩ := isSome_iff_exists.mp
    (fileToExtents_isSome objectLayout ino rev ⟨hunit, hcount, hsize⟩ hend (toldApart_of_lt hno))
  have hleft : leftOf len = len := if_pos (by omega)
  have hwalked := fileToExtents_walked hexts
  rw [hleft] at hwalked
  refine ⟨exts, hexts, hwalked.nodup, hwalked.perm, fun ex hex => ?_,
    fun a b => Stripes.place_inj (s := l.stripes hunit hcount hsize)⟩
  refine ⟨(hwalked.oid ex hex).1, (hwalked.oid ex hex).2.1, ?_⟩
  rw [← hwalked.mapped ex hex]
  refine map_congr_left fun p hp => ?_
  have hlt := mem_range.mp (hwalked.perm.subset (mem_flatMap.mpr ⟨ex, hex, hp⟩))
  rw [Nat.mod_eq_of_lt (hno (offset + p) (by omega) (by omega))]

/-- Two objects of two units each; the range begins and ends inside a unit. -/
theorem file_to_extents_exact_two : Exact ⟨4, 2, 8⟩ (·.bno) 1 3 11 0 :=
  file_to_extents_exact ⟨4, 2, 8⟩ (·.bno) 1 3 11 0 (by decide) (by decide) (by decide) (by decide)
    (fun y _ hy => lt_of_le_of_lt (by
      change y / 4 / 2 / 2 * 2 + y / 4 % 2 ≤ 20
      omega) (by decide : 20 < 2 ^ 32))

/-- No object has room, object 2^32 is object 0, and the last position of an `off_t` is no end. -/
theorem file_to_extents_limits : ¬ Exact ⟨1, 1, 0⟩ (·.bno) 1 0 1 0 ∧ ¬ Exact ⟨1, 1, 1⟩ (·.bno) 1 (2 ^ 32) 1 0 ∧
    ¬ Exact ⟨1, 2 ^ 32 - 1, 2 ^ 32 - 1⟩ (·.bno) 1 (2 ^ 63 - 1) 1 0 := by
  refine ⟨fun ⟨exts, hexts, _⟩ => ?_, fun ⟨exts, hexts, _, hperm, hmap, _⟩ => ?_, fun ⟨exts, hexts, _⟩ => ?_⟩
  · rw [fileToExtents, if_neg (by decide)] at hexts
    cases hexts
  · obtain ⟨ex, hex, hp⟩ := mem_flatMap.mp (hperm.symm.subset (mem_range.mpr one_pos))
    obtain ⟨hbno, -⟩ := ((fileToExtents_walked hexts).mapped ex hex).position hp
    have hmem := mem_map_of_mem
      (f := fun p => (FileLayout.objectNo ⟨1, 1, 1⟩ (2 ^ 32 + p), FileLayout.xOffset ⟨1, 1, 1⟩ (2 ^ 32 + p))) hp
    rw [(hmap ex hex).2.2] at hmem
    obtain ⟨x, -, heq⟩ := mem_map.mp hmem
    exact absurd (hbno.trans (Prod.ext_iff.mp heq).1) (by decide)
  · rw [fileToExtents, if_pos (by decide), fileLoop, dif_pos (by decide), dif_pos (by decide),
      if_pos (by decide)] at hexts
    cases hexts

end Osdc
end Ceph
