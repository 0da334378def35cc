/-
# Where blocks of an object are on disk

`map_extents` gives the extents of a range of blocks, and their checksums if they are asked for. It looks the
first extent up in one of three ways, which find the same. Where the range begins inside an extent, the
checksums are counted from the beginning of the extent, but only up to the length of the piece, so some are
missing; and where in the extent it is is kept in an `int`.
-/
import Ceph.Ebofs.ExtentMap

namespace Ceph
namespace Ebofs
namespace Cache

open List Keyed
open Option hiding min_eq_left min_eq_right
open Tiles

/-! ### The code -/

/-- An iterator of the extent map: the entries before it, and those from it on. -/
abbrev ExtentIter := List (ℕ × ExtentCsum) × List (ℕ × ExtentCsum)

/-- `extent_map.lower_bound(start)`. -/
def lowerExtent (start : ℕ) (m : Mapping) : ExtentIter :=
  (m.extentMap.filter fun p => p.1 < start, m.extentMap.filter fun p => start ≤ p.1)

/-- The lookup of `map_extents`. -/
def findExtent (start len : ℕ) (m : Mapping) : ExtentIter :=
  -- hack hack speed up common cases!
  if start = 0 then ([], m.extentMap)
  else
    match m.extentMap.getLast? with
    | some p =>
      -- append hack.
      if start + len = m.lastBlock ∧ len = 1 then
        if p.1 < start then (m.extentMap, []) else (m.extentMap.dropLast, [p])
      else lowerExtent start m
    | none => lowerExtent start m

/-- The loop over the entries from an iterator on. -/
def mapFrom (csum : Bool) (start len : ℕ) : List (ℕ × ExtentCsum) → Option (List Extent × List UInt64)
  | [] => some ([], [])
  | p :: rest =>
    if len = 0 then some ([], [])
    else if p.1 ≠ start then none
    else
      let n := min len p.2.ex.length
      (mapFrom csum (start + n) (len - n) rest).map fun (ls, cs) =>
        (⟨p.2.ex.start, n⟩ :: ls, if p.2.ex.start ≠ 0 ∧ csum then p.2.csum.take n ++ cs else cs)

/-- The rest of `map_extents`. -/
def mapExtentsFrom (csum : Bool) (start len : ℕ) (it : ExtentIter) : Option (List Extent × List UInt64) :=
  match it.1.getLast? with
  | some p =>
    if it.2.head?.all (fun q => start < q.1) ∧ start - p.1 < p.2.ex.length then
      let off := toInt (start - p.1)
      let n := min len (p.2.ex.length - off).toNat
      let from' := toUnsigned 32 off           -- unsigned i=off; i<ex.length
      let ex := if p.2.ex.start ≠ 0 then (p.2.ex.start + off).toNat else 0
      (mapFrom csum (start + n) (len - n) it.2).map fun (ls, cs) =>
        (⟨ex, n⟩ :: ls, if p.2.ex.start ≠ 0 ∧ csum then (p.2.csum.drop from').take (n - from') ++ cs else cs)
    else mapFrom csum start len it.2
  | none => mapFrom csum start len it.2

/-- `map_extents`: the extents, and the checksums if they are asked for. -/
def mapExtentsCsum (csum : Bool) (start len : ℕ) (m : Mapping) : Option (List Extent × List UInt64) :=
  mapExtentsFrom csum start len (findExtent start len m)

/-! ### What it should give -/

/-- The blocks of an extent that is got. -/
def extentBlocks (ex : Extent) : List (Option ℕ) :=
  if ex.start = 0 then List.replicate ex.length none else (List.range' ex.start ex.length).map some

/-- The checksums of blocks. -/
def blockCsums (b : List Block) : List UInt64 := b.filterMap fun x => x.map Prod.snd

/-- The extents are the blocks of the range, as far as the object goes, and each mapped one has a checksum. -/
def Exact (b : List Block) (start len : ℕ) (csum : Bool) (r : Option (List Extent × List UInt64)) : Prop :=
  ∃ ls cs, r = some (ls, cs) ∧ ls.flatMap extentBlocks = ((b.drop start).take len).map (Option.map Prod.fst) ∧
    cs = if csum then blockCsums ((b.drop start).take len) else []

/-- The range begins inside an extent. -/
def Inside (start : ℕ) (p : ℕ × ExtentCsum) : Prop := p.1 < start ∧ start < entryEnd p

/-- If the range begins inside an extent, then it is a hole, or no checksums are asked for; and what is before it in the extent
fits in an `int`, but for a range that has only holes. -/
def Within (b : List Block) (start len : ℕ) (csum : Bool) (m : Mapping) : Prop :=
  len = 0 ∨ ∀ p ∈ m.extentMap, Inside start p →
    if p.2.ex.start ≠ 0 then csum = false ∧ start - p.1 < 2 ^ 31
    else start - p.1 < 2 ^ 31 ∨
      (start + len ≤ m.lastBlock ∧ (∀ x ∈ (b.drop start).take len, x = none) ∧
        (len : ℤ) ≤ p.2.ex.length - toInt (start - p.1))

section exact

variable {m : Mapping} {b : List Block} {l pre post : List (ℕ × ExtentCsum)} {p : ℕ × ExtentCsum} {e : ExtentCsum}
  {start len n i k : ℕ} {csum : Bool}

/-- **The shortcuts find the same.** -/
theorem findExtent_eq (h : Tiled Prod.fst entryEnd 0 m.lastBlock m.extentMap) : findExtent start len m = lowerExtent start m := by
  unfold findExtent lowerExtent
  by_cases hzero : start = 0
  · rw [if_pos hzero, filter_eq_nil_iff.mpr (by simp [hzero]), filter_eq_self.mpr (by simp [hzero])]
  rw [if_neg hzero]
  cases hlast : m.extentMap.getLast? with
  | none => rfl
  | some p =>
    dsimp only
    by_cases hend : start + len = m.lastBlock ∧ len = 1
    · rw [if_pos hend]
      obtain ⟨pre, hmap⟩ := getLast?_eq_some_iff.mp hlast
      rw [hmap] at h ⊢
      have hsorted := sorted_of_tiled h
      have hpre : ∀ q ∈ pre, q.1 < p.1 := before_lt hsorted
      have hp : p.1 < m.lastBlock := (h.inOrder.pos p (by simp)).trans_le (h.within p (by simp)).2
      split_ifs with hlow
      · have hall : ∀ q ∈ pre ++ [p], q.1 < start := forall_mem_append.mpr
          ⟨fun q hq => (hpre q hq).trans hlow, forall_mem_singleton.mpr hlow⟩
        obtain ⟨h1, h2⟩ := @Keyed.filters_cut _ Prod.fst _ [] _ hall nofun
        rw [append_nil] at h1 h2
        rw [h1, h2]
      · obtain rfl : p.1 = start := by omega
        obtain ⟨h1, h2⟩ := filters_cut hpre (forall_mem_singleton.mpr (le_refl p.1))
        rw [dropLast_concat, h1, h2]
    · rw [if_neg hend]

theorem part_disk (he : e.Sized) (hn : i + n ≤ e.ex.length) :
    extentBlocks ⟨if e.ex.start ≠ 0 then e.ex.start + i else 0, n⟩ = ((e.blocks.drop i).take n).map (Option.map Prod.fst) := by
  unfold ExtentCsum.Sized at he
  unfold extentBlocks ExtentCsum.blocks
  by_cases hs : e.ex.start = 0
  · simp [hs]
    omega
  · rw [if_neg hs] at he
    have hs' : ¬ e.ex.start + i = 0 := by omega
    rw [if_pos hs, if_neg hs', if_neg hs, ← map_drop, ← map_take, List.map_map]
    have hfst : ((range' e.ex.start e.ex.length).zip e.csum).map Prod.fst = range' e.ex.start e.ex.length :=
      map_fst_zip (by simp [he])
    have hpart : ((((range' e.ex.start e.ex.length).zip e.csum).drop i).take n).map Prod.fst =
        range' (e.ex.start + i) n := by
      rw [map_take, map_drop, hfst, drop_range', mul_one, take_range'_of_length_ge (by omega)]
    rw [← hpart, List.map_map]
    rfl

theorem part_csums (he : e.Sized) :
    blockCsums ((e.blocks.drop i).take n) = if e.ex.start ≠ 0 then (e.csum.drop i).take n else [] := by
  unfold ExtentCsum.Sized at he
  unfold blockCsums ExtentCsum.blocks
  by_cases hs : e.ex.start = 0
  · simp [hs]
  · rw [if_neg hs] at he
    have hsnd : ((range' e.ex.start e.ex.length).zip e.csum).map Prod.snd = e.csum := map_snd_zip (by simp [he])
    rw [if_neg hs, if_pos hs, ← map_drop, ← map_take, filterMap_map]
    simp only [Function.comp_def, map_some, filterMap_eq_map']
    rw [map_take, map_drop, hsnd]

@[simp] theorem blockCsums_append {c : List Block} : blockCsums (b ++ c) = blockCsums b ++ blockCsums c := filterMap_append

/-- **From the beginning of an entry on**, the loop gives what is there. -/
theorem mapFrom_spec (h : Tiled Prod.fst entryEnd start k l) (hs : ∀ p ∈ l, p.2.Sized) :
    ∃ ls cs, mapFrom csum start len l = some (ls, cs) ∧
      ls.flatMap extentBlocks = ((blocks l).take len).map (Option.map Prod.fst) ∧
      cs = if csum then blockCsums ((blocks l).take len) else [] := by
  induction l generalizing start len with
  | nil => exact ⟨[], [], rfl, by simp, by simp [blockCsums]⟩
  | cons p l ih =>
    obtain ⟨rfl, hpos, hrest⟩ := h
    obtain ⟨hp, hs⟩ := forall_mem_cons.mp hs
    have hlen := length_blocks hp
    rw [mapFrom]
    by_cases hzero : len = 0
    · rw [if_pos hzero, hzero]
      exact ⟨[], [], rfl, rfl, by simp [blockCsums]⟩
    rw [if_neg hzero, if_neg (not_not.mpr rfl)]
    dsimp only
    have hsplit : (blocks (p :: l)).take len =
        (p.2.blocks.drop 0).take (min len p.2.ex.length) ++ (blocks l).take (len - min len p.2.ex.length) := by
      rw [blocks_cons, take_append, drop_zero, ← hlen, ← take_eq_take_min, hlen]
      congr 2
      omega
    have hnext : ∃ ls cs, mapFrom csum (p.1 + min len p.2.ex.length) (len - min len p.2.ex.length) l = some (ls, cs) ∧
        ls.flatMap extentBlocks = ((blocks l).take (len - min len p.2.ex.length)).map (Option.map Prod.fst) ∧
        cs = if csum then blockCsums ((blocks l).take (len - min len p.2.ex.length)) else [] := by
      rcases le_total len p.2.ex.length with hle | hle
      · -- nothing is left
        rw [min_eq_left hle, Nat.sub_self, take_zero]
        refine ⟨[], [], ?_, rfl, by simp [blockCsums]⟩
        cases l <;> simp [mapFrom]
      · rw [min_eq_right hle]
        exact ih hrest hs
    obtain ⟨ls, cs, hrun, hls, hcs⟩ := hnext
    refine ⟨_, _, by rw [hrun]; rfl, ?_, ?_⟩
    · have hpart := part_disk (i := 0) (n := min len p.2.ex.length) hp (by omega)
      have hstart : (if p.2.ex.start ≠ 0 then p.2.ex.start + 0 else 0) = p.2.ex.start := by
        split_ifs <;> omega
      rw [hstart] at hpart
      rw [flatMap_cons, hls, hsplit, map_append, hpart]
    · have hpart := part_csums (i := 0) (n := min len p.2.ex.length) hp
      rw [hsplit, blockCsums_append, hpart, hcs, drop_zero]
      cases csum
      · simp
      · split_ifs <;> simp_all

theorem mapFrom_zero : mapFrom csum start 0 l = some ([], []) := by
  cases l <;> simp [mapFrom]

theorem mapFrom_rest (len : ℕ) (csum : Bool) (h : Tiled Prod.fst entryEnd k i post) (hs : ∀ q ∈ post, q.2.Sized) (hk : start ≤ k) :
    ∃ ls cs, mapFrom csum (start + min len (k - start)) (len - min len (k - start)) post = some (ls, cs) ∧
      ls.flatMap extentBlocks = ((blocks post).take (len - min len (k - start))).map (Option.map Prod.fst) ∧
      cs = if csum then blockCsums ((blocks post).take (len - min len (k - start))) else [] := by
  rcases le_total len (k - start) with hle | hle
  · rw [min_eq_left hle, Nat.sub_self, mapFrom_zero]
    exact ⟨[], [], rfl, rfl, by simp [blockCsums]⟩
  · rw [min_eq_right hle, Nat.add_sub_cancel' hk]
    exact mapFrom_spec h hs

/-- The range begins inside no extent, so the loop begins with it. -/
theorem exact_outside (h : Represents m b) (hout : ∀ p ∈ m.extentMap, ¬ Inside start p) :
    Exact b start len csum (mapExtentsCsum csum start len m) := by
  obtain ⟨pre, post, hcut, hbefore, hbehind⟩ := exists_lower_cut (sorted_of_tiled h.contiguous) start
  obtain ⟨hlt, hge⟩ := filters_cut hbefore hbehind
  rw [← hcut] at hlt hge
  rw [mapExtentsCsum, findExtent_eq h.contiguous, lowerExtent, hlt, hge]
  have htiled := h.contiguous
  have hsized := h.sized
  have hb := h.blocks_eq
  rw [hcut] at htiled hsized hb
  obtain ⟨hpre, hpost⟩ := forall_mem_append.mp hsized
  obtain ⟨k, hfront, hback⟩ := tiled_append.mp htiled
  have hlenpre := length_blocks_tiled hfront hpre
  have hk : k ≤ start := by
    rcases eq_nil_or_concat pre with rfl | ⟨pre', p, rfl⟩
    · obtain hzero : 0 = k := hfront
      omega
    · obtain ⟨j, -, -, -, hend⟩ := tiled_append.mp (by simpa using hfront)
      have hp := hout p (hcut.symm ▸ by simp)
      have hlow := hbefore p (by simp)
      exact not_lt.mp fun hlt => hp ⟨hlow, hend.trans_gt hlt⟩
  have hrun : mapExtentsFrom csum start len (pre, post) = mapFrom csum start len post := by
    unfold mapExtentsFrom
    cases hlast : pre.getLast? with
    | none => rfl
    | some p =>
      obtain ⟨pre', rfl⟩ := getLast?_eq_some_iff.mp hlast
      obtain ⟨j, -, -, -, hend⟩ := tiled_append.mp hfront
      rw [tiled_nil] at hend
      refine if_neg fun hcon => ?_
      unfold entryEnd at hend
      omega
  have hspec : ∃ i, Tiled Prod.fst entryEnd start i post ∧ b.drop start = blocks post := by
    cases post with
    | nil =>
      refine ⟨start, rfl, ?_⟩
      rw [← hb, append_nil, drop_eq_nil_of_le (by omega)]
      rfl
    | cons q post =>
      obtain rfl : k = start := le_antisymm hk ((hbehind q mem_cons_self).trans_eq hback.1)
      refine ⟨m.lastBlock, hback, ?_⟩
      rw [← hb, blocks_append, drop_left' (by omega)]
  obtain ⟨i, hi, hdrop⟩ := hspec
  rw [hrun, Exact, hdrop]
  exact mapFrom_spec hi hpost

/-- The range begins inside an extent. -/
theorem run_inside (len : ℕ) (csum : Bool) (h : Represents m b) (hmap : m.extentMap = pre ++ p :: post) (hin : Inside start p) :
    let n := min len (p.2.ex.length - toInt (start - p.1)).toNat
    mapExtentsCsum csum start len m = (mapFrom csum (start + n) (len - n) post).map fun (ls, cs) =>
      (⟨if p.2.ex.start ≠ 0 then (p.2.ex.start + toInt (start - p.1)).toNat else 0, n⟩ :: ls,
        if p.2.ex.start ≠ 0 ∧ csum then
          (p.2.csum.drop (toUnsigned 32 (toInt (start - p.1)))).take (n - toUnsigned 32 (toInt (start - p.1))) ++ cs
        else cs) := by
  obtain ⟨hlow, hhigh⟩ := hin
  have htiled := h.contiguous
  rw [hmap] at htiled
  have hsorted := sorted_of_tiled htiled
  obtain ⟨k, hfront, hk, hpos, hback⟩ := tiled_append.mp htiled
  have hpre : ∀ q ∈ pre ++ [p], q.1 < start := forall_mem_append.mpr
    ⟨fun q hq => (before_lt hsorted q hq).trans hlow, forall_mem_singleton.mpr hlow⟩
  have hpost : ∀ q ∈ post, start < q.1 := fun q hq => hhigh.trans_le (hback.within q hq).1
  have hlower : lowerExtent start m = (pre ++ [p], post) := by
    have happend : pre ++ p :: post = (pre ++ [p]) ++ post := by rw [append_assoc, singleton_append]
    obtain ⟨h1, h2⟩ := filters_cut hpre fun q hq => (hpost q hq).le
    rw [lowerExtent, hmap, happend, h1, h2]
  have hhead : (post.head?.all fun q => start < q.1) = true := by
    cases post with
    | nil => rfl
    | cons q post => simpa using hpost q mem_cons_self
  rw [mapExtentsCsum, findExtent_eq h.contiguous, hlower, mapExtentsFrom]
  rw [getLast?_concat]
  exact if_pos ⟨hhead, by unfold entryEnd at hhigh; omega⟩

/-- What is before the range in the extent fits in an `int`. -/
theorem exact_small (h : Represents m b) (hmap : m.extentMap = pre ++ p :: post) (hin : Inside start p)
    (hsmall : start - p.1 < 2 ^ 31) :
    Exact b start len csum (mapExtentsCsum csum start len m) ↔ len = 0 ∨ ¬ (p.2.ex.start ≠ 0 ∧ csum = true) := by
  obtain ⟨hlow, hhigh⟩ := id hin
  have htiled := h.contiguous
  have hsized := h.sized
  have hb := h.blocks_eq
  rw [hmap] at htiled hsized hb
  obtain ⟨k, -, -, -, hback⟩ := tiled_append.mp htiled
  have hp := hsized p (by simp)
  have hpost : ∀ q ∈ post, q.2.Sized := fun q hq => hsized q (by simp [hq])
  obtain ⟨-, hdrop⟩ := cut_inside htiled hsized hlow.le hin.2.le
  rw [hb] at hdrop
  have hn : ((p.2.ex.length : ℤ) - (start - p.1 : ℕ)).toNat = entryEnd p - start := by
    unfold entryEnd
    omega
  have hfrom : toUnsigned 32 ((start - p.1 : ℕ) : ℤ) = start - p.1 := by
    unfold toUnsigned
    omega
  obtain ⟨ls, cs, hrest, hls, hcs⟩ := mapFrom_rest len csum hback hpost hin.2.le
  have hrun := run_inside len csum h hmap hin
  dsimp only at hrun
  rw [toInt_of_lt hsmall, hn, hfrom, hrest] at hrun
  have hstart : ((p.2.ex.start : ℤ) + (start - p.1 : ℕ)).toNat = p.2.ex.start + (start - p.1) := by omega
  rw [hstart] at hrun
  -- the extents are right, and so are the checksums behind the first one
  have hpart := part_disk (i := start - p.1) (n := min len (entryEnd p - start)) hp (by unfold entryEnd; omega)
  have hsplit : (b.drop start).take len =
      (p.2.blocks.drop (start - p.1)).take (min len (entryEnd p - start)) ++
        (blocks post).take (len - min len (entryEnd p - start)) := by
    have hlen : (p.2.blocks.drop (start - p.1)).length = entryEnd p - start := by
      rw [length_drop, length_blocks hp]
      omega
    rw [hdrop, take_append, ← hlen, ← take_eq_take_min, hlen]
    congr 2
    omega
  have hcsums := part_csums (i := start - p.1) (n := min len (entryEnd p - start)) hp
  rw [hrun]
  constructor
  · rintro ⟨ls', cs', heq, -, hcs'⟩
    by_contra hcon
    obtain ⟨hlen, hreal, rfl⟩ : len ≠ 0 ∧ p.2.ex.start ≠ 0 ∧ csum = true := by
      rw [not_or, not_not] at hcon
      exact hcon
    cases heq
    rw [hsplit, blockCsums_append, hcsums, hcs, if_pos ⟨hreal, rfl⟩, if_pos rfl, if_pos rfl, if_pos hreal] at hcs'
    have hsize := congrArg length (append_cancel_right hcs')
    have hsized' := hp
    rw [ExtentCsum.Sized, if_neg hreal] at hsized'
    simp only [length_take, length_drop, hsized'] at hsize
    omega
  · intro hgood
    refine ⟨_, _, rfl, ?_, ?_⟩
    · rw [flatMap_cons, hls, hsplit, map_append, hpart]
    · rw [hsplit, blockCsums_append, hcsums, hcs]
      rcases hgood with rfl | hno
      · simp [blockCsums]
      · rw [if_neg hno]
        cases csum
        · simp
        · rw [if_pos rfl, if_pos rfl, if_neg fun hreal => hno ⟨hreal, rfl⟩, nil_append]

theorem toInt_lt : toInt n < 2 ^ 31 := by
  have := BitVec.toInt_lt (x := BitVec.ofNat 32 n)
  unfold toInt
  omega

section

variable (h : Represents m b) (hmap : m.extentMap = pre ++ p :: post) (hin : Inside start p)
include h hmap hin

theorem exact_none : Exact b start 0 csum (mapExtentsCsum csum start 0 m) := by
  have hrun := run_inside 0 csum h hmap hin
  dsimp only at hrun
  rw [Nat.zero_min, Nat.sub_self, mapFrom_zero] at hrun
  rw [hrun]
  refine ⟨_, _, rfl, ?_, ?_⟩
  · simp [extentBlocks]
  · simp [blockCsums]

/-- It does not fit, and the extent is mapped. -/
theorem exact_large_real
    (hlarge : 2 ^ 31 ≤ start - p.1) (hreal : p.2.ex.start ≠ 0) (hlen : len ≠ 0) :
    ¬ Exact b start len csum (mapExtentsCsum csum start len m) := by
  obtain ⟨hlow, hhigh⟩ := id hin
  unfold entryEnd at hhigh
  have htiled := h.contiguous
  have hsized := h.sized
  have hb := h.blocks_eq
  rw [hmap] at htiled hsized hb
  have hp := hsized p (by simp)
  obtain ⟨-, hdrop⟩ := cut_inside htiled hsized hlow.le hin.2.le
  rw [hb] at hdrop
  have hint := toInt_lt (n := start - p.1)
  rintro ⟨ls, cs, heq, hls, -⟩
  rw [run_inside len csum h hmap hin] at heq
  obtain ⟨⟨ls', cs'⟩, -, heq⟩ := map_eq_some_iff.mp heq
  cases heq
  -- the first block is not the right one
  have hone := part_disk (i := start - p.1) (n := 1) hp (by omega)
  have hfirst : (((b.drop start).take len).map (Option.map Prod.fst)).head? = some (some (p.2.ex.start + (start - p.1))) := by
    have hhead : (p.2.blocks.drop (start - p.1)).head?.map (Option.map Prod.fst) = some (some (p.2.ex.start + (start - p.1))) := by
      have hcon := congrArg head? hone
      rw [head?_map, head?_take, if_neg one_ne_zero, if_pos hreal] at hcon
      have hne : p.2.ex.start + (start - p.1) ≠ 0 := by omega
      rw [← hcon, extentBlocks, if_neg hne]
      rfl
    rw [head?_map, head?_take, if_neg hlen, hdrop, head?_append]
    cases hd : (p.2.blocks.drop (start - p.1)).head? with
    | none =>
      rw [hd] at hhead
      nomatch hhead
    | some x =>
      rw [hd] at hhead
      exact hhead
  rw [← hls, flatMap_cons, head?_append, if_pos hreal] at hfirst
  have hleft : 0 < (p.2.ex.length - toInt (start - p.1)).toNat := by omega
  have hn : min len (p.2.ex.length - toInt (start - p.1)).toNat = (min len (p.2.ex.length - toInt (start - p.1)).toNat - 1) + 1 :=
    (Nat.sub_add_cancel (Nat.succ_le_of_lt (lt_min (Nat.pos_of_ne_zero hlen) hleft))).symm
  unfold extentBlocks at hfirst
  dsimp only at hfirst
  rw [hn] at hfirst
  split_ifs at hfirst with hzero
  · nomatch hfirst
  · have hsome := some.inj (some.inj hfirst)
    omega

/-- It does not fit, and the extent is a hole. -/
theorem exact_large_hole
    (hlarge : 2 ^ 31 ≤ start - p.1) (hhole : p.2.ex.start = 0) (hlen : len ≠ 0) :
    Exact b start len csum (mapExtentsCsum csum start len m) ↔
      start + len ≤ m.lastBlock ∧ (∀ x ∈ (b.drop start).take len, x = none) ∧
        (len : ℤ) ≤ p.2.ex.length - toInt (start - p.1) := by
  obtain ⟨hlow, hhigh⟩ := id hin
  have htiled := h.contiguous
  rw [hmap] at htiled
  obtain ⟨k, -, -, -, hback⟩ := tiled_append.mp htiled
  have hblen := length_of_represents h
  have hint := toInt_lt (n := start - p.1)
  have hrun := run_inside len csum h hmap hin
  dsimp only at hrun
  rw [if_neg (not_not.mpr hhole)] at hrun
  have hback' := hback.le
  rcases le_or_gt (len : ℤ) (p.2.ex.length - toInt (start - p.1)) with hle | hgt
  · -- a hole of all the blocks is given
    have hn : min len (p.2.ex.length - toInt (start - p.1)).toNat = len := min_eq_left (by omega)
    rw [hn, Nat.sub_self, mapFrom_zero] at hrun
    have hrun : mapExtentsCsum csum start len m = some ([⟨0, len⟩], []) := by
      rw [hrun]
      simp [hhole]
    rw [hrun]
    constructor
    · rintro ⟨ls, cs, heq, hls, -⟩
      cases heq
      have hls : List.replicate len none = ((b.drop start).take len).map (Option.map Prod.fst) := by
        rw [← hls]
        simp [extentBlocks]
      have hsize := congrArg length hls
      simp only [length_replicate, length_map, length_take, length_drop] at hsize
      refine ⟨by omega, fun x hx => ?_, hle⟩
      have hx := mem_map_of_mem (f := Option.map Prod.fst) hx
      rw [← hls] at hx
      exact map_eq_none_iff.mp (eq_of_mem_replicate hx)
    · rintro ⟨hend, hall, -⟩
      have heq : (b.drop start).take len = List.replicate len none := by
        refine eq_replicate_iff.mpr ⟨?_, hall⟩
        rw [length_take, length_drop]
        omega
      rw [Exact, heq]
      refine ⟨_, _, rfl, ?_, ?_⟩
      · simp [extentBlocks]
      · simp [blockCsums]
  · -- the hole is longer than what is left of it
    have hn : min len (p.2.ex.length - toInt (start - p.1)).toNat = (p.2.ex.length - toInt (start - p.1)).toNat :=
      min_eq_right (by omega)
    refine ⟨fun hexact => ?_, fun hcon => absurd hcon.2.2 (not_le.mpr hgt)⟩
    exfalso
    obtain ⟨ls, cs, heq, hls, -⟩ := hexact
    rw [hrun] at heq
    obtain ⟨⟨ls', cs'⟩, hrest, ⟨⟩⟩ := map_eq_some_iff.mp heq
    cases post with
    | nil =>
      have hlast : entryEnd p = m.lastBlock := hback
      unfold entryEnd at hlast
      have hsize := congrArg length hls
      rw [flatMap_cons, length_append] at hsize
      simp only [extentBlocks, if_true, length_replicate, length_map, length_take, length_drop] at hsize
      omega
    | cons q post =>
      rw [mapFrom, if_neg (by omega), if_pos] at hrest
      · nomatch hrest
      · have hq := hback.1
        unfold entryEnd at hq
        omega

end

/-! ### As the cache asks for it -/

theorem mapExtentsLoop_eq : mapExtentsLoop start len l = (mapFrom false start len l).map Prod.fst := by
  induction l generalizing start len with
  | nil => rfl
  | cons p l ih =>
    rw [mapExtentsLoop, mapFrom]
    by_cases hlen : len = 0
    · rw [if_pos hlen, if_pos hlen]
      rfl
    rw [if_neg hlen, if_neg hlen]
    by_cases hstart : p.1 ≠ start
    · rw [if_pos hstart, if_pos hstart]
      rfl
    · rw [if_neg hstart, if_neg hstart]
      dsimp only
      rw [ih, Option.map_map, Option.map_map]
      refine congrArg (Option.map · _) (funext fun x => ?_)
      rfl

/-- Without checksums, and where the `int` does not matter. -/
theorem mapExtents_eq {on : Onode} {allocBlocks : ℤ} (h : Tiled Prod.fst entryEnd 0 on.lastBlock on.extentMap)
    (hsmall : ∀ p ∈ on.extentMap, Inside start p → start - p.1 < 2 ^ 31) :
    mapExtents on start len =
      (mapExtentsCsum false start len ⟨on.extentMap, on.lastBlock, allocBlocks, on.dataCsum⟩).map Prod.fst := by
  rw [mapExtentsCsum, findExtent_eq h, lowerExtent, mapExtents, mapExtentsFrom]
  cases hlast : (on.extentMap.filter fun p => p.1 < start).getLast? with
  | none => exact mapExtentsLoop_eq
  | some p =>
    dsimp only
    by_cases hin : ((on.extentMap.filter fun p => start ≤ p.1).head?.all fun q => start < q.1) = true ∧
        start - p.1 < p.2.ex.length
    · rw [if_pos hin, if_pos hin]
      have hp := mem_filter.mp (mem_of_getLast? hlast)
      have hoff := toInt_of_lt (hsmall p hp.1 ⟨by simpa using hp.2, by unfold entryEnd; omega⟩)
      have hn : ((p.2.ex.length : ℤ) - (start - p.1 : ℕ)).toNat = p.2.ex.length - (start - p.1) := by omega
      have hstart : ((p.2.ex.start : ℤ) + (start - p.1 : ℕ)).toNat = p.2.ex.start + (start - p.1) := by omega
      rw [hoff, hn, hstart, mapExtentsLoop_eq, Option.map_map, Option.map_map]
      refine congrArg (Option.map · _) (funext fun x => ?_)
      rfl
    · rw [if_neg hin, if_neg hin]
      exact mapExtentsLoop_eq

/-- **`map_extents` is exact** where the range does not begin inside a mapped extent whose checksums are asked for, and so
on; its shortcuts are always right. -/
theorem map_extents_exact (h : Represents m b) :
    (Exact b start len csum (mapExtentsCsum csum start len m) ∧ findExtent start len m = lowerExtent start m) ↔
      Within b start len csum m := by
  rw [and_iff_left (findExtent_eq h.contiguous)]
  by_cases hin : ∃ p ∈ m.extentMap, Inside start p
  · obtain ⟨p, hp, hin⟩ := hin
    have hunique : ∀ q ∈ m.extentMap, Inside start q → q = p := fun q hq hqin =>
      h.contiguous.inOrder.unique hq hp ⟨hqin.1.le, hqin.2⟩ ⟨hin.1.le, hin.2⟩
    have hwithin : Within b start len csum m ↔ len = 0 ∨
        if p.2.ex.start ≠ 0 then csum = false ∧ start - p.1 < 2 ^ 31
        else start - p.1 < 2 ^ 31 ∨ (start + len ≤ m.lastBlock ∧ (∀ x ∈ (b.drop start).take len, x = none) ∧
          (len : ℤ) ≤ p.2.ex.length - toInt (start - p.1)) := by
      refine or_congr_right ⟨fun hall => hall p hp hin, fun hgood q hq hqin => ?_⟩
      rw [hunique q hq hqin]
      exact hgood
    obtain ⟨pre, post, hmap⟩ := append_of_mem hp
    rw [hwithin]
    by_cases hlen : len = 0
    · exact iff_of_true (hlen ▸ exact_none h hmap hin) (.inl hlen)
    · rw [or_iff_right hlen]
      rcases lt_or_ge (start - p.1) (2 ^ 31) with hsmall | hlarge
      · rw [exact_small h hmap hin hsmall, or_iff_right hlen]
        split_ifs with hreal
        · rw [not_and_or, or_iff_right (not_not.mpr hreal), and_iff_left hsmall, Bool.not_eq_true]
        · exact iff_of_true (fun hcon => hreal hcon.1) (.inl hsmall)
      · split_ifs with hreal
        · exact iff_of_false (exact_large_real h hmap hin hlarge hreal hlen) fun hcon => hlarge.not_gt hcon.2
        · rw [exact_large_hole h hmap hin hlarge (not_not.mp hreal) hlen, or_iff_right hlarge.not_gt]
  · have hout : ∀ p ∈ m.extentMap, ¬ Inside start p := fun p hp hpin => hin ⟨p, hp, hpin⟩
    exact iff_of_true (exact_outside h hout) (.inr fun p hp hpin => absurd hpin (hout p hp))

end exact

/-- Three blocks in one extent. -/
def threeBlocks : Mapping := ⟨[(0, ⟨⟨10, 3⟩, [5, 6, 7]⟩)], 3, 3, 18⟩

theorem threeBlocks_represents : Represents threeBlocks [some (10, 5), some (11, 6), some (12, 7)] :=
  ⟨⟨rfl, by decide, rfl⟩, forall_mem_singleton.mpr rfl, rfl, rfl, rfl⟩

theorem map_extents_exact_tail :
    (Exact [some (10, 5), some (11, 6), some (12, 7)] 1 2 false (mapExtentsCsum false 1 2 threeBlocks) ∧
      findExtent 1 2 threeBlocks = lowerExtent 1 threeBlocks) ↔
      Within [some (10, 5), some (11, 6), some (12, 7)] 1 2 false threeBlocks :=
  map_extents_exact threeBlocks_represents

/-- The last two blocks: there is one checksum. -/
theorem map_extents_short : Represents threeBlocks [some (10, 5), some (11, 6), some (12, 7)] ∧
    mapExtentsCsum true 1 2 threeBlocks = some ([⟨11, 2⟩], [6]) ∧
    ¬ Exact [some (10, 5), some (11, 6), some (12, 7)] 1 2 true (mapExtentsCsum true 1 2 threeBlocks) := by
  have hrun : mapExtentsCsum true 1 2 threeBlocks = some ([⟨11, 2⟩], [6]) := by decide
  refine ⟨threeBlocks_represents, hrun, ?_⟩
  rintro ⟨ls, cs, heq, -, hcs⟩
  obtain ⟨-, rfl⟩ := Prod.mk.inj (some.inj heq)
  exact absurd hcs (by decide)

end Cache
end Ebofs
end Ceph
