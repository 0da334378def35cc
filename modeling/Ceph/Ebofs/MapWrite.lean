/-
# Mapping a write

`ObjectCache::map_write` gives the heads for the blocks of a write: heads that are there, cut to the range
and at the ends of the extents, and new ones for the gaps.

The end of an extent is taken for a limit only if `map_extents` has another extent behind it. Where
the mapping ends inside the range, a head goes on over the end. The waiters of a head that is cut
are as `split` leaves them, and an I/O that is submitted again for a piece must find it in one extent.
-/
import Ceph.Ebofs.ExtentMap
import Ceph.Ebofs.CutHeads

namespace Ceph
namespace Ebofs
namespace Cache

open List
open Option hiding min_eq_left min_eq_right min_le_left min_le_right
open Tiles

/-! ### The code -/

/-- The most blocks for the next head, and whether it is in a hole. -/
def limitAt (on : Onode) (cur left : ℕ) : Option (ℕ × Bool) :=
  (mapExtents on cur left).map fun exv =>
    (match exv with
      | ex :: _ :: _ => ex.length
      | _ => left,
     match exv with
      | ex :: _ => ex.start = 0
      | [] => false)

/-- `new BufferHead(this, cur, len)`, which is clean in a hole. -/
def newHead (cur len : ℕ) (hole : Bool) : BufferHead :=
  { BufferHead.new cur len with state := if hole then .clean else .missing }

/-- The part of a head that is written. -/
def takeHead (on : Onode) (epoch cur max : ℕ) (bh : BufferHead) (bc : BufferCache) :
    Option (List BufferHead × BufferHead × List BufferHead × BufferCache) :=
  (cutHead on epoch cur max bh bc).bind fun (pre, bh, post, bc) =>
    (tryCancelTx epoch bh bc).map fun (bh, bc) => (pre, bh, post, bc)

/-- The loop, from an iterator on: the heads in place of those from there on, and the hits. -/
def mapWriteLoop (on : Onode) (epoch : ℕ) : ℕ → ℕ → ℕ → List BufferHead → BufferCache →
    Option (List BufferHead × List (ℕ × BufferHead) × BufferCache)
  | 0, _, left, rest, bc => if left = 0 then some (rest, [], bc) else none
  | fuel + 1, cur, left, rest, bc =>
    if left = 0 then some (rest, [], bc)
    else (limitAt on cur left).bind fun (max, hole) =>
      match rest with
      | [] =>
        -- at end?
        let n := newHead cur max hole
        (mapWriteLoop on epoch fuel (cur + max) (left - max) [] (statAdd n bc)).map fun (heads, hits, bc) =>
          (n :: heads, (cur, n) :: hits, bc)
      | bh :: rest =>
        if bh.start ≤ cur then
          (takeHead on epoch cur max bh bc).bind fun (pre, bh, post, bc) =>
            let len := bh.fin - cur
            (mapWriteLoop on epoch fuel (cur + len) (left - len) (post ++ rest) bc).map fun (heads, hits, bc) =>
              (pre ++ bh :: heads, (cur, bh) :: hits, bc)
        else
          -- gap!
          let glen := min (bh.start - cur) max
          let n := newHead cur glen hole
          (mapWriteLoop on epoch fuel (cur + glen) (left - glen) (bh :: rest) (statAdd n bc)).map fun (heads, hits, bc) =>
            (n :: heads, (cur, n) :: hits, bc)

/-- `find_bh`: the heads before the iterator, and those from it on. -/
def findBh (start : ℕ) (heads : List BufferHead) : List BufferHead × List BufferHead :=
  let before := heads.filter fun bh => bh.start < start
  let rest := heads.filter fun bh => start ≤ bh.start
  match before.getLast? with
  | none => (before, rest)
  | some bh =>
    -- might overlap!
    if rest.head?.all (fun q => start < q.start) ∧ start < bh.fin then (before.dropLast, bh :: rest) else (before, rest)

/-- `map_write`: the heads of the object, and the hits. Each turn takes a block, at least. -/
def mapWrite (on : Onode) (start len epoch : ℕ) (heads : List BufferHead) (bc : BufferCache) :
    Option (List BufferHead × List (ℕ × BufferHead) × BufferCache) :=
  (mapWriteLoop on epoch len start len (findBh start heads).2 bc).map fun (heads', hits, bc) =>
    ((findBh start heads).1 ++ heads', hits, bc)

/-! ### What it should give -/

/-- The extents follow each other from block 0 to the last one, as `verify_extents` has it. -/
def Onode.Contiguous (on : Onode) : Prop := Tiled Prod.fst entryEnd 0 on.lastBlock on.extentMap

/-- The extent that has a block. -/
def Onode.extentOf (on : Onode) (b : ℕ) : Option (ℕ × ExtentCsum) :=
  on.extentMap.find? fun p => p.1 ≤ b ∧ b < entryEnd p

/-- All blocks are in one extent, or in none. -/
def Whole (on : Onode) (a b : ℕ) : Prop := ∀ x y, a ≤ x → x < b → a ≤ y → y < b → on.extentOf x = on.extentOf y

/-- Where a write cuts a head: at the ends of the range, and of the extents inside. -/
def IsCut (on : Onode) (start fin : ℕ) (bh : BufferHead) (c : ℕ) : Prop :=
  start < fin ∧ bh.start < c ∧ c < bh.fin ∧
    (c = start ∨ c = fin ∨ start < c ∧ c < fin ∧ ∃ p ∈ on.extentMap, p.1 = c)

/-- A head that was not there before. -/
def Fresh (bh : BufferHead) : Prop :=
  bh.data = [] ∧ bh.waitforRead = [] ∧ bh.frags = [] ∧ (bh.state = .missing ∨ bh.state = .clean)

/-- The pieces of a head have its blocks, data, waiters and version. -/
structure Pieces (a : BufferHead) (ps : List BufferHead) : Prop where
  tiled : Tiled BufferHead.start BufferHead.fin a.start a.fin ps
  data : ps.flatMap BufferHead.data = a.data
  waiters : ps.flatMap BufferHead.waitforRead = a.waitforRead
  frags : ps.flatMap BufferHead.frags = a.frags
  version : ∀ b ∈ ps, (b.version = a.version ∧ b.epochModified = a.epochModified ∧ b.lastFlushed = a.lastFlushed) ∧
    (b.state = a.state ∨ a.state = .rx ∧ b.state = .missing ∨ a.state = .tx ∧ b.state = .dirty)

/-- The hits partition the range, and none goes over the end of an extent; the heads stay apart and keep what
they have, with each waiter at its block; and they are counted. -/
structure Partitions (on : Onode) (start len : ℕ) (others : State → ℕ) (heads heads' : List BufferHead)
    (hits : List (ℕ × BufferHead)) (bc : BufferCache) : Prop where
  tiled : Tiled BufferHead.start BufferHead.fin start (start + len) (hits.map Prod.snd)
  keys : ∀ p ∈ hits, p.1 = p.2.start ∧ p.2 ∈ heads'
  whole : ∀ p ∈ hits, Whole on p.2.start p.2.fin
  inOrder : InOrder BufferHead.start BufferHead.fin heads'
  kept : ∀ a ∈ heads, ∃ ps, Pieces a ps ∧ ∀ b ∈ ps, b ∈ heads'
  made : ∀ b ∈ heads', Fresh b ∨ ∃ a ∈ heads, ∃ ps, Pieces a ps ∧ b ∈ ps
  inPlace : ∀ b ∈ heads', InPlace b
  counted : Counted others heads' bc

/-- What is true of heads from an iterator on. -/
structure Ready (rest : List BufferHead) (bc : BufferCache) : Prop where
  filled : ∀ bh ∈ rest, bh.Filled
  unflushed : ∀ bh ∈ rest, bh.state = .tx → 0 < bh.version ∧ bh.lastFlushed < bh.version
  known : ∀ bh ∈ rest, bh.rxIoh ≤ bc.lastIoh ∧ bh.txIoh ≤ bc.lastIoh
  distinct : rest.Pairwise fun a b => ∀ i, i ≠ 0 → (i = a.rxIoh ∨ i = a.txIoh) → i ≠ b.rxIoh ∧ i ≠ b.txIoh

/-- The heads of an object: in order, counted, with their waiters in place and handles of their own. -/
structure Tidy (others : State → ℕ) (heads : List BufferHead) (bc : BufferCache) : Prop extends Ready heads bc where
  inOrder : InOrder BufferHead.start BufferHead.fin heads
  sorted : ∀ bh ∈ heads, Keyed.Sorted Prod.fst bh.waitforRead
  inPlace : ∀ bh ∈ heads, InPlace bh
  counted : Counted others heads bc

/-- What the next head can have at most: no extent begins before `e`, and one begins there unless it is all. -/
structure Limit (on : Onode) (cur e fin : ℕ) : Prop where
  lt : cur < e
  le : e ≤ fin
  keys : ∀ q ∈ on.extentMap, cur < q.1 → e ≤ q.1
  stop : e = fin ∨ ∃ q ∈ on.extentMap, q.1 = e

/-- A head begins or ends at a block. -/
def EdgeAt (heads : List BufferHead) (x : ℕ) : Prop := ∃ bh ∈ heads, bh.start = x ∨ bh.fin = x

/-- The piece before the range, and what is behind each cut from there on, is in one extent. -/
def Resubmits (on : Onode) (start fin : ℕ) (bh : BufferHead) : Prop :=
  ∀ c, IsCut on start fin bh c → if c = start then Solid on bh.start c else Solid on c bh.fin

/-- If the mapping ends inside the range, then a head begins or ends there; at each cut of a head, if there are waiters
behind it, then the piece before has one; and a head whose I/O can be taken back can be submitted again in pieces. -/
structure Cuttable (on : Onode) (start len epoch : ℕ) (heads : List BufferHead) (queue : List ℕ) : Prop where
  ends : start < on.lastBlock → on.lastBlock < start + len → EdgeAt heads on.lastBlock
  attended : ∀ bh ∈ heads, Attended (IsCut on start (start + len) bh) bh
  resubmits : ∀ bh ∈ heads, Queued epoch queue bh → Resubmits on start (start + len) bh

/-! ### The extents -/

section extents

variable {on : Onode} {start len m n cur left b : ℕ} {l : List (ℕ × ExtentCsum)} {p : ℕ × ExtentCsum}

/-- Along extents that follow each other, the loop of `map_extents` does not fail. -/
theorem mapExtentsLoop_tiled (h : Tiled Prod.fst entryEnd start n l) :
    ∃ exv, mapExtentsLoop start len l = some exv ∧ (exv = [] ↔ l = [] ∨ len = 0) := by
  induction l generalizing start len with
  | nil => exact ⟨[], rfl, iff_of_true rfl (.inl rfl)⟩
  | cons q l ih =>
    obtain ⟨hq, hlt, hrest⟩ := h
    rw [mapExtentsLoop]
    by_cases hlen : len = 0
    · exact ⟨[], if_pos hlen, iff_of_true rfl (.inr hlen)⟩
    · have hne : ¬ (q :: l = [] ∨ len = 0) := by
        rintro (h | h)
        · cases h
        · exact hlen h
      rw [if_neg hlen, if_neg (not_not.mpr hq)]
      dsimp only
      rcases lt_or_ge len q.2.ex.length with hless | hless
      · -- the last one that is needed
        rw [min_eq_left hless.le, Nat.sub_self]
        refine ⟨[⟨q.2.ex.start, len⟩], ?_, iff_of_false (cons_ne_nil _ _) hne⟩
        cases l with
        | nil => rfl
        | cons r l => rw [mapExtentsLoop, if_pos rfl]; rfl
      · have hend : start + q.2.ex.length = entryEnd q := by rw [entryEnd, hq]
        obtain ⟨exv, hloop, -⟩ := @ih (start + q.2.ex.length) (len - q.2.ex.length) (hend ▸ hrest)
        rw [min_eq_right hless, hloop]
        exact ⟨_, rfl, iff_of_false (cons_ne_nil _ _) hne⟩

theorem filter_cut {α : Type} (key : α → ℕ) (k : ℕ) {l1 l2 : List α} (h1 : ∀ q ∈ l1, key q < k)
    (h2 : ∀ q ∈ l2, k ≤ key q) :
    (l1 ++ l2).filter (fun q => key q < k) = l1 ∧ (l1 ++ l2).filter (fun q => k ≤ key q) = l2 := by
  rw [filter_append, filter_append]
  have e1 : l1.filter (fun q => decide (key q < k)) = l1 := filter_eq_self.mpr fun q hq => decide_eq_true (h1 q hq)
  have e2 : l2.filter (fun q => decide (key q < k)) = [] :=
    filter_eq_nil_iff.mpr fun q hq => by simpa using h2 q hq
  have e3 : l1.filter (fun q => decide (k ≤ key q)) = [] :=
    filter_eq_nil_iff.mpr fun q hq => by simpa using h1 q hq
  have e4 : l2.filter (fun q => decide (k ≤ key q)) = l2 := filter_eq_self.mpr fun q hq => decide_eq_true (h2 q hq)
  rw [e1, e2, e3, e4, append_nil, nil_append]
  exact ⟨rfl, rfl⟩

section

variable (hext : on.Contiguous)
include hext

theorem mapExtents_behind (h : on.lastBlock ≤ cur) : mapExtents on cur left = some [] := by
  have hends : ∀ q ∈ on.extentMap, q.1 < cur ∧ entryEnd q ≤ cur := fun q hq => by
    have hw := hext.within q hq
    have hpos := hext.inOrder.pos q hq
    omega
  obtain ⟨hbefore, hrest⟩ := @filter_cut _ Prod.fst cur on.extentMap [] (fun q hq => (hends q hq).1) nofun
  rw [append_nil] at hbefore hrest
  rw [mapExtents]
  rw [hbefore, hrest]
  cases hlast : on.extentMap.getLast? with
  | none => rfl
  | some q =>
    dsimp only
    have hq := (hends q (mem_of_getLast? hlast)).2
    rw [if_neg]
    · rfl
    · unfold entryEnd at hq
      rintro ⟨-, h⟩
      omega

/-- In an extent, the first result ends with it, or is all; and there is another one only if the mapping goes on. -/
theorem mapExtents_inside (hp : p ∈ on.extentMap) (hlow : p.1 ≤ cur) (hhigh : cur < entryEnd p)
    (hleft : 0 < left) : ∃ ex exv, mapExtents on cur left = some (ex :: exv) ∧ ex.length = min left (entryEnd p - cur) ∧
      (exv = [] ↔ left ≤ entryEnd p - cur ∨ entryEnd p = on.lastBlock) := by
  obtain ⟨l1, l2, hmap⟩ := append_of_mem hp
  have hext' := hext
  rw [Onode.Contiguous, hmap, tiled_append] at hext'
  obtain ⟨k, h1, hk, hlt, h2⟩ := hext'
  obtain rfl : p.1 = k := hk
  have hlow1 : ∀ q ∈ l1, q.1 < p.1 := fun q hq => (h1.inOrder.pos q hq).trans_le (h1.within q hq).2
  have hhigh2 : ∀ q ∈ l2, entryEnd p ≤ q.1 := fun q hq => (h2.within q hq).1
  -- whether there are more extents
  have hmore : l2 = [] ↔ entryEnd p = on.lastBlock := by
    cases l2 with
    | nil => exact iff_of_true rfl h2
    | cons q l =>
      have hle := h2.2.2.le
      have hq := h2.2.1
      exact iff_of_false nofun (by omega)
  have hrest : ∀ {x : Extent}, x.length = min left (entryEnd p - cur) →
      ∃ exv, (mapExtentsLoop (cur + x.length) (left - x.length) l2).map (x :: ·) = some (x :: exv) ∧
        (exv = [] ↔ left ≤ entryEnd p - cur ∨ entryEnd p = on.lastBlock) := by
    intro x hx
    rcases lt_or_ge left (entryEnd p - cur) with hless | hless
    · rw [hx, min_eq_left hless.le, Nat.sub_self]
      refine ⟨[], ?_, iff_of_true rfl (.inl hless.le)⟩
      cases l2 with
      | nil => rfl
      | cons r l => rw [mapExtentsLoop, if_pos rfl]; rfl
    · rw [hx, min_eq_right hless, Nat.add_sub_cancel' hhigh.le]
      obtain ⟨exv, hloop, hnil⟩ := @mapExtentsLoop_tiled _ (left - (entryEnd p - cur)) _ _ h2
      rw [hloop]
      refine ⟨exv, rfl, hnil.trans ?_⟩
      rw [hmore, or_comm]
      exact or_congr_left (by omega)
  rcases lt_or_eq_of_le hlow with hbelow | heq
  · obtain ⟨hbefore, hafter⟩ := @filter_cut _ Prod.fst cur (l1 ++ [p]) l2
      (fun q hq => (mem_append.mp hq).elim (fun hq => (hlow1 q hq).trans hbelow) fun hq => by
        rw [mem_singleton.mp hq]
        exact hbelow) fun q hq => hhigh.le.trans (hhigh2 q hq)
    have hmap' : on.extentMap = (l1 ++ [p]) ++ l2 := by rw [hmap, List.append_assoc]; rfl
    have hall : l2.head?.all (fun q => cur < q.1) = true := by
      cases l2 with
      | nil => rfl
      | cons q l => exact decide_eq_true (hhigh.trans_le (hhigh2 q mem_cons_self))
    have hlen : p.2.ex.length - (cur - p.1) = entryEnd p - cur := by
      unfold entryEnd
      omega
    rw [mapExtents]
    rw [hmap', hbefore, hafter, getLast?_concat]
    dsimp only
    rw [if_pos ⟨hall, by unfold entryEnd at hhigh; omega⟩, hlen]
    obtain ⟨exv, hloop, hnil⟩ := @hrest
      ⟨if p.2.ex.start ≠ 0 then p.2.ex.start + (cur - p.1) else 0, min left (entryEnd p - cur)⟩ rfl
    exact ⟨_, exv, hloop, rfl, hnil⟩
  · obtain ⟨hbefore, hafter⟩ := @filter_cut _ Prod.fst cur l1 (p :: l2)
      (fun q hq => heq ▸ hlow1 q hq) fun q hq => by
        rcases mem_cons.mp hq with rfl | hq
        · exact heq.ge
        · exact hhigh.le.trans (hhigh2 q hq)
    have hloop : mapExtents on cur left = mapExtentsLoop cur left (p :: l2) := by
      rw [mapExtents]
      rw [hmap, hbefore, hafter]
      cases l1.getLast? with
      | none => rfl
      | some q =>
        dsimp only
        rw [if_neg]
        rintro ⟨h, -⟩
        exact absurd (of_decide_eq_true h) (by omega)
    have hlen : min left p.2.ex.length = min left (entryEnd p - cur) := by
      unfold entryEnd
      rw [heq, Nat.add_sub_cancel_left]
    rw [hloop, mapExtentsLoop, if_neg hleft.ne', if_neg (not_not.mpr heq)]
    rw [hlen]
    obtain ⟨exv, hloop', hnil⟩ := @hrest ⟨p.2.ex.start, min left (entryEnd p - cur)⟩ rfl
    exact ⟨_, exv, hloop', rfl, hnil⟩

theorem extent_at (h : cur < on.lastBlock) : ∃ p ∈ on.extentMap, p.1 ≤ cur ∧ cur < entryEnd p :=
  hext.covered_iff.mpr ⟨Nat.zero_le _, h⟩

theorem extent_behind {q : ℕ × ExtentCsum} (hp : p ∈ on.extentMap) (hlow : p.1 ≤ cur)
    (hq : q ∈ on.extentMap) (hcur : cur < q.1) : entryEnd p ≤ q.1 := by
  by_contra hlt
  have hpos := hext.inOrder.pos q hq
  have heq : p = q := hext.inOrder.unique hp hq ⟨hlow.trans hcur.le, not_le.mp hlt⟩ ⟨le_rfl, hpos⟩
  rw [heq] at hlow
  exact absurd hcur (not_lt.mpr hlow)

/-- **The limit** of the next head. -/
theorem limitAt_spec (hleft : 0 < left) :
    ∃ max hole, limitAt on cur left = some (max, hole) ∧ Limit on cur (cur + max) (cur + left) := by
  have hall : ∀ max, 0 < max → max ≤ left → (∀ q ∈ on.extentMap, cur < q.1 → cur + max ≤ q.1) →
      (max = left ∨ ∃ q ∈ on.extentMap, q.1 = cur + max) → Limit on cur (cur + max) (cur + left) :=
    fun max hpos hle hkeys hstop => ⟨Nat.lt_add_of_pos_right hpos, Nat.add_le_add_left hle cur, hkeys,
      hstop.imp_left (congrArg (cur + ·))⟩
  rcases lt_or_ge cur on.lastBlock with hin | hbehind
  · obtain ⟨p, hp, hlow, hhigh⟩ := extent_at hext hin
    obtain ⟨ex, exv, hmap, hlen, hnil⟩ := mapExtents_inside hext hp hlow hhigh hleft
    rw [limitAt, hmap]
    cases exv with
    | nil =>
      refine ⟨left, _, rfl, hall left hleft le_rfl (fun q hq hcur => ?_) (.inl rfl)⟩
      have hge := extent_behind hext hp hlow hq hcur
      have hq' := hext.within q hq
      have hpos := hext.inOrder.pos q hq
      rcases hnil.mp rfl with h | h
      · omega
      · omega
    | cons ex' exv =>
      have hmore : ¬ (left ≤ entryEnd p - cur ∨ entryEnd p = on.lastBlock) := fun h => nomatch hnil.mpr h
      have hend := (hext.within p hp).2
      obtain ⟨q, hq, hqlow, hqhigh⟩ := extent_at hext (show entryEnd p < on.lastBlock by omega)
      have hcur : cur < q.1 := by
        by_contra h
        have heq : p = q := hext.inOrder.unique hp hq ⟨hlow, hhigh⟩ ⟨not_lt.mp h, hhigh.trans hqhigh⟩
        rw [heq] at hqhigh
        exact lt_irrefl _ hqhigh
      have hkey : entryEnd p ≤ q.1 := extent_behind hext hp hlow hq hcur
      refine ⟨ex.length, _, rfl, hall _ (by omega) (by omega) (fun r hr hr' => ?_) (.inr ⟨q, hq, by omega⟩)⟩
      have hge := extent_behind hext hp hlow hr hr'
      omega
  · rw [limitAt, mapExtents_behind hext hbehind]
    refine ⟨left, _, rfl, hall left hleft le_rfl (fun q hq hcur => ?_) (.inl rfl)⟩
    have hpos := hext.inOrder.pos q hq
    have hend := (hext.within q hq).2
    omega

end

theorem extentOf_some (h : on.extentOf cur = some p) : p ∈ on.extentMap ∧ p.1 ≤ cur ∧ cur < entryEnd p := by
  have hin := find?_some h
  exact ⟨mem_of_find?_eq_some h, of_decide_eq_true hin⟩

theorem extentOf_eq (hext : on.Contiguous) (hp : p ∈ on.extentMap) (hlow : p.1 ≤ cur) (hhigh : cur < entryEnd p) :
    on.extentOf cur = some p := by
  obtain ⟨q, hq⟩ : ∃ q, on.extentOf cur = some q :=
    isSome_iff_exists.mp (find?_isSome.mpr ⟨p, hp, decide_eq_true ⟨hlow, hhigh⟩⟩)
  obtain ⟨hmem, hin⟩ := extentOf_some hq
  have heq : p = q := hext.inOrder.unique hp hmem ⟨hlow, hhigh⟩ hin
  rw [hq, heq]

theorem extentOf_eq_none (hext : on.Contiguous) (h : on.lastBlock ≤ cur) : on.extentOf cur = none := by
  refine eq_none_iff_forall_not_mem.mpr fun p hp => ?_
  obtain ⟨hmem, -, hlt⟩ := extentOf_some hp
  have hend := (hext.within p hmem).2
  omega

/-- **Where no extent begins, the blocks are in one or in none**, unless the mapping ends between them. -/
theorem whole_iff {a : ℕ} (hext : on.Contiguous) (hkeys : ∀ q ∈ on.extentMap, a < q.1 → b ≤ q.1) :
    Whole on a b ↔ ¬ (a < on.lastBlock ∧ on.lastBlock < b) := by
  constructor
  · rintro h ⟨ha, hb⟩
    obtain ⟨p, hp, hlow, hhigh⟩ := extent_at hext ha
    have heq := h a on.lastBlock le_rfl (ha.trans hb) ha.le hb
    rw [extentOf_eq hext hp hlow hhigh, extentOf_eq_none hext le_rfl] at heq
    nomatch heq
  · intro h x y hax hxb hay hyb
    by_cases ha : a < on.lastBlock
    · -- the extent of the first block has them all
      obtain ⟨p, hp, hlow, hhigh⟩ := extent_at hext ha
      have hend : b ≤ entryEnd p := by
        by_contra hlt
        obtain ⟨q, hq, hqlow, hqhigh⟩ := extent_at hext (show entryEnd p < on.lastBlock by omega)
        rcases lt_or_ge a q.1 with hbehind | hbefore
        · have hle := hkeys q hq hbehind
          omega
        · have heq : p = q := hext.inOrder.unique hp hq ⟨hlow, hhigh⟩ ⟨hbefore, hhigh.trans hqhigh⟩
          rw [heq] at hqhigh
          exact lt_irrefl _ hqhigh
      rw [extentOf_eq hext hp (hlow.trans hax) (hxb.trans_le hend),
        extentOf_eq hext hp (hlow.trans hay) (hyb.trans_le hend)]
    · rw [extentOf_eq_none hext (by omega), extentOf_eq_none hext (by omega)]

end extents

/-! ### Where a head is cut -/

section cuts

variable {on : Onode} {bh right : BufferHead} {cur b e fin c : ℕ}

theorem isCut_from (hle : cur ≤ b) (hstart : b ≤ bh.start) : IsCut on cur fin bh c ↔ IsCut on b fin bh c := by
  constructor
  · rintro ⟨hlt, hlow, hhigh, rfl | rfl | ⟨-, hfin, hkey⟩⟩
    · omega
    · exact ⟨by omega, hlow, hhigh, .inr (.inl rfl)⟩
    · exact ⟨by omega, hlow, hhigh, .inr (.inr ⟨by omega, hfin, hkey⟩)⟩
  · rintro ⟨hlt, hlow, hhigh, rfl | rfl | ⟨-, hfin, hkey⟩⟩
    · omega
    · exact ⟨by omega, hlow, hhigh, .inr (.inl rfl)⟩
    · exact ⟨by omega, hlow, hhigh, .inr (.inr ⟨by omega, hfin, hkey⟩)⟩

theorem resubmits_from (hle : cur ≤ b) (hstart : b ≤ bh.start) : Resubmits on cur fin bh ↔ Resubmits on b fin bh := by
  refine forall_congr' fun c => ?_
  rw [isCut_from hle hstart]
  refine imp_congr_right fun hcut => ?_
  have hlow := hcut.2.1
  rw [if_neg (by omega), if_neg (by omega)]

theorem not_isCut_of_fin_le (h : bh.fin ≤ cur) : ¬ IsCut on cur fin bh c := by
  rintro ⟨hlt, -, hhigh, rfl | rfl | ⟨hcur, -⟩⟩
  · omega
  · omega
  · omega

variable (hl : Limit on cur e fin)

include hl

theorem isCut_whole (h : bh.fin ≤ e) : IsCut on cur fin bh c ↔ (c = cur ∨ c = e) ∧ bh.start < c ∧ c < bh.fin := by
  have hfin := hl.le
  constructor
  · rintro ⟨-, hlow, hhigh, rfl | rfl | ⟨hcur, -, q, hq, rfl⟩⟩
    · exact ⟨.inl rfl, hlow, hhigh⟩
    · omega
    · have hle := hl.keys q hq hcur
      omega
  · rintro ⟨rfl | rfl, hlow, hhigh⟩
    · exact ⟨hl.lt.trans_le hl.le, hlow, hhigh, .inl rfl⟩
    · omega

theorem resubmits_whole (h : bh.fin ≤ e) (hcur : cur < bh.fin) : Resubmits on cur fin bh ↔ Reissues on cur e bh := by
  constructor
  · intro hall
    refine ⟨fun hstart => ?_, fun he => absurd he (not_lt.mpr h)⟩
    have := hall cur ((isCut_whole hl h).mpr ⟨.inl rfl, hstart, hcur⟩)
    rwa [if_pos rfl] at this
  · rintro hall c hc
    obtain ⟨rfl | rfl, hlow, hhigh⟩ := (isCut_whole hl h).mp hc
    · rw [if_pos rfl]
      exact hall.1 hlow
    · omega

theorem isCut_right (h : e < bh.fin) (hstart : bh.start ≤ cur) (hright : right.start = e ∧ right.fin = bh.fin) :
    IsCut on cur fin bh c ↔ ((c = cur ∨ c = e) ∧ bh.start < c ∧ c < bh.fin) ∨ IsCut on e fin right c := by
  have hlt := hl.lt
  constructor
  · rintro ⟨-, hlow, hhigh, rfl | rfl | ⟨hcur, hcf, q, hq, rfl⟩⟩
    · exact .inl ⟨.inl rfl, hlow, hhigh⟩
    · rcases lt_or_eq_of_le hl.le with hlt' | heq
      · exact .inr ⟨hlt', by omega, by omega, .inr (.inl rfl)⟩
      · exact .inl ⟨.inr heq.symm, hlow, hhigh⟩
    · rcases lt_or_eq_of_le (hl.keys q hq hcur) with hlt' | heq
      · exact .inr ⟨by omega, by omega, by omega, .inr (.inr ⟨hlt', hcf, q, hq, rfl⟩)⟩
      · exact .inl ⟨.inr heq.symm, hlow, hhigh⟩
  · rintro (⟨rfl | rfl, hlow, hhigh⟩ | ⟨hlt', hlow, hhigh, rfl | rfl | ⟨-, hcf, hkey⟩⟩)
    · exact ⟨hl.lt.trans_le hl.le, hlow, hhigh, .inl rfl⟩
    · refine ⟨hl.lt.trans_le hl.le, hlow, hhigh, .inr ?_⟩
      rcases lt_or_eq_of_le hl.le with hlt' | heq
      · exact .inr ⟨hl.lt, hlt', hl.stop.resolve_left hlt'.ne⟩
      · exact .inl heq
    · omega
    · exact ⟨by omega, by omega, by omega, .inr (.inl rfl)⟩
    · exact ⟨by omega, by omega, by omega, .inr (.inr ⟨by omega, hcf, hkey⟩)⟩

theorem resubmits_right (h : e < bh.fin) (hstart : bh.start ≤ cur) (hright : right.start = e ∧ right.fin = bh.fin) :
    Resubmits on cur fin bh ↔ Reissues on cur e bh ∧ Resubmits on e fin right := by
  have hcut : ∀ c, _ := fun c => @isCut_right on bh right cur e fin c hl h hstart hright
  constructor
  · intro hall
    refine ⟨⟨fun hs => ?_, fun _ => ?_⟩, fun c hc => ?_⟩
    · have := hall cur ((hcut cur).mpr (.inl ⟨.inl rfl, hs, hl.lt.trans h⟩))
      rwa [if_pos rfl] at this
    · have := hall e ((hcut e).mpr (.inl ⟨.inr rfl, hstart.trans_lt hl.lt, h⟩))
      rwa [if_neg hl.lt.ne'] at this
    · have hlow : e < c := hright.1 ▸ hc.2.1
      have := hall c ((hcut c).mpr (.inr hc))
      rw [if_neg (hl.lt.trans hlow).ne'] at this
      rwa [if_neg hlow.ne', hright.2]
  · rintro ⟨⟨hleft, hbehind⟩, hrest⟩ c hc
    rcases (hcut c).mp hc with ⟨rfl | rfl, hlow, hhigh⟩ | hc'
    · rw [if_pos rfl]
      exact hleft hlow
    · rw [if_neg hl.lt.ne']
      exact hbehind h
    · have hlow : e < c := hright.1 ▸ hc'.2.1
      have := hrest c hc'
      rw [if_neg hlow.ne', hright.2] at this
      rwa [if_neg (hl.lt.trans hlow).ne']

end cuts

/-! ### A turn of the loop -/

/-- The pieces of a head, if the range begins at `cur`. -/
def CutFrom (on : Onode) (cur fin : ℕ) (bh : BufferHead) (ps : List BufferHead) : Prop :=
  ∃ cs, Cut bh cs ps ∧ ∀ c, c ∈ cs ↔ IsCut on cur fin bh c

/-- The first pieces of a head; if there are more, these are those of one that is left. -/
def FirstPieces (on : Onode) (cur b fin : ℕ) (bh : BufferHead) (rest done : List BufferHead) : Prop :=
  CutFrom on cur fin bh done ∨ ∃ right ∈ rest, ∀ ps, CutFrom on b fin right ps → CutFrom on cur fin bh (done ++ ps)

/-- A turn from `cur` to `b` puts the heads `seg` in place of some of `rest`; one of them is the hit. -/
structure Turn (on : Onode) (cur b fin : ℕ) (rest seg : List BufferHead) (hit : BufferHead) (rest' : List BufferHead) :
    Prop where
  range : hit.start = cur ∧ hit.fin = b ∧ cur < b ∧ b ≤ fin
  mem : hit ∈ seg
  uncut : ∀ q ∈ on.extentMap, cur < q.1 → b ≤ q.1
  inOrder : InOrder BufferHead.start BufferHead.fin seg
  within : ∀ n ∈ seg, n.fin ≤ b
  low : ∀ m ≤ cur, (∀ h ∈ rest, m ≤ h.start) → ∀ n ∈ seg, m ≤ n.start
  apart : InOrder BufferHead.start BufferHead.fin rest'
  behind : ∀ h ∈ rest', b ≤ h.start
  kept : ∀ a ∈ rest, ∃ done, FirstPieces on cur b fin a rest' done ∧ ∀ n ∈ done, n ∈ seg
  made : ∀ n ∈ seg, Fresh n ∨ ∃ a ∈ rest, ∃ done, FirstPieces on cur b fin a rest' done ∧ n ∈ done
  goesOn : ∀ r ∈ rest', ∃ a ∈ rest, ∃ done, ∀ ps, CutFrom on b fin r ps → CutFrom on cur fin a (done ++ ps)
  stop : b = fin ∨ (∃ q ∈ on.extentMap, q.1 = b) ∨ EdgeAt rest b
  inside : ∀ x, cur < x → x < b → ¬ EdgeAt rest x
  edges : ∀ x, b < x → (EdgeAt rest' x ↔ EdgeAt rest x)

/-- What the loop gives, from `cur` on. -/
structure Walked (on : Onode) (others : State → ℕ) (cur fin : ℕ) (rest heads : List BufferHead)
    (hits : List (ℕ × BufferHead)) (bc : BufferCache) : Prop where
  tiled : Tiled BufferHead.start BufferHead.fin cur fin (hits.map Prod.snd)
  keys : ∀ p ∈ hits, p.1 = p.2.start ∧ p.2 ∈ heads
  uncut : ∀ p ∈ hits, ∀ q ∈ on.extentMap, p.2.start < q.1 → p.2.fin ≤ q.1
  ends : (∀ p ∈ hits, ¬ (p.2.start < on.lastBlock ∧ on.lastBlock < p.2.fin)) ↔
    (cur < on.lastBlock → on.lastBlock < fin → EdgeAt rest on.lastBlock)
  inOrder : InOrder BufferHead.start BufferHead.fin heads
  low : ∀ m ≤ cur, (∀ h ∈ rest, m ≤ h.start) → ∀ n ∈ heads, m ≤ n.start
  kept : ∀ a ∈ rest, ∃ ps, CutFrom on cur fin a ps ∧ ∀ n ∈ ps, n ∈ heads
  made : ∀ n ∈ heads, Fresh n ∨ ∃ a ∈ rest, ∃ ps, CutFrom on cur fin a ps ∧ n ∈ ps
  counted : Counted others heads bc

section turn

variable {on : Onode} {others : State → ℕ} {cur b fin left max : ℕ} {bh hit h n : BufferHead}
  {rest rest' seg heads tail : List BufferHead} {hits : List (ℕ × BufferHead)} {bc bc' : BufferCache}

theorem edgeAt_cons {x : ℕ} : EdgeAt (bh :: rest) x ↔ (bh.start = x ∨ bh.fin = x) ∨ EdgeAt rest x := by
  simp only [EdgeAt, mem_cons, or_and_right, exists_or, exists_eq_left]

theorem cutFrom_self (h : ∀ c, ¬ IsCut on cur fin bh c) : CutFrom on cur fin bh [bh] :=
  ⟨[], .whole (.refl bh), fun c => iff_of_false not_mem_nil (h c)⟩

theorem CutFrom.from {ps : List BufferHead} (hcut : CutFrom on b fin bh ps) (hle : cur ≤ b) (hstart : b ≤ bh.start) :
    CutFrom on cur fin bh ps := by
  obtain ⟨cs, hcs, hiff⟩ := hcut
  exact ⟨cs, hcs, fun c => (hiff c).trans (isCut_from hle hstart).symm⟩

theorem firstPieces_later (hle : cur ≤ b) (hmem : bh ∈ rest') (hstart : b ≤ bh.start) :
    FirstPieces on cur b fin bh rest' [] := .inr ⟨bh, hmem, fun _ hps => hps.from hle hstart⟩

theorem counted_front : Counted others (seg ++ heads) bc ↔ Counted (fun s => others s + total s seg) heads bc :=
  ⟨fun h => counted_append.mp (counted_perm h perm_append_comm),
    fun h => counted_perm (counted_append.mpr h) perm_append_comm⟩

variable {epoch : ℕ}

theorem queued_congr {queue queue' : List ℕ}
    (h : ∀ i, i = bh.rxIoh ∨ i = bh.txIoh → i ≠ 0 → (i ∈ queue' ↔ i ∈ queue)) :
    Queued epoch queue' bh ↔ Queued epoch queue bh :=
  or_congr (and_congr_right fun _ => and_congr_right fun hne => h _ (.inl rfl) hne)
    (and_congr_right fun _ => and_congr_right fun _ => and_congr_right fun hne => h _ (.inr rfl) hne)

theorem walked_nil (hin : InOrder BufferHead.start BufferHead.fin rest) (hc : Counted others rest bc) :
    Walked on others fin fin rest rest [] bc := by
  have hno : ∀ a c, ¬ IsCut on fin fin a c := fun a c hcut => lt_irrefl _ hcut.1
  exact {
    tiled := rfl
    keys := nofun
    uncut := nofun
    ends := iff_of_true nofun fun h h' => absurd (h.trans h') (lt_irrefl _)
    inOrder := hin
    low := fun _ _ h => h
    kept := fun a ha => ⟨[a], cutFrom_self (hno a), forall_mem_singleton.mpr ha⟩
    made := fun n hn => .inr ⟨n, hn, [n], cutFrom_self (hno n), mem_singleton_self n⟩
    counted := hc }

/-- **A turn comes before the rest.** -/
theorem Turn.walked (ht : Turn on cur b fin rest seg hit rest') (hlast : ∀ q ∈ on.extentMap, q.1 ≠ on.lastBlock)
    (hw : Walked on (fun s => others s + total s seg) b fin rest' heads hits bc) :
    Walked on others cur fin rest (seg ++ heads) ((cur, hit) :: hits) bc := by
  obtain ⟨hstart, hfin, hlt, hle⟩ := ht.range
  have hlow : ∀ n ∈ heads, b ≤ n.start := hw.low b le_rfl ht.behind
  exact {
    tiled := ⟨hstart, hfin ▸ hlt, by rw [hfin]; exact hw.tiled⟩
    keys := by
      refine forall_mem_cons.mpr ⟨⟨hstart.symm, mem_append_left _ ht.mem⟩, fun p hp => ?_⟩
      exact (hw.keys p hp).imp_right (mem_append_right seg)
    uncut := by
      refine forall_mem_cons.mpr ⟨?_, hw.uncut⟩
      rw [hstart, hfin]
      exact ht.uncut
    ends := by
      rw [forall_mem_cons, hw.ends, hstart, hfin]
      rcases lt_trichotomy on.lastBlock b with hbefore | heq | hbehind
      · rw [and_iff_left fun h => absurd h (not_lt.mpr hbefore.le)]
        constructor
        · exact fun h hcur => absurd ⟨hcur, hbefore⟩ h
        · rintro h ⟨hcur, -⟩
          exact ht.inside _ hcur hbefore (h hcur (hbefore.trans_le hle))
      · refine iff_of_true ⟨fun h => absurd h.2 (heq ▸ lt_irrefl _), fun h => absurd h (heq ▸ lt_irrefl _)⟩ fun _ hf => ?_
        rw [heq] at hf ⊢
        rcases ht.stop with h | ⟨q, hq, hkey⟩ | h
        · exact absurd hf (h ▸ lt_irrefl _)
        · exact absurd (hkey.trans heq.symm) (hlast q hq)
        · exact h
      · rw [and_iff_right fun h => absurd h.2 (not_lt.mpr hbehind.le), ht.edges _ hbehind]
        exact imp_congr_left (iff_of_true hbehind (hlt.trans hbehind))
    inOrder := inOrder_append.mpr ⟨ht.inOrder, hw.inOrder, fun a ha c hc => (ht.within a ha).trans (hlow c hc)⟩
    low := fun m hm h => forall_mem_append.mpr ⟨ht.low m hm h, fun n hn => hm.trans (hlt.le.trans (hlow n hn))⟩
    kept := fun a ha => by
      obtain ⟨done, hdone | ⟨right, hright, hcont⟩, hseg⟩ := ht.kept a ha
      · exact ⟨done, hdone, fun n hn => mem_append_left _ (hseg n hn)⟩
      · obtain ⟨ps, hps, hmem⟩ := hw.kept right hright
        exact ⟨done ++ ps, hcont ps hps, forall_mem_append.mpr
          ⟨fun n hn => mem_append_left _ (hseg n hn), fun n hn => mem_append_right _ (hmem n hn)⟩⟩
    made := by
      refine forall_mem_append.mpr ⟨fun n hn => ?_, fun n hn => ?_⟩
      · refine (ht.made n hn).imp_right ?_
        rintro ⟨a, ha, done, hdone | ⟨right, hright, hcont⟩, hmem⟩
        · exact ⟨a, ha, done, hdone, hmem⟩
        · obtain ⟨ps, hps, -⟩ := hw.kept right hright
          exact ⟨a, ha, done ++ ps, hcont ps hps, mem_append_left _ hmem⟩
      · refine (hw.made n hn).imp_right ?_
        rintro ⟨r, hr, ps, hps, hmem⟩
        obtain ⟨a, ha, done, hcont⟩ := ht.goesOn r hr
        exact ⟨a, ha, done ++ ps, hcont ps hps, mem_append_right _ hmem⟩
    counted := counted_front.mpr hw.counted }

variable {len : ℕ}

theorem newHead_fresh {hole : Bool} : Fresh (newHead cur len hole) := by
  refine ⟨rfl, rfl, rfl, ?_⟩
  cases hole with
  | false => exact .inl rfl
  | true => exact .inr rfl

/-- A new head up to a block from which the heads that are left begin. -/
theorem turn_new (hole : Bool) (hlen : 0 < len) (hfin : cur + len ≤ fin)
    (hkeys : ∀ q ∈ on.extentMap, cur < q.1 → cur + len ≤ q.1)
    (hstop : cur + len = fin ∨ (∃ q ∈ on.extentMap, q.1 = cur + len) ∨ EdgeAt rest (cur + len))
    (hin : InOrder BufferHead.start BufferHead.fin rest) (hbehind : ∀ h ∈ rest, cur + len ≤ h.start) :
    Turn on cur (cur + len) fin rest [newHead cur len hole] (newHead cur len hole) rest := by
  have hlt : cur < cur + len := Nat.lt_add_of_pos_right hlen
  exact {
    range := ⟨rfl, rfl, hlt, hfin⟩
    mem := mem_singleton_self _
    uncut := hkeys
    inOrder := inOrder_cons.mpr ⟨hlt, nofun, nofun, .nil⟩
    within := forall_mem_singleton.mpr le_rfl
    low := fun m hm _ => forall_mem_singleton.mpr hm
    apart := hin
    behind := hbehind
    kept := fun a ha => ⟨[], firstPieces_later hlt.le ha (hbehind a ha), nofun⟩
    made := forall_mem_singleton.mpr (.inl newHead_fresh)
    goesOn := fun r hr => ⟨r, hr, [], fun ps hps => hps.from hlt.le (hbehind r hr)⟩
    stop := hstop
    inside := by
      rintro x - hx ⟨h, hh, heq⟩
      have hstart := hbehind h hh
      have hpos := hin.pos h hh
      omega
    edges := fun _ _ => .rfl }

variable {pre post : List BufferHead}

variable {e : ℕ}

/-- **A turn that cuts a head.** -/
theorem CutAt.turn (hcut : CutAt epoch cur e bh bc pre hit post bc')
    (hl : Limit on cur e fin) (hin : InOrder BufferHead.start BufferHead.fin (bh :: tail))
    (hstart : bh.start ≤ cur) (hcur : cur < bh.fin) :
    Turn on cur hit.fin fin (bh :: tail) (pre ++ [hit]) hit (post ++ tail) := by
  obtain ⟨hpos, hafter, hin⟩ := inOrder_cons.mp hin
  obtain ⟨cs, hcs, hiff⟩ := hcut.cut
  obtain ⟨hs, hf⟩ := hcut.hit_range
  have hlt' : cur < hit.fin := hf ▸ lt_min hcur hl.lt
  have hle : hit.fin ≤ bh.fin ∧ hit.fin ≤ e := hf ▸ ⟨min_le_left _ _, min_le_right _ _⟩
  have htiled := hcs.tiled hpos
  have hassoc : pre ++ hit :: post = (pre ++ [hit]) ++ post := by rw [List.append_assoc]; rfl
  rw [hassoc, tiled_append] at htiled
  obtain ⟨k, hseg, hpost⟩ := htiled
  obtain ⟨k', hpre, hhit⟩ := tiled_append.mp hseg
  obtain rfl : hit.fin = k := hhit.2.2
  -- the head ends here, or the piece on the right goes on
  have hgoes : (post = [] ∧ hit.fin = bh.fin ∧ CutFrom on cur fin bh (pre ++ [hit])) ∨
      ∃ right, post = [right] ∧ (hit.fin = e ∧ right.start = e ∧ right.fin = bh.fin) ∧
        ∀ ps, CutFrom on hit.fin fin right ps → CutFrom on cur fin bh (pre ++ [hit] ++ ps) := by
    rcases hcut.post_eq with ⟨rfl, hend⟩ | ⟨right, rfl, hend, hrs, hrf, -⟩
    · exact .inl ⟨rfl, hf.trans (min_eq_left hend), cs, hcs, fun c =>
        (hiff c).trans (isCut_whole hl hend).symm⟩
    · have hb : hit.fin = e := hf.trans (min_eq_right hend.le)
      refine .inr ⟨right, rfl, ⟨hb, hrs, hrf⟩, fun ps ⟨cs', hcs', hiff'⟩ => ⟨cs ++ cs', ?_, fun c => ?_⟩⟩
      · rw [hassoc] at hcs
        exact hcs.append hcs'
      · rw [mem_append, hiff, hiff', hb]
        exact (isCut_right hl hend hstart ⟨hrs, hrf⟩).symm
  have hfirst : FirstPieces on cur hit.fin fin bh (post ++ tail) (pre ++ [hit]) := by
    rcases hgoes with ⟨-, -, hdone⟩ | ⟨right, rfl, -, hcont⟩
    · exact .inl hdone
    · exact .inr ⟨right, mem_cons_self, hcont⟩
  exact {
    range := ⟨hs, rfl, hlt', hle.2.trans hl.le⟩
    mem := mem_append_right _ (mem_singleton_self _)
    uncut := fun q hq hq' => hle.2.trans (hl.keys q hq hq')
    inOrder := hseg.inOrder
    within := fun n hn => (hseg.within n hn).2
    low := fun m _ h n hn => (h bh mem_cons_self).trans (hseg.within n hn).1
    apart := inOrder_append.mpr ⟨hpost.inOrder, hin, fun a ha c hc => (hpost.within a ha).2.trans (hafter c hc)⟩
    behind := forall_mem_append.mpr ⟨fun n hn => (hpost.within n hn).1, fun n hn => hle.1.trans (hafter n hn)⟩
    kept := by
      refine forall_mem_cons.mpr ⟨⟨pre ++ [hit], hfirst, fun n hn => hn⟩, fun a ha => ⟨[], ?_, nofun⟩⟩
      exact firstPieces_later hlt'.le (mem_append_right _ ha) (hle.1.trans (hafter a ha))
    made := fun n hn => .inr ⟨bh, mem_cons_self, pre ++ [hit], hfirst, hn⟩
    goesOn := by
      refine forall_mem_append.mpr ⟨fun r hr => ⟨bh, mem_cons_self, pre ++ [hit], ?_⟩, fun r hr => ?_⟩
      · rcases hgoes with ⟨rfl, -⟩ | ⟨right, rfl, -, hcont⟩
        · nomatch hr
        · exact mem_singleton.mp hr ▸ hcont
      · exact ⟨r, mem_cons_of_mem _ hr, [], fun ps hps => hps.from hlt'.le (hle.1.trans (hafter r hr))⟩
    stop := by
      rcases hgoes with ⟨-, hend, -⟩ | ⟨right, -, ⟨hb, -⟩, -⟩
      · exact .inr (.inr ⟨bh, mem_cons_self, .inr hend.symm⟩)
      · rw [hb]
        exact hl.stop.imp_right .inl
    inside := by
      rintro x hx hx' ⟨h, hh, heq⟩
      rcases mem_cons.mp hh with rfl | hh
      · omega
      · have hle' := hafter h hh
        have hpos' := hin.pos h hh
        omega
    edges := fun x hx => by
      rcases hgoes with ⟨rfl, hend, -⟩ | ⟨right, rfl, ⟨hb, hrs, hrf⟩, -⟩
      · rw [nil_append, edgeAt_cons]
        exact (or_iff_right (by omega)).symm
      · rw [cons_append, nil_append, edgeAt_cons, edgeAt_cons, hrf]
        exact or_congr_left (or_congr_left (iff_of_false (by omega) (by omega))) }

/-- **The part of a head that is written**: its write is taken back, too. -/
theorem takeHead_spec (hc : Counted others (bh :: tail) bc) (hf : bh.Filled) (hepoch : 0 < epoch)
    (hfresh : bh.state = .tx → 0 < bh.version ∧ bh.lastFlushed < bh.version) (hcur : cur < bh.fin)
    (hle : bh.start ≤ cur) (hmax : 0 < max) (hknown : bh.rxIoh ≤ bc.lastIoh ∧ bh.txIoh ≤ bc.lastIoh) :
    ((Queued epoch bc.queue bh → Reissues on cur (cur + max) bh) → ∃ pre hit post bc',
        takeHead on epoch cur max bh bc = some (pre, hit, post, bc') ∧ Counted others (pre ++ hit :: post ++ tail) bc' ∧
          CutAt epoch cur (cur + max) bh bc pre hit post bc') ∧
      (¬ (Queued epoch bc.queue bh → Reissues on cur (cur + max) bh) → takeHead on epoch cur max bh bc = none) := by
  obtain ⟨hok, hfail⟩ := @cutHead_spec on _ _ _ _ _ _ _ hc hf hepoch hfresh hcur hle hmax
  refine ⟨fun hre => ?_, fun hre => by rw [takeHead, hfail hre]; rfl⟩
  obtain ⟨pre, hit, post, bc1, hstep, hc1, hcut⟩ := hok hre
  have hfront : (pre ++ hit :: post ++ tail).Perm (hit :: (pre ++ (post ++ tail))) := by
    rw [List.append_assoc]
    exact perm_middle
  obtain ⟨hit', bc', hcancel, hc', hkept, hiohs, hlast, hqueue⟩ := tryCancelTx_spec (counted_perm hc1 hfront) hepoch
  refine ⟨pre, hit', post, bc', by rw [takeHead, hstep, bind_some]; dsimp only; rw [hcancel]; rfl, ?_, ?_⟩
  · refine counted_perm hc' ?_
    rw [List.append_assoc]
    exact perm_middle.symm
  obtain ⟨⟨hrx, htx⟩, hrx', htx'⟩ := And.intro hcut.hit_iohs hiohs
  -- the handles of the head are those of the part, or none
  have hother : ∀ i, i ≠ 0 → i ≠ bh.rxIoh → i ≠ bh.txIoh → (i ∈ bc'.queue ↔ i ∈ bc1.queue) := fun i hi hr hx => by
    refine hqueue i ?_ ?_
    · rcases hrx with h | h
      · rwa [h]
      · rwa [h]
    · rcases htx with h | h
      · rwa [h]
      · rwa [h]
  obtain ⟨cs, hcs, hiff⟩ := hcut.cut
  refine ⟨⟨cs, hcs.keep hkept, hiff⟩, ⟨hkept.start_eq.trans hcut.hit_range.1, hkept.fin_eq.trans hcut.hit_range.2⟩,
    ⟨?_, ?_⟩, ?_, hlast ▸ hcut.lastIoh, fun i hne hi hr hx => ?_⟩
  · rcases hrx' with h | h
    · rwa [h]
    · exact .inr h
  · rcases htx' with h | h
    · rwa [h]
    · exact .inr h
  · refine hcut.post_eq.imp_right ?_
    rintro ⟨right, hpost, hlt, hs, hfin, hqueued, hids⟩
    rw [hlast]
    refine ⟨right, hpost, hlt, hs, hfin, ?_, hids⟩
    rw [← hqueued]
    refine queued_congr fun i hi hne => ?_
    have hnew := (hids i hi).resolve_left hne
    exact hother i hne (by omega) (by omega)
  · rw [hother i hne hr hx]
    exact hcut.queue i hne hi hr hx

section

variable (hcut : CutAt epoch cur e bh bc pre hit post bc') (hr : Ready (bh :: tail) bc)
include hcut hr

/-- What is left of the heads can be cut as they could. -/
theorem CutAt.ready : Ready (post ++ tail) bc' := by
  obtain ⟨hdist, hdist'⟩ := pairwise_cons.mp hr.distinct
  obtain ⟨cs, hcs, -⟩ := hcut.cut
  have hpiece : ∀ n ∈ post, n ∈ pre ++ hit :: post := fun n hn => mem_append_right _ (mem_cons_of_mem _ hn)
  have hids : ∀ n ∈ post, ∀ i, i = n.rxIoh ∨ i = n.txIoh → i = 0 ∨ bc.lastIoh < i ∧ i ≤ bc'.lastIoh := fun n hn => by
    rcases hcut.post_eq with ⟨rfl, -⟩ | ⟨right, rfl, -, -, -, -, hids⟩
    · nomatch hn
    · rwa [mem_singleton.mp hn]
  refine ⟨?_, ?_, ?_, ?_⟩
  · refine forall_mem_append.mpr ⟨fun n hn => ?_, fun n hn => hr.filled n (mem_cons_of_mem _ hn)⟩
    exact hcs.filled (hr.filled bh mem_cons_self) n (hpiece n hn)
  · refine forall_mem_append.mpr ⟨fun n hn htx => ?_, fun n hn => hr.unflushed n (mem_cons_of_mem _ hn)⟩
    obtain ⟨⟨hversion, -, hflushed⟩, hstate⟩ := hcs.version n (hpiece n hn)
    rw [htx] at hstate
    rw [hversion, hflushed]
    refine hr.unflushed bh mem_cons_self ?_
    rcases hstate with h | ⟨-, h⟩ | ⟨-, h⟩
    · exact h.symm
    · nomatch h
    · nomatch h
  · refine forall_mem_append.mpr ⟨fun n hn => ⟨?_, ?_⟩, fun n hn => ?_⟩
    · have := hids n hn _ (.inl rfl)
      omega
    · have := hids n hn _ (.inr rfl)
      omega
    · have hknown := hr.known n (mem_cons_of_mem _ hn)
      exact ⟨hknown.1.trans hcut.lastIoh, hknown.2.trans hcut.lastIoh⟩
  · refine pairwise_append.mpr ⟨?_, hdist', fun n hn g hg i hne hi => ?_⟩
    · rcases hcut.post_eq with ⟨rfl, -⟩ | ⟨right, rfl, -⟩
      · exact .nil
      · exact pairwise_singleton _ _
    · have hnew := (hids n hn i hi).resolve_left hne
      have hknown := hr.known g (mem_cons_of_mem _ hg)
      omega

theorem CutAt.queued
    : ∀ g ∈ tail, (Queued epoch bc'.queue g ↔ Queued epoch bc.queue g) := fun g hg => by
  have hdist := (pairwise_cons.mp hr.distinct).1 g hg
  have hknown := hr.known g (mem_cons_of_mem _ hg)
  refine queued_congr fun i hi hne => hcut.queue i hne ?_ (fun h => ?_) fun h => ?_
  · rcases hi with rfl | rfl
    · exact hknown.1
    · exact hknown.2
  · have hother := hdist i hne (.inl h)
    exact hi.elim hother.1 hother.2
  · have hother := hdist i hne (.inr h)
    exact hi.elim hother.1 hother.2

/-- **What can be submitted again** is decided at each head in turn. -/
theorem CutAt.resubmits (hl : Limit on cur e fin)
    (hin : InOrder BufferHead.start BufferHead.fin (bh :: tail)) (hstart : bh.start ≤ cur) (hcur : cur < bh.fin)
    (hre : Queued epoch bc.queue bh → Reissues on cur e bh) :
    (∀ g ∈ post ++ tail, Queued epoch bc'.queue g → Resubmits on hit.fin fin g) ↔
      ∀ g ∈ bh :: tail, Queued epoch bc.queue g → Resubmits on cur fin g := by
  obtain ⟨-, hafter, -⟩ := inOrder_cons.mp hin
  have hle : hit.fin ≤ bh.fin ∧ hit.fin ≤ e ∧ cur ≤ hit.fin := by
    rw [hcut.hit_range.2]
    exact ⟨min_le_left _ _, min_le_right _ _, (lt_min hcur hl.lt).le⟩
  have htail : (∀ g ∈ tail, Queued epoch bc'.queue g → Resubmits on hit.fin fin g) ↔
      ∀ g ∈ tail, Queued epoch bc.queue g → Resubmits on cur fin g := by
    refine forall₂_congr fun g hg => ?_
    rw [hcut.queued hr g hg, resubmits_from hle.2.2 (hle.1.trans (hafter g hg))]
  rw [forall_mem_append, forall_mem_cons, htail]
  refine and_congr_left fun _ => ?_
  rcases hcut.post_eq with ⟨rfl, hend⟩ | ⟨right, rfl, hend, hrs, hrf, hqueued, -⟩
  · rw [resubmits_whole hl hend hcur]
    exact iff_of_true nofun hre
  · have hb : hit.fin = e := hcut.hit_range.2.trans (min_eq_right hend.le)
    rw [forall_mem_singleton, hqueued, hb, resubmits_right hl hend hstart ⟨hrs, hrf⟩]
    exact ⟨fun h hq => ⟨hre hq, h hq⟩, fun h hq => (h hq).2⟩

end

end turn

/-! ### The loop -/

/-- The loop comes to its end if what is taken back can be submitted again, and fails otherwise. -/
structure Walks (on : Onode) (epoch fuel cur fin : ℕ) (rest : List BufferHead) (others : State → ℕ)
    (bc : BufferCache) : Prop where
  ok : (∀ h ∈ rest, Queued epoch bc.queue h → Resubmits on cur fin h) → ∃ heads hits bc',
    mapWriteLoop on epoch fuel cur (fin - cur) rest bc = some (heads, hits, bc') ∧
      Walked on others cur fin rest heads hits bc'
  fails : ¬ (∀ h ∈ rest, Queued epoch bc.queue h → Resubmits on cur fin h) →
    mapWriteLoop on epoch fuel cur (fin - cur) rest bc = none

section loop

variable {on : Onode} {epoch fuel cur fin : ℕ} {rest : List BufferHead} {others : State → ℕ} {bc : BufferCache}

theorem mapWriteLoop_zero : mapWriteLoop on epoch fuel cur 0 rest bc = some (rest, [], bc) := by
  cases fuel with
  | zero => exact if_pos rfl
  | succ fuel => rw [mapWriteLoop.eq_def]; exact if_pos rfl

theorem walks_fin (hin : InOrder BufferHead.start BufferHead.fin rest) (hc : Counted others rest bc) :
    Walks on epoch fuel fin fin rest others bc := by
  refine ⟨fun _ => ⟨rest, [], bc, ?_, walked_nil hin hc⟩, fun h => absurd (fun _ _ _ _ hcut => ?_) h⟩
  · rw [Nat.sub_self]
    exact mapWriteLoop_zero
  · exact absurd hcut.1 (lt_irrefl _)

theorem walks_new {len : ℕ} {hole : Bool} (hstep : mapWriteLoop on epoch (fuel + 1) cur (fin - cur) rest bc =
      (mapWriteLoop on epoch fuel (cur + len) (fin - cur - len) rest (statAdd (newHead cur len hole) bc)).map
        fun (heads, hits, bc) => (newHead cur len hole :: heads, (cur, newHead cur len hole) :: hits, bc))
    (ht : Turn on cur (cur + len) fin rest [newHead cur len hole] (newHead cur len hole) rest)
    (hlast : ∀ q ∈ on.extentMap, q.1 ≠ on.lastBlock)
    (hw : Walks on epoch fuel (cur + len) fin rest (fun s => others s + total s [newHead cur len hole])
      (statAdd (newHead cur len hole) bc)) : Walks on epoch (fuel + 1) cur fin rest others bc := by
  have hiff : (∀ h ∈ rest, Queued epoch bc.queue h → Resubmits on cur fin h) ↔
      ∀ h ∈ rest, Queued epoch bc.queue h → Resubmits on (cur + len) fin h :=
    forall₂_congr fun h hh => imp_congr_right fun _ => resubmits_from (Nat.le_add_right cur len) (ht.behind h hh)
  rw [Nat.sub_sub] at hstep
  constructor
  · intro hall
    obtain ⟨heads, hits, bc', hrun, hwalked⟩ := hw.ok (hiff.mp hall)
    exact ⟨_, _, bc', by rw [hstep, hrun]; rfl, ht.walked hlast hwalked⟩
  · intro hall
    rw [hstep, hw.fails fun h => hall (hiff.mpr h)]
    rfl

section turns

variable {max : ℕ} {hole : Bool} {bh : BufferHead} {tail : List BufferHead}
  (ih : ∀ {cur : ℕ} {rest : List BufferHead} {others : State → ℕ} {bc : BufferCache}, fin - cur ≤ fuel → cur ≤ fin →
    InOrder BufferHead.start BufferHead.fin rest → (∀ h ∈ rest, cur < h.fin) → Ready rest bc → Counted others rest bc →
      Walks on epoch fuel cur fin rest others bc)
  (hlast : ∀ q ∈ on.extentMap, q.1 ≠ on.lastBlock) (hfuel : fin - cur ≤ fuel + 1)
  (hlimit : limitAt on cur (fin - cur) = some (max, hole)) (hl : Limit on cur (cur + max) fin)

include ih hlast hfuel hlimit hl

theorem walks_end (hc : Counted others [] bc) : Walks on epoch (fuel + 1) cur fin [] others bc := by
  have hin : InOrder BufferHead.start BufferHead.fin [] := ⟨nofun, .nil⟩
  have hlt := hl.lt
  have hfin := hl.le
  have hstep : mapWriteLoop on epoch (fuel + 1) cur (fin - cur) [] bc =
      (mapWriteLoop on epoch fuel (cur + max) (fin - cur - max) [] (statAdd (newHead cur max hole) bc)).map
        fun (heads, hits, bc) => (newHead cur max hole :: heads, (cur, newHead cur max hole) :: hits, bc) := by
    rw [mapWriteLoop, if_neg (by omega), hlimit]
    rfl
  refine walks_new hstep (turn_new hole (by omega) hfin hl.keys (hl.stop.imp_right .inl) hin nofun) hlast ?_
  exact ih (by omega) hfin hin nofun ⟨nofun, nofun, nofun, .nil⟩ (counted_front.mp (statAdd_counted hc))

/-- Gap! -/
theorem walks_gap (hin : InOrder BufferHead.start BufferHead.fin (bh :: tail)) (hgap : cur < bh.start)
    (hr : Ready (bh :: tail) bc) (hc : Counted others (bh :: tail) bc) :
    Walks on epoch (fuel + 1) cur fin (bh :: tail) others bc := by
  have hlt := hl.lt
  have hfin := hl.le
  obtain ⟨glen, hglen⟩ : ∃ glen, glen = min (bh.start - cur) max := ⟨_, rfl⟩
  have hstep : mapWriteLoop on epoch (fuel + 1) cur (fin - cur) (bh :: tail) bc =
      (mapWriteLoop on epoch fuel (cur + glen) (fin - cur - glen) (bh :: tail) (statAdd (newHead cur glen hole) bc)).map
        fun (heads, hits, bc) => (newHead cur glen hole :: heads, (cur, newHead cur glen hole) :: hits, bc) := by
    rw [mapWriteLoop, if_neg (by omega), hlimit, bind_some]
    dsimp only
    rw [if_neg (not_le.mpr hgap), hglen]
  have hle : cur + glen ≤ bh.start ∧ glen ≤ max ∧ 0 < glen := by omega
  have hstart : ∀ h ∈ bh :: tail, cur + glen ≤ h.start := by
    obtain ⟨hpos, hafter, -⟩ := inOrder_cons.mp hin
    exact forall_mem_cons.mpr ⟨hle.1, fun h hh => hle.1.trans (hpos.le.trans (hafter h hh))⟩
  have hedge : cur + glen = fin ∨ (∃ q ∈ on.extentMap, q.1 = cur + glen) ∨ EdgeAt (bh :: tail) (cur + glen) := by
    rcases le_total (bh.start - cur) max with hmin | hmin
    · rw [hglen, min_eq_left hmin, Nat.add_sub_cancel' hgap.le]
      exact .inr (.inr ⟨bh, mem_cons_self, .inl rfl⟩)
    · rw [hglen, min_eq_right hmin]
      exact hl.stop.imp_right .inl
  have ht : Turn on cur (cur + glen) fin (bh :: tail) [newHead cur glen hole] (newHead cur glen hole) (bh :: tail) :=
    turn_new hole hle.2.2 (by omega) (fun q hq hq' => (Nat.add_le_add_left hle.2.1 cur).trans (hl.keys q hq hq')) hedge
      hin hstart
  refine walks_new hstep ht hlast (ih (by omega) (by omega) hin (fun h hh => (hstart h hh).trans_lt (hin.pos h hh)) ?_ ?_)
  · exact ⟨hr.filled, hr.unflushed, hr.known, hr.distinct⟩
  · exact counted_front.mp (statAdd_counted hc)

/-- A head that has the block. -/
theorem walks_head (hepoch : 0 < epoch) (hin : InOrder BufferHead.start BufferHead.fin (bh :: tail))
    (hle : bh.start ≤ cur) (hcur : cur < bh.fin) (hr : Ready (bh :: tail) bc) (hc : Counted others (bh :: tail) bc) :
    Walks on epoch (fuel + 1) cur fin (bh :: tail) others bc := by
  have hlt := hl.lt
  have hfin := hl.le
  obtain ⟨hok, hfail⟩ := @takeHead_spec on others cur max bh tail bc epoch hc (hr.filled bh mem_cons_self) hepoch
    (hr.unflushed bh mem_cons_self) hcur hle (by omega) (hr.known bh mem_cons_self)
  have hstep : mapWriteLoop on epoch (fuel + 1) cur (fin - cur) (bh :: tail) bc =
      (takeHead on epoch cur max bh bc).bind fun (pre, bh, post, bc) =>
        (mapWriteLoop on epoch fuel (cur + (bh.fin - cur)) (fin - cur - (bh.fin - cur)) (post ++ tail) bc).map
          fun (heads, hits, bc) => (pre ++ bh :: heads, (cur, bh) :: hits, bc) := by
    rw [mapWriteLoop, if_neg (by omega), hlimit, bind_some]
    dsimp only
    rw [if_pos hle]
  by_cases hre : Queued epoch bc.queue bh → Reissues on cur (cur + max) bh
  · obtain ⟨pre, hit, post, bc1, htake, hc1, hcut⟩ := hok hre
    have ht := hcut.turn hl hin hle hcur
    have hiff := hcut.resubmits hr hl hin hle hcur hre
    have hhit : cur < hit.fin := ht.range.2.2.1
    have hrun : mapWriteLoop on epoch (fuel + 1) cur (fin - cur) (bh :: tail) bc =
        (mapWriteLoop on epoch fuel hit.fin (fin - hit.fin) (post ++ tail) bc1).map fun (heads, hits, bc) =>
          (pre ++ hit :: heads, (cur, hit) :: hits, bc) := by
      rw [hstep, htake, bind_some]
      dsimp only
      rw [Nat.sub_sub, Nat.add_sub_cancel' hhit.le]
    have hc2 : Counted others ((pre ++ [hit]) ++ (post ++ tail)) bc1 := by
      rwa [append_cons, List.append_assoc] at hc1
    have hw : Walks on epoch fuel hit.fin fin (post ++ tail) (fun s => others s + total s (pre ++ [hit])) bc1 :=
      ih (by omega) ht.range.2.2.2 ht.apart (fun h hh => (ht.behind h hh).trans_lt (ht.apart.pos h hh)) (hcut.ready hr)
        (counted_front.mp hc2)
    constructor
    · intro hall
      obtain ⟨heads, hits, bc', hnext, hwalked⟩ := hw.ok (hiff.mpr hall)
      refine ⟨pre ++ hit :: heads, _, bc', by rw [hrun, hnext]; rfl, ?_⟩
      rw [append_cons]
      exact ht.walked hlast hwalked
    · intro hall
      rw [hrun, hw.fails fun h => hall (hiff.mp h)]
      rfl
  · -- it fails here
    have hno : ¬ ∀ h ∈ bh :: tail, Queued epoch bc.queue h → Resubmits on cur fin h := fun hall => by
      refine hre fun hq => ?_
      have hbh := hall bh mem_cons_self hq
      rcases lt_or_ge (cur + max) bh.fin with hend | hend
      · have hright : (bh.rightOf (cur + max)).start = cur + max ∧ (bh.rightOf (cur + max)).fin = bh.fin :=
          ⟨rfl, rightOf_fin (hle.trans hlt.le) hend.le⟩
        exact ((resubmits_right hl hend hle hright).mp hbh).1
      · exact (resubmits_whole hl hend hcur).mp hbh
    refine ⟨fun hall => absurd hall hno, fun _ => ?_⟩
    rw [hstep, hfail hre]
    rfl

end turns

/-- **The loop**, by the blocks that are left. -/
theorem mapWriteLoop_spec (hext : on.Contiguous) (hepoch : 0 < epoch) (hfuel : fin - cur ≤ fuel) (hcur : cur ≤ fin)
    (hin : InOrder BufferHead.start BufferHead.fin rest) (hbehind : ∀ h ∈ rest, cur < h.fin) (hr : Ready rest bc)
    (hc : Counted others rest bc) : Walks on epoch fuel cur fin rest others bc := by
  have hlast : ∀ q ∈ on.extentMap, q.1 ≠ on.lastBlock := fun q hq => by
    have hend := (hext.within q hq).2
    have hpos := hext.inOrder.pos q hq
    omega
  induction fuel generalizing cur rest others bc with
  | zero =>
    obtain rfl : cur = fin := by omega
    exact walks_fin hin hc
  | succ fuel ih =>
    rcases eq_or_lt_of_le hcur with rfl | hlt
    · exact walks_fin hin hc
    have hleft : 0 < fin - cur := Nat.sub_pos_of_lt hlt
    obtain ⟨max, hole, hlimit, hl⟩ := @limitAt_spec on cur (fin - cur) hext hleft
    rw [Nat.add_sub_cancel' hcur] at hl
    cases rest with
    | nil => exact walks_end ih hlast hfuel hlimit hl hc
    | cons bh tail =>
      rcases lt_or_ge cur bh.start with hgap | hle
      · exact walks_gap ih hlast hfuel hlimit hl hin hgap hr hc
      · exact walks_head ih hlast hfuel hlimit hl hepoch hin hle (hbehind bh mem_cons_self) hr hc

end loop

/-! ### The heads of the object -/

section heads

variable {on : Onode} {start len epoch : ℕ} {heads : List BufferHead} {others : State → ℕ} {bc : BufferCache}

/-- **The iterator**: the heads before it end before the range, and the others do not. -/
theorem findBh_spec (hin : InOrder BufferHead.start BufferHead.fin heads) :
    (findBh start heads).1 ++ (findBh start heads).2 = heads ∧ (∀ h ∈ (findBh start heads).1, h.fin ≤ start) ∧
      ∀ h ∈ (findBh start heads).2, start < h.fin := by
  have hsorted : Keyed.Sorted BufferHead.start heads :=
    hin.apart.imp_of_mem fun ha _ h => (hin.pos _ ha).trans_le h
  obtain ⟨before, rest, rfl, hlow, hhigh⟩ := Keyed.exists_lower_cut hsorted start
  obtain ⟨hbefore, hafter⟩ := filter_cut BufferHead.start start hlow hhigh
  have hrest : ∀ h ∈ rest, start < h.fin := fun h hh => (hhigh h hh).trans_lt (hin.pos h (mem_append_right _ hh))
  rw [findBh]
  rw [hbefore, hafter]
  rcases eq_nil_or_concat before with rfl | ⟨before, bh, rfl⟩
  · exact ⟨rfl, nofun, hrest⟩
  rw [concat_eq_append] at hin ⊢
  rw [getLast?_concat, dropLast_concat]
  obtain ⟨hin1, -, hcross⟩ := inOrder_append.mp hin
  obtain ⟨-, -, hcross1⟩ := inOrder_append.mp hin1
  have hbh : bh.start < start := hlow bh (by simp)
  by_cases hover : start < bh.fin
  · -- might overlap!
    have hall : rest.head?.all (fun q => start < q.start) = true := by
      cases rest with
      | nil => rfl
      | cons q rest =>
        exact decide_eq_true (hover.trans_le (hcross bh (mem_append_right _ (mem_singleton_self _)) q
          mem_cons_self))
    dsimp only
    rw [if_pos ⟨hall, hover⟩]
    refine ⟨(append_cons before bh rest), fun h hh => ?_, forall_mem_cons.mpr ⟨hover, hrest⟩⟩
    exact (hcross1 h hh bh (mem_singleton_self _)).trans hbh.le
  · dsimp only
    rw [if_neg fun h => hover h.2]
    refine ⟨rfl, forall_mem_append.mpr ⟨fun h hh => ?_, forall_mem_singleton.mpr (not_lt.mp hover)⟩, hrest⟩
    exact (hcross1 h hh bh (mem_singleton_self _)).trans hbh.le

variable {fin : ℕ} {a : BufferHead} {ps : List BufferHead}

theorem CutFrom.pieces (h : CutFrom on start fin a ps)
    (hpos : a.start < a.fin) (hf : a.Filled) : Pieces a ps := by
  obtain ⟨cs, hcs, -⟩ := h
  exact ⟨hcs.tiled hpos, hcs.data hf, hcs.waiters, hcs.frags, hcs.version⟩

theorem CutFrom.inPlace_iff (h : CutFrom on start fin a ps)
    (hs : Keyed.Sorted Prod.fst a.waitforRead) (hin : InPlace a) :
    (∀ b ∈ ps, InPlace b) ↔ Attended (IsCut on start fin a) a := by
  obtain ⟨cs, hcs, hiff⟩ := h
  rw [hcs.inPlace_iff hs hin, show (· ∈ cs) = IsCut on start fin a from funext fun c => propext (hiff c)]

variable {hits : List (ℕ × BufferHead)}

/-- The heads before the iterator stay. -/
theorem Walked.of_rest {before rest heads' : List BufferHead}
    (hin : InOrder BufferHead.start BufferHead.fin (before ++ rest)) (hbefore : ∀ h ∈ before, h.fin ≤ start)
    (hw : Walked on (fun s => others s + total s before) start fin rest heads' hits bc) :
    Walked on others start fin (before ++ rest) (before ++ heads') hits bc := by
  obtain ⟨hin1, -, hcross⟩ := inOrder_append.mp hin
  exact {
    tiled := hw.tiled
    keys := fun p hp => (hw.keys p hp).imp_right (mem_append_right before)
    uncut := hw.uncut
    ends := by
      rw [hw.ends]
      refine imp_congr_right fun hlt => imp_congr_right fun _ => ⟨fun ⟨h, hh, hx⟩ => ⟨h, mem_append_right _ hh, hx⟩, ?_⟩
      rintro ⟨h, hh, hx⟩
      refine ⟨h, (mem_append.mp hh).resolve_left fun hh => ?_, hx⟩
      have hfin := hbefore h hh
      have hpos := hin1.pos h hh
      omega
    inOrder := by
      refine inOrder_append.mpr ⟨hin1, hw.inOrder, fun a ha c hc => ?_⟩
      exact hw.low a.fin (hbefore a ha) (hcross a ha) c hc
    low := fun m hm h => by
      obtain ⟨h1, h2⟩ := forall_mem_append.mp h
      exact forall_mem_append.mpr ⟨h1, hw.low m hm h2⟩
    kept := by
      refine forall_mem_append.mpr ⟨fun a ha => ⟨[a], cutFrom_self fun c => not_isCut_of_fin_le (hbefore a ha), ?_⟩,
        fun a ha => ?_⟩
      · exact forall_mem_singleton.mpr (mem_append_left _ ha)
      · obtain ⟨ps, hps, hmem⟩ := hw.kept a ha
        exact ⟨ps, hps, fun n hn => mem_append_right _ (hmem n hn)⟩
    made := by
      refine forall_mem_append.mpr ⟨fun n hn => .inr ⟨n, mem_append_left _ hn, [n], ?_, mem_singleton_self n⟩,
        fun n hn => ?_⟩
      · exact cutFrom_self fun c => not_isCut_of_fin_le (hbefore n hn)
      · refine (hw.made n hn).imp_right ?_
        rintro ⟨a, ha, ps, hps, hmem⟩
        exact ⟨a, mem_append_right _ ha, ps, hps, hmem⟩
    counted := counted_front.mpr hw.counted }

/-- **The whole of it.** -/
theorem mapWrite_spec (hext : on.Contiguous) (ht : Tidy others heads bc) (hepoch : 0 < epoch) :
    ((∀ h ∈ heads, Queued epoch bc.queue h → Resubmits on start (start + len) h) → ∃ heads' hits bc',
        mapWrite on start len epoch heads bc = some (heads', hits, bc') ∧
          Walked on others start (start + len) heads heads' hits bc') ∧
      (¬ (∀ h ∈ heads, Queued epoch bc.queue h → Resubmits on start (start + len) h) →
        mapWrite on start len epoch heads bc = none) := by
  obtain ⟨hheads, hbefore, hrest⟩ := @findBh_spec start heads ht.inOrder
  obtain ⟨before, hb⟩ : ∃ before, before = (findBh start heads).1 := ⟨_, rfl⟩
  obtain ⟨rest, hr⟩ : ∃ rest, rest = (findBh start heads).2 := ⟨_, rfl⟩
  rw [mapWrite, ← hb, ← hr]
  rw [← hb, ← hr] at hheads
  rw [← hb] at hbefore
  rw [← hr] at hrest
  subst hheads
  obtain ⟨-, hin, -⟩ := inOrder_append.mp ht.inOrder
  have hready : Ready rest bc :=
    ⟨fun h hh => ht.filled h (mem_append_right _ hh), fun h hh => ht.unflushed h (mem_append_right _ hh),
      fun h hh => ht.known h (mem_append_right _ hh), (pairwise_append.mp ht.distinct).2.1⟩
  have hwalks := @mapWriteLoop_spec on epoch len start (start + len) rest _ bc hext hepoch (by omega)
    (Nat.le_add_right start len) hin hrest hready (counted_front.mp ht.counted)
  have hleft : start + len - start = len := Nat.add_sub_cancel_left start len
  have hcond : (∀ h ∈ before ++ rest, Queued epoch bc.queue h → Resubmits on start (start + len) h) ↔
      ∀ h ∈ rest, Queued epoch bc.queue h → Resubmits on start (start + len) h := by
    rw [forall_mem_append]
    exact and_iff_right fun h hh _ c hc => absurd hc (not_isCut_of_fin_le (hbefore h hh))
  rw [hcond]
  constructor
  · intro hall
    obtain ⟨heads', hits, bc', hrun, hw⟩ := hwalks.ok hall
    rw [hleft] at hrun
    exact ⟨before ++ heads', hits, bc', by rw [hrun]; rfl, hw.of_rest ht.inOrder hbefore⟩
  · intro hall
    have hrun := hwalks.fails hall
    rw [hleft] at hrun
    rw [hrun]
    rfl

/-- What the loop gives is a partition if the mapping does not end in a hit, and each cut is attended. -/
theorem Walked.partitions_iff {heads' : List BufferHead} {bc' : BufferCache}
    (hw : Walked on others start (start + len) heads heads' hits bc') (hext : on.Contiguous) (ht : Tidy others heads bc) :
    Partitions on start len others heads heads' hits bc' ↔
      (start < on.lastBlock → on.lastBlock < start + len → EdgeAt heads on.lastBlock) ∧
        ∀ bh ∈ heads, Attended (IsCut on start (start + len) bh) bh := by
  have hpieces : ∀ a ∈ heads, ∀ ps, CutFrom on start (start + len) a ps → Pieces a ps := fun a ha ps hps =>
    hps.pieces (ht.inOrder.pos a ha) (ht.filled a ha)
  rw [← hw.ends]
  constructor
  · intro hp
    refine ⟨fun p hmem => (whole_iff hext (hw.uncut p hmem)).mp (hp.whole p hmem), fun a ha => ?_⟩
    obtain ⟨ps, hps, hsub⟩ := hw.kept a ha
    exact (hps.inPlace_iff (ht.sorted a ha) (ht.inPlace a ha)).mp fun b hb => hp.inPlace b (hsub b hb)
  · rintro ⟨hends, hatt⟩
    exact {
      tiled := hw.tiled
      keys := hw.keys
      whole := fun p hmem => (whole_iff hext (hw.uncut p hmem)).mpr (hends p hmem)
      inOrder := hw.inOrder
      kept := fun a ha => by
        obtain ⟨ps, hps, hsub⟩ := hw.kept a ha
        exact ⟨ps, hpieces a ha ps hps, hsub⟩
      made := fun b hb => (hw.made b hb).imp_right fun ⟨a, ha, ps, hps, hmem⟩ => ⟨a, ha, ps, hpieces a ha ps hps, hmem⟩
      inPlace := fun b hb => by
        rcases hw.made b hb with ⟨-, hnone, -⟩ | ⟨a, ha, ps, hps, hmem⟩
        · intro w hmem
          rw [hnone] at hmem
          nomatch hmem
        · exact (hps.inPlace_iff (ht.sorted a ha) (ht.inPlace a ha)).mpr (hatt a ha) b hmem
      counted := hw.counted }

/-- **A write is mapped** exactly if the heads can be cut: to hits that partition its range, each in one extent, while
the heads stay apart with all that they have. -/
theorem map_write_partitions (hext : on.Contiguous) (ht : Tidy others heads bc) (hepoch : 0 < epoch) :
    (∃ heads' hits bc', mapWrite on start len epoch heads bc = some (heads', hits, bc') ∧
      Partitions on start len others heads heads' hits bc') ↔ Cuttable on start len epoch heads bc.queue := by
  obtain ⟨hok, hfails⟩ := @mapWrite_spec on start len epoch heads others bc hext ht hepoch
  constructor
  · rintro ⟨heads', hits, bc', hrun, hp⟩
    have hall : ∀ h ∈ heads, Queued epoch bc.queue h → Resubmits on start (start + len) h := by
      by_contra hno
      nomatch hrun.symm.trans (hfails hno)
    obtain ⟨heads'', hits', bc'', hrun', hw⟩ := hok hall
    obtain ⟨rfl, rfl, rfl⟩ : heads' = heads'' ∧ hits = hits' ∧ bc' = bc'' := by
      simpa using hrun.symm.trans hrun'
    obtain ⟨hends, hatt⟩ := (hw.partitions_iff hext ht).mp hp
    exact ⟨hends, hatt, hall⟩
  · rintro ⟨hends, hatt, hall⟩
    obtain ⟨heads', hits, bc', hrun, hw⟩ := hok hall
    exact ⟨heads', hits, bc', hrun, (hw.partitions_iff hext ht).mpr ⟨hends, hatt⟩⟩

end heads

/-! ### A read of two blocks, with a write of the second -/

def rxOnode : Onode := ⟨2 * blockSize, 2, 0, [(0, ⟨⟨10, 2⟩, [0, 0]⟩)], IntervalSet.empty, IntervalSet.empty, false⟩

def rxHead (waiters : List (ℕ × List ℕ)) : BufferHead :=
  { BufferHead.new 0 2 with state := .rx, rxIoh := 1, rxFrom := ⟨10, 2⟩, waitforRead := waiters }

def rxCache : BufferCache := ⟨fun s => if s = .rx then 2 else 0, 0, fun _ => 0, [1], 1⟩

theorem rxOnode_contiguous : rxOnode.Contiguous := ⟨rfl, by decide, rfl⟩

theorem rxHead_tidy {ws : List (ℕ × List ℕ)} (hs : Keyed.Sorted Prod.fst ws) (hin : InPlace (rxHead ws)) :
    Tidy (fun _ => 0) [rxHead ws] rxCache := by
  have hpos : (rxHead ws).start < (rxHead ws).fin := zero_lt_two
  exact {
    filled := forall_mem_singleton.mpr (.inl rfl)
    unflushed := forall_mem_singleton.mpr nofun
    known := forall_mem_singleton.mpr ⟨le_rfl, Nat.zero_le _⟩
    distinct := pairwise_singleton _ _
    inOrder := inOrder_cons.mpr ⟨hpos, nofun, nofun, .nil⟩
    sorted := forall_mem_singleton.mpr hs
    inPlace := forall_mem_singleton.mpr hin
    counted := fun s => by cases s <;> rfl }

/-- With a waiter for each block, the first block is read again. -/
theorem map_write_partitions_rx : ∃ heads' hits bc',
    mapWrite rxOnode 1 1 1 [rxHead [(0, [7]), (1, [8])]] rxCache = some (heads', hits, bc') ∧
      Partitions rxOnode 1 1 (fun _ => 0) [rxHead [(0, [7]), (1, [8])]] heads' hits bc' := by
  have hs : Keyed.Sorted Prod.fst [(0, [7]), (1, [8])] := by decide
  have hin : InPlace (rxHead [(0, [7]), (1, [8])]) := by decide
  refine (map_write_partitions rxOnode_contiguous (rxHead_tidy hs hin) one_pos).mpr ⟨?_, ?_, ?_⟩
  · exact fun _ h => absurd h (by decide)
  · refine forall_mem_singleton.mpr fun c hc _ => ⟨(0, [7]), mem_cons_self, (Nat.zero_le _).trans_lt hc.2.1, ?_⟩
    rintro c' ⟨-, hlow, hhigh, -⟩ hlt
    have hc' := hc.2.2.1
    change c < 2 at hc'
    omega
  · refine forall_mem_singleton.mpr fun _ c hc => ?_
    obtain rfl : c = 1 := by
      have hlow := hc.2.1
      have hhigh := hc.2.2.1
      change c < 2 at hhigh
      omega
    exact ⟨⟨10, 1⟩, rfl, by decide⟩

/-- A waiter for the second block only stays at the first. -/
theorem map_write_strands_waiter : rxOnode.Contiguous ∧ Tidy (fun _ => 0) [rxHead [(1, [8])]] rxCache ∧
    ¬ ∃ heads' hits bc', mapWrite rxOnode 1 1 1 [rxHead [(1, [8])]] rxCache = some (heads', hits, bc') ∧
      Partitions rxOnode 1 1 (fun _ => 0) [rxHead [(1, [8])]] heads' hits bc' := by
  refine ⟨rxOnode_contiguous, rxHead_tidy (by decide) (by decide), ?_⟩
  rintro ⟨heads', hits, bc', hrun, hp⟩
  have hheads : (mapWrite rxOnode 1 1 1 [rxHead [(1, [8])]] rxCache).map Prod.fst =
      some [{ rxHead [(1, [8])] with length := 1, rxIoh := 2, rxFrom := ⟨10, 1⟩ },
        { BufferHead.new 1 1 with state := .missing }] := rfl
  rw [hrun] at hheads
  obtain rfl := some.inj hheads
  exact absurd (hp.inPlace _ mem_cons_self (1, [8]) mem_cons_self).2 (by decide)

end Cache
end Ebofs
end Ceph
