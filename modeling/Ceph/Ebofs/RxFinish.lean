/-
# A read of blocks completes

`rx_finish` goes over the heads of an object that are all in the range of a read. One that was
waiting for the read gets its part of the data, and each block of that is checked against
the onode's checksum: the runs of bad blocks are split off one by one and marked
corrupt, what is between them is marked clean. A block that was partly overwritten
meanwhile is completed, and written. If it was bad, the bytes that were not
overwritten are noted as bad, since their new checksum is that of the bad data.

A run that ends with the head leaves nothing to its right, and the loop goes on with the corrupt
piece itself. The last piece is marked clean when the loop is done, whichever it is.
-/
import Ceph.Ebofs.BufferCache
import Ceph.Include.IntervalOps
import Ceph.Lib.Tiles

namespace Ceph
namespace Ebofs
namespace Cache

open List BufferHead
open Option hiding min_eq_left
open IntervalSet
open Tiles
open Wire (Bytes)

/-! ### The code -/

/-- `rx_finish(ioh, start, length, bl)`. -/
structure RxDone where
  ioh : ℕ
  start : ℕ
  length : ℕ
  bl : Bytes

/-- The onode and the cache, and the waiters that are triggered. -/
structure Finishing where
  on : Onode
  bc : BufferCache
  waiters : List ℕ

/-- Where a run of bad blocks that begins at `s` ends. -/
def runEnd (bad : ℕ → Bool) (s olen : ℕ) : ℕ := s + ((List.range' s (olen - s)).takeWhile bad).length

/-- What is left of a run of bad blocks is clean: the head is split there. -/
def carveLeft (s ostart : ℕ) (bh : BufferHead) (bc : BufferCache) : Option (List BufferHead × BufferHead × BufferCache) :=
  if s = 0 then some ([], bh, bc)
  else (split bh (ostart + s) bc).bind fun (left, middle, bc) =>
    (setState left .clean bc).map fun (left, bc) => ([left], middle, bc)

/-- The run is marked corrupt. `right` is what comes after it, or the run itself if nothing does. -/
def carveRun (e olen ostart : ℕ) (bh : BufferHead) (bc : BufferCache) : Option (List BufferHead × BufferHead × BufferCache) :=
  if e < olen then
    (split bh (ostart + e) bc).bind fun (bh, right, bc) =>
      (setState bh .corrupt bc).map fun (bh, bc) => ([bh], right, bc)
  else (setState bh .corrupt bc).map fun (bh, bc) => ([], bh, bc)

/-- The loop over the blocks of a head, which takes one at least each time. -/
def carve (bad : ℕ → Bool) (ostart olen : ℕ) :
    ℕ → ℕ → BufferHead → BufferCache → Option (List BufferHead × BufferHead × BufferCache)
  | 0, _, bh, bc => some ([], bh, bc)
  | fuel + 1, s, bh, bc =>
    if olen ≤ s then some ([], bh, bc)
    else if bad s then
      let e := runEnd bad s olen
      (carveLeft s ostart bh bc).bind fun (left, bh, bc) =>
        (carveRun e olen ostart bh bc).bind fun (run, bh, bc) =>
          (carve bad ostart olen fuel (e + 1) bh bc).map fun (hs, bh, bc) => (left ++ run ++ hs, bh, bc)
    else carve bad ostart olen fuel (s + 1) bh bc

/-- The checksum of block `i` of some data. -/
def blockCsum (data : Bytes) (i : ℕ) : UInt64 := calcCsum ((data.drop (i * blockSize)).take blockSize)

/-- The checksums are not those that are wanted. -/
def badBlock (want : List UInt64) (data : Bytes) (i : ℕ) : Bool := want[i]? ≠ some (blockCsum data i)

/-- An rx head gets its data: the heads that it becomes. `verify` is `ebofs_verify_csum_on_read`. -/
def finishRx (verify : Bool) (rd : RxDone) (on : Onode) (bh : BufferHead) (bc : BufferCache) :
    Option (List BufferHead × BufferCache) :=
  if bh.version ≠ 0 then none
  else
    (substrOf rd.bl ((bh.start - rd.start) * blockSize) (bh.length * blockSize)).bind fun data =>
      let bh := { bh with data := data }
      (if verify then
        (getExtentCsum on bh.start bh.length).bind fun want =>
          if (List.range bh.length).any (badBlock want data) then
            carve (badBlock want data) bh.start bh.length bh.length 0 bh bc
          else some ([], bh, bc)
      else some ([], bh, bc)).bind fun (hs, bh, bc) =>
        (setState bh .clean bc).map fun (bh, bc) => (hs ++ [bh], bc)

/-- A block was read back that is bad: its bytes are, but for those of the fragments. -/
def badReadBack (bh : BufferHead) (want got : UInt64) (on : Onode) : Option Onode :=
  let on := setExtentCsum bh.start got on
  (empty.insert (bh.start * blockSize) blockSize).bind fun bad =>
    (unionOf on.badByteExtents bad).bind fun bytes =>
      (bh.frags.foldlM (fun (covered : IntervalSet) q => covered.insert (bh.start * blockSize + q.1) q.2.length) empty).bind
        fun covered => (intersectionOf covered bytes).bind fun newOver =>
          (bytes.subtract newOver).map fun bytes =>
            { on with dataCsum := on.dataCsum + (got - want), badByteExtents := bytes }

/-- `apply_partial`. -/
def applyFrags (bh : BufferHead) (on : Onode) : Option (BufferHead × Onode) :=
  ((getExtentCsum on bh.start 1).bind List.head?).bind fun csum =>
    (applyPartial ⟨bh.data, bh.frags, csum, on.dataCsum⟩).map fun b =>
      ({ bh with data := b.data, frags := b.frags }, { setExtentCsum bh.start b.csum on with dataCsum := b.dataCsum })

/-- A head that was partly overwritten is completed, and written. -/
def finishPartial (rd : RxDone) (on : Onode) (bh : BufferHead) (bc : BufferCache) :
    Option (Onode × BufferHead × BufferCache) :=
  (oneExtent on { bh with length := 1 }).bind fun ex =>
    ((getExtentCsum on bh.start 1).bind List.head?).bind fun want =>
      (substrOf rd.bl ((bh.start - rd.start) * blockSize) (bh.length * blockSize)).bind fun sub =>
        let got := calcCsum sub
        (if want ≠ got then badReadBack bh want got on else some on).bind fun on =>
          if bh.data ≠ [] then none
          else (applyFrags { bh with data := sub.take blockSize } on).bind fun (bh, on) =>
            (setState bh .dirty bc).bind fun (bh, bc) => (bhWrite on bh ex.start bc).bind fun (bh, bc) =>
              if on.dirty then some (on, { bh with frags := [] }, bc) else none

/-- The I/O is over, and the waiters are triggered. -/
def triggered (rd : RxDone) (bh : BufferHead) (waiters : List ℕ) : BufferHead × List ℕ :=
  takeReadWaiters (if bh.rxIoh = rd.ioh then { bh with rxIoh := 0 } else bh) waiters

/-- What becomes of a head that is in the range. -/
def finishHead (verify : Bool) (rd : RxDone) (bh : BufferHead) (f : Finishing) : Option (List BufferHead × Finishing) :=
  let (bh, waiters) := triggered rd bh f.waiters
  match bh.state with
  | .rx => (finishRx verify rd f.on bh f.bc).map fun (hs, bc) => (hs, ⟨f.on, bc, waiters⟩)
  | .partialBh => (finishPartial rd f.on bh f.bc).map fun (on, bh, bc) => ([bh], ⟨on, bc, waiters⟩)
  | .dirty | .tx | .clean => some ([bh], { f with waiters := waiters })      -- was overwritten
  | .missing | .corrupt => none

/-- The loop, from an iterator on. -/
def rxFinishLoop (verify : Bool) (rd : RxDone) : List BufferHead → Finishing → Option (List BufferHead × Finishing)
  | [], f => some ([], f)
  | bh :: rest, f =>
    if rd.start + rd.length ≤ bh.start then some (bh :: rest, f)              -- past?
    else if rd.start + rd.length < bh.fin then some (bh :: rest, f)
    else (finishHead verify rd bh f).bind fun (hs, f) =>
      (rxFinishLoop verify rd rest f).map fun (hs', f) => (hs ++ hs', f)

/-- `rx_finish`. -/
def rxFinish (verify : Bool) (rd : RxDone) (heads : List BufferHead) (f : Finishing) :
    Option (List BufferHead × Finishing) :=
  (rxFinishLoop verify rd (heads.filter fun bh => rd.start ≤ bh.start) f).map fun (hs, f) =>
    ((heads.filter fun bh => bh.start < rd.start) ++ hs, f)
/-! ### What it is for -/

/-- A head is in the range of the read. -/
def RxDone.Spans (rd : RxDone) (bh : BufferHead) : Prop := rd.start ≤ bh.start ∧ bh.fin ≤ rd.start + rd.length

instance (rd : RxDone) (bh : BufferHead) : Decidable (rd.Spans bh) := inferInstanceAs (Decidable (_ ∧ _))

/-- The onode's checksum of a block. -/
def Onode.csumOf (on : Onode) (b : ℕ) : Option UInt64 := (getExtentCsum on b 1).bind List.head?

/-- The data that was read for a block does not have the onode's checksum. -/
def Mismatch (on : Onode) (rd : RxDone) (b : ℕ) : Prop := on.csumOf b ≠ some (blockCsum rd.bl (b - rd.start))

instance (on : Onode) (rd : RxDone) (b : ℕ) : Decidable (Mismatch on rd b) := inferInstanceAs (Decidable (_ ≠ _))

/-- The extents of the onode do not overlap. -/
def Onode.Mapped (on : Onode) : Prop :=
  on.extentMap.Pairwise fun p q => p.1 + p.2.ex.length ≤ q.1

/-- The state that a block is to be in. -/
def verdict (on : Onode) (rd : RxDone) (b : ℕ) : State := if Mismatch on rd b then .corrupt else .clean

/-- A head has a block. -/
abbrev HasBlock (bh : BufferHead) (b : ℕ) : Prop := Has BufferHead.start BufferHead.fin bh b

/-- Each block of an rx head is in a head of the state that it is to be in, and the heads partition the range of those
there were. -/
structure Marked (on : Onode) (rd : RxDone) (heads heads' : List BufferHead) : Prop where
  marks : ∀ bh ∈ heads, rd.Spans bh → bh.state = .rx → ∀ b, HasBlock bh b →
    ∃ h ∈ heads', HasBlock h b ∧ h.state = verdict on rd b
  inOrder : InOrder BufferHead.start BufferHead.fin heads'
  covered : ∀ b, Covered BufferHead.start BufferHead.fin heads' b ↔ Covered BufferHead.start BufferHead.fin heads b
  within : ∀ h ∈ heads', ∃ bh ∈ heads, bh.start ≤ h.start ∧ h.fin ≤ bh.fin

/-! ### Checksums of the onode -/

section csum

variable {on : Onode} {p : ℕ × ExtentCsum} {b c x len : ℕ} {csum : UInt64} {want : List UInt64}

theorem entryAt_eq (hon : on.Mapped) (hp : p ∈ on.extentMap) (hle : p.1 ≤ x) (hlt : x < p.1 + p.2.ex.length) :
    on.entryAt x = some p := by
  obtain ⟨pre, post, heq⟩ := append_of_mem hp
  have hafter : ∀ q ∈ post, p.1 + p.2.ex.length ≤ q.1 := by
    unfold Onode.Mapped at hon
    rw [heq] at hon
    exact (pairwise_cons.mp (pairwise_append.mp hon).2.1).1
  have hpost : post.filter (fun q => q.1 ≤ x) = [] :=
    filter_eq_nil_iff.mpr fun q hq => by simpa using hlt.trans_le (hafter q hq)
  rw [Onode.entryAt, heq, filter_append, filter_cons_of_pos (by simpa using hle), hpost,
    getLast?_append_cons, getLast?_singleton]

theorem entryAt_mem (h : on.entryAt x = some p) : p ∈ on.extentMap ∧ p.1 ≤ x := by
  have hmem := mem_of_getLast? h
  simpa using mem_filter.mp hmem

theorem getExtentCsum_getElem? (hon : on.Mapped) (h : getExtentCsum on b len = some want) (hx : x < len) :
    want[x]? = on.csumOf (b + x) := by
  obtain ⟨p, hp, hwant⟩ := bind_eq_some_iff.mp h
  obtain ⟨hmem, hle⟩ := entryAt_mem hp
  split_ifs at hwant with hex
  cases hwant
  have hentry : on.entryAt (b + x) = some p := entryAt_eq hon hmem (by omega) (by omega)
  have hstart : p.2.ex.start ≠ 0 ∧ b + x + 1 ≤ p.1 + p.2.ex.length := ⟨hex.1, by omega⟩
  rw [Onode.csumOf, getExtentCsum, hentry, bind_some, if_pos hstart, bind_some, head?_drop,
    getElem?_drop]
  congr 1
  omega

/-- The checksum of a block is set, and no other is. -/
theorem csumOf_setExtentCsum (hne : c ≠ b) : (setExtentCsum b csum on).csumOf c = on.csumOf c := by
  unfold setExtentCsum
  cases hb : on.entryAt b with
  | none => rfl
  | some p =>
    let f : ℕ × ExtentCsum → ℕ × ExtentCsum := fun q =>
      if q.1 = p.1 then (q.1, { q.2 with csum := q.2.csum.set (b - q.1) csum }) else q
    have hkey : ∀ q, (f q).1 = q.1 := fun q => by
      dsimp only [f]
      split_ifs <;> rfl
    have hex : ∀ q, (f q).2.ex = q.2.ex := fun q => by
      dsimp only [f]
      split_ifs <;> rfl
    have hentry : ({ on with extentMap := on.extentMap.map f } : Onode).entryAt c = (on.entryAt c).map f := by
      have hcomp : (fun q : ℕ × ExtentCsum => decide (q.1 ≤ c)) ∘ f = fun q => decide (q.1 ≤ c) := by
        funext q
        simp only [Function.comp_apply, hkey]
      rw [Onode.entryAt, Onode.entryAt, List.filter_map, hcomp, getLast?_map]
    rw [Onode.csumOf, Onode.csumOf, getExtentCsum, getExtentCsum, hentry]
    cases hc : on.entryAt c with
    | none => rfl
    | some q =>
      simp only [map_some, bind_some, hkey, hex]
      split_ifs with hin
      · rw [bind_some, bind_some, head?_drop, head?_drop]
        by_cases hq : q.1 = p.1
        · have hpb := (entryAt_mem hb).2
          have hqc := (entryAt_mem hc).2
          simp only [f, if_pos hq]
          rw [getElem?_set_ne (by omega)]
        · simp only [f, if_neg hq]
      · rfl

theorem mapped_setExtentCsum (hon : on.Mapped) : (setExtentCsum b csum on).Mapped := by
  unfold setExtentCsum
  cases on.entryAt b with
  | none => exact hon
  | some p =>
    refine pairwise_map.mpr (hon.imp fun {q r} h => ?_)
    split_ifs <;> exact h

end csum

/-! ### Runs of bad blocks -/

section carve

variable {bad : ℕ → Bool} {s e ostart olen fuel : ℕ} {bh bh' : BufferHead} {bc bc' : BufferCache} {hs : List BufferHead}

theorem takeWhile_range' (bad : ℕ → Bool) (s n : ℕ) : ((range' s n).takeWhile bad).length ≤ n ∧
      (∀ i, s ≤ i → i < s + ((range' s n).takeWhile bad).length → bad i = true) ∧
      (((range' s n).takeWhile bad).length < n → bad (s + ((range' s n).takeWhile bad).length) = false) := by
  induction n generalizing s with
  | zero => exact ⟨le_rfl, fun i h1 h2 => absurd h2 (not_lt.mpr h1), fun h => absurd h (lt_irrefl 0)⟩
  | succ n ih =>
    obtain ⟨hle, hbad, hgood⟩ := ih (s + 1)
    rw [range'_succ]
    by_cases hs : bad s = true
    · rw [takeWhile_cons_of_pos hs, length_cons]
      refine ⟨by omega, fun i h1 h2 => ?_, fun h => ?_⟩
      · rcases eq_or_lt_of_le h1 with rfl | h1
        · exact hs
        · exact hbad i h1 (by omega)
      · rw [← hgood (by omega), add_assoc, add_comm 1]
    · rw [takeWhile_cons_of_neg hs]
      exact ⟨Nat.zero_le _, fun i h1 h2 => absurd h2 (by simpa using h1), fun _ => by simpa using hs⟩

theorem runEnd_spec (hs : s < olen) (hbad : bad s = true) :
    s < runEnd bad s olen ∧ runEnd bad s olen ≤ olen ∧ (∀ i, s ≤ i → i < runEnd bad s olen → bad i = true) ∧
      (runEnd bad s olen < olen → bad (runEnd bad s olen) = false) := by
  obtain ⟨hle, hall, hgood⟩ := takeWhile_range' bad s (olen - s)
  refine ⟨?_, ?_, hall, fun h => hgood ?_⟩
  · by_contra hcon
    have hzero : runEnd bad s olen = s := by
      unfold runEnd at hcon ⊢
      omega
    -- otherwise the run would end where it begins, at a good block
    have := hgood (by unfold runEnd at hzero; omega)
    unfold runEnd at hzero
    rw [hzero, hbad] at this
    exact absurd this (by decide)
  · unfold runEnd
    omega
  · unfold runEnd at h
    omega

/-- Where the loop is: `bh` is the last piece, and has none of the bad blocks that were passed. -/
structure Carving (bad : ℕ → Bool) (ostart olen s : ℕ) (bh : BufferHead) : Prop where
  above : ostart ≤ bh.start
  pos : bh.start < bh.fin
  fin_eq : bh.fin = ostart + olen
  passed : s < olen → bh.start < ostart + s ∨ (s = 0 ∧ bh.start = ostart)
  good : s < olen ∨ bad (olen - 1) = false → ∀ b, bh.start ≤ b → b < ostart + s → bad (b - ostart) = false

/-- What the loop makes of the rest: tiles that are marked, and a last one. -/
structure Carved (bad : ℕ → Bool) (ostart olen : ℕ) (bh : BufferHead) (hs : List BufferHead) (bh' : BufferHead) : Prop where
  tiled : Tiled BufferHead.start BufferHead.fin bh.start (ostart + olen) (hs ++ [bh'])
  marked : ∀ h ∈ hs, ∀ b, HasBlock h b → h.state = if bad (b - ostart) then .corrupt else .clean
  last : bad (olen - 1) = false → ∀ b, HasBlock bh' b → bad (b - ostart) = false

theorem Carving.done (hc : Carving bad ostart olen s bh) (hle : olen ≤ s) : Carved bad ostart olen bh [] bh where
  tiled := ⟨rfl, hc.pos, hc.fin_eq⟩
  marked := nofun
  last hgood b hb := by
    have hlt := hb.2
    have hfin := hc.fin_eq
    exact hc.good (.inr hgood) b hb.1 (by omega)

theorem carveLeft_spec (h : carveLeft s ostart bh bc = some (hs, bh', bc')) (habove : ostart ≤ bh.start)
    (hpassed : bh.start < ostart + s ∨ (s = 0 ∧ bh.start = ostart)) (hlt : ostart + s < bh.fin) :
    bh'.start = ostart + s ∧ bh'.fin = bh.fin ∧ Tiled start fin bh.start bh'.start hs ∧
      ∀ h ∈ hs, h.state = .clean := by
  unfold carveLeft at h
  split_ifs at h with hzero
  · cases h
    exact ⟨by omega, rfl, rfl, nofun⟩
  · have hstart : bh.start < ostart + s := hpassed.resolve_right fun h => hzero h.1
    obtain ⟨⟨left, middle, bc1⟩, hsplit, h⟩ := bind_eq_some_iff.mp h
    obtain ⟨⟨left', bc2⟩, hset, h⟩ := map_eq_some_iff.mp h
    obtain ⟨rfl, rfl, -⟩ := h
    obtain ⟨rfl, rfl⟩ := split_some hsplit
    obtain rfl := setState_some hset
    have hfin : (bh.leftOf (ostart + s)).fin = ostart + s := leftOf_fin hstart.le
    refine ⟨rfl, rightOf_fin hstart.le hlt.le, ⟨rfl, hfin.symm ▸ hstart, hfin⟩, forall_mem_singleton.mpr rfl⟩

theorem carveRun_spec (h : carveRun e olen ostart bh bc = some (hs, bh', bc')) (hstart : bh.start < ostart + e)
    (hfin : bh.fin = ostart + olen) :
    bh'.start = (if e < olen then ostart + e else bh.start) ∧ bh'.fin = bh.fin ∧
      Tiled start fin bh.start bh'.start hs ∧ ∀ h ∈ hs, h.state = .corrupt := by
  unfold carveRun at h
  split_ifs at h with hlt
  · obtain ⟨⟨left, right, bc1⟩, hsplit, h⟩ := bind_eq_some_iff.mp h
    obtain ⟨⟨left', bc2⟩, hset, h⟩ := map_eq_some_iff.mp h
    obtain ⟨rfl, rfl, -⟩ := h
    obtain ⟨rfl, rfl⟩ := split_some hsplit
    obtain rfl := setState_some hset
    have hend : (bh.leftOf (ostart + e)).fin = ostart + e := leftOf_fin hstart.le
    refine ⟨(if_pos hlt).symm, rightOf_fin hstart.le (by omega), ⟨rfl, hend.symm ▸ hstart, hend⟩, ?_⟩
    exact forall_mem_singleton.mpr rfl
  · obtain ⟨⟨left', bc2⟩, hset, h⟩ := map_eq_some_iff.mp h
    obtain ⟨rfl, rfl, -⟩ := h
    obtain rfl := setState_some hset
    exact ⟨(if_neg hlt).symm, rfl, rfl, nofun⟩

theorem Carving.skip (hc : Carving bad ostart olen s bh) (hlt : s < olen) (hgood : bad s = false) :
    Carving bad ostart olen (s + 1) bh := by
  refine ⟨hc.above, hc.pos, hc.fin_eq, fun _ => .inl ?_, fun _ b h1 h2 => ?_⟩
  · rcases hc.passed hlt with h | h <;> omega
  · rcases lt_or_ge b (ostart + s) with hb | hb
    · exact hc.good (.inl hlt) b h1 hb
    · have heq : b - ostart = s := by omega
      rw [heq, hgood]

/-- **A run is split off.** -/
theorem Carving.next {left run : List BufferHead} {bh1 bh2 : BufferHead} {bc1 bc2 : BufferCache}
    (hc : Carving bad ostart olen s bh) (hlt : s < olen) (hbad : bad s = true)
    (hleft : carveLeft s ostart bh bc = some (left, bh1, bc1))
    (hrun : carveRun (runEnd bad s olen) olen ostart bh1 bc1 = some (run, bh2, bc2)) :
    Carving bad ostart olen (runEnd bad s olen + 1) bh2 ∧
      Tiled start fin bh.start bh2.start (left ++ run) ∧
      ∀ h ∈ left ++ run, ∀ b, HasBlock h b → h.state = if bad (b - ostart) then .corrupt else .clean := by
  have hfin := hc.fin_eq
  have habove := hc.above
  obtain ⟨hse, heo, hrunbad, hend⟩ := runEnd_spec hlt hbad
  obtain ⟨hstart1, hfin1, htiled1, hclean⟩ := carveLeft_spec hleft habove (hc.passed hlt) (by omega)
  obtain ⟨hstart2, hfin2, htiled2, hcorrupt⟩ := carveRun_spec hrun (by omega) (hfin1.trans hfin)
  refine ⟨⟨?_, ?_, by omega, fun h => .inl ?_, fun h b h1 h2 => ?_⟩, tiled_append.mpr ⟨_, htiled1, htiled2⟩, ?_⟩
  · split_ifs at hstart2 <;> omega
  · split_ifs at hstart2 <;> omega
  · rw [if_pos (by omega)] at hstart2
    omega
  · have hinside : runEnd bad s olen < olen := by
      refine h.elim (fun h => by omega) fun hgood => lt_of_le_of_ne heo fun heq => ?_
      -- the run would have the last block
      exact absurd (hrunbad (olen - 1) (by omega) (by omega)) (by simp [hgood])
    rw [if_pos hinside] at hstart2
    have hb : b - ostart = runEnd bad s olen := by omega
    rw [hb]
    exact hend hinside
  · refine forall_mem_append.mpr ⟨fun h hmem b hb => ?_, fun h hmem b hb => ?_⟩
    · have hin := htiled1.within h hmem
      have hgood := hc.good (.inl hlt) b (hin.1.trans hb.1) (by have := hb.2; omega)
      rw [hclean h hmem, hgood, if_neg Bool.false_ne_true]
    · have hin := htiled2.within h hmem
      have hb1 := hb.1
      have hb2 := hb.2
      have hbad' := hrunbad (b - ostart) (by omega) (by split_ifs at hstart2 <;> omega)
      rw [hcorrupt h hmem, hbad', if_pos rfl]

/-- **All runs are split off.** All pieces but the last one are marked as they are to be. The last one has no
bad block if it ends with a good one. -/
theorem carve_spec (h : carve bad ostart olen fuel s bh bc = some (hs, bh', bc')) (hfuel : olen ≤ s + fuel)
    (hc : Carving bad ostart olen s bh) : Carved bad ostart olen bh hs bh' := by
  induction fuel generalizing s bh bc hs bc' with
  | zero =>
    obtain ⟨rfl, rfl, -⟩ := h
    exact hc.done hfuel
  | succ fuel ih =>
    rw [carve] at h
    split_ifs at h with hle hbad
    · cases h
      exact hc.done hle
    · obtain ⟨⟨left, bh1, bc1⟩, hleft, h⟩ := bind_eq_some_iff.mp h
      obtain ⟨⟨run, bh2, bc2⟩, hrun, h⟩ := bind_eq_some_iff.mp h
      obtain ⟨⟨hs2, bh3, bc3⟩, hrest, h⟩ := map_eq_some_iff.mp h
      obtain ⟨rfl, rfl, -⟩ := h
      have hlt : s < olen := not_le.mp hle
      obtain ⟨hnext, htiled, hmarked⟩ := hc.next hlt hbad hleft hrun
      have hcarved := ih hrest (by have := (runEnd_spec hlt hbad).1; omega) hnext
      refine ⟨?_, forall_mem_append.mpr ⟨hmarked, hcarved.marked⟩, hcarved.last⟩
      rw [append_assoc]
      exact tiled_append.mpr ⟨_, htiled, hcarved.tiled⟩
    · exact ih h (by omega) (hc.skip (not_le.mp hle) (by simpa using hbad))

/-! ### The pieces are counted -/

variable {others : State → ℕ} {rest : List BufferHead}

theorem counted_swap {l1 l2 : List BufferHead} (h : Counted others (l1 ++ bh :: l2) bc) :
    Counted others (bh :: (l1 ++ l2)) bc := by
  intro s
  have hs := h s
  simp only [total_append, total_cons] at hs ⊢
  omega

theorem carveLeft_counted (h : Counted others (bh :: rest) bc) (hfilled : bh.Filled)
    (hpassed : bh.start < ostart + s ∨ (s = 0 ∧ bh.start = ostart)) (hlt : ostart + s < bh.fin) :
    ∃ left bh' bc', carveLeft s ostart bh bc = some (left, bh', bc') ∧ bh'.Filled ∧
      Counted others (left ++ bh' :: rest) bc' := by
  unfold carveLeft
  split_ifs with hzero
  · exact ⟨[], bh, bc, rfl, hfilled, h⟩
  · have hstart : bh.start < ostart + s := hpassed.resolve_right fun h => hzero h.1
    obtain ⟨bc1, hsplit, hc1⟩ := split_counted h ⟨hstart, hlt⟩ hfilled
    obtain ⟨bc2, hset, hc2⟩ := setState_counted .clean hc1
    refine ⟨[_], _, _, ?_, (filled_split hfilled ⟨hstart.le, hlt.le⟩).2, hc2⟩
    rw [hsplit, bind_some]
    dsimp only
    rw [hset]
    rfl

theorem carveRun_counted (h : Counted others (bh :: rest) bc) (hfilled : bh.Filled) (hstart : bh.start < ostart + e)
    (hfin : bh.fin = ostart + olen) :
    ∃ run bh' bc', carveRun e olen ostart bh bc = some (run, bh', bc') ∧ bh'.Filled ∧
      Counted others (run ++ bh' :: rest) bc' := by
  unfold carveRun
  split_ifs with hlt
  · obtain ⟨bc1, hsplit, hc1⟩ := split_counted h ⟨hstart, by omega⟩ hfilled
    obtain ⟨bc2, hset, hc2⟩ := setState_counted .corrupt hc1
    refine ⟨[_], _, _, ?_, (filled_split hfilled ⟨hstart.le, by omega⟩).2, hc2⟩
    rw [hsplit, bind_some]
    dsimp only
    rw [hset]
    rfl
  · obtain ⟨bc1, hset, hc1⟩ := setState_counted .corrupt h
    refine ⟨[], _, _, ?_, ?_, hc1⟩
    · rw [hset]
      rfl
    · exact hfilled

/-- **No assertion fails** where the counters are those of the heads, and they stay so. -/
theorem carve_counted (hcounted : Counted others (bh :: rest) bc) (hfilled : bh.Filled)
    (hc : Carving bad ostart olen s bh) : ∃ hs bh' bc', carve bad ostart olen fuel s bh bc = some (hs, bh', bc') ∧
      Counted others (hs ++ bh' :: rest) bc' := by
  induction fuel generalizing s bh bc rest with
  | zero => exact ⟨[], bh, bc, rfl, hcounted⟩
  | succ fuel ih =>
    rw [carve]
    split_ifs with hle hbad
    · exact ⟨[], bh, bc, rfl, hcounted⟩
    · have hlt : s < olen := not_le.mp hle
      have hfin := hc.fin_eq
      have hse := (runEnd_spec hlt hbad).1
      obtain ⟨left, bh1, bc1, hleft, hfilled1, hc1⟩ :=
        carveLeft_counted hcounted hfilled (hc.passed hlt) (by omega)
      obtain ⟨hstart1, hfin1, -, -⟩ := carveLeft_spec hleft hc.above (hc.passed hlt) (by omega)
      obtain ⟨run, bh2, bc2, hrun, hfilled2, hc2⟩ := carveRun_counted (counted_swap hc1) hfilled1
        (show bh1.start < ostart + runEnd bad s olen by omega) (hfin1.trans hfin)
      obtain ⟨hs, bh3, bc3, hrest, hc3⟩ := ih (counted_swap hc2) hfilled2 (hc.next hlt hbad hleft hrun).1
      refine ⟨left ++ run ++ hs, bh3, bc3, ?_, fun s => ?_⟩
      · rw [hleft, bind_some]
        dsimp only
        rw [hrun, bind_some, hrest]
        rfl
      · have hstat := hc3 s
        simp only [total_append, total_cons] at hstat ⊢
        omega
    · exact ih hcounted hfilled (hc.skip (not_le.mp hle) (by simpa using hbad))

end carve

/-! ### The loop over the heads -/

section finish

variable {rd : RxDone} {on on' : Onode} {bh bh' : BufferHead} {bc bc' : BufferCache} {f f' : Finishing}
  {heads heads' hs : List BufferHead} {want : List UInt64} {data : Bytes} {b i : ℕ} {got wanted : UInt64}

/-- What becomes of a head: tiles of its range. If it waited for the read, its last block is clean, and if that is right, then
all of its blocks are as they are to be. -/
structure Completed (on : Onode) (rd : RxDone) (bh : BufferHead) (hs : List BufferHead) : Prop where
  tiled : Tiled BufferHead.start BufferHead.fin bh.start bh.fin hs
  last : rd.Spans bh → bh.state = .rx → ∃ h ∈ hs, HasBlock h (bh.fin - 1) ∧ h.state = .clean
  marked : rd.Spans bh → bh.state = .rx → ¬ Mismatch on rd (bh.fin - 1) →
    ∀ h ∈ hs, ∀ b, HasBlock h b → h.state = verdict on rd b

theorem Completed.congr (h : Completed on rd bh hs) (hpos : bh.start < bh.fin)
    (hon : ∀ b, bh.start ≤ b → on'.csumOf b = on.csumOf b) : Completed on' rd bh hs := by
  refine ⟨h.tiled, h.last, fun hspans hrx hgood g hg b hb => ?_⟩
  have hmis : ∀ b, bh.start ≤ b → (Mismatch on' rd b ↔ Mismatch on rd b) := fun b hb => by
    unfold Mismatch
    rw [hon b hb]
  have hstart := (h.tiled.within g hg).1.trans hb.1
  rw [hmis _ (by omega)] at hgood
  rw [h.marked hspans hrx hgood g hg b hb]
  unfold verdict
  simp only [hmis b hstart]

theorem completed_kept (hpos : bh.start < bh.fin) (hbh : bh'.start = bh.start ∧ bh'.length = bh.length)
    (h : ¬ (rd.Spans bh ∧ bh.state = .rx)) : Completed on rd bh [bh'] := by
  have hfin : bh'.fin = bh.fin := by
    unfold fin
    rw [hbh.1, hbh.2]
  exact ⟨⟨hbh.1, hfin.symm ▸ hpos, hfin⟩, fun h1 h2 => absurd ⟨h1, h2⟩ h, fun h1 h2 => absurd ⟨h1, h2⟩ h⟩

theorem blockCsum_substr {off len : ℕ} (hdata : substrOf rd.bl (off * blockSize) (len * blockSize) = some data)
    (hi : i < len) : blockCsum data i = blockCsum rd.bl (off + i) := by
  unfold substrOf at hdata
  split_ifs at hdata
  cases hdata
  have hroom : blockSize ≤ len * blockSize - i * blockSize := by
    rw [← Nat.sub_mul]
    exact Nat.le_mul_of_pos_left _ (by omega)
  rw [blockCsum, blockCsum, drop_take, take_take, drop_drop, min_eq_left hroom, add_mul]

/-- **An rx head gets its data.** -/
theorem finishRx_spec (h : finishRx true rd on bh bc = some (hs, bc')) (hon : on.Mapped) (hpos : bh.start < bh.fin) :
    Completed on rd bh hs := by
  have hversion : ¬ bh.version ≠ 0 := fun hne => by simp [finishRx, if_pos hne] at h
  rw [finishRx, if_neg hversion] at h
  obtain ⟨data, hdata, h⟩ := bind_eq_some_iff.mp h
  obtain ⟨⟨hs1, bh1, bc1⟩, hcarve, h⟩ := bind_eq_some_iff.mp h
  obtain ⟨⟨bh2, bc2⟩, hset, ⟨⟩⟩ := map_eq_some_iff.mp h
  obtain rfl := setState_some hset
  obtain ⟨want, hwant, hcarve⟩ := bind_eq_some_iff.mp hcarve
  dsimp only at hwant hcarve
  have hlen : bh.start + bh.length = bh.fin := rfl
  have hbad : rd.Spans bh → ∀ b, bh.start ≤ b → b < bh.fin →
      (badBlock want data (b - bh.start) = true ↔ Mismatch on rd b) := by
    intro hspans b hle hlt
    have hwant' := getExtentCsum_getElem? (x := b - bh.start) hon hwant (by omega)
    have hdata' := blockCsum_substr (i := b - bh.start) hdata (by omega)
    have hb : bh.start + (b - bh.start) = b := by omega
    have hb' : bh.start - rd.start + (b - bh.start) = b - rd.start := by
      have := hspans.1
      omega
    rw [hb] at hwant'
    rw [hb'] at hdata'
    unfold badBlock Mismatch
    rw [hwant', hdata', decide_eq_true_iff]
  have hcarved : Carved (badBlock want data) bh.start bh.length { bh with data := data } hs1 bh1 := by
    split_ifs at hcarve with hany
    · exact carve_spec hcarve (zero_add _).ge
        ⟨le_rfl, hpos, rfl, fun _ => .inr ⟨rfl, rfl⟩, fun _ b h1 h2 => absurd h2 (not_lt.mpr h1)⟩
    · -- there is no bad block
      obtain ⟨rfl, rfl, -⟩ := hcarve
      refine ⟨⟨rfl, hpos, rfl⟩, nofun, fun _ b hb => ?_⟩
      by_contra hcon
      refine hany (any_eq_true.mpr ⟨b - bh.start, mem_range.mpr ?_, by simpa using hcon⟩)
      have : b < bh.start + bh.length := hb.2
      omega
  have htiled : Tiled start fin bh.start bh.fin (hs1 ++ [{ bh1 with state := .clean }]) := by
    obtain ⟨k, h₁, h₂⟩ := tiled_append.mp hcarved.tiled
    exact tiled_append.mpr ⟨k, h₁, h₂⟩
  obtain ⟨k, -, hk⟩ := tiled_append.mp hcarved.tiled
  obtain ⟨hk, hkfin, hend⟩ := hk
  have hfin : bh1.fin = bh.fin := hend
  refine ⟨htiled, fun _ _ => ⟨_, mem_append_right _ (mem_singleton_self _), ?_, rfl⟩, ?_⟩
  · have hk' : bh1.start < bh1.fin := by omega
    exact ⟨show bh1.start ≤ bh.fin - 1 by omega, show bh.fin - 1 < bh1.fin by omega⟩
  · intro hspans _ hgood h hmem b hb
    have hin := htiled.within h hmem
    have hb1 := hb.1
    have hb2 := hb.2
    have hiff := hbad hspans b (by omega) (by omega)
    unfold verdict
    rcases mem_append.mp hmem with hmem | hmem
    · rw [hcarved.marked h hmem b hb]
      simp only [hiff]
    · obtain rfl := mem_singleton.mp hmem
      have hlastgood : badBlock want data (bh.length - 1) = false := by
        have hiff' := hbad hspans (bh.fin - 1) (by omega) (by omega)
        have heq : bh.fin - 1 - bh.start = bh.length - 1 := by omega
        rw [heq] at hiff'
        simpa using fun hcon => hgood (hiff'.mp hcon)
      have hfalse := hcarved.last hlastgood b hb
      rw [if_neg fun hcon => ?_]
      rw [hiff.mpr hcon] at hfalse
      exact absurd hfalse (by decide)

/-- The head is completed, and counted. -/
theorem finishRx_counted {others : State → ℕ} {rest : List BufferHead} {verify : Bool}
    (hcounted : Counted others (bh :: rest) bc) (hversion : bh.version = 0) (hpos : bh.start < bh.fin)
    (hdata : substrOf rd.bl ((bh.start - rd.start) * blockSize) (bh.length * blockSize) = some data)
    (hwant : getExtentCsum on bh.start bh.length = some want) :
    ∃ hs bc', finishRx verify rd on bh bc = some (hs, bc') ∧ Counted others (hs ++ rest) bc' := by
  have hlen : data.length = bh.length * blockSize := length_substrOf hdata
  have hcounted' : Counted others ({ bh with data := data } :: rest) bc := hcounted
  obtain ⟨hs, bh1, bc1, hcarve, hc1⟩ : ∃ hs bh1 bc1, (if verify then
      (getExtentCsum on bh.start bh.length).bind fun want =>
        if (range bh.length).any (badBlock want data) then
          carve (badBlock want data) bh.start bh.length bh.length 0 { bh with data := data } bc
        else some ([], { bh with data := data }, bc)
      else some ([], { bh with data := data }, bc)) = some (hs, bh1, bc1) ∧ Counted others (hs ++ bh1 :: rest) bc1 := by
    split_ifs
    · rw [hwant, bind_some]
      split_ifs
      · exact carve_counted hcounted' (.inr hlen)
          ⟨le_rfl, hpos, rfl, fun _ => .inr ⟨rfl, rfl⟩, fun _ b h1 h2 => absurd h2 (not_lt.mpr h1)⟩
      · exact ⟨[], _, _, rfl, hcounted'⟩
    · exact ⟨[], _, _, rfl, hcounted'⟩
  obtain ⟨bc2, hset, hc2⟩ := setState_counted .clean (counted_swap hc1)
  refine ⟨hs ++ [{ bh1 with state := .clean }], bc2, ?_, fun s => ?_⟩
  · rw [finishRx, if_neg (not_not_intro hversion), hdata, bind_some]
    dsimp only
    rw [hcarve, bind_some, hset]
    rfl
  · have hs := hc2 s
    simp only [total_append, total_cons, total_nil] at hs ⊢
    omega

theorem badReadBack_csum (h : badReadBack bh wanted got on = some on') (hon : on.Mapped) :
    on'.Mapped ∧ ∀ b, b ≠ bh.start → on'.csumOf b = on.csumOf b := by
  unfold badReadBack at h
  obtain ⟨bad, -, h⟩ := bind_eq_some_iff.mp h
  obtain ⟨bytes, -, h⟩ := bind_eq_some_iff.mp h
  obtain ⟨covered, -, h⟩ := bind_eq_some_iff.mp h
  obtain ⟨newOver, -, h⟩ := bind_eq_some_iff.mp h
  obtain ⟨bytes', -, rfl⟩ := map_eq_some_iff.mp h
  exact ⟨mapped_setExtentCsum hon, fun b hb => csumOf_setExtentCsum hb⟩

theorem applyFrags_csum (h : applyFrags bh on = some (bh', on')) (hon : on.Mapped) :
    on'.Mapped ∧ (∀ b, b ≠ bh.start → on'.csumOf b = on.csumOf b) ∧ bh'.start = bh.start ∧ bh'.length = bh.length := by
  obtain ⟨csum, -, h⟩ := bind_eq_some_iff.mp h
  obtain ⟨pb, -, h⟩ := map_eq_some_iff.mp h
  cases h
  exact ⟨mapped_setExtentCsum hon, fun b hb => csumOf_setExtentCsum hb, rfl, rfl⟩

theorem finishPartial_csum (h : finishPartial rd on bh bc = some (on', bh', bc')) (hon : on.Mapped) :
    on'.Mapped ∧ (∀ b, b ≠ bh.start → on'.csumOf b = on.csumOf b) ∧ bh'.start = bh.start ∧ bh'.length = bh.length := by
  obtain ⟨ex, -, h⟩ := bind_eq_some_iff.mp h
  obtain ⟨want, -, h⟩ := bind_eq_some_iff.mp h
  obtain ⟨sub, -, h⟩ := bind_eq_some_iff.mp h
  obtain ⟨on1, hon1, h⟩ := bind_eq_some_iff.mp h
  split_ifs at h
  obtain ⟨⟨bh2, on2⟩, happly, h⟩ := bind_eq_some_iff.mp h
  obtain ⟨⟨bh3, bc3⟩, hset, h⟩ := bind_eq_some_iff.mp h
  obtain ⟨⟨bh4, bc4⟩, hwrite, h⟩ := bind_eq_some_iff.mp h
  split_ifs at h
  obtain ⟨rfl, rfl, -⟩ := h
  have hchecked : on1.Mapped ∧ ∀ b, b ≠ bh.start → on1.csumOf b = on.csumOf b := by
    split_ifs at hon1
    · exact badReadBack_csum hon1 hon
    · cases hon1
      exact ⟨hon, fun _ _ => rfl⟩
  obtain ⟨hmapped, hcsum, hstart, hlength⟩ := applyFrags_csum happly hchecked.1
  obtain rfl := setState_some hset
  obtain ⟨⟨hstart', hlength'⟩, -⟩ := bhWrite_some hwrite
  exact ⟨hmapped, fun b hb => (hcsum b hb).trans (hchecked.2 b hb), hstart'.trans hstart, hlength'.trans hlength⟩

theorem triggered_fst (rd : RxDone) (bh : BufferHead) (waiters : List ℕ) :
    (triggered rd bh waiters).1.start = bh.start ∧ (triggered rd bh waiters).1.length = bh.length ∧
      (triggered rd bh waiters).1.state = bh.state := by
  unfold triggered takeReadWaiters
  split_ifs <;> exact ⟨rfl, rfl, rfl⟩

theorem finishHead_rx {verify : Bool} (hrx : bh.state = .rx) : finishHead verify rd bh f =
    (finishRx verify rd f.on (triggered rd bh f.waiters).1 f.bc).map fun p =>
      (p.1, ⟨f.on, p.2, (triggered rd bh f.waiters).2⟩) := by
  unfold finishHead
  dsimp only
  rw [(triggered_fst rd bh f.waiters).2.2, hrx]

/-- **One head.** Checksums of blocks behind it stay. -/
theorem finishHead_spec (h : finishHead true rd bh f = some (hs, f')) (hon : f.on.Mapped) (hpos : bh.start < bh.fin) :
    Completed f.on rd bh hs ∧ f'.on.Mapped ∧ ∀ b, bh.fin ≤ b → f'.on.csumOf b = f.on.csumOf b := by
  obtain ⟨hstart, hlength, hstate⟩ := triggered_fst rd bh f.waiters
  unfold finishHead at h
  dsimp only at h
  generalize (triggered rd bh f.waiters).1 = bh0 at hstart hlength hstate h
  generalize (triggered rd bh f.waiters).2 = waiters at h
  have hpos0 : bh0.start < bh0.fin := by
    unfold fin at hpos ⊢
    omega
  have hkept : ∀ bh1 : BufferHead, bh1.start = bh0.start → bh1.length = bh0.length → bh0.state ≠ .rx →
      Completed f.on rd bh [bh1] := fun bh1 h1 h2 hne =>
    completed_kept hpos ⟨h1.trans hstart, h2.trans hlength⟩ fun hcon => hne (hstate.trans hcon.2)
  -- it was overwritten
  have hover : bh0.state ≠ .rx → some ([bh0], { f with waiters := waiters }) = some (hs, f') →
      Completed f.on rd bh hs ∧ f'.on.Mapped ∧ ∀ b, bh.fin ≤ b → f'.on.csumOf b = f.on.csumOf b := by
    intro hne h
    cases h
    exact ⟨hkept _ rfl rfl hne, hon, fun _ _ => rfl⟩
  cases hcase : bh0.state with
  | rx =>
    rw [hcase] at h
    obtain ⟨⟨hs1, bc1⟩, hfinish, ⟨⟩⟩ := map_eq_some_iff.mp h
    have hcompleted := finishRx_spec hfinish hon hpos0
    have hfin : bh0.fin = bh.fin := by
      unfold fin
      rw [hstart, hlength]
    have hspans : rd.Spans bh0 ↔ rd.Spans bh := by
      unfold RxDone.Spans
      rw [hstart, hfin]
    refine ⟨⟨?_, fun h1 _ => ?_, fun h1 _ h3 => ?_⟩, hon, fun _ _ => rfl⟩
    · rw [← hstart, ← hfin]
      exact hcompleted.tiled
    · rw [← hfin]
      exact hcompleted.last (hspans.mpr h1) hcase
    · exact hcompleted.marked (hspans.mpr h1) hcase (by rwa [hfin])
  | partialBh =>
    rw [hcase] at h
    obtain ⟨⟨on1, bh1, bc1⟩, hfinish, ⟨⟩⟩ := map_eq_some_iff.mp h
    obtain ⟨hmapped, hcsum, hstart1, hlength1⟩ := finishPartial_csum hfinish hon
    refine ⟨hkept _ hstart1 hlength1 (by rw [hcase]; exact nofun), hmapped, fun b hb => hcsum b ?_⟩
    omega
  | dirty | tx | clean => exact hover (by rw [hcase]; exact nofun) (by rwa [hcase] at h)
  | missing | corrupt =>
    rw [hcase] at h
    cases h

/-- **The loop.** Each head of the range is completed, by the checksums that the onode had. -/
theorem rxFinishLoop_spec (h : rxFinishLoop true rd heads f = some (heads', f')) (hon : f.on.Mapped)
    (hheads : InOrder start fin heads)
    (hcsum : ∀ bh ∈ heads, ∀ b, bh.start ≤ b → on.csumOf b = f.on.csumOf b) :
    Replaced (Completed on rd) heads heads' := by
  induction heads generalizing f heads' f' with
  | nil =>
    cases h
    exact .nil
  | cons bh rest ih =>
    obtain ⟨hpos, hafter, hrest⟩ := inOrder_cons.mp hheads
    -- what lies past the range is left alone
    have hpast : (∀ b ∈ bh :: rest, rd.start + rd.length < b.fin) → heads' = bh :: rest →
        Replaced (Completed on rd) (bh :: rest) heads' := by
      rintro hfar rfl
      refine Replaced.self fun b hb => completed_kept (hheads.pos b hb) ⟨rfl, rfl⟩ fun hcon => ?_
      exact absurd (hfar b hb) (not_lt.mpr hcon.1.2)
    have hfar : rd.start + rd.length < bh.fin → ∀ b ∈ bh :: rest, rd.start + rd.length < b.fin := fun hlt =>
      forall_mem_cons.mpr ⟨hlt, fun b hb =>
        (hlt.trans_le (hafter b hb)).trans (hrest.pos b hb)⟩
    rw [rxFinishLoop] at h
    split_ifs at h with hbeyond hover
    · exact hpast (hfar (hbeyond.trans_lt hpos)) (Prod.mk.inj (some.inj h)).1.symm
    · exact hpast (hfar hover) (Prod.mk.inj (some.inj h)).1.symm
    · obtain ⟨⟨hs, f1⟩, hhead, h⟩ := bind_eq_some_iff.mp h
      obtain ⟨⟨hs', f2⟩, hloop, ⟨⟩⟩ := map_eq_some_iff.mp h
      obtain ⟨hcompleted, hmapped, hcsum1⟩ := finishHead_spec hhead hon hpos
      refine .cons (hcompleted.congr hpos (hcsum bh mem_cons_self)) (ih hloop hmapped hrest fun c hc b hb => ?_)
      have hfin : bh.fin ≤ b := (hafter c hc).trans hb
      rw [hcsum1 b hfin, hcsum bh mem_cons_self b (hpos.le.trans hfin)]

theorem heads_cut (hheads : InOrder start fin heads) (x : ℕ) :
    heads = (heads.filter fun bh => bh.start < x) ++ heads.filter fun bh => x ≤ bh.start := by
  have hsorted : Keyed.Sorted start heads := by
    refine hheads.apart.imp_of_mem fun {a b} ha _ hle => ?_
    exact (hheads.pos a ha).trans_le hle
  obtain ⟨pre, post, rfl, hpre, hpost⟩ := Keyed.exists_lower_cut hsorted x
  rw [filter_append, filter_append, filter_eq_self.mpr fun b hb => decide_eq_true (hpre b hb),
    filter_eq_nil_iff.mpr fun b hb => by simpa using hpost b hb,
    filter_eq_nil_iff.mpr fun b hb => by simpa using hpre b hb,
    filter_eq_self.mpr fun b hb => decide_eq_true (hpost b hb), append_nil, nil_append]

/-- **`rx_finish`.** -/
theorem rxFinish_spec (h : rxFinish true rd heads f = some (heads', f')) (hon : f.on.Mapped)
    (hheads : InOrder start fin heads) : Replaced (Completed f.on rd) heads heads' := by
  obtain ⟨⟨hs, f1⟩, hloop, ⟨⟩⟩ := map_eq_some_iff.mp h
  have hcut := heads_cut hheads rd.start
  rw [hcut] at hheads
  obtain ⟨hpre, hpost, -⟩ := inOrder_append.mp hheads
  have hbefore : Replaced (Completed f.on rd) (heads.filter fun bh => bh.start < rd.start)
      (heads.filter fun bh => bh.start < rd.start) := by
    refine Replaced.self fun b hb => completed_kept (hpre.pos b hb) ⟨rfl, rfl⟩ fun hcon => ?_
    have hlt : b.start < rd.start := by simpa using (mem_filter.mp hb).2
    exact absurd hlt (not_lt.mpr hcon.1.1)
  have happend := hbefore.append (rxFinishLoop_spec hloop hon hpost fun _ _ _ _ => rfl)
  rwa [← hcut] at happend

theorem not_marked (hon : f.on.Mapped) (hheads : InOrder start fin heads)
    (h : rxFinish true rd heads f = some (heads', f')) (hbh : bh ∈ heads) (hspans : rd.Spans bh) (hrx : bh.state = .rx)
    (hmis : Mismatch f.on rd (bh.fin - 1)) : ¬ Marked f.on rd heads heads' := by
  intro hm
  have hreplaced := rxFinish_spec h hon hheads
  obtain ⟨hs, hc, hsub⟩ := hreplaced.of_mem hbh
  obtain ⟨last, hmem, hlast, hclean⟩ := hc.last hspans hrx
  have hin := hc.tiled.within last hmem
  obtain ⟨g, hg, hgb, hstate⟩ := hm.marks bh hbh hspans hrx (bh.fin - 1) ⟨hin.1.trans hlast.1, hlast.2.trans_le hin.2⟩
  obtain rfl := hm.inOrder.unique (hsub last hmem) hg hlast hgb
  rw [hclean, verdict, if_pos hmis] at hstate
  nomatch hstate

/-- **Corrupt blocks are not served as clean** if and only if the last block of each head that waits for the read is a
good one. -/
theorem rx_finish_marks (hon : f.on.Mapped) (hheads : InOrder BufferHead.start BufferHead.fin heads)
    (h : rxFinish true rd heads f = some (heads', f')) :
    Marked f.on rd heads heads' ↔
      ∀ bh ∈ heads, rd.Spans bh → bh.state = .rx → ¬ Mismatch f.on rd (bh.fin - 1) := by
  constructor
  · intro hm bh hbh hspans hrx hmis
    exact not_marked hon hheads h hbh hspans hrx hmis hm
  · intro hgood
    have hreplaced := rxFinish_spec h hon hheads
    have htiled : ∀ bh hs, Completed f.on rd bh hs → Tiled start fin bh.start bh.fin hs :=
      fun _ _ hc => hc.tiled
    refine ⟨fun bh hbh hspans hrx b hb => ?_, hreplaced.inOrder htiled hheads,
      fun b => hreplaced.covered_iff htiled, fun g hg => ?_⟩
    · obtain ⟨hs, hc, hsub⟩ := hreplaced.of_mem hbh
      obtain ⟨g, hg, hgb⟩ := hc.tiled.covered_iff.mpr hb
      exact ⟨g, hsub g hg, hgb, hc.marked hspans hrx (hgood bh hbh hspans hrx) g hg b hgb⟩
    · obtain ⟨bh, hbh, hs, hc, hmem⟩ := hreplaced.of_mem' hg
      exact ⟨bh, hbh, hc.tiled.within g hmem⟩

end finish

/-! ### One block -/

/-- A read of one block of zeros, where the onode wants a checksum. -/
def zerosRead : RxDone := ⟨1, 0, 1, List.replicate blockSize 0⟩

def zerosHead : BufferHead := { BufferHead.new 0 1 with state := .rx, rxIoh := 1 }

def zerosWanted (csum : UInt64) : Finishing where
  on := ⟨blockSize, 1, csum, [(0, ⟨⟨8, 1⟩, [csum]⟩)], empty, empty, true⟩
  bc := ⟨fun s => if s = .rx then 1 else 0, 0, fun _ => 0, [], 1⟩
  waiters := []

theorem zerosRead_done (csum : UInt64) :
    ∃ heads' f', rxFinish true zerosRead [zerosHead] (zerosWanted csum) = some (heads', f') := by
  have hall : ∀ n, substrOf (replicate n 0) (0 * n) (1 * n) = some (replicate n 0) := fun n => by
    simp [substrOf]
  have hdata : substrOf zerosRead.bl ((zerosHead.start - zerosRead.start) * blockSize) (zerosHead.length * blockSize) =
      some (replicate blockSize 0) := hall blockSize
  have hcounted : Counted (fun _ => 0) [(triggered zerosRead zerosHead (zerosWanted csum).waiters).1]
      (zerosWanted csum).bc := by
    intro s
    cases s <;> rfl
  obtain ⟨hs, bc', hfinish, -⟩ := @finishRx_counted zerosRead (zerosWanted csum).on _ _ [csum] _ _ [] true
    hcounted rfl (show 0 < 1 by decide) hdata rfl
  refine ⟨hs, ⟨(zerosWanted csum).on, bc', []⟩, ?_⟩
  have hhead : finishHead true zerosRead zerosHead (zerosWanted csum) = some (hs, ⟨(zerosWanted csum).on, bc', []⟩) := by
    rw [finishHead_rx rfl, hfinish]
    rfl
  have hloop : rxFinishLoop true zerosRead [zerosHead] (zerosWanted csum) =
      some (hs ++ [], ⟨(zerosWanted csum).on, bc', []⟩) := by
    rw [rxFinishLoop, if_neg (by decide), if_neg (by decide), hhead]
    rfl
  have hfilter : [zerosHead].filter (fun bh => zerosRead.start ≤ bh.start) = [zerosHead] := rfl
  rw [rxFinish, hfilter, hloop, append_nil]
  rfl

theorem zeros_mismatch (csum : UInt64) : Mismatch (zerosWanted csum).on zerosRead 0 ↔ csum ≠ 0 := by
  have hblock : blockCsum zerosRead.bl (0 - zerosRead.start) = 0 := by
    have hall : ∀ n, ((replicate n (0 : UInt8)).drop (0 * n)).take n = replicate n 0 := fun n => by simp
    change calcCsum (((replicate blockSize 0).drop (0 * blockSize)).take blockSize) = 0
    rw [hall]
    exact calcCsum_zeros 512
  rw [Mismatch, hblock]
  change some csum ≠ some 0 ↔ _
  simp

theorem zeros_mapped (csum : UInt64) : (zerosWanted csum).on.Mapped := pairwise_singleton _ _

theorem zeros_inOrder : InOrder start fin [zerosHead] :=
  ⟨forall_mem_singleton.mpr (by decide), pairwise_singleton _ _⟩

theorem rx_finish_marks_zeros : ∃ heads' f', rxFinish true zerosRead [zerosHead] (zerosWanted 0) = some (heads', f') ∧
    Marked (zerosWanted 0).on zerosRead [zerosHead] heads' := by
  obtain ⟨heads', f', h⟩ := zerosRead_done 0
  refine ⟨heads', f', h, (rx_finish_marks (zeros_mapped 0) zeros_inOrder h).mpr ?_⟩
  rintro bh hbh - -
  obtain rfl := mem_singleton.mp hbh
  exact fun hmis => (zeros_mismatch 0).mp hmis rfl

/-- Zeros are not what was wanted, and the head is clean. -/
theorem rx_finish_corrupt_block : ∃ heads' f', rxFinish true zerosRead [zerosHead] (zerosWanted 1) = some (heads', f') ∧
    ¬ Marked (zerosWanted 1).on zerosRead [zerosHead] heads' := by
  obtain ⟨heads', f', h⟩ := zerosRead_done 1
  exact ⟨heads', f', h, not_marked (zeros_mapped 1) zeros_inOrder h mem_cons_self (by decide) rfl
    ((zeros_mismatch 1).mpr (by decide))⟩

end Cache
end Ebofs
end Ceph
