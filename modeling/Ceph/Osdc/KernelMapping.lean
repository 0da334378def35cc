/-
# The kernel's striping

`calc_file_object_mapping` of `kernel/osdmap.c` maps the beginning of a file
range to an extent of one object, and leaves the offset and length of what the
next call is for. Its callers move the bytes of the file from `off` on to
the bytes of the object from `oxoff` on, `oxlen` of them.

It is compared with `file_to_extents` (`Striping`). The kernel has the offset in 32
bits, leaves out the units that are before in the object, and adds units of a
second stripe to the extent as if they came next in the file. What is left
is the kind of ranges of `Meets`.
-/
import Ceph.Osdc.Striping

namespace Ceph
open List
namespace Osdc
namespace KernelMapping

/-- What is written: the object and the extent in it, and the offset and length that are left. -/
structure Mapping where
  bno : ℕ           -- 32 bits
  oxoff : ℕ
  oxlen : ℕ
  off : ℕ
  len : ℤ

/-- `stripe_len`, of 32 bits. -/
def stripeLen (l : FileLayout) : ℕ := l.stripeCount * l.stripeUnit % 2 ^ 32

/-- "Multiple stripe units across this object?" The unit is not 0. -/
def oxlenLoop (unit stripeLen objectSize oxoff t oxlen : ℕ) : ℕ :=
  if _ : 0 < unit ∧ stripeLen < t ∧ oxoff + oxlen < objectSize then
    oxlenLoop unit stripeLen objectSize oxoff (t - stripeLen) (oxlen + min unit t)
  else oxlen
termination_by objectSize - (oxoff + oxlen)

/-- `calc_file_object_mapping`; `none` is a `BUG_ON` or a division by 0. -/
def calcFileObjectMapping (pageSize : ℕ) (l : FileLayout) (off len : ℕ) : Option Mapping :=
  if 0 < l.stripeUnit ∧ pageSize ∣ l.stripeUnit ∧ 0 < l.stripeCount ∧ 0 < l.stripesPerObject then
    -- unsigned su = *off
    let su := off % 2 ^ 32 / l.stripeUnit
    let stripeno := su / l.stripeCount
    let stripepos := su % l.stripeCount
    let objsetno := stripeno / l.stripesPerObject
    let oxoff := off % l.stripeUnit
    let firstOxlen := min len l.stripeUnit
    let oxlen := oxlenLoop l.stripeUnit (stripeLen l) l.objectSize oxoff len firstOxlen
    some ⟨(objsetno * l.stripeCount + stripepos) % 2 ^ 32, oxoff, oxlen, off + firstOxlen, len - oxlen⟩
  else none

/-- A byte of the file, and the object and the offset where it is. -/
def Mapping.pairs (off : ℕ) (m : Mapping) : List (ℕ × ℕ × ℕ) :=
  (List.range m.oxlen).map fun i => (off + i, m.bno, m.oxoff + i)

theorem le_oxlenLoop (unit stripeLen objectSize oxoff t oxlen : ℕ) :
    oxlen ≤ oxlenLoop unit stripeLen objectSize oxoff t oxlen := by
  fun_induction oxlenLoop unit stripeLen objectSize oxoff t oxlen with
  | case1 t oxlen h ih => exact (Nat.le_add_right _ _).trans ih
  | case2 t oxlen h => exact le_rfl

theorem calc_len_lt {pageSize : ℕ} {l : FileLayout} {off len : ℕ} {m : Mapping} (hlen : 0 < len)
    (h : calcFileObjectMapping pageSize l off len = some m) : m.len.toNat < len := by
  unfold calcFileObjectMapping at h
  split_ifs at h with hok
  cases h
  have hle := le_oxlenLoop l.stripeUnit (stripeLen l) l.objectSize (off % l.stripeUnit) len (min len l.stripeUnit)
  dsimp only
  omega

/-- The calls for a range, as long as something is left. -/
def kernelMap (pageSize : ℕ) (l : FileLayout) (off len : ℕ) : Option (List (ℕ × ℕ × ℕ)) :=
  if _ : 0 < len then
    match _ : calcFileObjectMapping pageSize l off len with
    | none => none
    | some m => (kernelMap pageSize l m.off m.len.toNat).map (m.pairs off ++ ·)
  else some []
termination_by len
decreasing_by exact calc_len_lt ‹_› ‹_›

end KernelMapping

/-- A byte of the file, and the object and the offset where it is. -/
def ObjectExtent.pairs (offset : ℕ) (ex : ObjectExtent) : List (ℕ × ℕ × ℕ) :=
  (ex.positions.zip (List.range' ex.start ex.length)).map fun p => (offset + p.1, ex.oid.bno, p.2)

namespace KernelMapping

/-- The byte of the file is at its place by the formula, and between `a` and `b`. -/
def OnFile (l : FileLayout) (a b : ℕ) (q : ℕ × ℕ × ℕ) : Prop :=
  a ≤ q.1 ∧ q.1 < b ∧ q.2 = (l.objectNo q.1 % 2 ^ 32, l.xOffset q.1)

/-- Both striping functions return, and map the same bytes of the file to the same bytes of objects. -/
def Agree (pageSize : ℕ) (l : FileLayout) (objectLayout : ObjectT → ℕ) (ino rev off len : ℕ) : Prop :=
  ∃ exts ps, fileToExtents l objectLayout ino off len rev = some exts ∧ kernelMap pageSize l off len = some ps ∧
    ∀ q, q ∈ ps ↔ q ∈ exts.flatMap (·.pairs off)

/-! ### When they agree -/

/-- The unit of the byte is the first of its object, whose number the low 32 bits of the offset give. -/
def First (l : FileLayout) (p : ℕ) : Prop :=
  p / l.stripeUnit / l.stripeCount % l.stripesPerObject = 0 ∧
    l.objectNo p % 2 ^ 32 = l.objectNo (p % 2 ^ 32) % 2 ^ 32

/-- The range is inside a unit that is the first of its object, and too short for the loop. -/
def OneUnit (l : FileLayout) (off len : ℕ) : Prop :=
  off % l.stripeUnit + len ≤ l.stripeUnit ∧ First l off ∧ (len ≤ stripeLen l ∨ l.objectSize ≤ off % l.stripeUnit + len)

/-- The range begins with a unit, and each unit is the first of its object. -/
def WholeUnits (l : FileLayout) (off len : ℕ) : Prop :=
  off % l.stripeUnit = 0 ∧ (∀ k, k * l.stripeUnit < len → First l (off + k * l.stripeUnit)) ∧
    (len ≤ stripeLen l ∨ l.objectSize = l.stripeUnit ∧ len % l.stripeUnit ≤ stripeLen l)

/-- Objects are not interleaved, and the range is in one of them, and begins in its first unit. -/
def OneObject (l : FileLayout) (off len : ℕ) : Prop :=
  l.stripeCount = 1 ∧ off % l.stripeUnit + len ≤ l.stripesPerObject * l.stripeUnit ∧ First l off ∧
    (len ≤ l.stripeUnit ∨ l.stripeUnit ∣ len)

/-- The layout is one for `file_to_extents`, and the range is of one of the kinds. -/
def Meets (pageSize : ℕ) (l : FileLayout) (off len : ℕ) : Prop :=
  0 < l.stripeUnit ∧ l.stripeUnit ≤ l.objectSize ∧
    (len = 0 ∨ pageSize ∣ l.stripeUnit ∧ 0 < l.stripeCount ∧
      (OneUnit l off len ∨ WholeUnits l off len ∨ OneObject l off len))

/-! ### The user's side -/

variable {l : FileLayout} {objectLayout : ObjectT → ℕ}

/-- The extents of a walk have the bytes of the range, at their places. -/
theorem mem_pairs_walked {ino rev off n : ℕ} {exts : List ObjectExtent}
    (h : Walked l objectLayout ino rev off n exts) (q : ℕ × ℕ × ℕ) :
    q ∈ exts.flatMap (·.pairs off) ↔ OnFile l off (off + n) q := by
  have hzip : ∀ ex ∈ exts, ex.pairs off =
      ex.positions.map fun p => (off + p, l.objectNo (off + p) % 2 ^ 32, l.xOffset (off + p)) := fun ex hex => by
    have hm := h.mapped ex hex
    refine ext_getElem ?_ fun i hi hi' => ?_
    · simp [ObjectExtent.pairs, hm.length_positions]
    · rw [length_map] at hi'
      obtain ⟨hbno, hoff⟩ := hm.getElem hi'
      rw [getElem_map, hbno, hoff]
      simp [ObjectExtent.pairs]
  constructor
  · intro hq
    obtain ⟨ex, hex, hq⟩ := mem_flatMap.mp hq
    rw [hzip ex hex] at hq
    obtain ⟨p, hp, rfl⟩ := List.mem_map.mp hq
    have hlt := mem_range.mp (h.perm.subset (mem_flatMap.mpr ⟨ex, hex, hp⟩))
    exact ⟨Nat.le_add_right _ _, Nat.add_lt_add_left hlt _, rfl⟩
  · obtain ⟨y, b, x⟩ := q
    rintro ⟨hle, hlt, heq⟩
    obtain ⟨p, rfl⟩ : ∃ p, y = off + p := ⟨y - off, (Nat.add_sub_cancel' hle).symm⟩
    obtain ⟨ex, hex, hp⟩ := mem_flatMap.mp
      (h.perm.symm.subset (mem_range.mpr (lt_of_add_lt_add_left hlt : p < n)))
    refine mem_flatMap.mpr ⟨ex, hex, ?_⟩
    rw [hzip ex hex]
    exact List.mem_map.mpr ⟨p, hp, by rw [Prod.mk.injEq]; exact ⟨rfl, heq.symm⟩⟩

/-! ### One call -/

section call

variable {pageSize : ℕ} {l : FileLayout} {off len : ℕ} {m : Mapping} {ps : List (ℕ × ℕ × ℕ)}

variable {objectSize oxlen oxoff : ℕ}

theorem oxlenLoop_stop {unit stripeLen t : ℕ} (h : ¬ (stripeLen < t ∧ oxoff + oxlen < objectSize)) :
    oxlenLoop unit stripeLen objectSize oxoff t oxlen = oxlen := by
  rw [oxlenLoop, dif_neg fun hc => h hc.2]

theorem oxlenLoop_more {unit stripeLen t : ℕ} (hunit : 0 < unit)
    (h : stripeLen < t ∧ oxoff + oxlen < objectSize) : oxlenLoop unit stripeLen objectSize oxoff t oxlen =
      oxlenLoop unit stripeLen objectSize oxoff (t - stripeLen) (oxlen + min unit t) := by
  rw [oxlenLoop, dif_pos ⟨hunit, h⟩]

theorem dvd_oxlenLoop {unit t : ℕ} (h : unit ∣ oxlen) :
    unit ∣ oxlenLoop unit unit objectSize oxoff t oxlen := by
  fun_induction oxlenLoop unit unit objectSize oxoff t oxlen with
  | case1 t oxlen hc ih =>
    refine ih (Nat.dvd_add h ?_)
    rw [Nat.min_eq_left hc.2.1.le]
  | case2 t oxlen hc => exact h

theorem oxlenLoop_units {unit t : ℕ} (ht : unit ∣ t) (hpos : 0 < t)
    (hroom : oxoff + oxlen + t ≤ objectSize + unit) :
    oxlenLoop unit unit objectSize oxoff t oxlen = oxlen + t - unit := by
  fun_induction oxlenLoop unit unit objectSize oxoff t oxlen with
  | case1 t oxlen hc ih =>
    rw [ih (Nat.dvd_sub ht (Nat.dvd_refl _)) (by omega) (by omega)]
    omega
  | case2 t oxlen hc =>
    have hle := Nat.le_of_dvd hpos ht
    have hunit : 0 < unit := Nat.pos_of_dvd_of_pos ht hpos
    omega

theorem calc_eq (off len : ℕ) (hunit : 0 < l.stripeUnit) (hpage : pageSize ∣ l.stripeUnit) (hcount : 0 < l.stripeCount)
    (hsize : l.stripeUnit ≤ l.objectSize) : calcFileObjectMapping pageSize l off len =
      some ⟨l.objectNo (off % 2 ^ 32) % 2 ^ 32, off % l.stripeUnit,
        oxlenLoop l.stripeUnit (stripeLen l) l.objectSize (off % l.stripeUnit) len (min len l.stripeUnit),
        off + min len l.stripeUnit,
        len - oxlenLoop l.stripeUnit (stripeLen l) l.objectSize (off % l.stripeUnit) len (min len l.stripeUnit)⟩ :=
  if_pos ⟨hunit, hpage, hcount, Nat.div_pos hsize hunit⟩

theorem calc_some (h : calcFileObjectMapping pageSize l off len = some m) :
    0 < l.stripeUnit ∧ pageSize ∣ l.stripeUnit ∧ 0 < l.stripeCount ∧ 0 < l.stripesPerObject := by
  unfold calcFileObjectMapping at h
  split_ifs at h with hok
  exact hok

theorem kernelMap_zero : kernelMap pageSize l off 0 = some [] := by
  rw [kernelMap, dif_neg (lt_irrefl 0)]

theorem kernelMap_step (hlen : 0 < len) (h : calcFileObjectMapping pageSize l off len = some m) :
    kernelMap pageSize l off len = (kernelMap pageSize l m.off m.len.toNat).map (m.pairs off ++ ·) := by
  rw [kernelMap, dif_pos hlen]
  split
  · rename_i hnone
    rw [h] at hnone
    cases hnone
  · rename_i m' hm
    rw [h] at hm
    cases hm
    rfl

theorem kernelMap_none (hlen : 0 < len) (h : calcFileObjectMapping pageSize l off len = none) :
    kernelMap pageSize l off len = none := by
  rw [kernelMap, dif_pos hlen]
  split
  · rfl
  · rename_i m' hm
    rw [h] at hm
    cases hm

theorem mem_pairs {q : ℕ × ℕ × ℕ} : q ∈ m.pairs off ↔ ∃ i < m.oxlen, q = (off + i, m.bno, m.oxoff + i) := by
  simp [Mapping.pairs, eq_comm]

/-- A call and those after it are for what is further on. -/
theorem le_of_mem_kernelMap : ∀ {off len : ℕ} {ps : List (ℕ × ℕ × ℕ)}, kernelMap pageSize l off len = some ps →
    ∀ q ∈ ps, off ≤ q.1 := by
  intro off len
  induction len using Nat.strong_induction_on generalizing off with
  | _ len ih =>
    intro ps h q hq
    rcases eq_zero_or_pos len with rfl | hlen
    · rw [kernelMap_zero] at h
      cases h
      cases hq
    cases hm : calcFileObjectMapping pageSize l off len with
    | none =>
      rw [kernelMap_none hlen hm] at h
      cases h
    | some m =>
      rw [kernelMap_step hlen hm] at h
      obtain ⟨rest, hrest, rfl⟩ := Option.map_eq_some_iff.mp h
      rcases mem_append.mp hq with hq | hq
      · obtain ⟨i, -, rfl⟩ := mem_pairs.mp hq
        exact Nat.le_add_right _ _
      · have hoff : off ≤ m.off := by
          unfold calcFileObjectMapping at hm
          split_ifs at hm
          cases hm
          exact Nat.le_add_right _ _
        exact hoff.trans (ih _ (calc_len_lt hlen hm) hrest q hq)

end call

/-! ### Units that follow in their object -/

section layout

variable {l : FileLayout} {off n : ℕ}

variable {i : ℕ}

theorem inside_unit (hl : l.Valid)
    (hfirst : First l off) (hi : off % l.stripeUnit + i < l.stripeUnit) :
    l.objectNo (off + i) = l.objectNo off ∧ l.xOffset (off + i) = off % l.stripeUnit + i := by
  have ho : l.objectNo (off + i) = l.objectNo off := Stripes.object_add (s := l.stripes hl.unit hl.count hl.size) hi
  have hx : l.xOffset (off + i) = l.xOffset off + i := Stripes.offset_add (s := l.stripes hl.unit hl.count hl.size) hi
  refine ⟨ho, hx.trans ?_⟩
  rw [FileLayout.xOffset, hfirst.1, Nat.zero_mul, zero_add]

theorem inside_object (hcount : l.stripeCount = 1) (hfirst : First l off)
    (hi : off % l.stripeUnit + i < l.stripesPerObject * l.stripeUnit) :
    l.objectNo (off + i) = l.objectNo off ∧ l.xOffset (off + i) = off % l.stripeUnit + i := by
  have hno : ∀ y, l.objectNo y = y / (l.stripeUnit * l.stripesPerObject) := fun y => by
    rw [FileLayout.objectNo, hcount, Nat.div_one, Nat.mod_one, Nat.mul_one, Nat.add_zero, Nat.div_div_eq_div_mul]
  have hoff : ∀ y, l.xOffset y = y % (l.stripeUnit * l.stripesPerObject) := fun y => by
    rw [FileLayout.xOffset, hcount, Nat.div_one, Nat.mod_mul, Nat.mul_comm, Nat.add_comm]
  have hmod : off % (l.stripeUnit * l.stripesPerObject) = off % l.stripeUnit := by
    rw [← hoff, FileLayout.xOffset, hfirst.1, Nat.zero_mul, zero_add]
  rw [mul_comm, ← hmod] at hi
  have hpos : 0 < l.stripeUnit * l.stripesPerObject := Nat.zero_lt_of_lt hi
  have hsplit := Nat.div_add_mod off (l.stripeUnit * l.stripesPerObject)
  rw [hno, hno, hoff, ← hmod, ← hsplit, add_assoc, Nat.mul_add_div hpos, Nat.mul_add_mod, Nat.mod_eq_of_lt hi,
    Nat.div_eq_of_lt hi, Nat.mul_add_div hpos, Nat.div_eq_of_lt (Nat.mod_lt _ hpos), Nat.mul_add_mod, Nat.mod_mod]
  exact ⟨rfl, rfl⟩

theorem next_unit {count u : ℕ} (hcount : 0 < count) :
    (u + 1) / count = u / count ∨ u % count + 1 = count ∧ (u + 1) / count = u / count + 1 ∧ (u + 1) % count = 0 := by
  obtain ⟨q, hq⟩ : ∃ q, q = u / count := ⟨_, rfl⟩
  obtain ⟨c, hc⟩ : ∃ c, c = u % count := ⟨_, rfl⟩
  have hlt : c < count := hc ▸ Nat.mod_lt u hcount
  have hu : u = count * q + c := by rw [hq, hc, Nat.div_add_mod]
  rw [← hq, ← hc]
  rcases (Nat.succ_le_of_lt hlt).lt_or_eq with hin | hend
  · refine .inl ?_
    rw [hu, add_assoc, Nat.mul_add_div hcount, Nat.div_eq_of_lt hin, add_zero]
  · have hnext : u + 1 = count * (q + 1) := by rw [hu, add_assoc, mul_add_one]; exact congrArg _ hend
    rw [hnext, Nat.mul_div_cancel_left _ hcount, Nat.mul_mod_right]
    exact .inr ⟨hend, rfl, rfl⟩

/-- Where the next unit of the file is the next of the same object, objects are not interleaved. -/
theorem count_of_crossing (hunit : 0 < l.stripeUnit) (hcount : 0 < l.stripeCount) (hwidth : l.stripeCount < 2 ^ 32)
    (hrow : off / l.stripeUnit / l.stripeCount % l.stripesPerObject = 0)
    (hno : l.objectNo (off + (l.stripeUnit - off % l.stripeUnit)) % 2 ^ 32 = l.objectNo off % 2 ^ 32)
    (hoff : l.xOffset (off + (l.stripeUnit - off % l.stripeUnit)) = l.stripeUnit) : l.stripeCount = 1 := by
  obtain ⟨u, hu⟩ : ∃ u, u = off / l.stripeUnit := ⟨_, rfl⟩
  have hlt := Nat.mod_lt off hunit
  have hnext : off + (l.stripeUnit - off % l.stripeUnit) = (u + 1) * l.stripeUnit := by
    have hsplit := Nat.div_add_mod' off l.stripeUnit
    rw [← hu] at hsplit
    rw [add_one_mul]
    omega
  rw [hnext] at hno hoff
  rw [FileLayout.xOffset, Nat.mul_mod_left, Nat.mul_div_cancel _ hunit, Nat.add_zero] at hoff
  have hone : (u + 1) / l.stripeCount % l.stripesPerObject = 1 :=
    Nat.eq_of_mul_eq_mul_right hunit (hoff.trans (one_mul _).symm)
  rw [← hu] at hrow
  rw [FileLayout.objectNo, FileLayout.objectNo, Nat.mul_div_cancel _ hunit, ← hu] at hno
  rcases next_unit hcount (u := u) with hsame | ⟨hlast, hdiv, hmod⟩
  · rw [hsame, hrow] at hone
    cases hone
  · rw [hdiv] at hone hno
    -- the two rows are of the same objects
    have hset : (u / l.stripeCount + 1) / l.stripesPerObject = u / l.stripeCount / l.stripesPerObject := by
      refine Nat.succ_div_of_not_dvd fun hdvd => ?_
      rw [Nat.mod_eq_zero_of_dvd hdvd] at hone
      cases hone
    rw [hset] at hno
    omega

theorem xOffset_lt (hl : l.Valid)
    (y : ℕ) : l.xOffset y < l.stripesPerObject * l.stripeUnit := Stripes.offset_lt (l.stripes hl.unit hl.count hl.size) y

theorem room_le (l : FileLayout) : l.stripesPerObject * l.stripeUnit ≤ l.objectSize := Nat.div_mul_le_self _ _

theorem stripeLen_one (hcount : l.stripeCount = 1) (hwidth : l.stripeUnit < 2 ^ 32) : stripeLen l = l.stripeUnit := by
  rw [stripeLen, hcount, one_mul, Nat.mod_eq_of_lt hwidth]

end layout

/-! ### A mapping that is right -/

section sound

variable {pageSize : ℕ} {l : FileLayout} {off len : ℕ} {ps : List (ℕ × ℕ × ℕ)}

/-- One call: each byte that it maps is of the range and at its place. -/
def Sound (l : FileLayout) (off len oxlen : ℕ) : Prop :=
  ∀ i < oxlen, i < len ∧ l.objectNo (off + i) % 2 ^ 32 = l.objectNo (off % 2 ^ 32) % 2 ^ 32 ∧
    l.xOffset (off + i) = off % l.stripeUnit + i

variable {oxlen : ℕ}

theorem Sound.first (hunit : 0 < l.stripeUnit) (h : Sound l off len oxlen) (hpos : 0 < oxlen) :
    First l off := by
  obtain ⟨-, hno, hoff⟩ := h 0 hpos
  refine ⟨?_, hno⟩
  rw [add_zero, add_zero, FileLayout.xOffset] at hoff
  have hzero : off / l.stripeUnit / l.stripeCount % l.stripesPerObject * l.stripeUnit = 0 := by
    omega
  exact (Nat.mul_eq_zero.mp hzero).resolve_right hunit.ne'

theorem Sound.le (h : Sound l off len oxlen) : oxlen ≤ len := by
  by_contra hlt
  exact absurd (h len (not_le.mp hlt)).1 (lt_irrefl _)

theorem Sound.room (hl : l.Valid) (h : Sound l off len oxlen) (hpos : 0 < oxlen) :
    off % l.stripeUnit + oxlen ≤ l.stripesPerObject * l.stripeUnit := by
  have hlast := xOffset_lt hl (off + (oxlen - 1))
  rw [(h (oxlen - 1) (by omega)).2.2] at hlast
  omega

theorem Sound.count (hunit : 0 < l.stripeUnit) (hcount : 0 < l.stripeCount) (hwidth : l.stripeCount < 2 ^ 32)
    
    (h : Sound l off len oxlen) (hcross : l.stripeUnit < off % l.stripeUnit + oxlen) : l.stripeCount = 1 := by
  have hmod := Nat.mod_lt off hunit
  obtain ⟨-, hno, hoff⟩ := h (l.stripeUnit - off % l.stripeUnit) (by omega)
  have hfirst := h.first hunit (by omega)
  exact count_of_crossing hunit hcount hwidth hfirst.1 (hno.trans hfirst.2.symm) (by omega)

theorem kernelMap_sound (hl : l.Valid) (hpage : pageSize ∣ l.stripeUnit) (hlen : 0 < len) {n : ℕ}
    (hox : oxlen = oxlenLoop l.stripeUnit (stripeLen l) l.objectSize (off % l.stripeUnit) len (min len l.stripeUnit))
    (h : kernelMap pageSize l off len = some ps) (hps : ∀ q ∈ ps, OnFile l off (off + n) q) :
    Sound l off n oxlen ∧ ∃ rest, kernelMap pageSize l (off + min len l.stripeUnit) (len - oxlen) = some rest ∧
      ∀ q ∈ rest, OnFile l (off + min len l.stripeUnit) (off + n) q := by
  have hcall := calc_eq off len hl.unit hpage hl.count hl.size
  rw [← hox] at hcall
  rw [kernelMap_step hlen hcall] at h
  obtain ⟨rest, hrest, rfl⟩ := Option.map_eq_some_iff.mp h
  have hleft : ((len : ℤ) - oxlen).toNat = len - oxlen := by omega
  rw [hleft] at hrest
  refine ⟨fun i hi => ?_, rest, hrest, fun q hq => ?_⟩
  · obtain ⟨-, hlt, heq⟩ := hps _ (mem_append_left _ (mem_pairs.mpr ⟨i, hi, rfl⟩))
    obtain ⟨hno, hoff⟩ := Prod.ext_iff.mp heq
    exact ⟨lt_of_add_lt_add_left hlt, hno.symm, hoff.symm⟩
  · obtain ⟨-, hlt, heq⟩ := hps q (mem_append_right _ hq)
    exact ⟨le_of_mem_kernelMap hrest q hq, hlt, heq⟩

theorem OneUnit.whole (hsize : l.stripeUnit ≤ l.objectSize) (hstart : off % l.stripeUnit = 0) (h : OneUnit l off len) :
    WholeUnits l off len := by
  obtain ⟨hin, hfirst, hshort⟩ := h
  refine ⟨hstart, fun k hk => ?_, hshort.imp_right fun hlong => ?_⟩
  · rcases eq_zero_or_pos k with rfl | hpos
    · rwa [Nat.zero_mul]
    · have := Nat.mul_le_mul_right l.stripeUnit hpos
      omega
  · obtain rfl : len = l.stripeUnit := by omega
    rw [Nat.mod_self]
    exact ⟨by omega, Nat.zero_le _⟩

theorem OneObject.whole (hunit32 : l.stripeUnit < 2 ^ 32) (hstart : off % l.stripeUnit = 0)
    (hrows : l.stripesPerObject = 1)
    (h : OneObject l off len) : WholeUnits l off len := by
  obtain ⟨hone, hroom, hfirst, -⟩ := h
  rw [hstart, hrows, zero_add, one_mul] at hroom
  refine ⟨hstart, fun k hk => ?_, .inl (by rwa [stripeLen_one hone hunit32])⟩
  rcases eq_zero_or_pos k with rfl | hpos
  · rwa [Nat.zero_mul]
  · have := Nat.mul_le_mul_right l.stripeUnit hpos
    omega

theorem WholeUnits.cons (hsize : l.stripeUnit ≤ l.objectSize) (hstart : off % l.stripeUnit = 0) (hfirst : First l off)
    (hlong : l.stripeUnit < len) (hstop : ¬ (stripeLen l < len ∧ l.stripeUnit < l.objectSize))
    (h : WholeUnits l (off + l.stripeUnit) (len - l.stripeUnit)) : WholeUnits l off len := by
  obtain ⟨-, hall, hshort⟩ := h
  refine ⟨hstart, fun k hk => ?_, ?_⟩
  · cases k with
    | zero => rwa [Nat.zero_mul, add_zero]
    | succ k =>
      rw [add_one_mul] at hk
      have hnext := hall k (by omega)
      rwa [add_assoc, add_comm l.stripeUnit, ← add_one_mul] at hnext
  · rcases lt_or_ge (stripeLen l) len with hlt | hge
    · refine .inr ⟨by omega, ?_⟩
      rw [← Nat.mod_eq_sub_mod hlong.le] at hshort
      rcases hshort with hle | ⟨-, hle⟩
      · rw [Nat.mod_eq_sub_mod hlong.le]
        exact (Nat.mod_le _ _).trans hle
      · exact hle
    · exact .inl hge

theorem rows_of_first (hunit : 0 < l.stripeUnit) (hone : l.stripeCount = 1) (h : First l off)
    (hnext : First l (off + l.stripeUnit)) : l.stripesPerObject = 1 := by
  have h0 := h.1
  have h1 := hnext.1
  rw [hone, Nat.div_one] at h0 h1
  rw [Nat.add_div_right _ hunit] at h1
  exact Nat.dvd_one.mp ((Nat.dvd_add_right (Nat.dvd_of_mod_eq_zero h0)).mp (Nat.dvd_of_mod_eq_zero h1))

/-- **A right mapping is of one of the kinds.** -/
theorem kinds_of_sound (hl : l.Valid)
    (hpage : pageSize ∣ l.stripeUnit) (hunit32 : l.stripeUnit < 2 ^ 32) (hcount32 : l.stripeCount < 2 ^ 32) :
    ∀ {len off : ℕ} {ps : List (ℕ × ℕ × ℕ)}, 0 < len → kernelMap pageSize l off len = some ps →
      (∀ q ∈ ps, OnFile l off (off + len) q) → OneUnit l off len ∨ WholeUnits l off len ∨ OneObject l off len := by
  intro len
  induction len using Nat.strong_induction_on with
  | _ len ih =>
    intro off ps hlen h hps
    obtain ⟨oxlen, hox⟩ : ∃ oxlen, oxlen =
        oxlenLoop l.stripeUnit (stripeLen l) l.objectSize (off % l.stripeUnit) len (min len l.stripeUnit) := ⟨_, rfl⟩
    obtain ⟨hsound, rest, hrest, hon⟩ := kernelMap_sound hl hpage hlen hox h hps
    have hmin : 0 < min len l.stripeUnit := Nat.lt_min.mpr ⟨hlen, hl.unit⟩
    have hge := le_oxlenLoop l.stripeUnit (stripeLen l) l.objectSize (off % l.stripeUnit) len (min len l.stripeUnit)
    have hle := hsound.le
    have hfirst := hsound.first hl.unit (by omega)
    have hroom := hsound.room hl (by omega)
    have hmod := Nat.mod_lt off hl.unit
    by_cases hloop : stripeLen l < len ∧ off % l.stripeUnit + min len l.stripeUnit < l.objectSize
    · -- the loop has added a unit: it must have added all
      rw [oxlenLoop_more hl.unit hloop] at hox
      have hge2 := le_oxlenLoop l.stripeUnit (stripeLen l) l.objectSize (off % l.stripeUnit) (len - stripeLen l)
        (min len l.stripeUnit + min l.stripeUnit len)
      rw [← hox] at hge2
      have hlong : l.stripeUnit < len := by omega
      have hone := hsound.count hl.unit hl.count hcount32 (by omega)
      rw [stripeLen_one hone hunit32] at hox
      have hmin' : min len l.stripeUnit = l.stripeUnit := min_eq_right hlong.le
      rw [hmin'] at hge2 hrest hon hox
      have hall : oxlen = len := by
        by_contra hne
        -- the next call would be for the byte behind the first unit, which is mapped further on
        have hend : off + len = off + l.stripeUnit + (len - l.stripeUnit) := by omega
        rw [hend] at hon
        have hge' :=
          le_oxlenLoop l.stripeUnit (stripeLen l) l.objectSize ((off + l.stripeUnit) % l.stripeUnit) (len - oxlen)
          (min (len - oxlen) l.stripeUnit)
        obtain ⟨hsound', -⟩ := kernelMap_sound hl hpage (by omega) rfl hrest hon
        have hhere := (hsound' 0 (by omega)).2.2
        have hthere := (hsound l.stripeUnit (by omega)).2.2
        rw [add_zero, add_zero, Nat.add_mod_right] at hhere
        omega
      refine .inr (.inr ⟨hone, hall ▸ hroom, hfirst, .inr ?_⟩)
      rw [← hall, hox]
      refine dvd_oxlenLoop (Nat.dvd_add (Nat.dvd_refl _) ?_)
      rw [Nat.min_eq_left hlong.le]
    · rw [oxlenLoop_stop hloop] at hox
      rcases lt_or_ge l.stripeUnit len with hlong | hshort
      · -- a unit, and the rest by induction
        have hmin' : min len l.stripeUnit = l.stripeUnit := min_eq_right hlong.le
        rw [hmin'] at hox hloop hrest hon
        subst hox
        have hstart : off % l.stripeUnit = 0 := by
          by_contra hne
          have hone := hsound.count hl.unit hl.count hcount32 (by omega)
          rw [stripeLen_one hone hunit32] at hloop
          have hobject := room_le l
          rcases lt_or_ge l.stripesPerObject 2 with hrow | hrow
          · have := Nat.mul_le_mul_right l.stripeUnit (Nat.le_of_lt_succ hrow)
            omega
          · have := Nat.mul_le_mul_right l.stripeUnit hrow
            omega
        have hend : off + len = off + l.stripeUnit + (len - l.stripeUnit) := by omega
        rw [hend] at hon
        have hnext : (off + l.stripeUnit) % l.stripeUnit = 0 := by rw [Nat.add_mod_right, hstart]
        refine .inr (.inl (.cons hl.size hstart hfirst hlong (by omega) ?_))
        rcases ih (len - l.stripeUnit) (by omega) (by omega) hrest hon with hone | hwhole | hobject
        · exact hone.whole hl.size hnext
        · exact hwhole
        · exact hobject.whole hunit32 hnext (rows_of_first hl.unit hobject.1 hfirst hobject.2.2.1)
      · have hmin' : min len l.stripeUnit = len := min_eq_left hshort
        rw [hmin'] at hox hloop
        rw [hox] at hsound hroom
        rcases lt_or_ge l.stripeUnit (off % l.stripeUnit + len) with hcross | hin
        · exact .inr (.inr ⟨hsound.count hl.unit hl.count hcount32 hcross, hroom, hfirst, .inl hshort⟩)
        · exact .inl ⟨hin, hfirst, by omega⟩

end sound

/-! ### Ranges that are mapped right -/

section exact

variable {pageSize : ℕ} {l : FileLayout} {off len : ℕ}

/-- The calls for the range map its bytes to their places, and no others. -/
def MapsExactly (pageSize : ℕ) (l : FileLayout) (off len : ℕ) : Prop :=
  ∃ ps, kernelMap pageSize l off len = some ps ∧ ∀ q, q ∈ ps ↔ OnFile l off (off + len) q

theorem mapsExactly_zero (pageSize : ℕ) (l : FileLayout) (off : ℕ) : MapsExactly pageSize l off 0 :=
  ⟨[], kernelMap_zero, fun _ => iff_of_false nofun fun ⟨hle, hlt, _⟩ => absurd hlt hle.not_gt⟩

section

variable (hl : l.Valid) (hpage : pageSize ∣ l.stripeUnit)
include hl hpage

/-- A call that is right, and those for the rest. -/
theorem mapsExactly_step (hlen : 0 < len) (hfirst : First l off) (oxlen : ℕ)
    (hox : oxlenLoop l.stripeUnit (stripeLen l) l.objectSize (off % l.stripeUnit) len (min len l.stripeUnit) = oxlen)
    (hplace : ∀ i < oxlen, l.objectNo (off + i) = l.objectNo off ∧ l.xOffset (off + i) = off % l.stripeUnit + i)
    (hrest : oxlen = len ∨ oxlen = l.stripeUnit ∧ l.stripeUnit < len ∧
      MapsExactly pageSize l (off + l.stripeUnit) (len - l.stripeUnit)) : MapsExactly pageSize l off len := by
  have hcall := calc_eq off len hl.unit hpage hl.count hl.size
  rw [hox] at hcall
  have hleft : ((len : ℤ) - oxlen).toNat = len - oxlen := by omega
  obtain ⟨rest, hmap, hmem⟩ : ∃ rest, kernelMap pageSize l (off + min len l.stripeUnit) (len - oxlen) = some rest ∧
      ∀ q, q ∈ rest ↔ OnFile l (off + oxlen) (off + len) q := by
    rcases hrest with rfl | ⟨rfl, hlong, rest, hmap, hmem⟩
    · rw [Nat.sub_self]
      exact ⟨[], kernelMap_zero, fun _ => iff_of_false nofun fun ⟨hle, hlt, _⟩ => absurd hlt hle.not_gt⟩
    · rw [min_eq_right hlong.le]
      have hend : off + l.stripeUnit + (len - l.stripeUnit) = off + len := by omega
      rw [hend] at hmem
      exact ⟨rest, hmap, hmem⟩
  have hle : oxlen ≤ len := by
    rcases hrest with rfl | ⟨rfl, hlong, -⟩
    · exact le_rfl
    · exact hlong.le
  refine ⟨_, (kernelMap_step hlen hcall).trans (by rw [hleft, hmap]; rfl), fun q => ?_⟩
  rw [mem_append, hmem, mem_pairs]
  constructor
  · rintro (⟨i, hi, rfl⟩ | ⟨hlow, hlt, heq⟩)
    · obtain ⟨hno, hoff⟩ := hplace i hi
      refine ⟨Nat.le_add_right _ _, Nat.add_lt_add_left (hi.trans_le hle) _, ?_⟩
      rw [hno, hoff, hfirst.2]
    · exact ⟨by omega, hlt, heq⟩
  · obtain ⟨y, b, x⟩ := q
    rintro ⟨hlow, hlt, heq⟩
    rcases lt_or_ge y (off + oxlen) with hin | hout
    · obtain ⟨i, rfl⟩ : ∃ i, y = off + i := ⟨y - off, (Nat.add_sub_cancel' hlow).symm⟩
      obtain ⟨hno, hoff⟩ := hplace i (lt_of_add_lt_add_left hin)
      refine .inl ⟨i, lt_of_add_lt_add_left hin, ?_⟩
      rw [Prod.mk.injEq]
      refine ⟨rfl, heq.trans ?_⟩
      rw [hno, hoff, hfirst.2]
    · exact .inr ⟨hout, hlt, heq⟩

theorem OneUnit.mapsExactly (h : OneUnit l off len) : MapsExactly pageSize l off len := by
  rcases eq_zero_or_pos len with rfl | hlen
  · exact mapsExactly_zero pageSize l off
  obtain ⟨hin, hfirst, hshort⟩ := h
  refine mapsExactly_step hl hpage hlen hfirst len ?_ (fun i hi => ?_) (.inl rfl)
  · rw [min_eq_left (by omega)]
    exact oxlenLoop_stop (by omega)
  · exact inside_unit hl hfirst (by omega)

theorem OneObject.mapsExactly (hunit32 : l.stripeUnit < 2 ^ 32) (h : OneObject l off len) :
    MapsExactly pageSize l off len := by
  rcases eq_zero_or_pos len with rfl | hlen
  · exact mapsExactly_zero pageSize l off
  obtain ⟨hone, hroom, hfirst, hwhole⟩ := h
  have hobject := room_le l
  refine mapsExactly_step hl hpage hlen hfirst len ?_ (fun i hi => ?_) (.inl rfl)
  · rw [stripeLen_one hone hunit32]
    rcases lt_or_ge l.stripeUnit len with hlong | hshort
    · have hdvd : l.stripeUnit ∣ len := hwhole.resolve_left (not_le.mpr hlong)
      rw [min_eq_right hlong.le, oxlenLoop_units hdvd hlen (by omega)]
      omega
    · rw [min_eq_left hshort]
      exact oxlenLoop_stop (by omega)
  · exact inside_object hone hfirst (by omega)

theorem WholeUnits.mapsExactly
    : ∀ {len off : ℕ}, WholeUnits l off len → MapsExactly pageSize l off len := by
  intro len
  induction len using Nat.strong_induction_on with
  | _ len ih =>
    intro off h
    obtain ⟨hstart, hall, hshort⟩ := h
    rcases eq_zero_or_pos len with rfl | hlen
    · exact mapsExactly_zero pageSize l off
    have hfirst : First l off := by
      have h0 := hall 0 (by omega)
      rwa [Nat.zero_mul] at h0
    have hunit := hl.unit
    rcases lt_or_ge l.stripeUnit len with hlong | hend
    · refine mapsExactly_step hl hpage hlen hfirst l.stripeUnit ?_ (fun i hi => ?_)
        (.inr ⟨rfl, hlong, ih _ (by omega) ⟨by rw [Nat.add_mod_right, hstart], fun k hk => ?_, ?_⟩⟩)
      · rw [min_eq_right hlong.le]
        exact oxlenLoop_stop (by omega)
      · exact inside_unit hl hfirst (by omega)
      · have hnext := hall (k + 1) (by rw [add_one_mul]; omega)
        rwa [add_one_mul, add_comm (k * _), ← add_assoc] at hnext
      · rw [← Nat.mod_eq_sub_mod hlong.le]
        exact hshort.imp_left fun hle => by omega
    · refine OneUnit.mapsExactly hl hpage ⟨by omega, hfirst, ?_⟩
      rcases hshort with hle | ⟨hsame, hmod⟩
      · exact .inl hle
      · rcases hend.lt_or_eq with hlt | heq
        · rw [Nat.mod_eq_of_lt hlt] at hmod
          exact .inl hmod
        · exact .inr (by omega)

end

theorem toldApart_of_eq (h : ∀ y, off ≤ y → y < off + len → l.objectNo y = l.objectNo off) :
    ToldApart l off (off + len) :=
  fun y hy hy' z hz hz' _ => (h y hy hy').trans (h z hz hz').symm

theorem OneUnit.toldApart (hl : l.Valid) (h : OneUnit l off len) : ToldApart l off (off + len) := by
  refine toldApart_of_eq fun y hy hy' => ?_
  obtain ⟨hin, hfirst, -⟩ := h
  obtain ⟨i, rfl⟩ : ∃ i, y = off + i := ⟨y - off, (Nat.add_sub_cancel' hy).symm⟩
  exact (inside_unit hl hfirst (by omega)).1

theorem OneObject.toldApart (h : OneObject l off len) : ToldApart l off (off + len) := by
  refine toldApart_of_eq fun y hy hy' => ?_
  obtain ⟨hone, hroom, hfirst, -⟩ := h
  obtain ⟨i, rfl⟩ : ∃ i, y = off + i := ⟨y - off, (Nat.add_sub_cancel' hy).symm⟩
  exact (inside_object hone hfirst (by omega)).1

variable {u : ℕ}

theorem WholeUnits.units (hunit : 0 < l.stripeUnit) (h : WholeUnits l off len) (hlow : off / l.stripeUnit ≤ u)
    (hend : u * l.stripeUnit < off + len) : First l (u * l.stripeUnit) := by
  obtain ⟨hstart, hall, -⟩ := h
  have hoff : off / l.stripeUnit * l.stripeUnit = off := Nat.div_mul_cancel (Nat.dvd_of_mod_eq_zero hstart)
  have hu : u * l.stripeUnit = off + (u - off / l.stripeUnit) * l.stripeUnit := by
    rw [← hoff, Nat.mul_div_cancel _ hunit, ← Nat.add_mul, Nat.add_sub_cancel' hlow]
  rw [hu] at hend ⊢
  exact hall _ (lt_of_add_lt_add_left hend)

theorem low_half (hunit : 1 < l.stripeUnit) (hrows : l.stripesPerObject = 1) (h : First l (u * l.stripeUnit)) :
    u % 2 ^ 32 < 2 ^ 31 := by
  have hno : ∀ y, l.objectNo y = y / l.stripeUnit := fun y => by
    rw [FileLayout.objectNo, hrows, Nat.div_one, Nat.div_add_mod']
  obtain ⟨-, hlow⟩ := h
  rw [hno, hno, Nat.mul_div_cancel _ (by omega)] at hlow
  have hlt : u * l.stripeUnit % 2 ^ 32 / l.stripeUnit < 2 ^ 31 := by
    refine Nat.div_lt_of_lt_mul ((Nat.mod_lt _ (by decide)).trans_le ?_)
    exact Nat.mul_le_mul_right (2 ^ 31) hunit
  rw [hlow]
  exact (Nat.mod_le _ _).trans_lt hlt

/-- The objects of two units, where all units from the one to the other are the first of theirs. -/
theorem objectNo_of_units (hunit : 1 < l.stripeUnit) (hcount : 0 < l.stripeCount) (hcount32 : l.stripeCount < 2 ^ 32)
    {v : ℕ} (huv : u ≤ v) (hfirst : ∀ w, u ≤ w → w ≤ v → First l (w * l.stripeUnit))
    (heq : l.objectNo (u * l.stripeUnit) % 2 ^ 32 = l.objectNo (v * l.stripeUnit) % 2 ^ 32) :
    l.objectNo (u * l.stripeUnit) = l.objectNo (v * l.stripeUnit) := by
  have hno : ∀ w, l.objectNo (w * l.stripeUnit) =
    w / l.stripeCount / l.stripesPerObject * l.stripeCount + w % l.stripeCount :=
    fun w => by rw [FileLayout.objectNo, Nat.mul_div_cancel _ (by omega)]
  have hrow : ∀ w, u ≤ w → w ≤ v → l.stripesPerObject ∣ w / l.stripeCount := fun w hw hw' => by
    have h := (hfirst w hw hw').1
    rw [Nat.mul_div_cancel _ (by omega)] at h
    exact Nat.dvd_of_mod_eq_zero h
  rcases (Nat.div_le_div_right huv : u / l.stripeCount ≤ v / l.stripeCount).eq_or_lt with hsame | hlt
  · have hu := Nat.mod_lt u hcount
    have hv := Nat.mod_lt v hcount
    rw [hno, hno, hsame] at heq ⊢
    omega
  · -- the first unit of the next row is between
    have hu := Nat.lt_div_mul_add hcount (a := u)
    have hv := Nat.div_mul_le_self v l.stripeCount
    have hmul := Nat.mul_le_mul_right l.stripeCount hlt
    rw [Nat.succ_mul] at hmul
    have hnext := hrow ((u / l.stripeCount + 1) * l.stripeCount) (by rw [add_one_mul]; omega)
      (by rw [add_one_mul]; omega)
    rw [Nat.mul_div_cancel _ hcount] at hnext
    have hrows : l.stripesPerObject = 1 := Nat.dvd_one.mp ((Nat.dvd_add_right (hrow u le_rfl huv)).mp hnext)
    rw [hno, hno, hrows, Nat.div_one, Nat.div_one, Nat.div_add_mod', Nat.div_add_mod'] at heq ⊢
    -- else the numbers between would go through all of the 32 bits
    by_contra hne
    have hlow := low_half hunit hrows (hfirst u le_rfl huv)
    have hhigh := low_half hunit hrows (hfirst (u - u % 2 ^ 32 + 2 ^ 31) (by omega) (by omega))
    omega

/-- **Objects of whole units** have numbers of their own in 32 bits. -/
theorem WholeUnits.toldApart (hunit : 1 < l.stripeUnit) (hcount : 0 < l.stripeCount) (hcount32 : l.stripeCount < 2 ^ 32)
    (h : WholeUnits l off len) : ToldApart l off (off + len) := by
  have hno : ∀ y, l.objectNo y = l.objectNo (y / l.stripeUnit * l.stripeUnit) := fun y => by
    rw [FileLayout.objectNo, FileLayout.objectNo, Nat.mul_div_cancel _ (by omega)]
  have hunits : ∀ y, off ≤ y → ∀ z, z < off + len → ∀ w, y / l.stripeUnit ≤ w → w ≤ z / l.stripeUnit →
      First l (w * l.stripeUnit) := fun y hy z hz w hlow hw => by
    refine h.units (by omega) ((Nat.div_le_div_right hy).trans hlow) (lt_of_le_of_lt ?_ hz)
    exact (Nat.mul_le_mul_right _ hw).trans (Nat.div_mul_le_self _ _)
  intro y hy hy' z hz hz' heq
  rw [hno y, hno z] at heq ⊢
  rcases le_total (y / l.stripeUnit) (z / l.stripeUnit) with hyz | hzy
  · exact objectNo_of_units hunit hcount hcount32 hyz (hunits y hy z hz') heq
  · exact (objectNo_of_units hunit hcount hcount32 hzy (hunits z hz y hy') heq.symm).symm

end exact

/-! ### The two clients -/

variable {pageSize : ℕ}

theorem meets_of_agree {ino rev off len : ℕ}
    (hunit32 : l.stripeUnit < 2 ^ 32) (hcount32 : l.stripeCount < 2 ^ 32) (hend : off + len < 2 ^ 63)
    (h : Agree pageSize l objectLayout ino rev off len) : Meets pageSize l off len := by
  obtain ⟨exts, ps, hexts, hps, hsame⟩ := h
  have hw := fileToExtents_walked hexts
  rw [leftOf, if_pos (by omega)] at hw
  have hvalid : 0 < l.stripeUnit ∧ l.stripeUnit ≤ l.objectSize := by
    by_contra hbad
    rw [fileToExtents, if_neg hbad] at hexts
    cases hexts
  refine ⟨hvalid.1, hvalid.2, ?_⟩
  rcases eq_zero_or_pos len with h0 | hlen
  · exact .inl h0
  · cases hm : calcFileObjectMapping pageSize l off len with
    | none =>
      rw [kernelMap_none hlen hm] at hps
      cases hps
    | some m =>
      obtain ⟨-, hdvd, hcount, -⟩ := calc_some hm
      refine .inr ⟨hdvd, hcount, kinds_of_sound ⟨hvalid.1, hcount, hvalid.2⟩ hdvd hunit32 hcount32 hlen hps fun q hq => ?_⟩
      exact (mem_pairs_walked hw q).mp ((hsame q).mp hq)

theorem Meets.first {off len : ℕ} (h : Meets pageSize l off len) (hlen : 0 < len) :
    First l off := by
  obtain ⟨-, -, h0 | ⟨-, -, ⟨-, hfirst, -⟩ | ⟨-, hall, -⟩ | ⟨-, -, hfirst, -⟩⟩⟩ := h
  · exact absurd h0 hlen.ne'
  · exact hfirst
  · have hfirst := hall 0 (by omega)
    rwa [Nat.zero_mul] at hfirst
  · exact hfirst

/-- **Kernel and userspace agree** exactly on the ranges of those kinds. -/
theorem kernel_striping (pageSize : ℕ) (l : FileLayout) (objectLayout : ObjectT → ℕ) (ino rev off len : ℕ)
    (hpage : 1 < pageSize) (hunit32 : l.stripeUnit < 2 ^ 32) (hcount32 : l.stripeCount < 2 ^ 32)
    (hend : off + len < 2 ^ 63) : Agree pageSize l objectLayout ino rev off len ↔ Meets pageSize l off len := by
  refine ⟨meets_of_agree hunit32 hcount32 hend, ?_⟩
  have hleft : leftOf len = len := if_pos (by omega)
  rintro ⟨hunit, hsize, rfl | ⟨hdvd, hcount, hkind⟩⟩
  · refine ⟨[], [], ?_, kernelMap_zero, fun q => .rfl⟩
    rw [fileToExtents, if_pos ⟨hunit, hsize⟩, hleft, fileLoop_zero]
    rfl
  · have hl : l.Valid := ⟨hunit, hcount, hsize⟩
    have hunit1 : 1 < l.stripeUnit := hpage.trans_le (Nat.le_of_dvd hunit hdvd)
    obtain ⟨happart, ps, hps, hmem⟩ : ToldApart l off (off + len) ∧ MapsExactly pageSize l off len := by
      rcases hkind with hone | hwhole | hobject
      · exact ⟨hone.toldApart hl, hone.mapsExactly hl hdvd⟩
      · exact ⟨hwhole.toldApart hunit1 hcount hcount32, hwhole.mapsExactly hl hdvd⟩
      · exact ⟨hobject.toldApart, hobject.mapsExactly hl hdvd hunit32⟩
    obtain ⟨exts, hexts⟩ := Option.isSome_iff_exists.mp
      (fileToExtents_isSome objectLayout ino rev hl hend happart)
    have hw := fileToExtents_walked hexts
    rw [hleft] at hw
    exact ⟨exts, ps, hexts, hps, fun q => (hmem q).trans (mem_pairs_walked hw q).symm⟩

/-- A stripe of two units. -/
theorem kernel_striping_stripe : Agree 4096 ⟨4096, 2, 8192⟩ (·.bno) 1 0 0 8192 :=
  (kernel_striping 4096 ⟨4096, 2, 8192⟩ (·.bno) 1 0 0 8192 (by decide) (by decide) (by decide) (by decide)).mpr
    ⟨by decide, by decide, .inr ⟨by decide, by decide, .inr (.inl ⟨by decide, fun k hk => by
      change k * 4096 < 8192 at hk
      obtain rfl | rfl : k = 0 ∨ k = 1 := by omega
      · exact ⟨by decide, by decide⟩
      · exact ⟨by decide, by decide⟩, .inl (by decide)⟩)⟩⟩

/-- The byte at 4 GB is not the first of the file, that of the second stripe is not at the
beginning of its object, and that behind a stripe is not in the next unit of the object. -/
theorem kernel_strays : ¬ Agree 4096 ⟨2 ^ 22, 1, 2 ^ 22⟩ (·.bno) 1 0 (2 ^ 32) 4096 ∧
    ¬ Agree 4096 ⟨4096, 2, 8192⟩ (·.bno) 1 0 8192 1 ∧ ¬ Agree 4096 ⟨4096, 2, 8192⟩ (·.bno) 1 0 0 8193 := by
  refine ⟨fun h => ?_, fun h => ?_, fun h => ?_⟩
  · exact absurd ((meets_of_agree (by decide) (by decide) (by decide) h).first (by decide)).2 (by decide)
  · exact absurd ((meets_of_agree (by decide) (by decide) (by decide) h).first (by decide)).1 (by decide)
  · obtain ⟨-, -, h0 | ⟨-, -, hkind⟩⟩ := meets_of_agree (by decide) (by decide) (by decide) h
    · cases h0
    · rcases hkind with ⟨hin, -⟩ | ⟨-, -, hshort⟩ | ⟨hone, -⟩
      · exact absurd hin (by decide)
      · exact absurd hshort (by decide)
      · cases hone

end KernelMapping
end Osdc
end Ceph
