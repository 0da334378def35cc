/-
# Bytes that are known to be bad

A block that is bad and partly overwritten gets a checksum that is right for what it now has, so the
onode has to note which of its bytes are bad (`bad_byte_extents`): all that were not written. This
happens in two places, when the block is read back to complete a partial
write (`finishPartial`), and when a write hits a corrupt head in the cache.

The first makes intervals of a start and a length. The second gives `insert` the
ends of the intervals, less the start of the head's first byte; where this byte is
not the object's first, its intervals reach into other blocks, and two of them overlap. It also leaves
bytes bad that are overwritten, and asserts that the corrupt head has one block.
-/
import Ceph.Ebofs.RxFinish

namespace Ceph
namespace Ebofs
namespace Cache

open List
open IntervalSet
open Fragments
open Wire (Bytes)

/-! ### The code -/

/-- The intervals that `apply_write` notes as bad, for a write of `len` bytes at `off` in a corrupt head. -/
def markBad (bh : BufferHead) (off len : ℕ) (on : Onode) : Option Onode :=
  let bs := bh.start * blockSize
  (if off ≠ 0 then empty.insert bs (bs + off) else some empty).bind fun bad =>
    (if off + len < blockSize then bad.insert (bs + off + len) (bs + blockSize - off - len) else some bad).bind fun bad =>
      (unionOf on.badByteExtents bad).map fun bytes => { on with badByteExtents := bytes }

/-- `apply_write` on a corrupt head that it writes a part of. The data goes to the fragments. -/
def writeCorrupt (bh : BufferHead) (off : ℕ) (sb : Bytes) (on : Onode) (bc : BufferCache) :
    Option (Onode × BufferHead × BufferCache) :=
  if bh.length ≠ 1 then none
  else (markBad bh off sb.length on).bind fun on =>
    (getExtentCsum on bh.start 1).bind fun _ =>
      let csum := calcCsum bh.data
      let on := { setExtentCsum bh.start csum on with dataCsum := on.dataCsum + csum }
      (setState bh .clean bc).bind fun (bh, bc) =>
        (addPartial off sb bh.frags).map fun pm => (on, { bh with frags := pm }, bc)

/-! ### What it is for -/

/-- A byte is in the block. -/
def InBlock (b x : ℕ) : Prop := b * blockSize ≤ x ∧ x < b * blockSize + blockSize

/-- The bytes of the block are bad, but for those that were written. No other byte changes. -/
def Tracked (on on' : Onode) (b : ℕ) (written : ℕ → Prop) : Prop :=
  ∀ x, Covers on'.badByteExtents.m x ↔
    (InBlock b x ∧ ¬ written x) ∨ (¬ InBlock b x ∧ Covers on.badByteExtents.m x)

/-- The bytes that a write to a head overwrites. -/
def Overwritten (bh : BufferHead) (off len x : ℕ) : Prop :=
  bh.start * blockSize + off ≤ x ∧ x < bh.start * blockSize + off + len

/-! ### A write to a corrupt head -/

section cache

variable {on on' : Onode} {bh : BufferHead} {bc : BufferCache} {off len a n x : ℕ} {size : BitVec 32} {sb : Bytes}

theorem insert_empty (h : 0 < n) : empty.insert a n = some ⟨[(a, n)], 0 + BitVec.ofNat 32 n⟩ := if_neg h.ne'

theorem insert_inside {l m : ℕ} (hlow : a < x) (hhigh : x < a + l) (hbound : a + l < 2 ^ 64) (hm : 0 < m)
    (hbound' : x + m < 2 ^ 64) : IntervalSet.insert ⟨[(a, l)], size⟩ x m = none := by
  have hin : Covers [(a, l)] x := covers_singleton.mpr ⟨hlow.le, hhigh⟩
  rcases insert_cases (s := ⟨[(a, l)], size⟩) (wf_singleton (by omega) hbound) hm hbound' with ⟨hd, -⟩ | ⟨-, h | h⟩
  · exact absurd hin (hd x le_rfl (by omega))
  · exact h
  · exact absurd hin h.2.2.1

/-- The bytes of the intervals. -/
def Marks (bh : BufferHead) (off len x : ℕ) : Prop :=
  let bs := bh.start * blockSize
  (off ≠ 0 ∧ bs ≤ x ∧ x < bs + (bs + off)) ∨ (off + len < blockSize ∧ bs + off + len ≤ x ∧ x < bs + (bs + blockSize))

/-- **The intervals are added**, unless there are two in a head that is not the first. -/
theorem markBad_spec (hw : Wf on.badByteExtents.m) (hlen : 0 < len) (hin : off + len ≤ blockSize)
    (hbound : 2 * (bh.start * blockSize) + blockSize < 2 ^ 64) :
    if off ≠ 0 ∧ off + len < blockSize ∧ bh.start ≠ 0 then markBad bh off len on = none
    else ∃ on', markBad bh off len on = some on' ∧ on'.extentMap = on.extentMap ∧
      ∀ x, Covers on'.badByteExtents.m x ↔ Covers on.badByteExtents.m x ∨ Marks bh off len x := by
  unfold markBad Marks
  dsimp only
  have hfar : bh.start ≠ 0 → blockSize ≤ bh.start * blockSize := fun h => Nat.le_mul_of_pos_left _ (pos_of_ne_zero h)
  have hfirst : bh.start = 0 → bh.start * blockSize = 0 := fun h => by rw [h, Nat.zero_mul]
  generalize bh.start * blockSize = bs at *
  -- the set of the two intervals
  have hunion : ∀ bad : IntervalSet, Wf bad.m → ∃ on',
      ((unionOf on.badByteExtents bad).map fun bytes => { on with badByteExtents := bytes }) = some on' ∧
        on'.extentMap = on.extentMap ∧
          ∀ x, Covers on'.badByteExtents.m x ↔ Covers on.badByteExtents.m x ∨ Covers bad.m x := fun bad hbad => by
    obtain ⟨t, ht, -, hcov⟩ := unionOf_spec hw hbad
    exact ⟨{ on with badByteExtents := t }, by rw [ht]; rfl, rfl, hcov⟩
  by_cases hoff : off = 0
  · subst hoff
    simp only [zero_add, add_zero] at hin ⊢
    rw [if_neg fun h => h.1 rfl, if_neg fun h => h rfl, Option.bind_some]
    by_cases htail : len < blockSize
    · rw [if_pos htail, insert_empty (by omega), Option.bind_some]
      obtain ⟨on', hrun, hmap, hcov⟩ := hunion ⟨[(bs + len, bs + blockSize - len)], _⟩
        (wf_singleton (by omega) (by omega))
      refine ⟨on', hrun, hmap, fun x => ?_⟩
      have hends : bs + len + (bs + blockSize - len) = bs + (bs + blockSize) := by omega
      rw [hcov, covers_singleton, hends]
      simp [htail]
    · rw [if_neg htail, Option.bind_some]
      obtain ⟨on', hrun, hmap, hcov⟩ := hunion empty wf_nil
      refine ⟨on', hrun, hmap, fun x => ?_⟩
      rw [hcov]
      simp [htail, covers_nil, empty]
  · rw [if_pos hoff, insert_empty (by omega), Option.bind_some]
    by_cases htail : off + len < blockSize
    · rw [if_pos htail]
      by_cases hstart : bh.start = 0
      · have hbs := hfirst hstart
        have hends : bs + off + len + (bs + blockSize - off - len) = bs + (bs + blockSize) := by omega
        obtain ⟨bad, hins, hwbad, hcovbad⟩ := @insert_spec ⟨[(bs, bs + off)], 0 + BitVec.ofNat 32 (bs + off)⟩
          (bs + off + len) (bs + blockSize - off - len) (wf_singleton (by omega) (by omega)) (by omega) (by omega)
          fun x h1 h2 hx => by
            have := covers_singleton.mp hx
            omega
        rw [if_neg fun h => h.2.2 hstart, hins, Option.bind_some]
        obtain ⟨on', hrun, hmap, hcov⟩ := hunion bad hwbad
        refine ⟨on', hrun, hmap, fun x => ?_⟩
        rw [hcov, hcovbad, covers_singleton, hends]
        simp [htail, hoff]
      · rw [if_pos ⟨hoff, htail, hstart⟩]
        rw [insert_inside (by omega) (by omega) (by omega) (by omega) (by omega), Option.bind_none]
    · rw [if_neg fun h => htail h.2.1, if_neg htail, Option.bind_some]
      obtain ⟨on', hrun, hmap, hcov⟩ := hunion ⟨[(bs, bs + off)], _⟩ (wf_singleton (by omega) (by omega))
      refine ⟨on', hrun, hmap, fun x => ?_⟩
      rw [hcov, covers_singleton]
      simp [htail, hoff]

/-- When the write leaves the right bytes bad. -/
def BadBytesFit (on : Onode) (bh : BufferHead) (off len : ℕ) : Prop :=
  bh.length = 1 ∧ (∀ x, Overwritten bh off len x → ¬ Covers on.badByteExtents.m x) ∧
    (bh.start = 0 ∨ (off = 0 ∧ ∀ x, (bh.start + 1) * blockSize ≤ x → x < (2 * bh.start + 1) * blockSize →
      Covers on.badByteExtents.m x))

/-- The bytes that are noted are the right ones. -/
theorem marks_tracked (hlen : 0 < len) (hin : off + len ≤ blockSize) (hpart : off ≠ 0 ∨ off + len < blockSize)
    (hone : bh.length = 1) (hrun : ¬ (off ≠ 0 ∧ off + len < blockSize ∧ bh.start ≠ 0))
    (hcov : ∀ x, Covers on'.badByteExtents.m x ↔ Covers on.badByteExtents.m x ∨ Marks bh off len x) :
    Tracked on on' bh.start (Overwritten bh off len) ↔ BadBytesFit on bh off len := by
  have hfar : bh.start ≠ 0 → blockSize ≤ bh.start * blockSize := fun h => Nat.le_mul_of_pos_left _ (pos_of_ne_zero h)
  have hfirst : bh.start = 0 → bh.start * blockSize = 0 := fun h => by rw [h, Nat.zero_mul]
  have hnext : (bh.start + 1) * blockSize = bh.start * blockSize + blockSize := Nat.succ_mul _ _
  have hdouble : (2 * bh.start + 1) * blockSize = bh.start * blockSize + (bh.start * blockSize + blockSize) := by ring
  unfold Tracked BadBytesFit InBlock Overwritten
  simp only [hcov, hnext, hdouble, Marks]
  generalize bh.start * blockSize = bs at *
  constructor
  · intro h
    refine ⟨hone, fun x hx hbad => ?_, ?_⟩
    · have := (h x).mp (.inl hbad)
      omega
    · by_cases hstart : bh.start = 0
      · exact .inl hstart
      · have := hfar hstart
        have hoff : off = 0 := by
          by_contra hoff
          -- the first byte that is written would be bad
          have := (h (bs + off)).mp (.inr (.inl ⟨hoff, by omega, by omega⟩))
          omega
        refine .inr ⟨hoff, fun x h1 h2 => ?_⟩
        rcases (h x).mp (.inr (.inr ⟨by omega, by omega, h2⟩)) with hx | hx
        · omega
        · exact hx.2
  · rintro ⟨-, hnone, hplace⟩ x
    have hnone' := hnone x
    by_cases hx : Covers on.badByteExtents.m x
    · simp only [hx, true_or, true_iff, and_true]
      have : ¬ (bs + off ≤ x ∧ x < bs + off + len) := fun h => hnone' h hx
      omega
    · simp only [hx, false_or, and_false, or_false]
      rcases hplace with hstart | ⟨hoff, hplace⟩
      · have := hfirst hstart
        omega
      · have : ¬ (bs + blockSize ≤ x ∧ x < bs + (bs + blockSize)) := fun h => hx (hplace x h.1 h.2)
        omega

@[simp] theorem setExtentCsum_badByteExtents (b : ℕ) (csum : UInt64) (on : Onode) :
    (setExtentCsum b csum on).badByteExtents = on.badByteExtents := by
  unfold setExtentCsum
  split <;> rfl

/-- Only `markBad` has to do with the bad bytes. -/
theorem writeCorrupt_some {bh' : BufferHead} {bc' : BufferCache} (h : writeCorrupt bh off sb on bc = some (on', bh', bc')) :
    bh.length = 1 ∧ ∃ on1, markBad bh off sb.length on = some on1 ∧ on'.badByteExtents = on1.badByteExtents := by
  unfold writeCorrupt at h
  split_ifs at h with hone
  obtain ⟨on1, hmark, h⟩ := Option.bind_eq_some_iff.mp h
  obtain ⟨csums, -, h⟩ := Option.bind_eq_some_iff.mp h
  obtain ⟨⟨bh1, bc1⟩, -, h⟩ := Option.bind_eq_some_iff.mp h
  obtain ⟨pm, -, h⟩ := Option.map_eq_some_iff.mp h
  cases h
  exact ⟨not_not.mp hone, on1, hmark, setExtentCsum_badByteExtents _ _ _⟩

variable {others : State → ℕ} {rest : List BufferHead}

theorem writeCorrupt_runs {on1 : Onode} (hone : bh.length = 1) (hmark : markBad bh off sb.length on = some on1)
    (hext : on1.extentMap = on.extentMap) (hin : off + sb.length ≤ blockSize)
    (hmap : (getExtentCsum on bh.start 1).isSome) (hcounted : Counted others (bh :: rest) bc) :
    ∃ on' bh' bc', writeCorrupt bh off sb on bc = some (on', bh', bc') := by
  obtain ⟨csums, hcsums⟩ := Option.isSome_iff_exists.mp hmap
  have hcsums1 : getExtentCsum on1 bh.start 1 = some csums := by
    unfold getExtentCsum Onode.entryAt at hcsums ⊢
    rw [hext, hcsums]
  obtain ⟨bc1, hset, -⟩ := setState_counted .clean hcounted
  have hadd : addPartial off sb bh.frags = some (Keyed.insert Prod.fst (off, sb) (trimPartial off sb.length bh.frags)) :=
    if_pos hin
  rw [writeCorrupt, if_neg (not_not_intro hone), hmark, Option.bind_some, hcsums1, Option.bind_some, hset,
    Option.bind_some]
  dsimp only
  rw [hadd]
  exact ⟨_, _, _, rfl⟩

/-- **A write to a corrupt head** notes the right bytes if and only if the head has one block, none of the bytes was bad before,
and the block is the first, or the write begins with it and what is noted too much was bad already. -/
theorem writeCorrupt_tracked (hw : Wf on.badByteExtents.m) (hlen : 0 < sb.length)
    (hin : off + sb.length ≤ bh.length * blockSize) (hpart : off ≠ 0 ∨ off + sb.length < bh.length * blockSize)
    (hbound : 2 * (bh.start * blockSize) + blockSize < 2 ^ 64)
    (hmap : (getExtentCsum on bh.start 1).isSome) (hcounted : Counted others (bh :: rest) bc) :
    (∃ on' bh' bc', writeCorrupt bh off sb on bc = some (on', bh', bc') ∧
      Tracked on on' bh.start (Overwritten bh off sb.length)) ↔ BadBytesFit on bh off sb.length := by
  have hfits : bh.length = 1 → off + sb.length ≤ blockSize ∧ (off ≠ 0 ∨ off + sb.length < blockSize) := fun hone => by
    rw [hone, one_mul] at hin hpart
    exact ⟨hin, hpart⟩
  constructor
  · rintro ⟨on', bh', bc', h, htracked⟩
    obtain ⟨hone, on1, hmark, hbad⟩ := writeCorrupt_some h
    obtain ⟨hin', hpart'⟩ := hfits hone
    have hspec := markBad_spec hw hlen hin' hbound
    rw [hmark] at hspec
    split_ifs at hspec with hrun
    obtain ⟨on2, heq, -, hcov⟩ := hspec
    obtain rfl := Option.some.inj heq
    rw [← hbad] at hcov
    exact (marks_tracked hlen hin' hpart' hone hrun hcov).mp htracked
  · intro hfit
    obtain ⟨hin', hpart'⟩ := hfits hfit.1
    have hspec := markBad_spec hw hlen hin' hbound
    have hrun : ¬ (off ≠ 0 ∧ off + sb.length < blockSize ∧ bh.start ≠ 0) := by
      rintro ⟨hoff, -, hstart⟩
      exact hfit.2.2.elim hstart fun h => hoff h.1
    rw [if_neg hrun] at hspec
    obtain ⟨on1, hmark, hext, hcov⟩ := hspec
    obtain ⟨on', bh', bc', h⟩ := writeCorrupt_runs hfit.1 hmark hext hin' hmap hcounted
    obtain ⟨-, on2, hmark', hbad⟩ := writeCorrupt_some h
    obtain rfl := Option.some.inj (hmark.symm.trans hmark')
    rw [← hbad] at hcov
    exact ⟨on', bh', bc', h, (marks_tracked hlen hin' hpart' hfit.1 hrun hcov).mpr hfit⟩

end cache

/-! ### A bad block that is read back -/

section readBack

variable {on on' : Onode} {rd : RxDone} {bh bh' : BufferHead} {bc bc' : BufferCache} {pm : Partial} {bs x : ℕ}
  {want got : UInt64} {s : IntervalSet}

theorem insertFrags_spec (hapart : Apart pm) (hne : ∀ q ∈ pm, q.2 ≠ []) (hbound : ∀ q ∈ pm, bs + fin q < 2 ^ 64)
    (hs : Wf s.m) (hbehind : ∀ q ∈ pm, ∀ x, Covers s.m x → x < bs + q.1) :
    ∃ t, pm.foldlM (fun (covered : IntervalSet) q => covered.insert (bs + q.1) q.2.length) s = some t ∧ Wf t.m ∧
      ∀ x, Covers t.m x ↔ Covers s.m x ∨ ∃ q ∈ pm, bs + q.1 ≤ x ∧ x < bs + fin q := by
  induction pm generalizing s with
  | nil => exact ⟨s, rfl, hs, fun x => by simp⟩
  | cons q pm ih =>
    obtain ⟨hafter, hapart'⟩ := pairwise_cons.mp hapart
    obtain ⟨hneq, hne'⟩ := forall_mem_cons.mp hne
    obtain ⟨hboundq, hbound'⟩ := forall_mem_cons.mp hbound
    obtain ⟨hbehindq, hbehind'⟩ := forall_mem_cons.mp hbehind
    have hfin : bs + q.1 + q.2.length = bs + fin q := add_assoc _ _ _
    obtain ⟨t, ht, hwt, hcov⟩ := @insert_spec s (bs + q.1) q.2.length hs (length_pos_iff.mpr hneq) (by omega)
      fun x h1 _ hx => absurd (hbehindq x hx) (not_lt.mpr h1)
    rw [hfin] at hcov
    obtain ⟨t', ht', hwt', hcov'⟩ := ih hapart' hne' hbound' hwt fun r hr x hx => by
      rcases (hcov x).mp hx with hx | hx
      · exact hbehind' r hr x hx
      · have := hafter r hr
        omega
    refine ⟨t', ?_, hwt', fun x => ?_⟩
    · rw [foldlM_cons, ht]
      exact ht'
    · rw [hcov', hcov, or_assoc, exists_mem_cons_iff]

/-- **The bytes of a bad block** are noted, but for those of the fragments. -/
theorem badReadBack_spec (hw : Wf on.badByteExtents.m) (hapart : Apart bh.frags) (hne : ∀ q ∈ bh.frags, q.2 ≠ [])
    (hinside : ∀ q ∈ bh.frags, fin q ≤ blockSize) (hbound : bh.start * blockSize + blockSize < 2 ^ 64) :
    ∃ on', badReadBack bh want got on = some on' ∧
      Tracked on on' bh.start fun x => ∃ q ∈ bh.frags, bh.start * blockSize + q.1 ≤ x ∧ x < bh.start * blockSize + fin q := by
  have hpos : 0 < blockSize := by decide
  obtain ⟨bytes, hbytes, hwbytes, hcovbytes⟩ := @unionOf_spec on.badByteExtents ⟨[(bh.start * blockSize, blockSize)],
    0 + BitVec.ofNat 32 blockSize⟩ hw (wf_singleton hpos hbound)
  obtain ⟨covered, hcovered, hwcovered, hcovcovered⟩ := @insertFrags_spec bh.frags (bh.start * blockSize) empty hapart hne
    (fun q hq => by have := hinside q hq; omega) wf_nil fun _ _ x hx => absurd hx (covers_nil x)
  obtain ⟨newOver, hnew, hwnew, hcovnew⟩ := intersectionOf_spec hwcovered hwbytes
  obtain ⟨rest, hrest, -, hcovrest⟩ := subtract_spec hwbytes hwnew fun x hx => ((hcovnew x).mp hx).2
  let on1 := setExtentCsum bh.start got on
  refine ⟨{ on1 with dataCsum := on1.dataCsum + (got - want), badByteExtents := rest }, ?_, fun x => ?_⟩
  · unfold badReadBack
    rw [insert_empty hpos, Option.bind_some, setExtentCsum_badByteExtents, hbytes, Option.bind_some, hcovered,
      Option.bind_some, hnew, Option.bind_some, hrest]
    rfl
  · have hblock : Covers [(bh.start * blockSize, blockSize)] x ↔ InBlock bh.start x := covers_singleton
    have hfrag : (∃ q ∈ bh.frags, bh.start * blockSize + q.1 ≤ x ∧ x < bh.start * blockSize + fin q) →
        InBlock bh.start x := by
      rintro ⟨q, hq, h1, h2⟩
      have := hinside q hq
      exact ⟨by omega, by omega⟩
    rw [hcovrest, hcovnew, hcovbytes, hblock, hcovcovered, or_iff_right (show ¬ Covers empty.m x from covers_nil x)]
    by_cases hx : InBlock bh.start x
    · simp only [hx, or_true, true_and, and_true, not_true_eq_false, false_and, or_false]
    · simp only [hx, or_false, false_and, not_false_eq_true, true_and, false_or, mt hfrag hx, and_true]

theorem applyFrags_bad (h : applyFrags bh on = some (bh', on')) : on'.badByteExtents = on.badByteExtents := by
  obtain ⟨csum, -, h⟩ := Option.bind_eq_some_iff.mp h
  obtain ⟨pb, -, h⟩ := Option.map_eq_some_iff.mp h
  cases h
  exact setExtentCsum_badByteExtents _ _ _

/-- **A partial write to a block that turns out to be bad.** -/
theorem finishPartial_tracked (h : finishPartial rd on bh bc = some (on', bh', bc')) (hlen : bh.length = 1)
    (hmis : Mismatch on rd bh.start) (hw : Wf on.badByteExtents.m) (hapart : Apart bh.frags)
    (hne : ∀ q ∈ bh.frags, q.2 ≠ []) (hinside : ∀ q ∈ bh.frags, fin q ≤ blockSize)
    (hbound : bh.start * blockSize + blockSize < 2 ^ 64) :
    Tracked on on' bh.start fun x =>
      ∃ q ∈ bh.frags, bh.start * blockSize + q.1 ≤ x ∧ x < bh.start * blockSize + fin q := by
  obtain ⟨ex, -, h⟩ := Option.bind_eq_some_iff.mp h
  obtain ⟨want, hwant, h⟩ := Option.bind_eq_some_iff.mp h
  obtain ⟨sub, hsub, h⟩ := Option.bind_eq_some_iff.mp h
  obtain ⟨on1, hon1, h⟩ := Option.bind_eq_some_iff.mp h
  split_ifs at h
  obtain ⟨⟨bh2, on2⟩, happly, h⟩ := Option.bind_eq_some_iff.mp h
  obtain ⟨⟨bh3, bc3⟩, -, h⟩ := Option.bind_eq_some_iff.mp h
  obtain ⟨⟨bh4, bc4⟩, -, h⟩ := Option.bind_eq_some_iff.mp h
  split_ifs at h
  obtain ⟨rfl, -⟩ := h
  have hgot : calcCsum sub = blockCsum rd.bl (bh.start - rd.start) := by
    unfold substrOf at hsub
    split_ifs at hsub
    obtain rfl := Option.some.inj hsub
    rw [blockCsum, hlen, one_mul]
  have hbad : want ≠ calcCsum sub := fun heq => by
    refine hmis ?_
    rw [Onode.csumOf, hwant, heq, hgot]
  rw [if_pos hbad] at hon1
  obtain ⟨on3, hrun, htracked⟩ := @badReadBack_spec on bh want (calcCsum sub) hw hapart hne hinside hbound
  obtain rfl := Option.some.inj (hon1.symm.trans hrun)
  intro x
  rw [applyFrags_bad happly]
  exact htracked x

/-- The fragments of a head, which has one block: they are not empty, apart, and in the block. -/
structure OneBlock (bh : BufferHead) : Prop where
  one : bh.length = 1
  apart : Apart bh.frags
  nonempty : ∀ q ∈ bh.frags, q.2 ≠ []
  inside : ∀ q ∈ bh.frags, fin q ≤ blockSize

/-- The bytes of the fragments. -/
def FragByte (bh : BufferHead) (x : ℕ) : Prop :=
  ∃ q ∈ bh.frags, bh.start * blockSize + q.1 ≤ x ∧ x < bh.start * blockSize + fin q

/-- **The bad bytes are tracked** where a bad block is read back. Where a corrupt head is written to, they are if and only if
`BadBytesFit`. -/
theorem bad_bytes_tracked {others : State → ℕ} {rest : List BufferHead} (hw : Wf on.badByteExtents.m)
    (hbound : 2 * (bh.start * blockSize) + blockSize < 2 ^ 64) :
    (∀ off (sb : Bytes), 0 < sb.length → off + sb.length ≤ bh.length * blockSize →
      (off ≠ 0 ∨ off + sb.length < bh.length * blockSize) → bh.state = .corrupt → (getExtentCsum on bh.start 1).isSome →
      Counted others (bh :: rest) bc →
      ((∃ on' bh' bc', writeCorrupt bh off sb on bc = some (on', bh', bc') ∧
        Tracked on on' bh.start (Overwritten bh off sb.length)) ↔ BadBytesFit on bh off sb.length)) ∧
    (OneBlock bh → ∀ want got, ∃ on', badReadBack bh want got on = some on' ∧ Tracked on on' bh.start (FragByte bh)) ∧
    ∀ rd on' bh' bc', OneBlock bh → Mismatch on rd bh.start → finishPartial rd on bh bc = some (on', bh', bc') →
      Tracked on on' bh.start (FragByte bh) := by
  refine ⟨fun off sb hlen hin hpart _ hmap hcounted => writeCorrupt_tracked hw hlen hin hpart hbound hmap hcounted,
    fun hone want got => badReadBack_spec hw hone.apart hone.nonempty hone.inside (by omega),
    fun rd on' bh' bc' hone hmis h => ?_⟩
  exact finishPartial_tracked h hone.one hmis hw hone.apart hone.nonempty hone.inside (by omega)

end readBack

/-! ### One byte -/

/-- An object of two blocks, of which one is corrupt. -/
def twoBlocks : Onode := ⟨2 * blockSize, 2, 0, [(0, ⟨⟨8, 2⟩, [0, 0]⟩)], empty, empty, true⟩

def corruptHead (start : ℕ) : BufferHead := { BufferHead.new start 1 with state := .corrupt }

def oneCorrupt : BufferCache := ⟨fun s => if s = .corrupt then 1 else 0, 0, fun _ => 0, [], 0⟩

theorem counted_corrupt (start : ℕ) : Counted (fun _ => 0) [corruptHead start] oneCorrupt := by
  intro s
  cases s <;> rfl

theorem bad_bytes_tracked_first :
    (∃ on' bh' bc', writeCorrupt (corruptHead 0) 0 [7] twoBlocks oneCorrupt = some (on', bh', bc') ∧
      Tracked twoBlocks on' 0 (Overwritten (corruptHead 0) 0 1)) ∧
    ∃ on', badReadBack { corruptHead 1 with frags := [(3, [7])] } 1 0 twoBlocks = some on' ∧
      Tracked twoBlocks on' 1 (FragByte { corruptHead 1 with frags := [(3, [7])] }) := by
  constructor
  · refine ((@bad_bytes_tracked twoBlocks (corruptHead 0) oneCorrupt (fun _ => 0) [] wf_nil (by decide)).1 0 [7]
      (by decide) (by decide) (.inr (by decide)) rfl rfl (counted_corrupt 0)).mpr ⟨rfl, fun x _ => covers_nil x, .inl rfl⟩
  · refine (@bad_bytes_tracked twoBlocks { corruptHead 1 with frags := [(3, [7])] } oneCorrupt (fun _ => 0) [] wf_nil
      (by decide)).2.1 ⟨rfl, pairwise_singleton _ _, ?_, ?_⟩ 1 0
    · exact forall_mem_singleton.mpr (by decide)
    · exact forall_mem_singleton.mpr (by decide)

/-- The first byte of the second block is written, and the third block becomes bad. -/
theorem bad_bytes_second_block :
    ¬ ∃ on' bh' bc', writeCorrupt (corruptHead 1) 0 [7] twoBlocks oneCorrupt = some (on', bh', bc') ∧
      Tracked twoBlocks on' 1 (Overwritten (corruptHead 1) 0 1) := by
  intro h
  obtain ⟨-, -, hstart | ⟨-, hall⟩⟩ := (writeCorrupt_tracked wf_nil (by decide) (by decide) (.inr (by decide))
    (by decide) rfl (counted_corrupt 1)).mp h
  · exact absurd hstart (by decide)
  · exact covers_nil _ (hall (2 * blockSize) (by decide) (by decide))

end Cache
end Ebofs
end Ceph
