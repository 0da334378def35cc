/-
# The waiters of a head that is split

A head of the object cache (`ObjectCacher`) that is being read has waiters, in a map from
the byte that each waits for. `Object::split` moves the waiters of the right half to
the new head: from the last one back, down to the first one of the map, which it does not
look at. So the first waiter stays with the left half wherever the byte is that it waits for.
-/
import Ceph.Osdc.ObjectCacher

namespace Ceph
namespace Osdc
namespace ObjectCacher

open List

/-- The waiters, each with the byte that it waits for. -/
def BufferHead.waiters (bh : BufferHead) : List (ℕ × ℕ) := bh.waitforRead.flatMap fun w => w.2.map (w.1, ·)

/-- Two heads in place of one: they lie one after the other, in its state, with its bytes, and each
waiter is with the one that has its byte. -/
structure SplitOf (bh : BufferHead) (off : ℕ) (left right : BufferHead) : Prop where
  extents : (left.start = bh.start ∧ left.fin = off) ∧ right.start = off ∧ right.fin = bh.fin
  states : left.state = bh.state ∧ right.state = bh.state
  content : left.bl ++ right.bl = bh.bl
  waiters : left.waiters ++ right.waiters = bh.waiters
  attached_left : ∀ w ∈ left.waiters, left.start ≤ w.1 ∧ w.1 < left.fin
  attached_right : ∀ w ∈ right.waiters, right.start ≤ w.1 ∧ w.1 < right.fin

/-- `split` puts two heads in place of one, and leaves the others. -/
def SplitsHead (k off : ℕ) (bh : BufferHead) (ob : Object) : Prop :=
  ∃ pre post left right ob', ob.data = pre ++ bh :: post ∧ split k off ob = some ob' ∧
    ob'.data = pre ++ left :: right :: post ∧ ob'.stat = ob.stat ∧ SplitOf bh off left right

section waiters

variable {bh : BufferHead} {off : ℕ} {ws : List (ℕ × List ℕ)}

theorem mem_waiters {w : ℕ × ℕ} : w ∈ bh.waiters ↔ ∃ e ∈ bh.waitforRead, w.1 = e.1 ∧ w.2 ∈ e.2 := by
  rw [BufferHead.waiters, mem_flatMap]
  refine exists_congr fun e => and_congr_right fun _ => ?_
  rw [List.mem_map]
  constructor
  · rintro ⟨c, hc, rfl⟩
    exact ⟨rfl, hc⟩
  · rintro ⟨hbyte, hc⟩
    exact ⟨w.2, hc, Prod.ext hbyte.symm rfl⟩

theorem kept_append_moved (off : ℕ) (ws : List (ℕ × List ℕ)) : keptWaiters off ws ++ movedWaiters off ws = ws := by
  cases ws with
  | nil => rfl
  | cons w ws => exact congrArg (w :: ·) rdropWhile_append_rtakeWhile

theorem moved_from {w : ℕ × List ℕ} (h : w ∈ movedWaiters off ws) : off ≤ w.1 := by
  cases ws with
  | nil => cases h
  | cons v ws => simpa using mem_rtakeWhile_imp h

/-- **What is kept after the first** is for the left half. -/
theorem kept_before (hs : Keyed.Sorted Prod.fst ws) {w : ℕ × List ℕ} (h : w ∈ keptWaiters off ws)
    (hne : ws.head? ≠ some w) : w.1 < off := by
  cases ws with
  | nil => cases h
  | cons v ws =>
    rcases mem_cons.mp h with rfl | h
    · exact absurd rfl hne
    · exact Keyed.rdropWhile_lt (pairwise_cons.mp hs).2 off w h

theorem bl_halves (hbytes : bh.bl = [] ∨ bh.bl.length = bh.length) (hoff : bh.start < off ∧ off < bh.fin) :
    (bh.leftOf off).bl ++ (bh.rightOf off).bl = bh.bl := by
  have hright : (bh.rightOf off).bl = bh.bl.drop (off - bh.start) := by
    refine take_of_length_le ?_
    rw [length_drop]
    rcases hbytes with h | h
    · rw [h, length_nil]
      omega
    · rw [h]
  rw [hright]
  exact take_append_drop _ _

/-- The first waiter is the one that may be left behind. -/
theorem splitOf_halves (hbytes : bh.bl = [] ∨ bh.bl.length = bh.length) (hoff : bh.start < off ∧ off < bh.fin)
    (hs : Keyed.Sorted Prod.fst bh.waitforRead)
    (hin : ∀ w ∈ bh.waitforRead, bh.start ≤ w.1 ∧ w.1 < bh.fin) :
    SplitOf bh off (bh.leftOf off) (bh.rightOf off) ↔
      ∀ w, bh.waitforRead.head? = some w → w.2 = [] ∨ w.1 < off := by
  have hl := fin_leftOf hoff
  have hr := fin_rightOf hoff
  constructor
  · intro h w hw
    refine or_iff_not_imp_left.mpr fun hne => ?_
    obtain ⟨c, hc⟩ := exists_mem_of_ne_nil _ hne
    -- it is kept, so it is in the left half
    have hkept : (w.1, c) ∈ (bh.leftOf off).waiters := by
      refine mem_waiters.mpr ⟨w, ?_, rfl, hc⟩
      change w ∈ keptWaiters off bh.waitforRead
      obtain ⟨ws, hws⟩ := head?_eq_some_iff.mp hw
      rw [hws]
      exact mem_cons_self
    exact hl ▸ (h.attached_left _ hkept).2
  · intro hfirst
    refine ⟨⟨⟨rfl, hl⟩, rfl, hr⟩, ⟨rfl, rfl⟩, bl_halves hbytes hoff, ?_, fun w hw => ?_, fun w hw => ?_⟩
    · rw [BufferHead.waiters, BufferHead.waiters, ← flatMap_append]
      exact congrArg _ (kept_append_moved off bh.waitforRead)
    · obtain ⟨e, he, hbyte, hc⟩ := mem_waiters.mp hw
      rw [hl, hbyte]
      refine ⟨(hin e (mem_keptWaiters he)).1, ?_⟩
      by_cases hhead : bh.waitforRead.head? = some e
      · exact (hfirst e hhead).resolve_left (ne_nil_of_mem hc)
      · exact kept_before hs he hhead
    · obtain ⟨e, he, hbyte, -⟩ := mem_waiters.mp hw
      rw [hr, hbyte]
      exact ⟨moved_from he, (hin e (mem_movedWaiters he)).2⟩

/-- `split` puts the two halves in place of the head. -/
theorem splitsHead_iff {ob : Object} {k : ℕ} (ht : Tidy ob.data) (hbh : ob.find k = some bh)
    (hoff : bh.start < off ∧ off < bh.fin) :
    SplitsHead k off bh ob ↔ SplitOf bh off (bh.leftOf off) (bh.rightOf off) := by
  obtain ⟨data, stat⟩ := ob
  obtain ⟨pre, post, hdata, rfl⟩ := Keyed.find_isSome hbh
  obtain rfl : data = pre ++ bh :: post := hdata
  have hsplit : split bh.start off ⟨pre ++ bh :: post, stat⟩ = _ := split_cut ht hoff
  constructor
  · rintro ⟨pre', post', left, right, ob', hcut, hob', hhalves, -, h⟩
    rw [hsplit] at hob'
    cases hob'
    -- the head is at one place only
    obtain ⟨rfl, rfl⟩ := Keyed.cut_unique ht.sorted hcut
    obtain ⟨rfl, rfl, -⟩ := by simpa using hhalves
    exact h
  · intro h
    exact ⟨pre, post, _, _, _, rfl, hsplit, rfl, rfl, h⟩

end waiters

/-- **A head is split** with each waiter in its half if the first one waits for a byte of the
left half, and not otherwise. -/
theorem split_waiters {ob : Object} {k off : ℕ} {bh : BufferHead} (ht : Tidy ob.data) (hbh : ob.find k = some bh)
    (hoff : bh.start < off ∧ off < bh.fin) (hs : Keyed.Sorted Prod.fst bh.waitforRead)
    (hin : ∀ w ∈ bh.waitforRead, bh.start ≤ w.1 ∧ w.1 < bh.fin) :
    SplitsHead k off bh ob ↔ ∀ w, bh.waitforRead.head? = some w → w.2 = [] ∨ w.1 < off := by
  obtain ⟨pre, post, hdata, -⟩ := Keyed.find_isSome hbh
  have hmem : bh ∈ ob.data := hdata ▸ mem_append_right _ mem_cons_self
  rw [splitsHead_iff ht hbh hoff, splitOf_halves (ht.bytes bh hmem) hoff hs hin]

/-- Two waiters, in the two halves. -/
theorem split_waiters_two :
    SplitsHead 0 2 ⟨.rx, 0, 4, [], 0, 0, [(1, [7]), (2, [8, 9])]⟩
      ⟨[⟨.rx, 0, 4, [], 0, 0, [(1, [7]), (2, [8, 9])]⟩], Function.update 0 .rx 4⟩ := by
  have htidy : Tidy [⟨.rx, 0, 4, [], 0, 0, [(1, [7]), (2, [8, 9])]⟩] := ⟨by decide, by decide, by decide⟩
  have hs : Keyed.Sorted Prod.fst [(1, [7]), (2, [8, 9])] := pairwise_pair.mpr one_lt_two
  refine (split_waiters htidy rfl (by decide) hs (by decide)).mpr fun w hw => ?_
  obtain rfl := Option.some.inj hw
  exact .inr one_lt_two

/-- One waiter, for a byte of the right half: it stays with the left one. -/
theorem split_one_waiter :
    Tidy [⟨.rx, 0, 4, [], 0, 0, [(3, [7])]⟩] ∧ Keyed.Sorted Prod.fst [(3, [7])] ∧
      ¬ SplitsHead 0 2 ⟨.rx, 0, 4, [], 0, 0, [(3, [7])]⟩
        ⟨[⟨.rx, 0, 4, [], 0, 0, [(3, [7])]⟩], Function.update 0 .rx 4⟩ := by
  have htidy : Tidy [⟨.rx, 0, 4, [], 0, 0, [(3, [7])]⟩] := ⟨by decide, by decide, by decide⟩
  refine ⟨htidy, pairwise_singleton _ _, fun h => ?_⟩
  have hhalves := (splitsHead_iff htidy rfl (by decide)).mp h
  exact absurd (hhalves.attached_left (3, 7) (by decide)) (by decide)

end ObjectCacher
end Osdc
end Ceph
