/-
# `merge_log` with the other log

A log that is empty, or ends below the bottom of a received one that has a
backlog, is of no use any more: the received log takes its place. What is
missing then is made of the entries above our old top, newest first, and at
the split point of our own entries that are newer than the received one there.

An object that the received log leaves out is gone, and nothing takes it off
what is missing; one of our own entries at the split point may even enter it.
And newest first, an update that a delete has undone enters its object again.
-/
import Ceph.Osd.MergeTop

namespace Ceph
namespace Osd
namespace PGLog

open List Option

/-! ### A PG and a received log of one history -/

/-- The history up to `t`. -/
def upTo (H : List Entry) (t : EVersion) : List Entry := H.filter fun e => e.version ≤ t

/-- A PG of the history that stores its objects in the versions `stored`: its log is
empty or of the history, and missing are the objects that were updated last and are not
stored so. -/
structure Holds (H : List Entry) (stored : ℕ → Option EVersion) (pg : PG) : Prop where
  log : pg.log.top = EVersion.zero ∧ pg.log.log = [] ∨ LogOf H pg.log.toLog
  stored_le : ∀ o v, stored o = some v → v ≤ pg.log.top
  missing : ∀ o v, pg.missing.missing o = some v ↔
    stored o ≠ some v ∧ ∃ e, Newest (upTo H pg.log.top) e ∧ e.oid = o ∧ e.isUpdate = true ∧ e.version = v
  complete : ∀ o v, pg.missing.missing o = some v → pg.lastComplete < v
  le_top : pg.lastComplete ≤ pg.log.top

/-- The backlog of a log: the last change of its object up to the bottom, an update. -/
structure Summary (H : List Entry) (l : Log) : Prop where
  update : ∀ e ∈ l.log, e.version ≤ l.bottom → e.isUpdate = true
  newest : ∀ e ∈ l.log, e.version ≤ l.bottom →
    ∃ x, Newest (upTo H l.bottom) x ∧ x.oid = e.oid ∧ x.isUpdate = true ∧ x.version = e.version

/-- What the swap gets right of an object: its entries above our top end with an update, or
are deletes; and one that has no entry at all was not missing, and is not in the part of our log
above the split point. -/
structure SwapSettled (pg : PG) (olog : Log) (o : ℕ) : Prop where
  fresh : LeavesMissing (newer olog.log pg.log.top) o ∨ ∀ e ∈ newer olog.log pg.log.top, e.oid = o → e.isDelete = true
  gone : (∀ e ∈ olog.log, e.oid ≠ o) → pg.missing.isMissing o = false ∧
    ∀ p ∈ olog.log, p.version ≤ pg.log.top → (∀ x ∈ olog.log, x.version ≤ pg.log.top → x.version ≤ p.version) →
      ∀ e ∈ pg.log.log, p.version < e.version → e.oid ≠ o

/-- The entries and bounds are the received ones, the index is that of the list, and
missing are the objects whose newest entry is an update above `last_complete` that is not stored. -/
def SwapsIn (stored : ℕ → Option EVersion) (pg : PG) (olog : Log) : Prop :=
  ∃ pg', mergeLog pg olog = .ok pg' ∧
    (pg'.log.log = olog.log ∧ pg'.log.top = olog.top ∧ pg'.log.bottom = olog.bottom ∧ pg'.log.backlog = olog.backlog) ∧
    (pg'.lastUpdate = olog.top ∧ pg'.logBottom = olog.bottom ∧ pg'.logBacklog = olog.backlog) ∧
    Indexed pg'.log.ix pg'.log.log ∧
    ∀ o, pg'.missing.isMissing o = true ↔
      ∃ e, Newest pg'.log.log e ∧ e.oid = o ∧ e.isUpdate = true ∧ pg.lastComplete < e.version ∧
        stored o ≠ some e.version

section swap

variable {H : List Entry} {stored : ℕ → Option EVersion} {pg : PG} {olog : Log} {o : ℕ} {e : Entry}

theorem Newest.version_eq {es : List Entry} {a b : Entry} (ha : Newest es a) (hb : Newest es b) (ho : a.oid = b.oid) :
    a.version = b.version :=
  le_antisymm (hb.2 a ha.1 ho) (ha.2 b hb.1 ho.symm)

theorem mem_newer {es : List Entry} {t : EVersion} : e ∈ newer es t ↔ e ∈ es ∧ t < e.version := by
  rw [newer, mem_filter, decide_eq_true_eq]

theorem mem_upTo {t : EVersion} : e ∈ upTo H t ↔ e ∈ H ∧ e.version ≤ t := by
  rw [upTo, mem_filter, decide_eq_true_eq]

theorem dropWhile_newer {v : EVersion} : ∀ {es : List Entry}, Descending es →
    es.dropWhile (fun e => v < e.version) = es.filter fun e => e.version ≤ v
  | [], _ => rfl
  | e :: es, hs => by
    obtain ⟨he, hs⟩ := pairwise_cons.mp hs
    by_cases hlt : v < e.version
    · rw [dropWhile_cons_of_pos (by simpa using hlt), filter_cons_of_neg (by simpa using hlt),
        dropWhile_newer hs]
    · rw [dropWhile_cons_of_neg (by simpa using hlt), eq_comm, filter_eq_self]
      refine forall_mem_cons.mpr ⟨by simpa using hlt, fun x hx => ?_⟩
      simpa using (he x hx).le.trans (not_lt.mp hlt)

/-- **What is dropped**: of our entries, those newer than the received one at the split
point that have nothing as new in the received log. -/
theorem mem_divergent {t : EVersion} {ix : Index} {log new : List Entry} (hs : Sorted log) (hn : Sorted new)
    (hle : ∀ e ∈ log, e.version ≤ t) :
    e ∈ divergent t ix log.reverse new.reverse ↔
      e ∈ log ∧ ((ix.objects e.oid).all fun x => x.version < e.version) = true ∧
        ∃ p ∈ new, p.version ≤ t ∧ (∀ x ∈ new, x.version ≤ t → x.version ≤ p.version) ∧ p.version < e.version := by
  unfold divergent
  rw [dropWhile_newer (descending_reverse hn)]
  cases hd : new.reverse.filter fun e => e.version ≤ t with
  | nil =>
    refine ⟨nofun, fun ⟨_, _, p, hp, hpt, _⟩ => ?_⟩
    rw [filter_eq_nil_iff] at hd
    exact absurd (hd p (mem_reverse.mpr hp)) (by simpa using hpt)
  | cons p ps =>
    have hdesc : Descending (p :: ps) := hd ▸ (descending_reverse hn).filter _
    have hmem : ∀ x, x ∈ new ∧ x.version ≤ t ↔ x ∈ p :: ps := fun x => by
      rw [← hd, mem_filter, mem_reverse, decide_eq_true_eq]
    obtain ⟨hpn, hpt⟩ := (hmem p).mpr mem_cons_self
    have hmax : ∀ x ∈ new, x.version ≤ t → x.version ≤ p.version := fun x hx hxt => by
      obtain rfl | hx := mem_cons.mp ((hmem x).mp ⟨hx, hxt⟩)
      · exact le_rfl
      · exact ((pairwise_cons.mp hdesc).1 x hx).le
    have hsplit : (∃ p ∈ new, p.version ≤ t ∧ (∀ x ∈ new, x.version ≤ t → x.version ≤ p.version) ∧
      p.version < e.version) ↔ p.version < e.version := by
      refine ⟨fun ⟨q, hq, hqt, hqmax, hlt⟩ => (hqmax p hpn hpt).trans_lt hlt, fun hlt => ⟨p, hpn, hpt, hmax, hlt⟩⟩
    rw [hsplit]
    change e ∈ (if p.version < t then _ else []) ↔ _
    by_cases hlt : p.version < t
    · rw [if_pos hlt, takeWhile_newer (descending_reverse hs), mem_filter, mem_filter, mem_reverse,
        decide_eq_true_eq]
      tauto
    · rw [if_neg hlt]
      exact ⟨nofun, fun ⟨he, _, hgt⟩ => absurd (hgt.trans_le (hle e he)) hlt⟩

theorem le_bottom (hswap : pg.log.top = .zero ∨ pg.log.top < olog.bottom) (he : e.version ≤ pg.log.top) :
    e.version ≤ olog.bottom := by
  rcases hswap with hz | hlt
  · rw [hz] at he
    exact he.trans bot_le
  · exact he.trans hlt.le

section

variable (hpg : Holds H stored pg)
include hpg

theorem Holds.sorted : Sorted pg.log.log := by
  rcases hpg.log with ⟨-, hnil⟩ | hlog
  · rw [hnil]
    exact .nil
  · exact hlog.sorted

theorem Holds.entry (he : e ∈ pg.log.log) : e.version ≤ pg.log.top ∧ Known H e := by
  rcases hpg.log with ⟨-, hnil⟩ | hlog
  · rw [hnil] at he
    nomatch he
  · exact ⟨hlog.le_top he, hlog.known he⟩

theorem Holds.missing_le {v : EVersion} (hv : pg.missing.missing o = some v) : v ≤ pg.log.top := by
  obtain ⟨-, e, he, -, -, rfl⟩ := (hpg.missing o v).mp hv
  exact (mem_upTo.mp he.1).2

theorem divergent_absent (ho : LogOf H olog) (he : e ∈ olog.log) (heo : e.oid = o)
    (hold : ∀ x ∈ pg.log.log, x.oid = o → x.version ≤ e.version) :
    ((divergent pg.log.top (Index.all olog.log) pg.log.log.reverse olog.log.reverse).filter fun x => x.oid = o) =
      [] := by
  refine filter_eq_nil_iff.mpr fun x hx hxo => ?_
  obtain ⟨hx, hall, -⟩ := (mem_divergent hpg.sorted ho.sorted fun x hx => (hpg.entry hx).1).mp hx
  have hxo := of_decide_eq_true hxo
  have hix := indexed_all ho.sorted
  obtain ⟨y, hy⟩ := isSome_iff_exists.mp (hix.every e he)
  rw [hxo, ← heo, hy, all_some, decide_eq_true_eq] at hall
  exact absurd (hall.trans_le (hold x hx hxo)) ((hix.newest _ y hy).2.2 e he rfl).not_gt

theorem swap_fresh_iff (ho : LogOf H olog) (hch : ∃ e ∈ newer olog.log pg.log.top, e.oid = o) :
    (swapLog pg olog).missing.isMissing o = true ↔ ∃ e ∈ newer olog.log pg.log.top, e.oid = o ∧ e.isDelete = false := by
  obtain ⟨e, he, heo⟩ := hch
  obtain ⟨hin, hlt⟩ := mem_newer.mp he
  have hmem : ∀ x, x ∈ (olog.log.reverse.filter fun e => pg.log.top < e.version).filter (fun e => e.oid = o) ↔
      x ∈ newer olog.log pg.log.top ∧ x.oid = o := fun x => by
    rw [mem_filter_oid, mem_filter, mem_reverse, mem_newer, decide_eq_true_eq]
  rw [Missing.isMissing, swapLog_missing, divergent_absent hpg ho hin heo fun x hx _ => (hpg.entry hx).1.trans hlt.le,
    foldl_nil, takeWhile_newer (descending_reverse ho.sorted), foldl_enter_isSome]
  · simp only [hmem, and_assoc, Bool.not_eq_true']
  · exact ((descending_reverse ho.sorted).filter _).filter _
  · exact ne_nil_of_mem ((hmem e).mpr ⟨he, heo⟩)
  · intro v hv x hx
    exact (hpg.missing_le hv).trans_lt (mem_newer.mp ((hmem x).mp (mem_of_head? hx)).1).2

end

theorem swap_old (ho : LogOf H olog) (hno : ∀ e ∈ newer olog.log pg.log.top, e.oid ≠ o) :
    (swapLog pg olog).missing.missing o =
      ((divergent pg.log.top (Index.all olog.log) pg.log.log.reverse olog.log.reverse).filter fun e => e.oid = o).foldl
        (fun u e => raise u e.version) (pg.missing.missing o) := by
  rw [swapLog_missing, takeWhile_newer (descending_reverse ho.sorted)]
  have hnil : (olog.log.reverse.filter fun e => pg.log.top < e.version).filter (fun e => e.oid = o) = [] :=
    filter_eq_nil_iff.mpr fun e he heo => by
      obtain ⟨he, hlt⟩ := mem_filter.mp he
      exact hno e (mem_newer.mpr ⟨mem_reverse.mp he, of_decide_eq_true hlt⟩) (of_decide_eq_true heo)
  rw [hnil, foldl_nil]

theorem foldl_raise_isSome : ∀ {es : List Entry} {u : Option EVersion},
    (es.foldl (fun u e => raise u e.version) u).isSome = true ↔ u.isSome = true ∨ es ≠ []
  | [], u => by simp
  | e :: es, u => by
    rw [foldl_cons, foldl_raise_isSome]
    have hsome : (raise u e.version).isSome = true := by cases u <;> rfl
    simp [hsome]

theorem swap_fresh_meets (hpg : Holds H stored pg) (hch : ∃ e ∈ newer olog.log pg.log.top, e.oid = o) :
    (∃ e, Newest olog.log e ∧ e.oid = o ∧ e.isUpdate = true ∧ pg.lastComplete < e.version ∧ stored o ≠ some e.version) ↔
      LeavesMissing (newer olog.log pg.log.top) o := by
  obtain ⟨x, hx, hxo⟩ := hch
  obtain ⟨hxl, hxt⟩ := mem_newer.mp hx
  constructor
  · rintro ⟨e, ⟨he, hmax⟩, rfl, hup, -, -⟩
    exact ⟨e, mem_newer.mpr ⟨he, hxt.trans_le (hmax x hxl hxo)⟩, rfl, hup,
      fun y hy hyo => hmax y (mem_newer.mp hy).1 hyo⟩
  · rintro ⟨e, he, rfl, hup, hmax⟩
    obtain ⟨hel, het⟩ := mem_newer.mp he
    refine ⟨e, ⟨hel, fun y hy hyo => ?_⟩, rfl, hup, hpg.le_top.trans_lt het, fun hst => ?_⟩
    · rcases lt_or_ge pg.log.top y.version with hlt | hge
      · exact hmax y (mem_newer.mpr ⟨hy, hlt⟩) hyo
      · exact hge.trans het.le
    · exact absurd (hpg.stored_le _ _ hst) het.not_ge

theorem isDelete_of_isUpdate (hup : e.isUpdate = true) : e.isDelete = false := by
  unfold Recovery.Entry.isUpdate at hup
  unfold Entry.isDelete
  cases hop : e.op <;> simp [hop] at hup ⊢

section

variable (hpg : Holds H stored pg) (ho : LogOf H olog) (hsum : Summary H olog) (hswap : pg.log.top = EVersion.zero ∨ pg.log.top < olog.bottom)
include hpg ho hsum hswap

/-- The newest entry of an object is in the backlog: it is missing as it was, and that is right. -/
theorem swap_backlog (hno : ∀ e ∈ newer olog.log pg.log.top, e.oid ≠ o)
    (he : Newest olog.log e) (heo : e.oid = o) :
    (swapLog pg olog).missing.isMissing o = true ↔
      ∃ e, Newest olog.log e ∧ e.oid = o ∧ e.isUpdate = true ∧ pg.lastComplete < e.version ∧
        stored o ≠ some e.version := by
  have het : e.version ≤ pg.log.top := not_lt.mp fun hlt => hno e (mem_newer.mpr ⟨he.1, hlt⟩) heo
  have heb := le_bottom hswap het
  obtain ⟨y, hy, hyo, hyup, hyv⟩ := hsum.newest e he.1 heb
  have hup := hsum.update e he.1 heb
  have hyo := hyo.trans heo
  -- in the history up to our top the newest entry is the same
  have hyt : Newest (upTo H pg.log.top) y :=
    ⟨mem_upTo.mpr ⟨(mem_upTo.mp hy.1).1, hyv ▸ het⟩, fun x hx hxo => hy.2 x
      (mem_upTo.mpr ⟨(mem_upTo.mp hx).1, le_bottom hswap (mem_upTo.mp hx).2⟩) hxo⟩
  have hold : ∀ x ∈ pg.log.log, x.oid = o → x.version ≤ e.version := fun x hx hxo => by
    obtain ⟨hxt, z, hz, hzo, hzv⟩ := hpg.entry hx
    rw [← hyv, ← hzv]
    exact hyt.2 z (mem_upTo.mpr ⟨hz, hzv ▸ hxt⟩) (hzo.trans (hxo.trans hyo.symm))
  rw [Missing.isMissing, swap_old ho hno, divergent_absent hpg ho he.1 heo hold, foldl_nil,
    isSome_iff_exists]
  constructor
  · rintro ⟨v, hv⟩
    obtain ⟨hst, z, hz, hzo, -, rfl⟩ := (hpg.missing o v).mp hv
    have heq : z.version = e.version := (hz.version_eq hyt (hzo.trans hyo.symm)).trans hyv
    exact ⟨e, he, heo, hup, heq ▸ hpg.complete o _ hv, heq ▸ hst⟩
  · rintro ⟨x, hx, hxo, -, -, hst⟩
    have heq : y.version = x.version := hyv.trans (he.version_eq hx (heo.trans hxo.symm))
    exact ⟨x.version, (hpg.missing o _).mpr ⟨hst, y, hyt, hyo, hyup, heq⟩⟩

/-- **What is missing after the swap.** -/
theorem swap_missing_iff :
    ((swapLog pg olog).missing.isMissing o = true ↔
      ∃ e, Newest olog.log e ∧ e.oid = o ∧ e.isUpdate = true ∧ pg.lastComplete < e.version ∧
        stored o ≠ some e.version) ↔
      SwapSettled pg olog o := by
  by_cases hch : ∃ e ∈ newer olog.log pg.log.top, e.oid = o
  · rw [swap_fresh_iff hpg ho hch, swap_fresh_meets hpg hch]
    constructor
    · intro h
      refine ⟨or_iff_not_imp_left.mpr fun hlm e he heo => ?_, fun hgone => ?_⟩
      · exact Bool.of_not_eq_false fun hdel => hlm (h.mp ⟨e, he, heo, hdel⟩)
      · obtain ⟨e, he, heo⟩ := hch
        exact absurd heo (hgone e (mem_newer.mp he).1)
    · rintro ⟨hlm | hdel, -⟩
      · obtain ⟨e, he, heo, hup, -⟩ := id hlm
        exact iff_of_true ⟨e, he, heo, isDelete_of_isUpdate hup⟩ hlm
      · refine iff_of_false (fun ⟨e, he, heo, hnot⟩ => ?_) fun ⟨e, he, heo, hup, _⟩ => ?_
        · exact Bool.false_ne_true (hnot.symm.trans (hdel e he heo))
        · exact Bool.false_ne_true ((isDelete_of_isUpdate hup).symm.trans (hdel e he heo))
  have hno : ∀ e ∈ newer olog.log pg.log.top, e.oid ≠ o := fun e he heo => hch ⟨e, he, heo⟩
  have hfresh : ∀ e ∈ newer olog.log pg.log.top, e.oid = o → e.isDelete = true := fun e he heo => absurd heo (hno e he)
  by_cases hin : ∃ e ∈ olog.log, e.oid = o
  · obtain ⟨e, he, heo⟩ := hin
    obtain ⟨x, hx, hxo⟩ := exists_newest he
    refine iff_of_true (swap_backlog hpg ho hsum hswap hno hx (hxo.trans heo)) ⟨.inr hfresh, fun hgone => ?_⟩
    exact absurd heo (hgone e he)
  · have hgone : ∀ e ∈ olog.log, e.oid ≠ o := fun e he heo => hin ⟨e, he, heo⟩
    have hnone : ¬ ∃ e, Newest olog.log e ∧ e.oid = o ∧ e.isUpdate = true ∧ pg.lastComplete < e.version ∧
        stored o ≠ some e.version := fun ⟨e, he, heo, _⟩ => hgone e he.1 heo
    have hix : (Index.all olog.log).objects o = none := eq_none_iff_forall_ne_some.mpr fun y hy =>
      hgone y ((indexed_all ho.sorted).newest o y hy).1 ((indexed_all ho.sorted).newest o y hy).2.1
    have hdrop : ∀ e, e ∈ (divergent pg.log.top (Index.all olog.log) pg.log.log.reverse olog.log.reverse).filter
        (fun e => e.oid = o) ↔ (e ∈ pg.log.log ∧ ∃ p ∈ olog.log, p.version ≤ pg.log.top ∧
          (∀ x ∈ olog.log, x.version ≤ pg.log.top → x.version ≤ p.version) ∧ p.version < e.version) ∧ e.oid = o := by
      intro e
      rw [mem_filter_oid, mem_divergent hpg.sorted ho.sorted fun x hx => (hpg.entry hx).1]
      refine and_congr_left fun heo => and_congr_right fun _ => and_iff_right ?_
      rw [heo, hix]
      rfl
    rw [iff_false_right hnone, Missing.isMissing, swap_old ho hno, foldl_raise_isSome, not_or, not_not,
      eq_nil_iff_forall_not_mem]
    constructor
    · rintro ⟨hmiss, hnil⟩
      refine ⟨.inr hfresh, fun _ => ⟨Bool.eq_false_iff.mpr hmiss, fun p hp hpt hmax e he hlt heo => ?_⟩⟩
      exact hnil e ((hdrop e).mpr ⟨⟨he, p, hp, hpt, hmax, hlt⟩, heo⟩)
    · rintro ⟨-, hset⟩
      obtain ⟨hmiss, hnil⟩ := hset hgone
      refine ⟨Bool.eq_false_iff.mp hmiss, fun e he => ?_⟩
      obtain ⟨⟨he, p, hp, hpt, hmax, hlt⟩, heo⟩ := (hdrop e).mp he
      exact hnil p hp hpt hmax e he hlt heo

end

/-- **The swap is right exactly for the objects it settles.** -/
theorem merge_swaps_in (hpg : Holds H stored pg) (ho : LogOf H olog) (hback : olog.backlog = true)
    (hsum : Summary H olog) (hswap : pg.log.top = EVersion.zero ∨ pg.log.top < olog.bottom) :
    SwapsIn stored pg olog ↔ ∀ o, SwapSettled pg olog o := by
  have hmerge : mergeLog pg olog = .ok (swapLog pg olog) :=
    if_neg fun h => h (hswap.imp_right fun hlt => ⟨hlt, hback⟩)
  constructor
  · rintro ⟨pg', hok, ⟨hlog, -⟩, -, -, hmiss⟩ o
    cases hmerge.symm.trans hok
    exact (swap_missing_iff hpg ho hsum hswap).mp (hmiss o)
  · intro hall
    exact ⟨_, hmerge, ⟨rfl, rfl, rfl, rfl⟩, ⟨rfl, rfl, rfl⟩, indexed_all ho.sorted,
      fun o => (swap_missing_iff hpg ho hsum hswap).mpr (hall o)⟩

/-- The history of one object of ours and of two changes of another. -/
def twoObjects : List Entry :=
  [⟨⟨.modify, 5, toLex (1, 1)⟩, 21⟩, ⟨⟨.modify, 6, toLex (1, 2)⟩, 22⟩, ⟨⟨.modify, 6, toLex (1, 3)⟩, 23⟩]

/-- A PG that stores the first is behind by both changes; the received log has the first as its
backlog and begins at the second change. -/
theorem merge_swaps_in_one : SwapsIn (fun o => if o = 5 then some (toLex (1, 1)) else none)
    (PG.whole (cut twoObjects EVersion.zero (toLex (1, 1))))
    ⟨[⟨⟨.modify, 5, toLex (1, 1)⟩, noReqid⟩, ⟨⟨.modify, 6, toLex (1, 3)⟩, 23⟩], toLex (1, 3), toLex (1, 2), true⟩ := by
  have hH : Sorted twoObjects := by decide +kernel
  have hup : upTo twoObjects (toLex (1, 1)) = [⟨⟨.modify, 5, toLex (1, 1)⟩, 21⟩] := by decide +kernel
  have hpg : Holds twoObjects (fun o => if o = 5 then some (toLex (1, 1)) else none)
      (PG.whole (cut twoObjects .zero (toLex (1, 1)))) := by
    refine ⟨.inr (logOf_cut hH (by decide +kernel) ⟨_, mem_cons_self, rfl⟩), fun o v hv => ?_,
      fun o v => ⟨nofun, ?_⟩, nofun, le_rfl⟩
    · exact (some.inj (ite_none_right_eq_some.mp hv).2).symm.le
    · rintro ⟨hst, e, ⟨he, -⟩, rfl, -, rfl⟩
      change e ∈ upTo twoObjects (toLex (1, 1)) at he
      rw [hup, mem_singleton] at he
      exact absurd (by rw [he]; rfl) hst
  have ho : LogOf twoObjects ⟨[⟨⟨.modify, 5, toLex (1, 1)⟩, noReqid⟩, ⟨⟨.modify, 6, toLex (1, 3)⟩, 23⟩],
      toLex (1, 3), toLex (1, 2), true⟩ := by
    refine ⟨by decide +kernel, by decide +kernel, ⟨_, mem_of_getLast? rfl, rfl⟩, fun e he => ?_,
      fun e he hle => ?_⟩
    · change toLex (1, 2) < e.version at he
      simp only [twoObjects, mem_cons, not_mem_nil, or_false]
      constructor
      · rintro (rfl | rfl)
        · exact absurd he (by decide +kernel)
        · exact ⟨.inr (.inr rfl), by decide +kernel⟩
      · rintro ⟨rfl | rfl | rfl, -⟩
        · exact absurd he (by decide +kernel)
        · exact absurd he (by decide +kernel)
        · exact .inr rfl
    · obtain rfl | hin := mem_cons.mp he
      · exact ⟨rfl, ⟨⟨.modify, 5, toLex (1, 1)⟩, 21⟩, mem_cons_self, rfl, rfl⟩
      · obtain rfl := mem_singleton.mp hin
        exact absurd hle (by decide +kernel)
  have hsum : Summary twoObjects ⟨[⟨⟨.modify, 5, toLex (1, 1)⟩, noReqid⟩, ⟨⟨.modify, 6, toLex (1, 3)⟩, 23⟩],
      toLex (1, 3), toLex (1, 2), true⟩ := by
    refine ⟨fun e he hle => ?_, fun e he hle => ?_⟩ <;> obtain rfl | hin := mem_cons.mp he
    · rfl
    · obtain rfl := mem_singleton.mp hin
      rfl
    · refine ⟨⟨⟨.modify, 5, toLex (1, 1)⟩, 21⟩, ?_, rfl, rfl, rfl⟩
      unfold Newest
      decide +kernel
    · obtain rfl := mem_singleton.mp hin
      exact absurd hle (by decide +kernel)
  refine (merge_swaps_in hpg ho rfl hsum (.inr (by decide +kernel))).mpr fun o => ⟨?_, fun hgone => ⟨rfl, ?_⟩⟩
  · have hnewer : newer [⟨⟨.modify, 5, toLex (1, 1)⟩, noReqid⟩, ⟨⟨.modify, 6, toLex (1, 3)⟩, 23⟩] (toLex (1, 1)) =
        [⟨⟨.modify, 6, toLex (1, 3)⟩, 23⟩] := by decide +kernel
    change LeavesMissing (newer _ (toLex (1, 1))) o ∨ ∀ e ∈ newer _ (toLex (1, 1)), _
    by_cases ho6 : o = 6
    · exact .inl ⟨_, mem_cons_self, ho6.symm, rfl, fun x hx _ => by rw [mem_singleton.mp hx]⟩
    · exact .inr fun e he heo => absurd (mem_singleton.mp he ▸ heo).symm ho6
  · intro p hp hpt hmax e he hlt heo
    have hlog : (PG.whole (cut twoObjects .zero (toLex (1, 1)))).log.log =
        [⟨⟨.modify, 5, toLex (1, 1)⟩, 21⟩] := by decide +kernel
    rw [hlog, mem_singleton] at he
    rw [he] at heo
    exact hgone _ mem_cons_self heo

/-- An object is made and removed again above an empty log: newest first, it is entered. -/
theorem swap_reenters : ¬ ∀ (H : List Entry) (stored : ℕ → Option EVersion) (pg : PG) (olog : Log), Sorted H →
    Holds H stored pg → LogOf H olog → olog.backlog = true → Summary H olog →
    (pg.log.top = EVersion.zero ∨ pg.log.top < olog.bottom) → SwapsIn stored pg olog := by
  intro hall
  have hH : Sorted [⟨⟨.modify, 6, toLex (1, 1)⟩, 21⟩, ⟨⟨.delete, 6, toLex (1, 2)⟩, 22⟩] := by decide +kernel
  have hzero : upTo [⟨⟨.modify, 6, toLex (1, 1)⟩, 21⟩, ⟨⟨.delete, 6, toLex (1, 2)⟩, 22⟩] .zero =
    [] := by decide +kernel
  have hpg : Holds [⟨⟨.modify, 6, toLex (1, 1)⟩, 21⟩, ⟨⟨.delete, 6, toLex (1, 2)⟩, 22⟩] (fun _ => none)
      (PG.whole ⟨[], .zero, .zero, false⟩) := by
    refine ⟨.inl ⟨rfl, rfl⟩, nofun, fun o v => ⟨nofun, ?_⟩, nofun, le_rfl⟩
    rintro ⟨-, e, ⟨he, -⟩, -⟩
    change e ∈ upTo _ .zero at he
    nomatch he
  have htop : ∃ e ∈ ([⟨⟨.modify, 6, toLex (1, 1)⟩, 21⟩, ⟨⟨.delete, 6, toLex (1, 2)⟩, 22⟩] : List Entry),
      e.version = toLex (1, 2) :=
    ⟨_, mem_of_getLast? rfl, rfl⟩
  have ho : LogOf [⟨⟨.modify, 6, toLex (1, 1)⟩, 21⟩, ⟨⟨.delete, 6, toLex (1, 2)⟩, 22⟩]
      ⟨[⟨⟨.modify, 6, toLex (1, 1)⟩, 21⟩, ⟨⟨.delete, 6, toLex (1, 2)⟩, 22⟩], toLex (1, 2), .zero, true⟩ := by
    have hle : ∀ e ∈ ([⟨⟨.modify, 6, toLex (1, 1)⟩, 21⟩, ⟨⟨.delete, 6, toLex (1, 2)⟩, 22⟩] : List Entry),
        e.version ≤ toLex (1, 2) := by decide +kernel
    exact ⟨hH, by decide +kernel, htop, fun e _ => ⟨fun he => ⟨he, hle e he⟩, And.left⟩,
      fun e he _ => ⟨rfl, e, he, rfl, rfl⟩⟩
  have hsum : Summary [⟨⟨.modify, 6, toLex (1, 1)⟩, 21⟩, ⟨⟨.delete, 6, toLex (1, 2)⟩, 22⟩]
      ⟨[⟨⟨.modify, 6, toLex (1, 1)⟩, 21⟩, ⟨⟨.delete, 6, toLex (1, 2)⟩, 22⟩], toLex (1, 2), .zero, true⟩ := by
    have hlow : ∀ e ∈ ([⟨⟨.modify, 6, toLex (1, 1)⟩, 21⟩, ⟨⟨.delete, 6, toLex (1, 2)⟩, 22⟩] : List Entry),
        ¬ e.version ≤ .zero := by decide +kernel
    exact ⟨fun e he hle => absurd hle (hlow e he), fun e he hle => absurd hle (hlow e he)⟩
  obtain ⟨pg', hok, ⟨hlog, -⟩, -, -, hmiss⟩ := hall _ _ _ _ hH hpg ho rfl hsum (.inl rfl)
  have hin : ∃ pg', mergeLog (PG.whole ⟨[], .zero, .zero, false⟩)
      ⟨[⟨⟨.modify, 6, toLex (1, 1)⟩, 21⟩, ⟨⟨.delete, 6, toLex (1, 2)⟩, 22⟩], toLex (1, 2), .zero, true⟩ =
        .ok pg' ∧
      pg'.missing.isMissing 6 = true := ⟨_, rfl, by decide +kernel⟩
  obtain ⟨pg'', hok', hin⟩ := hin
  cases hok.symm.trans hok'
  obtain ⟨e, ⟨he, hmax⟩, -, hup, -⟩ := (hmiss 6).mp hin
  rw [hlog] at he hmax
  -- the newest entry is the delete
  obtain rfl | he := mem_cons.mp he
  · exact absurd (hmax _ (mem_of_getLast? rfl) rfl) (by decide +kernel)
  · obtain rfl := mem_singleton.mp he
    cases hup

end swap

end PGLog
end Osd
end Ceph
