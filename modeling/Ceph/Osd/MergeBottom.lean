/-
# `merge_log` on the bottom

A received log that goes further down is taken up to our bottom, in front of
our list. It has to go on above our bottom: one that ends right there passes
the guard, and fails the assertion that the walk has stopped before its end.

The entries taken that are newer than `last_complete` change what is missing,
oldest first, each as if nothing newer were logged: an object that our log
has again is entered, or taken off, by an older entry.
-/
import Ceph.Osd.MergeTop

namespace Ceph
namespace Osd
namespace PGLog

open List

/-! ### One object -/

section one

variable {s : Option EVersion × Option ℕ} {e : Entry} {v : EVersion}

theorem enterSpot_le_iff (he : e.version < v) : (∃ w ∈ (enterSpot s e).1, v ≤ w) ↔ ∃ w ∈ s.1, v ≤ w := by
  unfold enterSpot
  by_cases hup : e.isUpdate = true
  · rw [if_pos hup]
    cases s.1 with
    | none => simpa [raise] using he
    | some w => simp [raise, he.not_ge]
  · rw [if_neg hup]
    by_cases hold : s.1.any (· < e.version) = true
    · rw [if_pos hold]
      refine iff_of_false (fun h => by obtain ⟨w, hw, -⟩ := h; cases hw) fun h => ?_
      obtain ⟨w, hw, hle⟩ := h
      rw [hw, Option.any_some] at hold
      exact absurd ((of_decide_eq_true hold).trans he) hle.not_gt
    · rw [if_neg hold]

theorem enterSpot_isSome_iff : (enterSpot s e).1.isSome = true ↔ e.isUpdate = true ∨ ∃ w ∈ s.1, e.version ≤ w := by
  unfold enterSpot
  by_cases hup : e.isUpdate = true
  · rw [if_pos hup]
    refine ⟨fun _ => .inl hup, fun _ => ?_⟩
    cases s.1 with
    | none => rfl
    | some w => rfl
  · rw [if_neg hup]
    cases hs : s.1 with
    | none => simp [hup, hs]
    | some w =>
      by_cases hlt : w < e.version
      · simp [hup, hlt]
      · simp [hup, hlt, hs, not_lt.mp hlt]

/-- **Oldest first**, an object is missing after its entries if the newest of
them is an update, or if it was missing in a version no older. -/
theorem foldl_missing_iff : ∀ {es : List Entry} {s : Option EVersion × Option ℕ}, Sorted es → ∀ {e : Entry},
    es.getLast? = some e → ((es.foldl enterSpot s).1.isSome = true ↔ e.isUpdate = true ∨ ∃ w ∈ s.1, e.version ≤ w)
  | [x], s, _, e, he => by
    obtain rfl : x = e := Option.some.inj he
    exact enterSpot_isSome_iff
  | x :: y :: es, s, hs, e, he => by
    obtain ⟨hx, hs⟩ := pairwise_cons.mp hs
    rw [getLast?_cons_cons] at he
    rw [foldl_cons, foldl_missing_iff hs he, enterSpot_le_iff (hx e (mem_of_getLast? he))]

theorem foldl_enterSpot_fst : ∀ {es : List Entry} {s : Option EVersion × Option ℕ},
    (es.foldl enterSpot s).1 = es.foldl (enter fun e => e.isUpdate) s.1
  | [], _ => rfl
  | e :: es, s => by
    have hfst : (enterSpot s e).1 = enter (fun e => e.isUpdate) s.1 e := by
      unfold enterSpot enter
      split_ifs <;> rfl
    rw [foldl_cons, foldl_cons, foldl_enterSpot_fst, hfst]

/-- **Newest first**, it is missing after them if one of them is an update. -/
theorem foldl_newest_iff {es : List Entry} (hs : Descending es) (hne : es ≠ [])
    (hlow : ∀ w ∈ s.1, ∀ e ∈ es.head?, w < e.version) :
    (es.foldl enterSpot s).1.isSome = true ↔ ∃ e ∈ es, e.isUpdate = true := by
  rw [foldl_enterSpot_fst, foldl_enter_isSome hs hne hlow]

end one

/-! ### What is missing after the bottom -/

/-- The received entries up to our bottom leave the object missing or not, as it was. -/
def LowerSettled (pg : PG) (olog : Log) (o : ℕ) : Prop :=
  ∀ e ∈ lowerReplayed pg olog, e.oid = o → (∀ x ∈ lowerReplayed pg olog, x.oid = o → x.version ≤ e.version) →
    (e.isUpdate = true → pg.missing.isMissing o = true) ∧ (e.isUpdate = false → ∀ w ∈ pg.missing.missing o, e.version ≤ w)

section missing

variable {H : List Entry} {pg : PG} {olog : Log} {o : ℕ}

theorem lowerMissing_settled (ho : LogOf H olog) (hb : extendsBottom pg olog) :
    (lowerMissing pg olog).isMissing o = pg.missing.isMissing o ↔ LowerSettled pg olog o := by
  have hsort : Sorted ((lowerReplayed pg olog).filter fun e => e.oid = o) := (lowerReplayed_sorted pg ho).filter _
  have hspot : (lowerMissing pg olog).missing o =
      (((lowerReplayed pg olog).filter fun e => e.oid = o).foldl enterSpot (spot pg.missing o)).1 := by
    rw [← spot_foldl, lowerMissing, if_pos hb]
    rfl
  unfold Missing.isMissing
  rw [hspot]
  cases hlast : ((lowerReplayed pg olog).filter fun e => e.oid = o).getLast? with
  | none =>
    rw [getLast?_eq_none_iff] at hlast
    rw [hlast]
    refine ⟨fun _ e he heo => absurd (mem_filter_oid.mpr ⟨he, heo⟩) ?_, fun _ => rfl⟩
    rw [hlast]
    exact not_mem_nil
  | some e =>
    have hin := mem_filter_oid.mp (mem_of_getLast? hlast)
    have hmax : ∀ x ∈ lowerReplayed pg olog, x.oid = o → x.version ≤ e.version := fun x hx hxo =>
      le_getLast hsort hlast x (mem_filter_oid.mpr ⟨hx, hxo⟩)
    have hsettled : LowerSettled pg olog o ↔ (e.isUpdate = true → pg.missing.isMissing o = true) ∧
        (e.isUpdate = false → ∀ w ∈ pg.missing.missing o, e.version ≤ w) := by
      refine ⟨fun h => h e hin.1 hin.2 hmax, fun h x hx hxo hxmax => ?_⟩
      obtain rfl : x = e := (lowerReplayed_sorted pg ho).inj hx hin.1 (le_antisymm (hmax x hx hxo) (hxmax e hin.1 hin.2))
      exact h
    rw [hsettled, Bool.eq_iff_iff, foldl_missing_iff hsort hlast, Missing.isMissing, spot]
    cases pg.missing.missing o with
    | none => cases e.isUpdate <;> simp
    | some w => cases e.isUpdate <;> simp

theorem above_missing {es : List Entry} {t : EVersion} {m : Missing} (hnew : ∀ e ∈ above t es, e.oid ≠ o) :
    ((above t es).foldl mergeEntry m).isMissing o = m.isMissing o := by
  have hspot := spot_foldl o (above t es) m
  rw [filter_eq_nil_iff.mpr fun e he => by simpa using hnew e he, foldl_nil] at hspot
  exact congrArg (fun s => s.1.isSome) hspot

end missing

/-! ### Both ends -/

/-- What is new may be joined to our log: as in `TopJoins`, but where our last
entry is repeated some update of its object, itself or a new one, is enough. -/
def TopMeets (pg : PG) (olog : Log) : Prop :=
  (∀ a ∈ upper pg olog, a.version ≠ pg.log.top) ∧ Joins (lower pg olog) (newer olog.log pg.log.top) ∨
    ∃ a ∈ upper pg olog, a.version = pg.log.top ∧ EndsWith (lower pg olog) a ∧
      (∃ e ∈ newer olog.log pg.log.top, e.oid = a.oid) ∧
      (a.isUpdate = true ∨ ∃ e ∈ newer olog.log pg.log.top, e.oid = a.oid ∧ e.isUpdate = true)

section both

variable {H : List Entry} {pg pg' : PG} {olog : Log}

/-- Where our last entry is repeated its object is missing after the replay if some update of it is replayed. -/
theorem repeated_missing_iff {m : Missing} {new : List Entry} {a : Entry} (hs : Sorted new)
    (hlow : ∀ o w, m.missing o = some w → ∀ e ∈ new, w < e.version) (ha : ∀ e ∈ new, a.version < e.version)
    (hch : ∃ e ∈ new, e.oid = a.oid) :
    ((new.reverse ++ [a]).foldl mergeEntry m).isMissing a.oid = true ↔
      a.isUpdate = true ∨ ∃ e ∈ new, e.oid = a.oid ∧ e.isUpdate = true := by
  have hdesc : Descending (new.reverse ++ [a]) :=
    pairwise_append.mpr ⟨descending_reverse hs, pairwise_singleton _ _, fun x hx y hy => by
      rw [mem_singleton.mp hy]
      exact ha x (mem_reverse.mp hx)⟩
  have hmem : ∀ x, x ∈ ((new.reverse ++ [a]).filter fun x => x.oid = a.oid) ↔ (x ∈ new ∨ x = a) ∧ x.oid = a.oid := fun x => by
    rw [mem_filter_oid, mem_append, mem_reverse, mem_singleton]
  have hmiss : ((new.reverse ++ [a]).foldl mergeEntry m).missing a.oid =
      (((new.reverse ++ [a]).filter fun x => x.oid = a.oid).foldl enterSpot (spot m a.oid)).1 := by
    rw [← spot_foldl]
    rfl
  have hhead : ∀ w ∈ (spot m a.oid).1, ∀ e ∈ ((new.reverse ++ [a]).filter fun x => x.oid = a.oid).head?, w < e.version := by
    intro w hw e he
    obtain ⟨hin | rfl, heo⟩ := (hmem e).mp (mem_of_mem_head? he)
    · exact hlow _ w hw e hin
    · -- a newer entry of the object is before it
      obtain ⟨x, hx, hxo⟩ := hch
      rw [filter_append, head?_append_of_ne_nil] at he
      · exact hlow _ w hw e (mem_reverse.mp (mem_filter.mp (mem_of_mem_head? he)).1)
      · exact ne_nil_of_mem (mem_filter.mpr ⟨mem_reverse.mpr hx, decide_eq_true hxo⟩)
  rw [Missing.isMissing, hmiss, foldl_newest_iff (hdesc.filter _)
    (ne_nil_of_mem ((hmem a).mpr ⟨.inr rfl, rfl⟩)) hhead]
  simp only [hmem]
  constructor
  · rintro ⟨e, ⟨he | rfl, heo⟩, hup⟩
    · exact .inr ⟨e, he, heo, hup⟩
    · exact .inl hup
  · rintro (hup | ⟨e, he, heo, hup⟩)
    · exact ⟨a, ⟨.inr rfl, rfl⟩, hup⟩
    · exact ⟨e, ⟨.inl he, heo⟩, hup⟩

theorem joined_iff (hH : Sorted H) (hpg : Consistent H pg) (ho : LogOf H olog) :
    Joined (lowered pg olog) (upper pg olog) ↔ TopMeets pg olog := by
  have hnew : newer (upper pg olog) pg.log.top = newer olog.log pg.log.top := newer_upper hpg
  rw [Joined, TopMeets, lowered_top, lowered_log, lowered_missing, hnew]
  refine or_congr_right (exists_congr fun a => and_congr_right fun ha => and_congr_right fun hat => ?_)
  obtain ⟨hno, -⟩ | ⟨b, hb, hbt, habove⟩ := above_cases (upper_sorted pg ho) (t := pg.log.top)
  · exact absurd hat (hno a ha)
  · obtain rfl := (upper_sorted pg ho).inj ha hb (hat.trans hbt.symm)
    rw [habove, hnew]
    refine and_congr_right fun _ => and_congr_right fun hch => ?_
    exact repeated_missing_iff (ho.sorted.filter _) (lowerMissing_lt hH hpg ho)
      (fun e he => hat ▸ lt_of_newer he) hch

theorem topped_indexed (hpg : Consistent H pg) (ho : LogOf H olog) (hj : TopMeets pg olog) :
    Indexed (topped (lowered pg olog) olog (upper pg olog)).log.ix (lower pg olog ++ newer olog.log pg.log.top) := by
  have hlow : Indexed (lowered pg olog).log.ix (lower pg olog) := lowered_indexed hpg
  have hix := hlow.foldl_index (above pg.log.top (upper pg olog))
  have hnew : newer (upper pg olog) pg.log.top = newer olog.log pg.log.top := newer_upper hpg
  rw [topped, lowered_top]
  refine hix.congr fun e => ?_
  rw [mem_append, mem_append, or_comm, ← hnew]
  obtain ⟨-, habove⟩ | ⟨a, ha, hat, habove⟩ := above_cases (upper_sorted pg ho) (t := pg.log.top)
  · rw [habove, mem_reverse]
  · rw [habove, mem_append, mem_reverse, mem_singleton, or_assoc]
    refine or_congr_right ⟨.inr, fun h => h.elim ?_ id⟩
    rintro rfl
    obtain ⟨hno, -⟩ | ⟨b, hb, hbt, ⟨init, prev, hlow, -⟩, -⟩ := hj
    · exact absurd hat (hno e ha)
    · obtain rfl := (upper_sorted pg ho).inj hb ha (hbt.trans hat.symm)
      rw [hlow]
      exact mem_append_right _ (mem_cons_of_mem _ mem_cons_self)

end both

/-! ### The merge -/

/-- The received entries up to our bottom are in front of our list, and the
newer ones behind it; the bottom is the received one, the index that of the
list, and an object is missing that was not, or no longer, only if its newest
entry is above `last_complete` and not above our bottom, or is new. -/
def ExtendsBottom (pg : PG) (olog : Log) : Prop :=
  ∃ pg', mergeLog pg olog = .ok pg' ∧
    pg'.log.log = (olog.log.filter fun e => e.version ≤ pg.log.bottom) ++ pg.log.log ++ newer olog.log pg.log.top ∧
    (pg'.log.bottom = olog.bottom ∧ pg'.log.backlog = olog.backlog) ∧
    (pg'.logBottom = olog.bottom ∧ pg'.logBacklog = olog.backlog) ∧ Indexed pg'.log.ix pg'.log.log ∧
    ∀ o, pg'.missing.isMissing o ≠ pg.missing.isMissing o →
      (∃ e ∈ pg'.log.log, e.oid = o ∧ (∀ x ∈ pg'.log.log, x.oid = o → x.version ≤ e.version) ∧
        pg.lastComplete < e.version ∧ e.version ≤ pg.log.bottom) ∨ ∃ e ∈ newer olog.log pg.log.top, e.oid = o

/-- The PG with the received log on the bottom, and on top if it goes further up. -/
def merged (pg : PG) (olog : Log) : PG :=
  if pg.log.top < olog.top then topped (lowered pg olog) olog (upper pg olog) else lowered pg olog

section merge

variable {H : List Entry} {pg pg' : PG} {olog : Log}

theorem below_eq {b : EVersion} : ∀ {es : List Entry}, Sorted es → below b es = es.filter fun e => e.version ≤ b
  | [], _ => rfl
  | e :: es, hs => by
    obtain ⟨he, hs⟩ := pairwise_cons.mp hs
    have ih : es.takeWhile (fun e => e.version ≤ b) = es.filter fun e => e.version ≤ b := below_eq hs
    rw [below]
    by_cases hle : e.version ≤ b
    · rw [takeWhile_cons_of_pos (by simpa using hle), filter_cons_of_pos (by simpa using hle), ih]
    · rw [takeWhile_cons_of_neg (by simpa using hle), eq_comm, filter_eq_nil_iff]
      refine forall_mem_cons.mpr ⟨by simpa using hle, fun x hx => ?_⟩
      simpa using (lt_of_not_ge hle).trans (he x hx)

theorem lower_eq (ho : LogOf H olog) (hb : extendsBottom pg olog) :
    lower pg olog = (olog.log.filter fun e => e.version ≤ pg.log.bottom) ++ pg.log.log := by
  rw [lower, if_pos hb, below_eq ho.sorted]

theorem upper_eq_nil_iff (ho : LogOf H olog) (hb : extendsBottom pg olog) :
    upper pg olog = [] ↔ pg.log.bottom = olog.top := by
  rw [upper, if_pos hb, dropWhile_eq_nil_iff]
  constructor
  · intro hall
    by_contra hne
    have hnew := ho.newer_ne_nil hb.1.le (lt_of_le_of_ne hb.2.1 hne)
    obtain ⟨e, he⟩ := exists_mem_of_ne_nil _ hnew
    obtain ⟨hin, hgt⟩ := mem_filter.mp he
    exact absurd (of_decide_eq_true (hall e hin)) (of_decide_eq_true hgt).not_ge
  · intro heq e he
    exact decide_eq_true (heq ▸ ho.le_top he)

theorem mergeable_of_lt (hb : olog.bottom < pg.log.top) : mergeable pg olog := by
  rintro (hzero | ⟨hgt, -⟩)
  · rw [hzero] at hb
    exact absurd hb (by simp [EVersion.zero, Prod.Lex.lt_iff])
  · exact hgt.not_gt hb

theorem newer_eq_nil (ho : LogOf H olog) {t : EVersion} (ht : olog.top ≤ t) : newer olog.log t = [] :=
  filter_eq_nil_iff.mpr fun e he => by simpa using (ho.le_top he).trans ht

/-- Merged to the received entries up to our bottom, ours, and the newer ones,
if the received log goes on above our bottom and what is new meets our top. -/
theorem mergeLog_merged (hH : Sorted H) (hpg : Consistent H pg) (ho : LogOf H olog) (hb : extendsBottom pg olog) :
    (mergeLog pg olog = .ok pg' ∧ pg'.log.log = lower pg olog ++ newer olog.log pg.log.top) ↔
      pg' = merged pg olog ∧ pg.log.bottom ≠ olog.top ∧ (pg.log.top < olog.top → TopMeets pg olog) := by
  have hlt : olog.bottom < pg.log.top := lt_of_lt_of_le hb.1 hpg.log.le
  have hm : mergeable pg olog := mergeable_of_lt hlt
  by_cases ht : pg.log.top < olog.top
  · have hne : pg.log.bottom ≠ olog.top := (lt_of_le_of_lt hpg.log.le ht).ne
    rw [mergeLog_topped hpg ho hm hlt.le ht, joined_iff hH hpg ho, merged, if_pos ht]
    exact and_congr_right fun _ => ⟨fun h => ⟨hne, fun _ => h⟩, fun h => h.2 ht⟩
  · rw [merged, if_neg ht, newer_eq_nil ho (not_lt.mp ht), append_nil]
    by_cases hend : pg.log.bottom = olog.top
    · have hfail : mergeLog pg olog = .error .other := by
        rw [mergeLog, if_pos hm, extendBottom_eq, if_pos ⟨hb, (upper_eq_nil_iff ho hb).mpr hend⟩]
        rfl
      rw [hfail]
      exact iff_of_false (fun h => by cases h.1) fun h => absurd hend h.2.1
    · have hok : mergeLog pg olog = .ok (lowered pg olog) := by
        rw [mergeLog_eq hm fun _ => mt (upper_eq_nil_iff ho hb).mp hend, extendTop, if_neg]
        exact fun hx => ht (lowered_top pg olog ▸ hx.1)
      rw [hok, Except.ok.injEq]
      constructor
      · rintro ⟨rfl, -⟩
        exact ⟨rfl, hend, fun hcon => absurd hcon ht⟩
      · rintro ⟨rfl, -⟩
        exact ⟨rfl, lowered_log pg olog⟩

theorem merged_bottom (hb : extendsBottom pg olog) :
    ((merged pg olog).log.bottom = olog.bottom ∧ (merged pg olog).log.backlog = olog.backlog) ∧
      ((merged pg olog).logBottom = olog.bottom ∧ (merged pg olog).logBacklog = olog.backlog) := by
  unfold merged topped lowered
  split
  · exact ⟨⟨rfl, rfl⟩, rfl, rfl⟩
  · exact ⟨⟨rfl, rfl⟩, rfl, rfl⟩

theorem merged_indexed (hpg : Consistent H pg) (ho : LogOf H olog) (hmeets : pg.log.top < olog.top → TopMeets pg olog) :
    Indexed (merged pg olog).log.ix (lower pg olog ++ newer olog.log pg.log.top) := by
  unfold merged
  by_cases ht : pg.log.top < olog.top
  · rw [if_pos ht]
    exact topped_indexed hpg ho (hmeets ht)
  · rw [if_neg ht, newer_eq_nil ho (not_lt.mp ht), append_nil]
    exact lowered_indexed hpg

theorem merged_missing (hpg : Consistent H pg) (ho : LogOf H olog) (hmeets : pg.log.top < olog.top → TopMeets pg olog)
    {o : ℕ} (hno : ∀ e ∈ newer olog.log pg.log.top, e.oid ≠ o) :
    (merged pg olog).missing.isMissing o = (lowerMissing pg olog).isMissing o := by
  unfold merged
  by_cases ht : pg.log.top < olog.top
  · have hnew : newer (upper pg olog) pg.log.top = newer olog.log pg.log.top := newer_upper hpg
    rw [if_pos ht, topped, lowered_top, lowered_missing]
    refine above_missing fun e he => ?_
    obtain ⟨-, habove⟩ | ⟨a, ha, hat, habove⟩ := above_cases (upper_sorted pg ho) (t := pg.log.top)
    · rw [habove, hnew, mem_reverse] at he
      exact hno e he
    · rw [habove, hnew, mem_append, mem_reverse, mem_singleton] at he
      obtain he | rfl := he
      · exact hno e he
      · -- the entry repeated is of an object with a new entry
        obtain ⟨hcon, -⟩ | ⟨b, hb, hbt, -, ⟨x, hx, hxo⟩, -⟩ := hmeets ht
        · exact absurd hat (hcon e ha)
        · obtain rfl := (upper_sorted pg ho).inj hb ha (hbt.trans hat.symm)
          exact hxo ▸ hno x hx
  · rw [if_neg ht, lowered_missing]

/-- **Extended on the bottom**, exactly where the received log goes on above
our bottom, what is new meets our top, and what our log has again is settled. -/
theorem merge_extends_bottom (hH : Sorted H) (hpg : Consistent H pg) (ho : LogOf H olog) (hback : pg.log.backlog = false)
    (hb : olog.bottom < pg.log.bottom) (ht : pg.log.bottom ≤ olog.top) : ExtendsBottom pg olog ↔
      pg.log.bottom ≠ olog.top ∧ (pg.log.top < olog.top → TopMeets pg olog) ∧
        ∀ o, (∃ e ∈ pg.log.log, e.oid = o) → (∀ e ∈ newer olog.log pg.log.top, e.oid ≠ o) → LowerSettled pg olog o := by
  have hext : extendsBottom pg olog := ⟨hb, ht, hback⟩
  have hkey : ∀ pg', (mergeLog pg olog = .ok pg' ∧ pg'.log.log = lower pg olog ++ newer olog.log pg.log.top) ↔ _ :=
    fun _ => mergeLog_merged hH hpg ho hext
  unfold ExtendsBottom
  rw [← lower_eq ho hext]
  constructor
  · rintro ⟨pg', hok, hlog, -, -, -, hmiss⟩
    obtain ⟨rfl, hend, hmeets⟩ := (hkey pg').mp ⟨hok, hlog⟩
    refine ⟨hend, hmeets, fun o ⟨e, he, heo⟩ hno => ?_⟩
    by_contra hset
    have hch := mt (lowerMissing_settled ho hext).mp hset
    rw [← merged_missing hpg ho hmeets hno] at hch
    obtain ⟨x, -, -, hmax, -, hle⟩ | ⟨x, hx, hxo⟩ := hmiss o hch
    · have hin : e ∈ (merged pg olog).log.log := by
        rw [hlog, lower]
        exact mem_append_left _ (mem_append_right _ he)
      exact absurd ((hmax e hin heo).trans hle) (hpg.log.bottom_lt hback he).not_ge
    · exact hno x hx hxo
  · rintro ⟨hend, hmeets, hset⟩
    obtain ⟨hok, hlog⟩ := (hkey _).mpr ⟨rfl, hend, hmeets⟩
    refine ⟨_, hok, hlog, (merged_bottom hext).1, (merged_bottom hext).2, hlog ▸ merged_indexed hpg ho hmeets, fun o hch => ?_⟩
    by_cases hnew : ∃ e ∈ newer olog.log pg.log.top, e.oid = o
    · exact .inr hnew
    have hno : ∀ e ∈ newer olog.log pg.log.top, e.oid ≠ o := fun e he heo => hnew ⟨e, he, heo⟩
    rw [merged_missing hpg ho hmeets hno, ne_eq, lowerMissing_settled ho hext] at hch
    have hours : ∀ e ∈ pg.log.log, e.oid ≠ o := fun e he heo => hch (hset o ⟨e, he, heo⟩ hno)
    unfold LowerSettled at hch
    push Not at hch
    obtain ⟨e, he, heo, hmax, -⟩ := hch
    obtain ⟨hbelow, hlc⟩ := mem_lowerReplayed.mp he
    have hlower : ∀ x, x ∈ lower pg olog ++ newer olog.log pg.log.top → x.oid = o → x ∈ below pg.log.bottom olog.log := by
      intro x hx hxo
      rw [lower, if_pos hext] at hx
      obtain hx | hx := mem_append.mp hx
      · exact (mem_append.mp hx).resolve_right fun hx => hours x hx hxo
      · exact absurd hxo (hno x hx)
    refine .inl ⟨e, ?_, heo, fun x hx hxo => ?_, hlc, below_le hbelow⟩
    · rw [hlog, lower, if_pos hext]
      exact mem_append_left _ (mem_append_left _ hbelow)
    · rcases lt_or_ge pg.lastComplete x.version with hnewer | holder
      · exact hmax x (mem_lowerReplayed.mpr ⟨hlower x (hlog ▸ hx) hxo, hnewer⟩) hxo
      · exact holder.trans hlc.le

/-- One entry below one. -/
theorem merge_extends_bottom_one : ExtendsBottom
    (PG.whole (cut [⟨⟨.modify, 5, toLex (1, 1)⟩, 21⟩, ⟨⟨.modify, 6, toLex (1, 2)⟩, 22⟩] (toLex (1, 1)) (toLex (1, 2))))
    (cut [⟨⟨.modify, 5, toLex (1, 1)⟩, 21⟩, ⟨⟨.modify, 6, toLex (1, 2)⟩, 22⟩] EVersion.zero (toLex (1, 2))) := by
  have hH : Sorted [⟨⟨.modify, 5, toLex (1, 1)⟩, 21⟩, ⟨⟨.modify, 6, toLex (1, 2)⟩, 22⟩] := by decide +kernel
  have htop : ∃ e ∈ ([⟨⟨.modify, 5, toLex (1, 1)⟩, 21⟩, ⟨⟨.modify, 6, toLex (1, 2)⟩, 22⟩] : List Entry),
      e.version = toLex (1, 2) :=
    ⟨_, mem_cons_of_mem _ mem_cons_self, rfl⟩
  have hpg := consistent_whole (logOf_cut hH (b := toLex (1, 1)) (by decide +kernel) htop)
  have ho := logOf_cut hH (b := .zero) (by decide +kernel) htop
  refine (merge_extends_bottom hH hpg ho rfl (by decide +kernel) (by decide +kernel)).mpr
    ⟨by decide +kernel, fun hcon => absurd hcon (lt_irrefl _), fun o _ _ e he => ?_⟩
  have hnone : lowerReplayed
      (PG.whole (cut [⟨⟨.modify, 5, toLex (1, 1)⟩, 21⟩, ⟨⟨.modify, 6, toLex (1, 2)⟩, 22⟩] (toLex (1, 1)) (toLex (1, 2))))
      (cut [⟨⟨.modify, 5, toLex (1, 1)⟩, 21⟩, ⟨⟨.modify, 6, toLex (1, 2)⟩, 22⟩] .zero (toLex (1, 2))) = [] := by
    decide +kernel
  cases he

/-- The received log ends at our bottom: the walk does not stop before its end. -/
theorem merge_bottom_ends : ¬ ∀ (H : List Entry) (pg : PG) (olog : Log), Sorted H → Consistent H pg → LogOf H olog →
    pg.log.backlog = false → olog.bottom < pg.log.bottom → pg.log.bottom ≤ olog.top → ExtendsBottom pg olog := by
  intro hall
  have hH : Sorted [⟨⟨.modify, 5, toLex (1, 1)⟩, 21⟩, ⟨⟨.modify, 6, toLex (1, 2)⟩, 22⟩] := by decide +kernel
  have hpg := consistent_whole (logOf_cut hH (b := toLex (1, 1)) (by decide +kernel)
    ⟨_, mem_cons_of_mem _ mem_cons_self, rfl⟩)
  have ho := logOf_cut hH (b := .zero) (by decide +kernel) ⟨_, mem_cons_self, rfl⟩
  obtain ⟨pg', hok, -⟩ := hall _ _ _ hH hpg ho rfl (by decide +kernel) (by decide +kernel)
  have hfail : (mergeLog (PG.whole (cut [⟨⟨.modify, 5, toLex (1, 1)⟩, 21⟩, ⟨⟨.modify, 6, toLex (1, 2)⟩, 22⟩]
      (toLex (1, 1)) (toLex (1, 2)))) (cut [⟨⟨.modify, 5, toLex (1, 1)⟩, 21⟩, ⟨⟨.modify, 6, toLex (1, 2)⟩, 22⟩]
      .zero (toLex (1, 1)))).toOption.isNone = true := by decide +kernel
  rw [hok] at hfail
  cases hfail

end merge

end PGLog
end Osd
end Ceph
