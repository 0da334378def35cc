/-
# Replaying entries from either end

`merge_log` replays the entries that it adds newest first, where a run of the
PG would have replayed them oldest first. An object is looked at alone: what
counts of its entries is which of them are updates. Where all are, or none is,
the order does not matter. Where some are and the newest is not, the object
is taken off first and an older update enters it again. And where the newest
is, the object ends up missing in the same version, but a replay from the
oldest on has taken it off in between and forgotten where it may be.

`rmissing` lists the objects by their versions. It is determined by `missing`
as long as no two objects are missing in one version, as in a history, where
each version is that of one change.
-/
import Ceph.Osd.CopyAfter
import Ceph.Osd.MissingMaps

namespace Ceph
namespace Osd
namespace PGLog

open List Function Option

/-! ### What is missing, by object and by version -/

/-- `missing` and `rmissing` say the same, each object is missing in the
version of one of its changes, and only of missing objects it is known where they may be. -/
structure Sound (H : List Entry) (m : Missing) : Prop where
  inverse : ∀ o v, m.missing o = some v ↔ m.rmissing v = some o
  logged : ∀ o v, m.missing o = some v → ∃ e ∈ H, e.oid = o ∧ e.version = v
  loc : ∀ o, m.missing o = none → m.loc o = none

/-- An entry of the history, or of the backlog: its version is that of a change of its object. -/
def Known (H : List Entry) (e : Entry) : Prop := ∃ x ∈ H, x.oid = e.oid ∧ x.version = e.version

section sound

variable {H : List Entry} {m m' : Missing} {e : Entry} {o : ℕ} {v : EVersion}

theorem Sound.add (hH : Sorted H) (h : Sound H m) (he : Known H e) : Sound H (m.add e.oid e.version) := by
  -- no other object is missing in this version
  have hone : ∀ x, m.missing x = some e.version → x = e.oid := fun x hx => by
    obtain ⟨y, hy, rfl, hyv⟩ := h.logged x _ hx
    obtain ⟨z, hz, hzo, hzv⟩ := he
    rw [← hzo, hH.inj hy hz (hyv.trans hzv.symm)]
  have hinv : (m.add e.oid e.version).Inverse := Missing.Inverse.add h.inverse hone
  by_cases hnew : (m.missing e.oid).any (e.version < ·) = true
  · rw [Missing.add, if_pos hnew]
    exact h
  rw [Missing.add, if_neg hnew] at hinv ⊢
  refine ⟨hinv, fun x w hx => ?_, fun x hx => ?_⟩
  · simp only [update_apply] at hx
    by_cases hxe : x = e.oid
    · rw [if_pos hxe] at hx
      obtain ⟨y, hy, hyo, hyv⟩ := he
      exact ⟨y, hy, hyo.trans hxe.symm, hyv.trans (some.inj hx)⟩
    · rw [if_neg hxe] at hx
      exact h.logged x w hx
  · simp only [update_apply] at hx
    by_cases hxe : x = e.oid
    · rw [if_pos hxe] at hx
      cases hx
    · rw [if_neg hxe] at hx
      exact h.loc x hx

theorem Sound.rm (h : Sound H m) (o : ℕ) (v : EVersion) : Sound H (m.rm o v) := by
  by_cases hold : (m.missing o).any (· < v) = true
  swap
  · rw [Missing.rm, if_neg hold]
    exact h
  rw [Missing.rm, if_pos hold]
  refine ⟨Missing.Inverse.drop h.inverse _, fun x w hx => ?_, fun x hx => ?_⟩
  · simp only [update_apply] at hx
    exact h.logged x w (ite_none_left_eq_some.mp hx).2
  · simp only [update_apply] at hx ⊢
    by_cases hxo : x = o
    · rw [if_pos hxo]
    · rw [if_neg hxo] at hx ⊢
      exact h.loc x hx

theorem Sound.mergeEntry (hH : Sorted H) (h : Sound H m) (he : Known H e) : Sound H (mergeEntry m e) := by
  unfold PGLog.mergeEntry
  split
  · exact h.add hH he
  · exact h.rm _ _

theorem Sound.foldl (hH : Sorted H) : ∀ {es : List Entry} {m : Missing}, Sound H m → (∀ e ∈ es, Known H e) →
    Sound H (es.foldl PGLog.mergeEntry m)
  | [], _, h, _ => h
  | e :: es, _, h, he => by
    obtain ⟨he, hes⟩ := forall_mem_cons.mp he
    rw [foldl_cons]
    exact Sound.foldl hH (h.mergeEntry hH he) hes

/-! ### One object -/

/-- The version that an object is missing in, and where it may be. -/
def spot (m : Missing) (o : ℕ) : Option EVersion × Option ℕ := (m.missing o, m.loc o)

/-- What an entry of the object makes of it. -/
def enterSpot (s : Option EVersion × Option ℕ) (e : Entry) : Option EVersion × Option ℕ :=
  if e.isUpdate then (raise s.1 e.version, s.2) else if s.1.any (· < e.version) then (none, none) else s

theorem spot_mergeEntry (m : Missing) (e : Entry) (o : ℕ) :
    spot (mergeEntry m e) o = if e.oid = o then enterSpot (spot m o) e else spot m o := by
  have hmiss : (mergeEntry m e).missing o = if e.oid = o then enter (fun e => e.isUpdate) (m.missing o) e else m.missing o :=
    replay_missing (fun e => e.isUpdate) m e o
  have hloc : (mergeEntry m e).loc o =
      if e.oid = o ∧ e.isUpdate = false ∧ (m.missing o).any (· < e.version) = true then none else m.loc o := by
    unfold mergeEntry
    by_cases hup : e.isUpdate = true
    · rw [if_pos hup, if_neg (by simp [hup]), Missing.add]
      split <;> rfl
    · rw [if_neg hup, Missing.rm]
      by_cases hold : (m.missing e.oid).any (· < e.version) = true
      · rw [if_pos hold]
        change Function.update m.loc e.oid none o = _
        rw [update_apply]
        by_cases ho : o = e.oid
        · rw [if_pos ho, if_pos ⟨ho.symm, Bool.eq_false_iff.mpr hup, ho ▸ hold⟩]
        · rw [if_neg ho, if_neg fun hcon => ho hcon.1.symm]
      · rw [if_neg hold, if_neg]
        rintro ⟨rfl, -, hcon⟩
        exact hold hcon
  rw [spot, hmiss, hloc]
  by_cases ho : e.oid = o
  · rw [if_pos ho, if_pos ho, enterSpot, enter]
    by_cases hup : e.isUpdate = true
    · rw [if_pos hup, if_pos hup, if_neg (by simp [hup])]
      rfl
    · have hf := Bool.eq_false_iff.mpr hup
      rw [if_neg hup, if_neg hup]
      by_cases hold : (m.missing o).any (· < e.version) = true
      · rw [if_pos hold, if_pos ⟨ho, hf, hold⟩]
        exact (if_pos hold).symm
      · rw [if_neg hold, if_neg fun hcon => hold hcon.2.2]
        exact (if_neg hold).symm
  · rw [if_neg ho, if_neg ho, if_neg fun hcon => ho hcon.1]
    rfl

theorem mem_filter_oid {es : List Entry} {e : Entry} {o : ℕ} : e ∈ (es.filter fun x => x.oid = o) ↔ e ∈ es ∧ e.oid = o := by
  rw [mem_filter, decide_eq_true_eq]

theorem spot_foldl (o : ℕ) : ∀ (es : List Entry) (m : Missing),
    spot (es.foldl mergeEntry m) o = (es.filter fun e => e.oid = o).foldl enterSpot (spot m o)
  | [], _ => rfl
  | e :: es, m => by
    rw [foldl_cons, spot_foldl o es, spot_mergeEntry, filter_cons]
    by_cases ho : e.oid = o
    · rw [if_pos ho, if_pos (by simpa using ho), foldl_cons]
    · rw [if_neg ho, if_neg (by simpa using ho)]

theorem Sound.ext (h : Sound H m) (h' : Sound H m') (hs : ∀ o, spot m o = spot m' o) : m = m' := by
  have hmiss : m.missing = m'.missing := funext fun o => congrArg Prod.fst (hs o)
  have hloc : m.loc = m'.loc := funext fun o => congrArg Prod.snd (hs o)
  have hlist : m.rmissing = m'.rmissing := funext fun v => Option.ext fun o => by
    rw [← h.inverse, ← h'.inverse, hmiss]
  cases m
  cases m'
  simp only at hmiss hloc hlist
  rw [hmiss, hloc, hlist]

end sound

/-! ### Both orders -/

section orders

variable {s : Option EVersion × Option ℕ} {es : List Entry} {v : EVersion}

theorem foldl_enterSpot_some (l : Option ℕ) : ∀ {es : List Entry}, (∀ e ∈ es, e.version < v) →
    es.foldl enterSpot (some v, l) = (some v, l)
  | [], _ => rfl
  | e :: es, h => by
    obtain ⟨he, hes⟩ := forall_mem_cons.mp h
    have hkeep : enterSpot (some v, l) e = (some v, l) := by
      have hold : ¬ (some v).any (· < e.version) = true := by simpa using he.le
      unfold enterSpot
      rw [raise, max_eq_left he.le, if_neg hold, ite_self]
    rw [foldl_cons, hkeep, foldl_enterSpot_some l hes]

theorem enterSpot_update {e : Entry} (hup : e.isUpdate = true) (hs : ∀ w ∈ s.1, w < e.version) :
    enterSpot s e = (some e.version, s.2) := by
  rw [enterSpot, if_pos hup]
  cases hs1 : s.1 with
  | none => rfl
  | some w => rw [raise, max_eq_right (hs w hs1).le]

theorem enterSpot_other {e : Entry} (hup : e.isUpdate = false) (hs : ∀ w ∈ s.1, w < e.version)
    (hloc : s.1 = none → s.2 = none) : enterSpot s e = (none, none) := by
  rw [enterSpot, if_neg (by simp [hup])]
  cases hs1 : s.1 with
  | none =>
    exact Prod.ext hs1 (hloc hs1)
  | some w => rw [if_pos (by simpa using hs w hs1)]

/-- **Oldest first**: missing in the version of the last if that is an update,
and it is known where it may be only if all are. -/
theorem foldl_oldest_first : ∀ {es : List Entry} {s : Option EVersion × Option ℕ}, Sorted es →
    (∀ w ∈ s.1, ∀ e ∈ es, w < e.version) → (s.1 = none → s.2 = none) → ∀ {e : Entry}, es.getLast? = some e →
    es.foldl enterSpot s =
      if e.isUpdate then (some e.version, if ∀ x ∈ es, x.isUpdate = true then s.2 else none) else (none, none)
  | [x], s, _, hlow, hloc, e, he => by
    obtain rfl : x = e := some.inj he
    have hlow : ∀ w ∈ s.1, w < x.version := fun w hw => hlow w hw x mem_cons_self
    rw [foldl_cons, foldl_nil]
    by_cases hup : x.isUpdate = true
    · rw [if_pos hup, if_pos (by simpa using hup), enterSpot_update hup hlow]
    · rw [if_neg hup, enterSpot_other (Bool.eq_false_iff.mpr hup) hlow hloc]
  | x :: y :: es, s, hsort, hlow, hloc, e, he => by
    obtain ⟨hx, hsort⟩ := pairwise_cons.mp hsort
    have hlowx : ∀ w ∈ s.1, w < x.version := fun w hw => hlow w hw x mem_cons_self
    rw [getLast?_cons_cons] at he
    rw [foldl_cons]
    by_cases hup : x.isUpdate = true
    · rw [enterSpot_update hup hlowx, foldl_oldest_first hsort (fun w hw => ?_) (fun hcon => absurd hcon (by simp)) he]
      · simp only [forall_mem_cons (a := x), hup, true_and]
      · rw [← some.inj hw]
        exact hx
    · rw [enterSpot_other (Bool.eq_false_iff.mpr hup) hlowx hloc,
        foldl_oldest_first hsort (fun w hw => absurd hw (by simp)) (fun _ => rfl) he]
      rw [if_neg (c := ∀ z ∈ x :: y :: es, z.isUpdate = true) fun hall => hup (hall x mem_cons_self), ite_self]

theorem foldl_none_iff : ∀ {es : List Entry}, Descending es →
    (es.foldl enterSpot (none, none) = (none, none) ↔ ∀ e ∈ es, e.isUpdate = false)
  | [], _ => by simp
  | e :: es, hs => by
    obtain ⟨he, hs⟩ := pairwise_cons.mp hs
    rw [foldl_cons, forall_mem_cons]
    by_cases hup : e.isUpdate = true
    · rw [enterSpot_update hup fun w hw => absurd hw (by simp), foldl_enterSpot_some _ he]
      simp [hup]
    · have hf := Bool.eq_false_iff.mpr hup
      rw [enterSpot_other hf (fun w hw => absurd hw (by simp)) fun _ => rfl, foldl_none_iff hs]
      simp [hf]

/-- **Where it may be** is forgotten with an entry that takes the object off. -/
theorem foldl_loc_iff : ∀ {es : List Entry} {s : Option EVersion × Option ℕ}, Sorted es → (s.1 = none → s.2 = none) →
    ((es.foldl enterSpot s).2 = none ↔ s.2 = none ∨ ∃ e ∈ es, e.isUpdate = false ∧ ∀ w ∈ s.1, w < e.version)
  | [], s, _, _ => by simp
  | x :: es, s, hs, hloc => by
    obtain ⟨hx, hs⟩ := pairwise_cons.mp hs
    rw [foldl_cons, exists_mem_cons_iff]
    by_cases hup : x.isUpdate = true
    · -- what is newer than `x` is newer than what `x` raises
      have hraise : ∀ e ∈ es, (∀ w ∈ raise s.1 x.version, w < e.version) ↔ ∀ w ∈ s.1, w < e.version := fun e he => by
        cases s.1 with
        | none => simpa [raise] using hx e he
        | some w => simp [raise, hx e he]
      rw [enterSpot, if_pos hup, foldl_loc_iff hs (fun hcon => absurd hcon (by cases s.1 <;> simp [raise]))]
      simp only [hup, Bool.true_eq_false, false_and, false_or]
      refine or_congr_right (exists_congr fun e => and_congr_right fun he => and_congr_right fun _ => hraise e he)
    · have hf := Bool.eq_false_iff.mpr hup
      rw [enterSpot, if_neg hup]
      by_cases hold : s.1.any (· < x.version) = true
      · have hlow : ∀ w ∈ s.1, w < x.version := fun w hw => by
          rw [hw, any_some] at hold
          exact of_decide_eq_true hold
        rw [if_pos hold, foldl_loc_iff hs fun _ => rfl]
        exact ⟨fun _ => .inr (.inl ⟨hf, hlow⟩), fun _ => .inl rfl⟩
      · rw [if_neg hold, foldl_loc_iff hs hloc]
        refine or_congr_right' fun hsome => ⟨.inr, fun h => h.resolve_left fun hx => hsome (hloc ?_)⟩
        have hlow := hx.2
        cases hs1 : s.1 with
        | none => rfl
        | some w =>
          rw [hs1] at hold hlow
          exact absurd (by simpa using hlow w rfl) hold

/-- The order of an object's entries `es` does not matter: all are updates, or
none is, or the newest is and it is not known where the object may be. -/
def InOrder (unlocated : Prop) (es : List Entry) : Prop :=
  (∀ e ∈ es, e.isUpdate = true) ∨ (∀ e ∈ es, e.isUpdate = false) ∨
    unlocated ∧ ∃ e ∈ es, e.isUpdate = true ∧ ∀ x ∈ es, x.version ≤ e.version

theorem le_getLast {e : Entry} (hs : Sorted es) (he : es.getLast? = some e) : ∀ x ∈ es, x.version ≤ e.version := by
  obtain ⟨init, rfl⟩ := getLast?_eq_some_iff.mp he
  intro x hx
  obtain hx | hx := mem_append.mp hx
  · exact ((pairwise_append.mp hs).2.2 x hx e (mem_singleton_self e)).le
  · rw [mem_singleton.mp hx]

theorem eq_getLast {e x : Entry} (hs : Sorted es) (he : es.getLast? = some e) (hx : x ∈ es)
    (hmax : ∀ y ∈ es, y.version ≤ x.version) : x = e :=
  hs.inj hx (mem_of_getLast? he) (le_antisymm (le_getLast hs he x hx) (hmax e (mem_of_getLast? he)))

/-- **Newest first or oldest first**, for one object. -/
theorem foldl_reverse_iff (hs : Sorted es) (hlow : ∀ w ∈ s.1, ∀ e ∈ es, w < e.version) (hloc : s.1 = none → s.2 = none) :
    es.reverse.foldl enterSpot s = es.foldl enterSpot s ↔ InOrder (s.2 = none) es := by
  cases he : es.getLast? with
  | none =>
    rw [getLast?_eq_none_iff.mp he]
    exact ⟨fun _ => .inl nofun, fun _ => rfl⟩
  | some e =>
    have hmem := mem_of_getLast? he
    have hlowe : ∀ w ∈ s.1, w < e.version := fun w hw => hlow w hw e hmem
    rw [foldl_oldest_first hs hlow hloc he]
    obtain ⟨init, rfl⟩ := getLast?_eq_some_iff.mp he
    have hdesc := descending_reverse hs
    rw [reverse_append, reverse_singleton, singleton_append] at hdesc ⊢
    obtain ⟨hinit, hdesc⟩ := pairwise_cons.mp hdesc
    rw [foldl_cons]
    by_cases hup : e.isUpdate = true
    · rw [if_pos hup, enterSpot_update hup hlowe, foldl_enterSpot_some _ hinit, Prod.mk.injEq]
      by_cases hall : ∀ x ∈ init ++ [e], x.isUpdate = true
      · rw [if_pos hall]
        exact ⟨fun _ => .inl hall, fun _ => ⟨rfl, rfl⟩⟩
      · rw [if_neg hall]
        constructor
        · rintro ⟨-, hl⟩
          exact .inr (.inr ⟨hl, e, hmem, hup, le_getLast hs he⟩)
        · rintro (hcon | hcon | ⟨hl, -⟩)
          · exact absurd hcon hall
          · exact absurd hup (by simp [hcon e hmem])
          · exact ⟨rfl, hl⟩
    · have hf := Bool.eq_false_iff.mpr hup
      rw [if_neg hup, enterSpot_other hf hlowe hloc, foldl_none_iff hdesc]
      constructor
      · intro hall
        refine .inr (.inl fun x hx => ?_)
        obtain hx | hx := mem_append.mp hx
        · exact hall x (mem_reverse.mpr hx)
        · rw [mem_singleton.mp hx]
          exact hf
      · rintro (hcon | hcon | ⟨-, x, hx, hxup, hmax⟩) y hy
        · exact absurd (hcon e hmem) hup
        · exact hcon y (mem_append.mpr (.inl (mem_reverse.mp hy)))
        · exact absurd (eq_getLast hs he hx hmax ▸ hxup) hup

/-- **Newest first or oldest first**, all that is missing. -/
theorem replay_reverse_iff {H : List Entry} {m : Missing} (hH : Sorted H) (hm : Sound H m) (hs : Sorted es)
    (hknown : ∀ e ∈ es, Known H e) (hlow : ∀ o w, m.missing o = some w → ∀ e ∈ es, w < e.version) :
    es.reverse.foldl mergeEntry m = es.foldl mergeEntry m ↔
      ∀ o, InOrder (m.loc o = none) (es.filter fun e => e.oid = o) := by
  have hone : ∀ o, spot (es.reverse.foldl mergeEntry m) o = spot (es.foldl mergeEntry m) o ↔
      InOrder (m.loc o = none) (es.filter fun e => e.oid = o) := fun o => by
    rw [spot_foldl, spot_foldl, filter_reverse]
    exact foldl_reverse_iff (hs.filter _) (fun w hw e he => hlow o w hw e (mem_filter_oid.mp he).1) (hm.loc o)
  constructor
  · intro heq o
    exact (hone o).mp (by rw [heq])
  · intro hall
    refine (hm.foldl hH fun e he => hknown e (mem_reverse.mp he)).ext (hm.foldl hH hknown) fun o => ?_
    exact (hone o).mpr (hall o)

end orders

end PGLog
end Osd
end Ceph
