/-
# What is copied of a log

A peer is sent the end of a log: `copy_after` copies the entries newer than a
version, `copy_after_unless_divergent` too, unless the log shows that the asker
has diverged. Both walk down from the newest entry until they are at the version
itself, and take it for a failure if they pass it by.

A log with a backlog can be passed by at its bottom: the backlog has the objects
that are not logged above, and the entry of the bottom is not among them where
its object is logged again. `copy_non_backlog` compares with the bottom instead.
-/
import Ceph.Osd.PeerMissing

namespace Ceph
namespace Osd
namespace PGLog

open List Option

/-! ### Copies -/

/-- `eversion_t::epoch`. -/
def epoch (v : EVersion) : ℕ := (ofLex v).1

/-- `Log::clear`. -/
def Log.clear : Log := ⟨[], EVersion.zero, EVersion.zero, false⟩

/-- An entry that took the place of `split` in a newer epoch. -/
def Diverges (split : EVersion) (e : Entry) : Prop := number e.version = number split ∧ epoch split < epoch e.version

instance (split : EVersion) (e : Entry) : Decidable (Diverges split e) := inferInstanceAs (Decidable (_ ∧ _))

/-- The loop of `copy_after_unless_divergent`, newest entry first; `none` inside is its `return false`. -/
def divergentLoop (split floor : EVersion) : List Entry → Option (Option (List Entry))
  | [] => some (some [])
  | e :: es =>
    if Diverges split e then some none
    else if e.version = floor then some (some [])
    else if floor < e.version then (divergentLoop split floor es).map (Option.map (e :: ·))
    else none

/-- `copy_after_unless_divergent`: what it returns, and the copy. -/
def copyAfterUnlessDivergent (other : Log) (split floor : EVersion) : Option (Bool × Log) :=
  if other.bottom ≤ split ∧ other.bottom ≤ floor ∧ floor ≤ split then
    (divergentLoop split floor other.log.reverse).map fun
      | none => (false, Log.clear)
      | some es => (true, ⟨es.reverse, other.top, floor, false⟩)
  else none

/-! ### The loops -/

/-- Newest first, each version once. -/
abbrev Descending (es : List Entry) : Prop := es.Pairwise fun a b => b.version < a.version

/-- The walk down to `v` stops there: some entry has the version, or none is older. -/
def Stops (es : List Entry) (v : EVersion) : Prop := (∃ e ∈ es, e.version = v) ∨ ∀ e ∈ es, v < e.version

instance (es : List Entry) (v : EVersion) : Decidable (Stops es v) := inferInstanceAs (Decidable (_ ∨ _))

section loops

variable {v split floor : EVersion}

theorem stops_cons {e : Entry} {es : List Entry} (hne : e.version ≠ v) (hlt : v < e.version) :
    Stops (e :: es) v ↔ Stops es v := by
  unfold Stops
  rw [exists_mem_cons_iff, forall_mem_cons]
  simp only [hne, hlt, false_or, true_and]

/-- The loop of `copy_after` copies what is newer, if the walk stops. -/
theorem copyLoop_eq : ∀ {es : List Entry}, Descending es →
    copyLoop v es = if Stops es v then some (es.filter fun e => v < e.version) else none
  | [], _ => rfl
  | e :: es, hs => by
    obtain ⟨he, hs⟩ := pairwise_cons.mp hs
    rw [copyLoop]
    by_cases heq : e.version = v
    · have hnone : (e :: es).filter (fun e => v < e.version) = [] := by
        rw [filter_eq_nil_iff]
        refine forall_mem_cons.mpr ⟨by simp [heq], fun x hx => ?_⟩
        simpa using heq ▸ (he x hx).le
      rw [if_pos heq, if_pos (.inl ⟨e, mem_cons_self, heq⟩), hnone]
    · rw [if_neg heq]
      by_cases hlt : v < e.version
      · rw [if_pos hlt, copyLoop_eq hs, filter_cons_of_pos (by simpa using hlt)]
        by_cases hstop : Stops es v
        · rw [if_pos hstop, if_pos ((stops_cons heq hlt).mpr hstop), map_some]
        · rw [if_neg hstop, if_neg (mt (stops_cons heq hlt).mp hstop), map_none]
      · rw [if_neg hlt, if_neg]
        rintro (⟨x, hx, hxv⟩ | hall)
        · obtain rfl | hx := mem_cons.mp hx
          · exact heq hxv
          · exact hlt (hxv ▸ he x hx)
        · exact hlt (hall e mem_cons_self)

theorem divergentLoop_eq : ∀ {es : List Entry}, (∀ e ∈ es, ¬ Diverges split e) →
    divergentLoop split floor es = (copyLoop floor es).map some
  | [], _ => rfl
  | e :: es, h => by
    obtain ⟨he, hes⟩ := forall_mem_cons.mp h
    rw [divergentLoop, copyLoop, if_neg he]
    split_ifs with heq hlt
    · rfl
    · rw [divergentLoop_eq hes, Option.map_map, Option.map_map]
      rfl
    · rfl

variable {d : Entry}

theorem divergentLoop_diverges (hd : Diverges split d) (hfloor : floor < d.version) :
    ∀ {es : List Entry}, Descending es → d ∈ es → divergentLoop split floor es = some none
  | [], _, h => nomatch h
  | e :: es, hs, h => by
    obtain ⟨he, hs⟩ := pairwise_cons.mp hs
    rw [divergentLoop]
    by_cases hdiv : Diverges split e
    · rw [if_pos hdiv]
    · have hmem : d ∈ es := (mem_cons.mp h).resolve_left fun heq => hdiv (heq ▸ hd)
      have hlt : floor < e.version := hfloor.trans (he d hmem)
      rw [if_neg hdiv, if_neg hlt.ne', if_pos hlt, divergentLoop_diverges hd hfloor hs hmem]
      rfl

/-- What diverges is newer than `split`. -/
theorem Diverges.lt (hd : Diverges split d) : split < d.version := Prod.Lex.lt_iff.mpr (.inl hd.2)

end loops

/-! ### What is copied -/

/-- The entries newer than `v`. -/
def newer (es : List Entry) (v : EVersion) : List Entry := es.filter fun e => v < e.version

/-- The bottom of a log, or the version of an entry above it. -/
def Follows (other : Log) (v : EVersion) : Prop :=
  v = other.bottom ∨ ∃ e ∈ other.log, e.version = v ∧ other.bottom < e.version

variable {es : List Entry}

theorem descending_reverse (h : Sorted es) : Descending es.reverse := pairwise_reverse.mpr h

variable {v : EVersion}

theorem stops_reverse : Stops es.reverse v ↔ Stops es v := by
  unfold Stops
  simp only [mem_reverse]

theorem reverse_filter_reverse (es : List Entry) (v : EVersion) :
    (es.reverse.filter fun e => v < e.version).reverse = newer es v := by
  rw [filter_reverse, reverse_reverse, newer]

theorem takeWhile_newer : ∀ {es : List Entry}, Descending es →
    es.takeWhile (fun e => v < e.version) = es.filter fun e => v < e.version
  | [], _ => rfl
  | e :: es, hs => by
    obtain ⟨he, hs⟩ := pairwise_cons.mp hs
    by_cases hlt : v < e.version
    · rw [takeWhile_cons_of_pos (by simpa using hlt), filter_cons_of_pos (by simpa using hlt), takeWhile_newer hs]
    · rw [takeWhile_cons_of_neg (by simpa using hlt), eq_comm, filter_eq_nil_iff]
      refine forall_mem_cons.mpr ⟨by simpa using hlt, fun x hx => ?_⟩
      simpa using (he x hx).le.trans (not_lt.mp hlt)

variable {other : Log}

theorem copyAfter_eq (h : Valid other) (hv : other.bottom ≤ v) :
    copyAfter other v = if Stops other.log v then some ⟨newer other.log v, other.top, v, false⟩ else none := by
  rw [copyAfter, if_pos hv, copyLoop_eq (descending_reverse h.sorted)]
  by_cases hstop : Stops other.log v
  · rw [if_pos (stops_reverse.mpr hstop), if_pos hstop, map_some, reverse_filter_reverse]
  · rw [if_neg (mt stops_reverse.mp hstop), if_neg hstop, map_none]

theorem Follows.le (h : Follows other v) : other.bottom ≤ v := by
  obtain rfl | ⟨e, -, rfl, hlt⟩ := h
  · exact le_rfl
  · exact hlt.le

theorem copyAfterUnlessDivergent_eq (h : Valid other) {split floor : EVersion} (hfloor : other.bottom ≤ floor)
    (hsplit : floor ≤ split) : copyAfterUnlessDivergent other split floor =
      if ∃ d ∈ other.log, Diverges split d then some (false, Log.clear)
      else if Stops other.log floor then some (true, ⟨newer other.log floor, other.top, floor, false⟩) else none := by
  have hdesc := descending_reverse h.sorted
  rw [copyAfterUnlessDivergent, if_pos ⟨hfloor.trans hsplit, hfloor, hsplit⟩]
  by_cases hdiv : ∃ d ∈ other.log, Diverges split d
  · obtain ⟨d, hmem, hd⟩ := hdiv
    rw [if_pos ⟨d, hmem, hd⟩,
      divergentLoop_diverges hd (lt_of_le_of_lt hsplit hd.lt) hdesc (mem_reverse.mpr hmem), map_some]
  · have hnone : ∀ e ∈ other.log.reverse, ¬ Diverges split e := fun e he hd => hdiv ⟨e, mem_reverse.mp he, hd⟩
    rw [if_neg hdiv, divergentLoop_eq hnone, copyLoop_eq hdesc]
    by_cases hstop : Stops other.log floor
    · rw [if_pos (stops_reverse.mpr hstop), if_pos hstop, map_some, map_some]
      simp only [reverse_filter_reverse]
    · rw [if_neg (mt stops_reverse.mp hstop), if_neg hstop, map_none, map_none]

/-- **What is newer is copied** if the walk down to the version stops at it, and only then:
some entry has it, or none is older. -/
theorem copies_newer (other : Log) (h : Valid other) :
    (∀ v, Follows other v →
      (copyAfter other v = some ⟨newer other.log v, other.top, v, false⟩ ↔ Stops other.log v)) ∧
    ∀ split floor, Follows other floor → floor ≤ split →
      (copyAfterUnlessDivergent other split floor = some
          (if ∃ d ∈ other.log, Diverges split d then (false, Log.clear)
          else (true, ⟨newer other.log floor, other.top, floor, false⟩)) ↔
        (∃ d ∈ other.log, Diverges split d) ∨ Stops other.log floor) := by
  refine ⟨fun v hv => ?_, fun split floor hfloor hsplit => ?_⟩
  · rw [copyAfter_eq h hv.le, ite_none_right_eq_some]
    exact and_iff_left rfl
  · rw [copyAfterUnlessDivergent_eq h hfloor.le hsplit]
    by_cases hdiv : ∃ d ∈ other.log, Diverges split d
    · rw [if_pos hdiv, if_pos hdiv]
      exact ⟨fun _ => .inl hdiv, fun _ => rfl⟩
    · rw [if_neg hdiv, if_neg hdiv, ite_none_right_eq_some, or_iff_right hdiv]
      exact and_iff_left rfl

/-- A log that is copied from its bottom on and from an entry on. -/
theorem copies_newer_two : (copyAfter ⟨[⟨⟨.modify, 5, toLex (1, 3)⟩, 21⟩, ⟨⟨.modify, 6, toLex (1, 4)⟩, 22⟩], toLex (1, 4),
      toLex (1, 2), false⟩ (toLex (1, 3)) =
        some ⟨[⟨⟨.modify, 6, toLex (1, 4)⟩, 22⟩], toLex (1, 4), toLex (1, 3), false⟩) := by
  have hmain := copies_newer ⟨[⟨⟨.modify, 5, toLex (1, 3)⟩, 21⟩, ⟨⟨.modify, 6, toLex (1, 4)⟩, 22⟩], toLex (1, 4),
      toLex (1, 2), false⟩ (by decide +kernel)
  exact (hmain.1 (toLex (1, 3)) (.inr ⟨_, mem_cons_self, rfl, by decide +kernel⟩)).mpr
    (.inl ⟨_, mem_cons_self, rfl⟩)

/-- Object 5 was changed at 1'1, object 6 at 1'2 and again at 1'3, and the log has a backlog
below 1'2: only object 5 is in it. -/
theorem copies_stuck : ¬ ∀ other : Log, Valid other → ∀ v, Follows other v →
    copyAfter other v = some ⟨newer other.log v, other.top, v, false⟩ := by
  intro hall
  have hcopy := hall ⟨[⟨⟨.modify, 5, toLex (1, 1)⟩, noReqid⟩, ⟨⟨.modify, 6, toLex (1, 3)⟩, 23⟩], toLex (1, 3),
    toLex (1, 2), true⟩ (by decide +kernel) (toLex (1, 2)) (.inl rfl)
  have hnone : copyAfter ⟨[⟨⟨.modify, 5, toLex (1, 1)⟩, noReqid⟩, ⟨⟨.modify, 6, toLex (1, 3)⟩, 23⟩], toLex (1, 3),
      toLex (1, 2), true⟩ (toLex (1, 2)) = none := by decide +kernel
  cases hcopy

end PGLog
end Osd
end Ceph
