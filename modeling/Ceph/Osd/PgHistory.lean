/-
# The history of a placement group, projected

A notify or a query names the epoch its sender had. An OSD that does not have
the placement group brings the history up to its own map with
`OSD::project_pg_history`: it walks back from the current map and compares each
map's acting set with the current one. An OSD that does have it goes through
the maps in order, one `OSD::advance_map` each (`stepThrough`).

Both come down to the latest epoch that meets a condition (`scan_eq`,
`sweep_eq`), and the latest epoch at which something changes is the latest that
differs from now (`latest_changes`). The walk back does not see a change right
after the epoch it starts from when the history says "since that epoch"; it
takes two empty acting sets for two primaries; and its acker is the tail of the
acting set, where `get_acker` is the second OSD.
-/
import Ceph.Osdc.Objecter

namespace Ceph
namespace Osd
namespace PgHistory

open Option
open Osdc (Rep)

/-- The part of `PG::Info::History` that the two functions keep. -/
@[ext]
structure History where
  sameSince : ℕ
  samePrimarySince : ℕ
  sameAckerSince : ℕ
deriving DecidableEq

/-- `PG::get_primary`; `none` stands for -1. -/
def getPrimary (acting : List ℕ) : Option ℕ := acting.head?

/-- `PG::get_acker`. -/
def getAcker (rep : Rep) (acting : List ℕ) : Option ℕ :=
  if rep = .primary ∨ acting.length ≤ 1 then getPrimary acting else acting[1]?

/-- What `OSD::advance_map` does to the history at `epoch`, where the acting set goes from `old` to `tacting`. -/
def advanceMap (rep : Rep) (epoch : ℕ) (old tacting : List ℕ) (h : History) : History :=
  if tacting = old then h else
    { sameSince := epoch
      samePrimarySince := if getPrimary old ≠ getPrimary tacting then epoch else h.samePrimarySince
      sameAckerSince := if getAcker rep old ≠ getAcker rep tacting then epoch else h.sameAckerSince }

/-- The history after the `k` maps that follow `start`, one by one. -/
def stepThrough (rep : Rep) (acting : ℕ → List ℕ) (start : ℕ) (h : History) : ℕ → History
  | 0 => h
  | k + 1 =>
    advanceMap rep (start + k + 1) (acting (start + k)) (acting (start + k + 1)) (stepThrough rep acting start h k)

/-- The test of the loop for another primary. -/
def primaryDiffers (last acting : List ℕ) : Bool := ¬ (acting ≠ [] ∧ last ≠ [] ∧ acting.head? = last.head?)

/-- The test of the loop for another acker. -/
def tailDiffers (last acting : List ℕ) : Bool := ¬ (acting ≠ [] ∧ last ≠ [] ∧ acting.getLast? = last.getLast?)

/-- `since = e+1`, if the test holds and `e > since`. -/
def mark (differs : Bool) (e since : ℕ) : ℕ := if differs ∧ since < e then e + 1 else since

/-- One turn of the loop of `project_pg_history`. -/
def projectEpoch (rep : Rep) (last acting : List ℕ) (e : ℕ) (h : History) : History where
  sameSince := mark (acting ≠ last) e h.sameSince
  samePrimarySince := mark (primaryDiffers last acting) e h.samePrimarySince
  sameAckerSince :=
    if rep = .primary then
      if primaryDiffers last acting ∧ h.samePrimarySince < e then e + 1 else h.sameAckerSince
    else mark (tailDiffers last acting) e h.sameAckerSince

/-- The loop, with `k` epochs to go. An epoch is unsigned: below 0 there is another, whose map is not there. -/
def projectLoop (rep : Rep) (acting : ℕ → List ℕ) (last : List ℕ) (start : ℕ) : ℕ → History → Option History
  | 0, h => if start = 0 then none else some h
  | k + 1, h =>
    let h := projectEpoch rep last (acting (start + k)) (start + k) h
    if start + k < h.sameSince ∧ start + k < h.samePrimarySince ∧ start + k < h.sameAckerSince then some h
    else projectLoop rep acting last start k h

/-- `OSD::project_pg_history` from `start` to the current epoch `now`. -/
def projectPgHistory (rep : Rep) (acting : ℕ → List ℕ) (start now : ℕ) (last : List ℕ) (h : History) : Option History :=
  projectLoop rep acting last start (now - start) h

/-! ### The latest epoch -/

/-- The latest of the `k` epochs from `start` on that `p` holds in. -/
def latest (p : ℕ → Bool) (start : ℕ) : ℕ → Option ℕ
  | 0 => none
  | k + 1 => if p (start + k) then some (start + k) else latest p start k

/-- The `since` after a change in epoch `e`, if there was one. -/
def sinceOf (e : Option ℕ) (s : ℕ) : ℕ := e.elim s (· + 1)

theorem latest_bounds {p : ℕ → Bool} {start e : ℕ} : ∀ {k : ℕ}, latest p start k = some e → start ≤ e ∧ e < start + k
  | k + 1, h => by
    rw [latest] at h
    split at h
    · cases h
      omega
    · have := latest_bounds h
      omega

theorem latest_changes {β : Type} [DecidableEq β] (f : ℕ → β) (start : ℕ) : ∀ k : ℕ,
    latest (fun e => f e ≠ f (e + 1)) start k = latest (fun e => f e ≠ f (start + k)) start k
  | 0 => rfl
  | k + 1 => by
    rw [latest, latest, latest_changes f start k]
    by_cases heq : f (start + k) = f (start + k + 1)
    · rw [heq]
      rfl
    · simp [heq, ← Nat.add_assoc]

/-- Back from epoch to epoch, with the test `e > since`. -/
def scan (p : ℕ → Bool) (start : ℕ) : ℕ → ℕ → ℕ
  | 0, s => s
  | k + 1, s => scan p start k (mark (p (start + k)) (start + k) s)

/-- On from epoch to epoch. -/
def sweep (p : ℕ → Bool) (start s : ℕ) : ℕ → ℕ
  | 0 => s
  | k + 1 => if p (start + k) then start + k + 1 else sweep p start s k

variable {p q : ℕ → Bool} {start : ℕ}

theorem scan_of_le : ∀ {k s : ℕ}, start + k ≤ s + 1 → scan p start k s = s
  | 0, _, _ => rfl
  | k + 1, s, h => by
    have hmark : mark (p (start + k)) (start + k) s = s := if_neg fun hc => absurd hc.2 (by omega)
    rw [scan, hmark, scan_of_le (by omega)]

theorem scan_eq : ∀ {k s : ℕ}, s ≤ start → scan p start k s = sinceOf ((latest p start k).filter (s < ·)) s
  | 0, _, _ => rfl
  | k + 1, s, hs => by
    rw [scan, latest]
    by_cases hp : p (start + k)
    · by_cases hlt : s < start + k
      · rw [mark, if_pos ⟨hp, hlt⟩, scan_of_le (by omega)]
        simp [hp, hlt, sinceOf, filter_some]
      · -- only `start` itself is not after `s`
        rw [mark, if_neg fun hc => hlt hc.2, scan_of_le (by omega)]
        simp [hp, hlt, sinceOf, filter_some]
    · rw [mark, if_neg fun hc => hp hc.1, if_neg hp, scan_eq hs]

theorem sweep_eq {s : ℕ} : ∀ {k : ℕ}, sweep p start s k = sinceOf (latest p start k) s
  | 0 => rfl
  | k + 1 => by
    rw [sweep, latest, sweep_eq]
    split <;> rfl

theorem scan_eq_sweep {k s : ℕ} (hs : s ≤ start) :
    scan p start k s = sweep q start s k ↔ (latest p start k).filter (s < ·) = latest q start k := by
  rw [scan_eq hs, sweep_eq]
  constructor
  · intro h
    rcases hp : (latest p start k).filter (s < ·) with _ | e <;> rcases hq : latest q start k with _ | e'
    · rfl
    · have := latest_bounds hq
      simp only [hp, hq, sinceOf, Option.elim] at h
      omega
    · have := (filter_eq_some_iff.mp hp).2
      simp only [hp, hq, sinceOf, Option.elim, decide_eq_true_eq] at h this
      omega
    · simp only [hp, hq, sinceOf, Option.elim] at h
      rw [Nat.succ_inj.mp h]
  · intro h
    rw [h]

/-! ### The two functions, one field at a time -/

section functions

variable {rep : Rep} {acting : ℕ → List ℕ} {last : List ℕ}

theorem mark_ne {b : Bool} {e s : ℕ} (h : mark b e s ≠ s) : mark b e s = e + 1 := by
  unfold mark at h ⊢
  split
  · rfl
  · rename_i hc
    exact absurd (if_neg hc) h

/-- What the loop leaves in a field is what a walk back over all the epochs leaves: where it
breaks off, nothing more changes. -/
theorem projectLoop_eq (rep : Rep) (acting : ℕ → List ℕ) (last : List ℕ) (hstart : 0 < start) : ∀ (k : ℕ) (h : History),
    ∃ h', projectLoop rep acting last start k h = some h' ∧
      h'.sameSince = scan (fun e => acting e ≠ last) start k h.sameSince ∧
      h'.samePrimarySince = scan (fun e => primaryDiffers last (acting e)) start k h.samePrimarySince ∧
      (rep = .primary → h'.sameAckerSince =
          if h'.samePrimarySince = h.samePrimarySince then h.sameAckerSince else h'.samePrimarySince) ∧
      (rep ≠ .primary →
        h'.sameAckerSince = scan (fun e => tailDiffers last (acting e)) start k h.sameAckerSince)
  | 0, h => ⟨h, if_neg (by omega), rfl, rfl, fun _ => (if_pos rfl).symm, fun _ => rfl⟩
  | k + 1, h => by
    let h1 := projectEpoch rep last (acting (start + k)) (start + k) h
    have hacker : rep ≠ .primary →
        h1.sameAckerSince = mark (tailDiffers last (acting (start + k))) (start + k) h.sameAckerSince :=
      fun hr => if_neg hr
    -- as long as the primary is the acker, the two fields move together
    have hprimary : rep = .primary → h1.sameAckerSince =
        if h1.samePrimarySince = h.samePrimarySince then h.sameAckerSince else h1.samePrimarySince := by
      intro hr
      simp only [h1, projectEpoch, hr, if_true, mark]
      split
      · rw [if_neg (by omega)]
      · rw [if_pos rfl]
    simp only [projectLoop, scan]
    change ∃ h', (if start + k < h1.sameSince ∧ start + k < h1.samePrimarySince ∧ start + k < h1.sameAckerSince
        then some h1 else projectLoop rep acting last start k h1) = some h' ∧
      h'.sameSince = scan _ start k h1.sameSince ∧ h'.samePrimarySince = scan _ start k h1.samePrimarySince ∧ _
    split
    · rename_i hbreak
      refine ⟨h1, rfl, (scan_of_le (by omega)).symm, (scan_of_le (by omega)).symm, hprimary, fun hr => ?_⟩
      rw [← hacker hr, scan_of_le (by omega)]
    · obtain ⟨h', hl, hset, hprim, hp, ha⟩ := projectLoop_eq rep acting last hstart k h1
      refine ⟨h', hl, hset, hprim, fun hr => ?_, fun hr => by rw [ha hr, hacker hr]⟩
      rw [hp hr, hprimary hr]
      by_cases hmoved : h1.samePrimarySince = h.samePrimarySince
      · rw [hmoved, if_pos rfl]
      · have hstop : h'.samePrimarySince = h1.samePrimarySince := by
          have he : h1.samePrimarySince = start + k + 1 := mark_ne hmoved
          rw [hprim, scan_of_le (by omega)]
        rw [if_pos hstop, if_neg hmoved, hstop, if_neg hmoved]

theorem stepThrough_eq (h : History) : ∀ k : ℕ, stepThrough rep acting start h k =
      { sameSince := sweep (fun e => acting e ≠ acting (e + 1)) start h.sameSince k
        samePrimarySince :=
          sweep (fun e => getPrimary (acting e) ≠ getPrimary (acting (e + 1))) start h.samePrimarySince k
        sameAckerSince :=
          sweep (fun e => getAcker rep (acting e) ≠ getAcker rep (acting (e + 1))) start h.sameAckerSince k }
  | 0 => rfl
  | k + 1 => by
    rw [stepThrough, advanceMap, stepThrough_eq h k]
    by_cases heq : acting (start + k + 1) = acting (start + k)
    · simp [sweep, heq]
    · simp [sweep, heq, Ne.symm heq]

theorem primaryDiffers_eq (hlast : last ≠ []) (a : List ℕ) :
    primaryDiffers last a = decide (getPrimary a ≠ getPrimary last) := by
  cases a with
  | nil => cases last with
    | nil => exact absurd rfl hlast
    | cons _ _ => rfl
  | cons x a => exact decide_eq_decide.mpr (by simp [getPrimary, hlast])

end functions

/-! ### What the projection takes -/

/-- What makes the projection from `start` to `now` right: the last change of the acting set and of the primary is
after the epoch the history names; with no primary now, the history is right about it by the map before; and, where
the primary is not the acker, the tail of the acting set last differs from what it is now when the acker does. -/
structure Projects (rep : Rep) (acting : ℕ → List ℕ) (start now : ℕ) (h : History) : Prop where
  set : ∀ e ∈ latest (fun e => acting e ≠ acting now) start (now - start), h.sameSince < e
  primary : acting now ≠ [] →
    ∀ e ∈ latest (fun e => getPrimary (acting e) ≠ getPrimary (acting now)) start (now - start), h.samePrimarySince < e
  nobody : acting now = [] → start < now → (acting (now - 1) ≠ [] ↔ h.samePrimarySince < now - 1)
  acker : rep ≠ .primary →
    (latest (fun e => tailDiffers (acting now) (acting e)) start (now - start)).filter (h.sameAckerSince < ·) =
      latest (fun e => getAcker rep (acting e) ≠ getAcker rep (acting now)) start (now - start)

section projects

variable {rep : Rep} {acting : ℕ → List ℕ} {now : ℕ} {h : History}

/-- What a field says is the last change of `f`, when that is after `s`. -/
theorem scan_differs_iff {β : Type} [DecidableEq β] (f : ℕ → β) {s : ℕ} (hs : s ≤ start) (hnow : start ≤ now) :
    scan (fun e => f e ≠ f now) start (now - start) s = sweep (fun e => f e ≠ f (e + 1)) start s (now - start) ↔
      ∀ e ∈ latest (fun e => f e ≠ f now) start (now - start), s < e := by
  rw [scan_eq_sweep hs, latest_changes, Nat.add_sub_cancel' hnow]
  rcases latest (fun e => decide (f e ≠ f now)) start (now - start) with _ | e
  · simp
  · simp [filter_some]

theorem scan_nobody_iff {s : ℕ} (hs : s ≤ start) (hlt : start < now) (hnone : acting now = []) :
    scan (fun e => primaryDiffers (acting now) (acting e)) start (now - start) s =
        sweep (fun e => getPrimary (acting e) ≠ getPrimary (acting (e + 1))) start s (now - start) ↔
      (acting (now - 1) ≠ [] ↔ s < now - 1) := by
  rw [scan_eq_sweep hs, latest_changes (fun e => getPrimary (acting e)), Nat.add_sub_cancel' hlt.le, hnone]
  obtain ⟨k, rfl⟩ : ∃ k, now = start + k + 1 := ⟨now - start - 1, by omega⟩
  have hk : start + k + 1 - start = k + 1 := by omega
  have htest : latest (fun e => primaryDiffers [] (acting e)) start (k + 1) = some (start + k) := by
    rw [latest, if_pos (by simp [primaryDiffers])]
  rw [hk, htest, Nat.add_sub_cancel, filter_some, latest]
  by_cases hne : acting (start + k) = []
  · simp only [hne, getPrimary, ne_eq, not_true_eq_false, decide_false, Bool.false_eq_true, if_false, false_iff]
    by_cases hs' : s < start + k
    · simp only [hs', decide_true, if_true, not_true_eq_false, iff_false]
      intro heq
      have := latest_bounds heq.symm
      omega
    · -- there is only one map before `now`
      obtain rfl : k = 0 := by omega
      simp [latest]
  · have hprim : getPrimary (acting (start + k)) ≠ getPrimary [] := fun heq => hne (List.head?_eq_none_iff.mp heq)
    rw [if_pos (decide_eq_true hprim)]
    simp [hne]

theorem sweep_follows {p : ℕ → Bool} {s s' k : ℕ} (hs : s ≤ start) :
    sweep p start s' k = if sweep p start s k = s then s' else sweep p start s k := by
  rw [sweep_eq, sweep_eq]
  rcases hl : latest p start k with _ | e
  · exact (if_pos rfl).symm
  · have := latest_bounds hl
    exact (if_neg (by simp only [sinceOf, Option.elim]; omega)).symm

/-- **The projection is right exactly when the maps and the history allow it.** -/
theorem project_history (rep : Rep) (acting : ℕ → List ℕ) (start now : ℕ) (h : History) (hstart : 0 < start)
    (hnow : start ≤ now) (hset : h.sameSince ≤ start) (hprimary : h.samePrimarySince ≤ start)
    (hacker : h.sameAckerSince ≤ start) :
    projectPgHistory rep acting start now (acting now) h = some (stepThrough rep acting start h (now - start)) ↔
      Projects rep acting start now h := by
  obtain ⟨h', hl, hs, hp, hpa, hta⟩ := projectLoop_eq rep acting (acting now) hstart (now - start) h
  rw [projectPgHistory, hl, stepThrough_eq, some_inj, History.ext_iff]
  have hsetiff := scan_differs_iff acting hset hnow
  have hprimiff : h'.samePrimarySince = sweep (fun e => getPrimary (acting e) ≠ getPrimary (acting (e + 1))) start
        h.samePrimarySince (now - start) ↔
      (acting now ≠ [] → ∀ e ∈ latest (fun e => getPrimary (acting e) ≠ getPrimary (acting now)) start (now - start),
        h.samePrimarySince < e) ∧
      (acting now = [] → start < now → (acting (now - 1) ≠ [] ↔ h.samePrimarySince < now - 1)) := by
    rw [hp]
    by_cases hnone : acting now = []
    · rcases hnow.lt_or_eq with hlt | heq
      · rw [scan_nobody_iff hprimary hlt hnone]
        simp [hnone, hlt]
      · simp [← heq, scan, sweep, latest]
    · simp only [primaryDiffers_eq hnone]
      rw [scan_differs_iff (fun e => getPrimary (acting e)) hprimary hnow]
      simp [hnone]
  constructor
  · rintro ⟨h1, h2, h3⟩
    refine ⟨hsetiff.mp (hs ▸ h1), (hprimiff.mp h2).1, (hprimiff.mp h2).2, fun hr => ?_⟩
    rw [hta hr, scan_eq_sweep hacker, latest_changes (fun e => getAcker rep (acting e)), Nat.add_sub_cancel' hnow] at h3
    exact h3
  · rintro ⟨h1, h2, h3, h4⟩
    have hprim := hprimiff.mpr ⟨h2, h3⟩
    refine ⟨hs.trans (hsetiff.mpr h1), hprim, ?_⟩
    by_cases hr : rep = .primary
    · have hsame : ∀ a, getAcker rep a = getPrimary a := fun a => if_pos (.inl hr)
      simp only [hsame]
      rw [hpa hr, hprim]
      exact (sweep_follows hprimary).symm
    · rw [hta hr, scan_eq_sweep hacker, latest_changes (fun e => getAcker rep (acting e)), Nat.add_sub_cancel' hnow]
      exact h4 hr

/-- OSD 0 leaves in epoch 7: the whole set, its primary and its acker change. -/
theorem project_history_leave :
    projectPgHistory .splay (fun e => if e < 7 then [0, 1] else [1, 2]) 5 8 [1, 2] ⟨5, 4, 3⟩ =
      some (stepThrough .splay (fun e => if e < 7 then [0, 1] else [1, 2]) 5 ⟨5, 4, 3⟩ 3) :=
  (project_history .splay (fun e => if e < 7 then [0, 1] else [1, 2]) 5 8 ⟨5, 4, 3⟩ (by decide) (by decide) (by decide)
    (by decide) (by decide)).mpr
    ⟨by decide, fun _ => by decide, fun hnone => absurd hnone (by decide), fun _ => by decide⟩

/-- A notify sent in the epoch of a change, and the primary changes in the next. -/
theorem project_misses : ¬ ∀ (rep : Rep) (acting : ℕ → List ℕ) (start now : ℕ) (h : History), 0 < start → start ≤ now →
    h.sameSince ≤ start → h.samePrimarySince ≤ start → h.sameAckerSince ≤ start →
    projectPgHistory rep acting start now (acting now) h = some (stepThrough rep acting start h (now - start)) := by
  intro hall
  have h := hall .primary (fun e => if e < 6 then [0, 1] else [1, 0]) 5 6 ⟨5, 5, 5⟩ (by decide) (by decide) (by decide)
    (by decide) (by decide)
  revert h
  decide

end projects

end PgHistory
end Osd
end Ceph
