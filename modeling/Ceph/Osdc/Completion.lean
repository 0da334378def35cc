/-
# A modification completes once

The tids of a modification are its extents. A tid leaves the commit set when
its commit is taken, and only then, so the callbacks come when the last one
has; a resubmission puts a tid back where it was. An ack is taken only while
its tid waits for one: a late ack of an earlier submission, from an acker
that has become acker again, leaves nothing for the ack of the last one, and
`handle_osd_modify_reply` fails its assertion.
-/
import Mathlib.Data.Finset.Card
import Ceph.Osdc.Objecter

namespace Ceph
namespace Osdc

open List Option Function

variable {rep : Rep} {bufferUncommitted : Bool} {s : Objecter}

/-! ### Placement groups -/

variable {l : List ℕ}

@[simp] theorem mem_setInsert {x y : ℕ} : y ∈ setInsert x l ↔ y = x ∨ y ∈ l := by
  unfold setInsert
  split_ifs with h
  · constructor
    · exact .inr
    · rintro (rfl | hy)
      · exact h
      · exact hy
  · exact mem_orderedInsert _

theorem nodup_setInsert {x : ℕ} (h : l.Nodup) : (setInsert x l).Nodup := by
  unfold setInsert
  split_ifs with hx
  · exact h
  · rw [(perm_orderedInsert (· ≤ ·) x l).nodup_iff]
    exact nodup_cons.mpr ⟨hx, h⟩

/-- The tid is active in the group. -/
def Active (s : Objecter) (p t : ℕ) : Prop := p ∈ s.pgs ∧ t ∈ (s.pg p).activeTids

variable {p t p' : ℕ}

theorem active_opened (hp : p ∉ s.pgs) (acting : List ℕ) :
    (p' ∈ setInsert p s.pgs ∧ t ∈ (Function.update s.pg p ⟨acting, []⟩ p').activeTids) ↔ Active s p' t := by
  unfold Active
  by_cases h : p' = p
  · subst h
    simp [hp]
  · simp [h]

theorem active_getPg : Active (getPg p s) p' t ↔ Active s p' t := by
  unfold getPg
  split_ifs with hp
  · rfl
  · exact active_opened hp _

theorem mem_getPg : p ∈ (getPg p s).pgs := by
  unfold getPg
  split_ifs with hp
  · exact hp
  · simp

theorem getPg_eq (p : ℕ) (s : Objecter) :
    ∃ pgs pg, getPg p s = { s with pgs := pgs, pg := pg } := by
  unfold getPg
  split_ifs
  · exact ⟨s.pgs, s.pg, rfl⟩
  · exact ⟨_, _, rfl⟩

/-! ### What is kept of a modification -/

/-- The books of the modifications. `x` is a modification and a tid of it that is
about to be submitted. -/
structure Gathered (x : Option (ℕ × ℕ)) (s : Objecter) : Prop where
  lt : ∀ w, ∀ t ∈ s.tids w, t ≤ s.lastTid
  made : ∀ w, s.numWrs ≤ w → s.tids w = [] ∧ s.wrs w = none
  once : ∀ w w' t, t ∈ s.tids w → t ∈ s.tids w' → w = w'
  nodup : ∀ w, (s.tids w).Nodup
  commit : ∀ w wr, s.wrs w = some wr → ∀ t, x ≠ some (w, t) →
    (t ∈ wr.waitforCommit ↔ t ∈ s.tids w ∧ t ∉ s.committed)
  ack : ∀ w wr, s.wrs w = some wr → ∀ t, x ≠ some (w, t) →
    (t ∈ wr.waitforAck → t ∈ wr.waitforCommit) ∧ (t ∈ s.tids w → t ∈ wr.waitforAck ∨ t ∈ s.acked)
  known : ∀ t ∈ s.committed, t ≤ s.lastTid
  committed : s.committed ⊆ s.acked
  gone : ∀ w, w < s.numWrs → s.wrs w = none → ∀ t ∈ s.tids w, t ∈ s.committed
  firedAck : ∀ w, .onack w ∈ s.fired → w < s.numWrs ∧ (∀ wr, s.wrs w = some wr → wr.onack = false) ∧
    ∀ t ∈ s.tids w, t ∈ s.acked
  firedCommit : ∀ w, .oncommit w ∈ s.fired → w < s.numWrs ∧ s.wrs w = none
  firedOnce : s.fired.Nodup

/-- A pending tid waits in its group, or is one of `K`, which are about to be
submitted again. -/
structure Placed (K : List ℕ) (s : Objecter) : Prop where
  op : ∀ t w, s.opModify t = some w → ∃ wr, s.wrs w = some wr ∧ t ∈ wr.waitforCommit ∧
    (t ∈ K ∨ Active s (wr.layout t) t)
  active : ∀ p t, Active s p t → ∃ w wr, s.opModify t = some w ∧ s.wrs w = some wr ∧ wr.layout t = p
  kicked : K.Nodup ∧ ∀ t ∈ K, (∃ w, s.opModify t = some w) ∧ ∀ p, ¬ Active s p t
  nodup : ∀ p ∈ s.pgs, (s.pg p).activeTids.Nodup
  pgs : s.pgs.Nodup

/-- A pending tid that waits for no ack has had the one of its last submission. -/
def Latest (s : Objecter) : Prop :=
  ∀ t w wr, s.opModify t = some w → s.wrs w = some wr → t ∉ wr.waitforAck → (t, s.attempts t) ∈ s.answered

variable {x : Option (ℕ × ℕ)} {K : List ℕ} {w : ℕ} {wr : OSDModify}

theorem Gathered.tables (h : Gathered x s) (map : ℕ → List ℕ) (pgs : List ℕ)
    (pg : ℕ → PG) (op : ℕ → Option ℕ) :
    Gathered x { s with osdmap := map, pgs := pgs, pg := pg, opModify := op } :=
  ⟨h.lt, h.made, h.once, h.nodup, h.commit, h.ack, h.known, h.committed, h.gone, h.firedAck, h.firedCommit,
    h.firedOnce⟩

theorem Gathered.lt_num (h : Gathered x s) (hwr : s.wrs w = some wr) : w < s.numWrs := by
  by_contra hle
  have hnone := (h.made w (not_lt.mp hle)).2
  rw [hwr] at hnone
  cases hnone

theorem Gathered.getPg (h : Gathered x s) (p : ℕ) : Gathered x (getPg p s) := by
  obtain ⟨pgs, pg, heq⟩ := getPg_eq p s
  rw [heq]
  exact h.tables s.osdmap pgs pg s.opModify

theorem Latest.getPg (h : Latest s) (p : ℕ) : Latest (getPg p s) := by
  obtain ⟨pgs, pg, heq⟩ := getPg_eq p s
  rw [heq]
  exact h

/-- Of the groups `Placed` reads who is active. -/
theorem Placed.regroup (h : Placed K s) {map : ℕ → List ℕ} {pgs : List ℕ} {pg : ℕ → PG}
    (hact : ∀ p t, (p ∈ pgs ∧ t ∈ (pg p).activeTids) ↔ Active s p t)
    (hnodup : ∀ p ∈ pgs, (pg p).activeTids.Nodup) (hpgs : pgs.Nodup) :
    Placed K { s with osdmap := map, pgs := pgs, pg := pg } := by
  refine ⟨fun t w hop => ?_, fun p t ha => ?_, ⟨h.kicked.1, fun t ht => ?_⟩, hnodup, hpgs⟩
  · obtain ⟨wr, hwr, hmem, hor⟩ := h.op t w hop
    exact ⟨wr, hwr, hmem, hor.imp_right (hact _ _).mpr⟩
  · exact h.active p t ((hact p t).mp ha)
  · obtain ⟨hex, hnot⟩ := h.kicked.2 t ht
    exact ⟨hex, fun p ha => hnot p ((hact p t).mp ha)⟩

theorem Placed.opened (h : Placed K s) (hp : p ∉ s.pgs) (acting : List ℕ) :
    Placed K { s with pgs := setInsert p s.pgs, pg := Function.update s.pg p ⟨acting, []⟩ } := by
  refine h.regroup (fun _ _ => active_opened hp acting) (fun p' hp' => ?_) (nodup_setInsert h.pgs)
  rcases mem_setInsert.mp hp' with rfl | hp'
  · simp
  · have hne : p' ≠ p := fun heq => hp (heq ▸ hp')
    rw [update_of_ne hne]
    exact h.nodup p' hp'

theorem Placed.getPg (h : Placed K s) (p : ℕ) : Placed K (getPg p s) := by
  unfold Osdc.getPg
  split_ifs with hp
  · exact h
  · exact h.opened hp _

variable {w' : ℕ} {o : Option OSDModify}

theorem update_wrs (h : Function.update s.wrs w o w' = some wr) :
    (w' = w ∧ o = some wr) ∨ (w' ≠ w ∧ s.wrs w' = some wr) := by
  by_cases hww : w' = w
  · subst hww
    rw [update_self] at h
    exact .inl ⟨rfl, h⟩
  · rw [update_of_ne hww] at h
    exact .inr ⟨hww, h⟩

variable {t' : ℕ}

theorem update_op (h : Function.update s.opModify t none t' = some w) :
    t' ≠ t ∧ s.opModify t' = some w := by
  have hne : t' ≠ t := by
    rintro rfl
    simp at h
  rw [update_of_ne hne] at h
  exact ⟨hne, h⟩

/-! ### Submissions -/

/-- The modification with a tid submitted. -/
def OSDModify.waiting (wr : OSDModify) (tid p : ℕ) : OSDModify :=
  { wr with
    waitforAck := insert tid wr.waitforAck
    waitforCommit := insert tid wr.waitforCommit
    layout := Function.update wr.layout tid p }

/-- The state with a tid submitted, when its group is open. -/
def Objecter.submitted (s : Objecter) (w p tid : ℕ) (wr : OSDModify) : Objecter :=
  { s with
    wrs := Function.update s.wrs w (some (wr.waiting tid p))
    opModify := Function.update s.opModify tid (some w)
    pg := Function.update s.pg p { s.pg p with activeTids := setInsert tid (s.pg p).activeTids }
    attempts := Function.update s.attempts tid (s.attempts tid + 1) }

theorem modifyxSubmit_eq (p tid : ℕ) (hwr : s.wrs w = some wr) :
    modifyxSubmit w p tid s = (getPg p s).submitted w p tid wr := by
  have hkept : (getPg p s).wrs w = some wr := by
    obtain ⟨pgs, pg, heq⟩ := getPg_eq p s
    rw [heq]
    exact hwr
  unfold modifyxSubmit
  simp only [hkept]
  rfl

variable {w : ℕ}

theorem submitted_wrs {wr wr' : OSDModify} (h : (s.submitted w p t wr).wrs w' = some wr') :
    (w' = w ∧ wr' = wr.waiting t p) ∨ (w' ≠ w ∧ s.wrs w' = some wr') :=
  (update_wrs h).imp_left fun ⟨hww, heq⟩ => ⟨hww, (some.inj heq).symm⟩

theorem submitted_wrs_none : (s.submitted w p t wr).wrs w' = none ↔ w' ≠ w ∧ s.wrs w' = none := by
  by_cases hww : w' = w
  · subst hww
    simp [Objecter.submitted]
  · simp [Objecter.submitted, hww]

theorem gathered_submitted (p : ℕ) (h : Gathered x s)
    (hx : x = none ∨ x = some (w, t)) (hwr : s.wrs w = some wr) (ht : t ∈ s.tids w) (hc : t ∉ s.committed) :
    Gathered none (s.submitted w p t wr) := by
  have hother : ∀ {w' t'}, (w', t') ≠ (w, t) → x ≠ some (w', t') := by
    rintro w' t' hne rfl
    rcases hx with hx | hx
    · cases hx
    · exact hne (some.inj hx)
  refine ⟨h.lt, fun w' hle => ?_, h.once, h.nodup, fun w' wr' hwr' t' _ => ?_, fun w' wr' hwr' t' _ => ?_,
    h.known, h.committed, fun w' hlt hw' => h.gone w' hlt (submitted_wrs_none.mp hw').2, fun w' hf => ?_,
    fun w' hf => ?_, h.firedOnce⟩
  · obtain ⟨htids, hnw⟩ := h.made w' hle
    refine ⟨htids, submitted_wrs_none.mpr ⟨?_, hnw⟩⟩
    rintro rfl
    rw [hwr] at hnw
    cases hnw
  · rcases submitted_wrs hwr' with ⟨rfl, rfl⟩ | ⟨hww, hwr''⟩
    · by_cases htt : t' = t
      · subst htt
        simp only [OSDModify.waiting, Finset.mem_insert_self, true_iff]
        exact ⟨ht, hc⟩
      · simp only [OSDModify.waiting, Finset.mem_insert, htt, false_or]
        exact h.commit w' wr hwr t' (hother (by simp [htt]))
    · exact h.commit w' wr' hwr'' t' (hother (by simp [hww]))
  · rcases submitted_wrs hwr' with ⟨rfl, rfl⟩ | ⟨hww, hwr''⟩
    · by_cases htt : t' = t
      · subst htt
        simp [OSDModify.waiting]
      · simp only [OSDModify.waiting, Finset.mem_insert, htt, false_or]
        exact h.ack w' wr hwr t' (hother (by simp [htt]))
    · exact h.ack w' wr' hwr'' t' (hother (by simp [hww]))
  · obtain ⟨hlt, hon, hack⟩ := h.firedAck w' hf
    refine ⟨hlt, fun wr' hwr' => ?_, hack⟩
    rcases submitted_wrs hwr' with ⟨rfl, rfl⟩ | ⟨_, hwr''⟩
    · exact hon wr hwr
    · exact hon wr' hwr''
  · obtain ⟨hlt, hgone⟩ := h.firedCommit w' hf
    refine ⟨hlt, submitted_wrs_none.mpr ⟨?_, hgone⟩⟩
    rintro rfl
    rw [hwr] at hgone
    cases hgone

theorem active_submitted (hp : p ∈ s.pgs) :
    Active (s.submitted w p t wr) p' t' ↔ (p' = p ∧ t' = t) ∨ Active s p' t' := by
  unfold Active Objecter.submitted
  by_cases hpp : p' = p
  · subst hpp
    simp [hp]
  · simp [hpp]

/-- A tid that is in no group is put into one. -/
theorem placed_submitted (h : Placed K s) (hp : p ∈ s.pgs)
    (hwr : s.wrs w = some wr) (hop : s.opModify t = none) (hact : ∀ p, ¬ Active s p t) :
    Placed K (s.submitted w p t wr) := by
  have hK : t ∉ K := by
    intro hmem
    obtain ⟨⟨w', hw'⟩, -⟩ := h.kicked.2 t hmem
    rw [hop] at hw'
    cases hw'
  have hkeep : ∀ {t'}, t' ≠ t → (s.submitted w p t wr).opModify t' = s.opModify t' := by
    intro t' hne
    exact update_of_ne hne _ _
  -- the modification of a tid, before and after
  have hwrs : ∀ {w' wr'} (t' : ℕ), t' ≠ t → s.wrs w' = some wr' →
      ∃ wr'', (s.submitted w p t wr).wrs w' = some wr'' ∧ wr''.layout t' = wr'.layout t' ∧
        (t' ∈ wr''.waitforCommit ↔ t' ∈ wr'.waitforCommit) := by
    intro w' wr' t' hne hwr'
    by_cases hww : w' = w
    · subst hww
      rw [hwr] at hwr'
      cases hwr'
      refine ⟨wr.waiting t p, by simp [Objecter.submitted], ?_, ?_⟩
      · exact update_of_ne hne _ _
      · simp [OSDModify.waiting, hne]
    · exact ⟨wr', by simpa only [Objecter.submitted, update_of_ne hww] using hwr', rfl, .rfl⟩
  refine ⟨fun t' w' hop' => ?_, fun p' t' ha => ?_, ⟨h.kicked.1, fun t' ht' => ?_⟩, fun p' hp' => ?_, h.pgs⟩
  · by_cases htt : t' = t
    · subst htt
      simp only [Objecter.submitted, update_self, some.injEq] at hop'
      subst hop'
      refine ⟨wr.waiting t' p, by simp [Objecter.submitted], by simp [OSDModify.waiting], .inr ?_⟩
      refine (active_submitted hp).mpr (.inl ⟨?_, rfl⟩)
      simp [OSDModify.waiting]
    · rw [hkeep htt] at hop'
      obtain ⟨wr', hwr', hmem, hor⟩ := h.op t' w' hop'
      obtain ⟨wr'', hwr'', hlay, hcom⟩ := hwrs t' htt hwr'
      refine ⟨wr'', hwr'', hcom.mpr hmem, hor.imp_right fun ha => ?_⟩
      rw [hlay]
      exact (active_submitted hp).mpr (.inr ha)
  · by_cases htt : t' = t
    · subst htt
      rcases (active_submitted hp).mp ha with ⟨rfl, -⟩ | ha
      · exact ⟨w, wr.waiting t' p', by simp [Objecter.submitted], by simp [Objecter.submitted],
          by simp [OSDModify.waiting]⟩
      · exact absurd ha (hact p')
    · rcases (active_submitted hp).mp ha with ⟨-, rfl⟩ | ha
      · exact absurd rfl htt
      · obtain ⟨w', wr', hop', hwr', hlay⟩ := h.active p' t' ha
        obtain ⟨wr'', hwr'', hlay', -⟩ := hwrs t' htt hwr'
        exact ⟨w', wr'', by rw [hkeep htt]; exact hop', hwr'', hlay'.trans hlay⟩
  · have htt : t' ≠ t := fun heq => hK (heq ▸ ht')
    obtain ⟨hex, hnot⟩ := h.kicked.2 t' ht'
    rw [hkeep htt]
    refine ⟨hex, fun p' ha => ?_⟩
    rcases (active_submitted hp).mp ha with ⟨-, rfl⟩ | ha
    · exact htt rfl
    · exact hnot p' ha
  · by_cases hpp : p' = p
    · subst hpp
      simp only [Objecter.submitted, update_self]
      exact nodup_setInsert (h.nodup p' hp')
    · simp only [Objecter.submitted, update_of_ne hpp]
      exact h.nodup p' hp'

theorem latest_submitted (h : Latest s) (hwr : s.wrs w = some wr) :
    Latest (s.submitted w p t wr) := by
  intro t' w' wr' hop' hwr' hnot
  by_cases htt : t' = t
  · subst htt
    simp only [Objecter.submitted, update_self, some.injEq] at hop'
    subst hop'
    rcases submitted_wrs hwr' with ⟨-, rfl⟩ | ⟨hww, -⟩
    · simp [OSDModify.waiting] at hnot
    · exact absurd rfl hww
  · simp only [Objecter.submitted, update_of_ne htt] at hop' ⊢
    rcases submitted_wrs hwr' with ⟨rfl, rfl⟩ | ⟨_, hwr''⟩
    · refine h t' w' wr hop' hwr fun hmem => hnot ?_
      exact Finset.mem_insert_of_mem hmem
    · exact h t' w' wr' hop' hwr'' hnot

/-- What holds between steps; `K` are the tids that a kick has yet to submit. -/
structure Inv (K : List ℕ) (s : Objecter) : Prop where
  ok : s.ok = true
  gathered : Gathered none s
  placed : Placed K s
  latest : Latest s

theorem inv_modifyxSubmit (hok : s.ok = true)
    (hg : Gathered x s) (hx : x = none ∨ x = some (w, t)) (hp : Placed K s) (hl : Latest s)
    (hwr : s.wrs w = some wr) (hop : s.opModify t = none) (hact : ∀ p, ¬ Active s p t)
    (ht : t ∈ s.tids w) (hc : t ∉ s.committed) : Inv K (modifyxSubmit w p t s) := by
  rw [modifyxSubmit_eq p t hwr]
  have hp' := hp.getPg p
  have hg' := hg.getPg p
  have hl' := hl.getPg p
  have hact' : ∀ p', ¬ Active (getPg p s) p' t := fun p' ha => hact p' (active_getPg.mp ha)
  have hmem : p ∈ (getPg p s).pgs := mem_getPg
  obtain ⟨pgs, pg, heq⟩ := getPg_eq p s
  rw [heq] at hp' hg' hl' hact' hmem ⊢
  exact ⟨hok, gathered_submitted p hg' hx hwr ht hc, placed_submitted hp' hmem hwr hop hact',
    latest_submitted hl' hwr⟩

theorem Inv.pending (h : Inv K s) (hop : s.opModify t = some w) :
    ∃ wr, s.wrs w = some wr ∧ t ∈ s.tids w ∧ t ∉ s.committed := by
  obtain ⟨wr, hwr, hmem, -⟩ := h.placed.op t w hop
  have := (h.gathered.commit w wr hwr t (by simp)).mp hmem
  exact ⟨wr, hwr, this⟩

theorem modifyxSubmit_fired (p t : ℕ) (hwr : s.wrs w = some wr) :
    (modifyxSubmit w p t s).fired = s.fired ∧ ∃ wr', (modifyxSubmit w p t s).wrs w = some wr' := by
  rw [modifyxSubmit_eq p t hwr]
  obtain ⟨pgs, pg, heq⟩ := getPg_eq p s
  rw [heq]
  exact ⟨rfl, wr.waiting t p, by simp [Objecter.submitted]⟩

/-- An extent of a new modification. -/
theorem inv_submitNext (h : Inv [] s) (hwr : s.wrs w = some wr)
    (hf : .onack w ∉ s.fired) (p : ℕ) : Inv [] (submitNext w s p) := by
  have hg := h.gathered
  have hw : w < s.numWrs := hg.lt_num hwr
  have hnew : ∀ w', s.lastTid + 1 ∉ s.tids w' := fun w' hmem => absurd (hg.lt w' _ hmem) (by omega)
  have hop : s.opModify (s.lastTid + 1) = none := by
    cases hop : s.opModify (s.lastTid + 1) with
    | none => rfl
    | some w' =>
      obtain ⟨_, -, hmem, -⟩ := h.pending hop
      exact absurd hmem (hnew w')
  have hmem : ∀ {w' t'}, t' ∈ Function.update s.tids w (s.tids w ++ [s.lastTid + 1]) w' ↔
      t' ∈ s.tids w' ∨ (w' = w ∧ t' = s.lastTid + 1) := by
    intro w' t'
    by_cases hww : w' = w
    · subst hww
      simp
    · simp [hww]
  refine inv_modifyxSubmit (x := some (w, s.lastTid + 1)) h.ok ?_ (.inr rfl) ?_ h.latest hwr hop ?_ ?_ ?_
  · refine ⟨fun w' t' ht' => ?_, fun w' hle => ?_, fun w' w'' t' h1 h2 => ?_, fun w' => ?_,
      fun w' wr' hwr' t' hne => ?_, fun w' wr' hwr' t' hne => ?_, fun t' ht' => ?_, hg.committed,
      fun w' hlt hw' t' ht' => ?_, fun w' hf' => ?_, hg.firedCommit, hg.firedOnce⟩
    · rcases hmem.mp ht' with ht' | ⟨-, rfl⟩
      · have := hg.lt w' t' ht'
        show t' ≤ s.lastTid + 1
        omega
      · exact le_rfl
    · have hww : w' ≠ w := by
        rintro rfl
        exact absurd hw (not_lt.mpr hle)
      refine ⟨?_, (hg.made w' hle).2⟩
      show Function.update s.tids w _ w' = []
      rw [update_of_ne hww]
      exact (hg.made w' hle).1
    · rcases hmem.mp h1 with h1 | ⟨hw', ht'⟩ <;> rcases hmem.mp h2 with h2 | ⟨hw'', ht''⟩
      · exact hg.once w' w'' t' h1 h2
      · exact absurd (ht'' ▸ h1) (hnew w')
      · exact absurd (ht' ▸ h2) (hnew w'')
      · exact hw'.trans hw''.symm
    · show (Function.update s.tids w _ w').Nodup
      by_cases hww : w' = w
      · subst hww
        rw [update_self]
        refine nodup_append.mpr ⟨hg.nodup w', by simp, fun a ha b hb hab => ?_⟩
        rw [hab, mem_singleton.mp hb] at ha
        exact hnew w' ha
      · rw [update_of_ne hww]
        exact hg.nodup w'
    · have hsame := hg.commit w' wr' hwr' t' (by simp)
      have hiff : t' ∈ Function.update s.tids w (s.tids w ++ [s.lastTid + 1]) w' ↔ t' ∈ s.tids w' := by
        rw [hmem]
        refine ⟨fun hor => hor.resolve_right ?_, .inl⟩
        rintro ⟨rfl, rfl⟩
        exact hne rfl
      rw [hsame]
      exact and_congr_left fun _ => hiff.symm
    · obtain ⟨h1, h2⟩ := hg.ack w' wr' hwr' t' (by simp)
      refine ⟨h1, fun ht' => h2 ((hmem.mp ht').resolve_right ?_)⟩
      rintro ⟨rfl, rfl⟩
      exact hne rfl
    · have := hg.known t' ht'
      show t' ≤ s.lastTid + 1
      omega
    · have hww : w' ≠ w := by
        rintro rfl
        rw [show s.wrs w' = none from hw'] at hwr
        cases hwr
      exact hg.gone w' hlt hw' t' ((hmem.mp ht').resolve_right fun hww' => hww hww'.1)
    · obtain ⟨hlt, hon, hack⟩ := hg.firedAck w' hf'
      refine ⟨hlt, hon, fun t' ht' => hack t' ((hmem.mp ht').resolve_right ?_)⟩
      rintro ⟨rfl, -⟩
      exact hf hf'
  · exact ⟨h.placed.op, h.placed.active, h.placed.kicked, h.placed.nodup, h.placed.pgs⟩
  · intro p' ha
    obtain ⟨w', wr', hop', -⟩ := h.placed.active p' _ ha
    rw [hop] at hop'
    cases hop'
  · exact hmem.mpr (.inr ⟨rfl, rfl⟩)
  · intro hmem'
    have := hg.known _ hmem'
    omega

theorem submitNext_fired (p : ℕ) (hwr : s.wrs w = some wr) :
    (submitNext w s p).fired = s.fired ∧ ∃ wr', (submitNext w s p).wrs w = some wr' :=
  modifyxSubmit_fired p (s.lastTid + 1) hwr

/-- **A modification is submitted.** -/
theorem inv_modifyx (isWrite onack oncommit : Bool) (ps : List ℕ) (h : Inv [] s) :
    Inv [] (modifyx isWrite onack oncommit ps s) := by
  -- over the extents; the modification is there, and its callback has not come
  have hloop : ∀ (ps : List ℕ) (s : Objecter) (w : ℕ) (wr : OSDModify), Inv [] s → s.wrs w = some wr →
      .onack w ∉ s.fired → Inv [] (ps.foldl (submitNext w) s) := by
    intro ps
    induction ps with
    | nil => exact fun s w wr h _ _ => h
    | cons p ps ih =>
      intro s w wr h hwr hf
      obtain ⟨hfired, wr', hwr'⟩ := submitNext_fired p hwr
      exact ih _ w wr' (inv_submitNext h hwr hf p) hwr' (by rw [hfired]; exact hf)
  have hg := h.gathered
  obtain ⟨htids, hnone⟩ := hg.made s.numWrs le_rfl
  have hne : ∀ {w wr}, s.wrs w = some wr → w ≠ s.numWrs := by
    rintro w wr hwr rfl
    rw [hnone] at hwr
    cases hwr
  refine hloop ps _ s.numWrs _ ?_ (update_self ..) fun hf => ?_
  · have hwrs : ∀ {w wr new}, Function.update s.wrs s.numWrs (some new) w = some wr →
        (w = s.numWrs ∧ wr = new) ∨ s.wrs w = some wr := by
      intro w wr new hwr
      exact (update_wrs hwr).imp (fun ⟨hw, heq⟩ => ⟨hw, (some.inj heq).symm⟩) And.right
    have hkeep : ∀ {w wr new}, s.wrs w = some wr → Function.update s.wrs s.numWrs (some new) w = some wr := by
      intro w wr new hwr
      rw [update_of_ne (hne hwr)]
      exact hwr
    refine ⟨h.ok, ⟨hg.lt, fun w hle => ?_, hg.once, hg.nodup, fun w wr hwr t ht => ?_,
      fun w wr hwr t ht => ?_, hg.known, hg.committed, fun w hlt hw => ?_, fun w hf => ?_,
      fun w hf => ?_, hg.firedOnce⟩, ?_, ?_⟩
    · have hlt : s.numWrs < w := hle
      refine ⟨(hg.made w (le_of_lt hlt)).1, ?_⟩
      show Function.update s.wrs s.numWrs _ w = none
      rw [update_of_ne (by omega)]
      exact (hg.made w (le_of_lt hlt)).2
    · rcases hwrs hwr with ⟨rfl, rfl⟩ | hwr
      · simp [htids]
      · exact hg.commit w wr hwr t (by simp)
    · rcases hwrs hwr with ⟨rfl, rfl⟩ | hwr
      · simp [htids]
      · exact hg.ack w wr hwr t (by simp)
    · by_cases hw' : w = s.numWrs
      · subst hw'
        simp at hw
      · have hlt' : w < s.numWrs + 1 := hlt
        refine hg.gone w (by omega) ?_
        simpa only [update_of_ne hw'] using hw
    · obtain ⟨hlt, hon, hack⟩ := hg.firedAck w hf
      refine ⟨Nat.lt_succ_of_lt hlt, fun wr hwr => ?_, hack⟩
      rcases hwrs hwr with ⟨rfl, -⟩ | hwr
      · exact absurd hlt (lt_irrefl _)
      · exact hon wr hwr
    · obtain ⟨hlt, hgone⟩ := hg.firedCommit w hf
      refine ⟨Nat.lt_succ_of_lt hlt, ?_⟩
      show Function.update s.wrs s.numWrs _ w = none
      rw [update_of_ne (by omega)]
      exact hgone
    · refine ⟨fun t w hop => ?_, fun p t ha => ?_, h.placed.kicked, h.placed.nodup, h.placed.pgs⟩
      · obtain ⟨wr, hwr, hmem, hor⟩ := h.placed.op t w hop
        exact ⟨wr, hkeep hwr, hmem, hor⟩
      · obtain ⟨w, wr, hop, hwr, hlay⟩ := h.placed.active p t ha
        exact ⟨w, wr, hop, hkeep hwr, hlay⟩
    · intro t w wr hop hwr hnot
      rcases hwrs hwr with ⟨rfl, -⟩ | hwr
      · obtain ⟨wr', hwr', -⟩ := h.pending hop
        exact absurd rfl (hne hwr')
      · exact h.latest t w wr hop hwr hnot
  · exact absurd (hg.firedAck _ hf).1 (lt_irrefl _)

/-! ### Map changes -/

/-- A tid of `K` is submitted again, or dropped. -/
theorem inv_kickTid (h : Inv (t :: K) s) : Inv K (kickTid bufferUncommitted s t) := by
  obtain ⟨⟨w, hop⟩, hact⟩ := h.placed.kicked.2 t mem_cons_self
  obtain ⟨wr, hwr, ht, hc⟩ := h.pending hop
  have hnodup := nodup_cons.mp h.placed.kicked.1
  -- the tid is taken out of the table
  have hdrop : Placed K { s with opModify := Function.update s.opModify t none } := by
    refine ⟨fun t' w' hop' => ?_, fun p t' ha => ?_, ⟨hnodup.2, fun t' ht' => ?_⟩, h.placed.nodup,
      h.placed.pgs⟩
    · obtain ⟨hne, hop'⟩ := update_op hop'
      obtain ⟨wr', hwr', hmem, hor⟩ := h.placed.op t' w' hop'
      refine ⟨wr', hwr', hmem, hor.imp_left fun hK => ?_⟩
      exact (mem_cons.mp hK).resolve_left hne
    · have hne : t' ≠ t := by
        rintro rfl
        exact hact p ha
      obtain ⟨w', wr', hop', hwr', hlay⟩ := h.placed.active p t' ha
      refine ⟨w', wr', ?_, hwr', hlay⟩
      simp only [update_of_ne hne]
      exact hop'
    · have hne : t' ≠ t := fun heq => hnodup.1 (heq ▸ ht')
      obtain ⟨hex, hnot⟩ := h.placed.kicked.2 t' (mem_cons_of_mem t ht')
      simp only [update_of_ne hne]
      exact ⟨hex, hnot⟩
  have hlat : Latest { s with opModify := Function.update s.opModify t none } := by
    intro t' w' wr' hop' hwr' hnot
    obtain ⟨-, hop'⟩ := update_op hop'
    exact h.latest t' w' wr' hop' hwr' hnot
  have hg : Gathered none { s with opModify := Function.update s.opModify t none } :=
    h.gathered.tables s.osdmap s.pgs s.pg _
  have hsub : ∀ p, Inv K (modifyxSubmit w p t { s with opModify := Function.update s.opModify t none }) := by
    intro p
    exact inv_modifyxSubmit h.ok hg (.inl rfl) hdrop hlat hwr (update_self ..) hact ht hc
  have hdone : Inv K { s with opModify := Function.update s.opModify t none } := ⟨h.ok, hg, hdrop, hlat⟩
  unfold kickTid
  simp only [hop, hwr]
  split_ifs
  · exact hdone
  · exact hsub _
  · exact hsub _
  · exact hdone

theorem inv_kickTids : ∀ (K : List ℕ) (s : Objecter), Inv K s → Inv [] (K.foldl (kickTid bufferUncommitted) s)
  | [], _, h => h
  | _ :: K, _, h => inv_kickTids K _ (inv_kickTid h)

/-- **A group is kicked.** -/
theorem inv_kickPg (h : Inv [] s) (p : ℕ) : Inv [] (kickPg bufferUncommitted s p) := by
  -- it is open
  obtain ⟨s1, hs1, hp, h1⟩ : ∃ s1, (if p ∈ s.pgs then s else
      { s with pgs := setInsert p s.pgs, pg := Function.update s.pg p ⟨[], []⟩ }) = s1 ∧ p ∈ s1.pgs ∧ Inv [] s1 := by
    by_cases hp : p ∈ s.pgs
    · exact ⟨s, if_pos hp, hp, h⟩
    · exact ⟨_, if_neg hp, by simp, h.ok, h.gathered.tables s.osdmap _ _ s.opModify, h.placed.opened hp _, h.latest⟩
  unfold kickPg
  simp only [hs1]
  refine inv_kickTids _ _ ?_
  -- it is emptied and closed
  have hclose : closePg p { s1 with pg := Function.update s1.pg p { s1.pg p with activeTids := [] } } =
      { s1 with
        pg := Function.update s1.pg p { s1.pg p with activeTids := [] }
        pgs := s1.pgs.erase p } := by
    unfold closePg
    rw [if_pos ⟨hp, by simp⟩]
  rw [hclose]
  have hmem : ∀ p', p' ∈ s1.pgs.erase p ↔ p' ≠ p ∧ p' ∈ s1.pgs := fun p' => h1.placed.pgs.mem_erase_iff
  have hact : ∀ p' t, Active { s1 with
      pg := Function.update s1.pg p { s1.pg p with activeTids := [] }
      pgs := s1.pgs.erase p } p' t ↔ p' ≠ p ∧ Active s1 p' t := by
    intro p' t
    unfold Active
    by_cases hpp : p' = p
    · subst hpp
      simp
    · simp [hpp]
  refine ⟨h1.ok, h1.gathered.tables s1.osdmap _ _ s1.opModify, ⟨fun t w hop => ?_, fun p' t ha => ?_,
    ⟨h1.placed.nodup p hp, fun t ht => ?_⟩, fun p' hp' => ?_, h1.placed.pgs.erase p⟩, h1.latest⟩
  · obtain ⟨wr, hwr, hcom, hor⟩ := h1.placed.op t w hop
    have ha : Active s1 (wr.layout t) t := hor.resolve_left (by simp)
    refine ⟨wr, hwr, hcom, ?_⟩
    by_cases hpp : wr.layout t = p
    · rw [hpp] at ha
      exact .inl ha.2
    · exact .inr ((hact _ _).mpr ⟨hpp, ha⟩)
  · exact h1.placed.active p' t ((hact p' t).mp ha).2
  · obtain ⟨w, wr, hop, hwr, hlay⟩ := h1.placed.active p t ⟨hp, ht⟩
    refine ⟨⟨w, hop⟩, fun p' ha => ?_⟩
    obtain ⟨hpp, ha⟩ := (hact p' t).mp ha
    obtain ⟨w', wr', hop', hwr', hlay'⟩ := h1.placed.active p' t ha
    rw [hop] at hop'
    cases hop'
    rw [hwr] at hwr'
    cases hwr'
    exact hpp (hlay'.symm.trans hlay)
  · obtain ⟨hpp, hp'⟩ := (hmem p').mp hp'
    simp only [update_of_ne hpp]
    exact h1.placed.nodup p' hp'

theorem inv_kickRequests : ∀ (changed : List ℕ) (s : Objecter), Inv [] s →
    Inv [] (kickRequests bufferUncommitted changed s)
  | [], _, h => h
  | p :: changed, _, h => inv_kickRequests changed _ (inv_kickPg h p)

/-- **New maps.** -/
theorem inv_handleOsdMap (maps : List (ℕ → List ℕ)) (h : Inv [] s) :
    Inv [] (handleOsdMap rep bufferUncommitted maps s) := by
  have hscan : ∀ (maps : List (ℕ → List ℕ)) (q : Objecter × List ℕ), Inv [] q.1 →
      Inv [] (maps.foldl (fun q map => scanPgs rep q.1 q.2 map) q).1 := by
    intro maps
    induction maps with
    | nil => exact fun _ h => h
    | cons map maps ih =>
      intro q h
      refine ih _ ?_
      refine ⟨h.ok, h.gathered.tables map q.1.pgs _ q.1.opModify,
        h.placed.regroup (fun p t => ?_) (fun p hp => ?_) h.placed.pgs, h.latest⟩
      · unfold Active
        by_cases hp : p ∈ q.1.pgs <;> simp [hp]
      · rw [if_pos hp]
        exact h.placed.nodup p hp
  exact inv_kickRequests _ _ (hscan maps (s, []) h)

/-! ### Replies -/

theorem update_wrs_none (hwr : s.wrs w = some wr) (h : s.wrs w' = none) (o : Option OSDModify) :
    Function.update s.wrs w o w' = none := by
  rw [update_of_ne]
  · exact h
  · rintro rfl
    rw [hwr] at h
    cases h

variable {calls : List Callback}

/-- The books after a reply: its modification becomes `o`, and callbacks come. -/
theorem Gathered.replied {acked committed : Finset ℕ}
    (h : Gathered none s) (hwr : s.wrs w = some wr) (hack : s.acked ⊆ acked) (hcom : s.committed ⊆ committed)
    (hnew : ∀ t ∈ committed, t ∈ s.committed ∨ t ∈ s.tids w) (hsub : committed ⊆ acked)
    (hsome : ∀ wr', o = some wr' → (wr.onack = false → wr'.onack = false) ∧ ∀ t,
      (t ∈ wr'.waitforCommit ↔ t ∈ s.tids w ∧ t ∉ committed) ∧
      (t ∈ wr'.waitforAck → t ∈ wr'.waitforCommit) ∧ (t ∈ s.tids w → t ∈ wr'.waitforAck ∨ t ∈ acked))
    (hnone : o = none → ∀ t ∈ s.tids w, t ∈ committed)
    (hcalls : ∀ c ∈ calls, (c = .onack w ∧ wr.onack = true ∧ (∀ wr', o = some wr' → wr'.onack = false) ∧
      ∀ t ∈ s.tids w, t ∈ acked) ∨ (c = .oncommit w ∧ o = none)) (hnodup : calls.Nodup) :
    Gathered none { s with
      wrs := Function.update s.wrs w o, acked := acked, committed := committed, fired := s.fired ++ calls } := by
  refine ⟨h.lt, fun w' hle => ⟨(h.made w' hle).1, update_wrs_none hwr (h.made w' hle).2 o⟩, h.once, h.nodup,
    fun w' wr' hwr' t hx => ?_, fun w' wr' hwr' t hx => ?_, fun t ht => (hnew t ht).elim (h.known t) (h.lt w t), hsub,
    fun w' hlt hw' t ht => ?_, fun w' hf => ?_, fun w' hf => ?_, ?_⟩
  · rcases update_wrs hwr' with ⟨rfl, heq⟩ | ⟨hww, hwr'⟩
    · exact ((hsome _ heq).2 t).1
    · rw [h.commit w' wr' hwr' t hx]
      refine and_congr_right fun ht => not_congr ⟨fun hc => hcom hc, fun hc => ?_⟩
      exact (hnew t hc).resolve_right fun htw => hww (h.once w' w t ht htw)
  · rcases update_wrs hwr' with ⟨rfl, heq⟩ | ⟨-, hwr'⟩
    · exact ((hsome _ heq).2 t).2
    · exact (h.ack w' wr' hwr' t hx).imp_right fun h2 ht => (h2 ht).imp_right fun ha => hack ha
  · replace hw' : Function.update s.wrs w o w' = none := hw'
    by_cases hww : w' = w
    · subst hww
      rw [update_self] at hw'
      exact hnone hw' t ht
    · rw [update_of_ne hww] at hw'
      exact hcom (h.gone w' hlt hw' t ht)
  · rcases mem_append.mp hf with hf | hf
    · obtain ⟨hlt, hon, hacked⟩ := h.firedAck w' hf
      refine ⟨hlt, fun wr' hwr' => ?_, fun t ht => hack (hacked t ht)⟩
      rcases update_wrs hwr' with ⟨rfl, heq⟩ | ⟨-, hwr'⟩
      · exact (hsome _ heq).1 (hon wr hwr)
      · exact hon wr' hwr'
    · rcases hcalls _ hf with ⟨heq, -, hoff, hall⟩ | ⟨heq, -⟩
      · cases heq
        exact ⟨h.lt_num hwr, fun wr' hwr' => hoff wr' (by simpa using hwr'), hall⟩
      · cases heq
  · rcases mem_append.mp hf with hf | hf
    · exact ⟨(h.firedCommit w' hf).1, update_wrs_none hwr (h.firedCommit w' hf).2 o⟩
    · rcases hcalls _ hf with ⟨heq, -⟩ | ⟨heq, hdone⟩
      · cases heq
      · cases heq
        exact ⟨h.lt_num hwr, by simpa using hdone⟩
  · refine nodup_append.mpr ⟨h.firedOnce, hnodup, fun c hc c' hc' heq => ?_⟩
    subst heq
    rcases hcalls c hc' with ⟨rfl, hon, -⟩ | ⟨rfl, -⟩
    · have hoff := (h.firedAck w hc).2.1 wr hwr
      rw [hon] at hoff
      cases hoff
    · have hgone := (h.firedCommit w hc).2
      rw [hwr] at hgone
      cases hgone

/-- The books after an ack: the tid no longer waits for it, and if it was the last
one the callback comes. -/
theorem gathered_ack {wr' : OSDModify} (h : Gathered none s)
    (hwr : s.wrs w = some wr) (hack : wr'.waitforAck = wr.waitforAck.erase t)
    (hcom : wr'.waitforCommit = wr.waitforCommit)
    (hcalls : (calls = [] ∧ wr'.onack = wr.onack) ∨
      (wr'.waitforAck = ∅ ∧ wr'.onack = false ∧ calls = if wr.onack then [.onack w] else [])) :
    Gathered none { s with
      wrs := Function.update s.wrs w (some wr')
      acked := insert t s.acked
      fired := s.fired ++ calls } := by
  refine h.replied hwr (Finset.subset_insert t s.acked) (Finset.Subset.refl _) (fun _ => Or.inl)
    (h.committed.trans (Finset.subset_insert t s.acked)) (fun wr'' heq => ?_) nofun (fun c hc => ?_) ?_
  · cases heq
    refine ⟨fun hoff => ?_, fun t' => ?_⟩
    · rcases hcalls with ⟨-, hon⟩ | ⟨-, hon, -⟩
      · exact hon.trans hoff
      · exact hon
    · obtain ⟨h1, h2⟩ := h.ack w wr hwr t' (by simp)
      rw [hcom, hack]
      refine ⟨h.commit w wr hwr t' (by simp), fun hmem => h1 (Finset.mem_of_mem_erase hmem), fun ht' => ?_⟩
      by_cases htt : t' = t
      · simp [htt]
      · simpa [htt] using h2 ht'
  · rcases hcalls with ⟨rfl, -⟩ | ⟨hemp, hoff, rfl⟩
    · cases hc
    · split_ifs at hc with hon
      · refine .inl ⟨mem_singleton.mp hc, hon, fun wr'' heq => by cases heq; exact hoff, fun t' ht' => ?_⟩
        rw [hack] at hemp
        rcases (h.ack w wr hwr t' (by simp)).2 ht' with hmem | hmem
        · by_cases htt : t' = t
          · simp [htt]
          · exact absurd (Finset.mem_erase.mpr ⟨htt, hmem⟩) (by simp [hemp])
        · exact Finset.mem_insert_of_mem hmem
      · cases hc
  · rcases hcalls with ⟨rfl, -⟩ | ⟨-, -, rfl⟩
    · simp
    · split_ifs <;> simp

/-- The callbacks of a modification that is committed. -/
def callbacks (w : ℕ) (wr : OSDModify) : List Callback :=
  (if wr.onack then [.onack w] else []) ++ (if wr.oncommit then [.oncommit w] else [])

theorem mem_callbacks {c : Callback} (h : c ∈ callbacks w wr) :
    (c = .onack w ∧ wr.onack = true) ∨ c = .oncommit w := by
  rcases mem_append.mp h with h | h
  · split_ifs at h with hon
    · exact .inl ⟨mem_singleton.mp h, hon⟩
    · cases h
  · split_ifs at h
    · exact .inr (mem_singleton.mp h)
    · cases h

theorem nodup_callbacks (w : ℕ) (wr : OSDModify) : (callbacks w wr).Nodup := by
  unfold callbacks
  split_ifs <;> simp

/-- The books after a commit: the tid waits no more, and if it was the last one the
modification is done. -/
theorem gathered_commit (h : Gathered none s) (hwr : s.wrs w = some wr) (ht : t ∈ wr.waitforCommit)
    (ho : (o = some { wr with
          waitforAck := wr.waitforAck.erase t, waitforCommit := wr.waitforCommit.erase t } ∧ calls = []) ∨
      (o = none ∧ wr.waitforCommit.erase t = ∅ ∧ calls = callbacks w wr)) :
    Gathered none { s with
      wrs := Function.update s.wrs w o
      acked := insert t s.acked
      committed := insert t s.committed
      fired := s.fired ++ calls } := by
  have htid : t ∈ s.tids w := ((h.commit w wr hwr t (by simp)).mp ht).1
  -- when the modification is done, all its tids are committed
  have hdone : wr.waitforCommit.erase t = ∅ → ∀ t' ∈ s.tids w, t' ∈ insert t s.committed := by
    intro hemp t' ht'
    by_cases htt : t' = t
    · simp [htt]
    · refine Finset.mem_insert_of_mem ?_
      by_contra hc
      have hmem := (h.commit w wr hwr t' (by simp)).mpr ⟨ht', hc⟩
      exact absurd (Finset.mem_erase.mpr ⟨htt, hmem⟩) (by simp [hemp])
  have hsub : insert t s.committed ⊆ insert t s.acked := Finset.insert_subset_insert t h.committed
  refine h.replied hwr (Finset.subset_insert t s.acked) (Finset.subset_insert t s.committed) (fun t' ht' => ?_) hsub
    (fun wr' heq => ?_) (fun hnone => ?_) (fun c hc => ?_) ?_
  · rcases Finset.mem_insert.mp ht' with rfl | ht'
    · exact .inr htid
    · exact .inl ht'
  · rcases ho with ⟨rfl, -⟩ | ⟨rfl, -⟩
    · cases heq
      refine ⟨id, fun t' => ?_⟩
      have hcommit := h.commit w wr hwr t' (by simp)
      obtain ⟨h1, h2⟩ := h.ack w wr hwr t' (by simp)
      simp only [Finset.mem_erase, Finset.mem_insert, not_or]
      tauto
    · cases heq
  · rcases ho with ⟨rfl, -⟩ | ⟨-, hemp, -⟩
    · cases hnone
    · exact hdone hemp
  · rcases ho with ⟨-, rfl⟩ | ⟨hnone, hemp, rfl⟩
    · cases hc
    · refine (mem_callbacks hc).imp (fun ⟨hc, hon⟩ => ⟨hc, hon, ?_, fun t' ht' => ?_⟩) fun hc => ⟨hc, hnone⟩
      · simp [hnone]
      · exact hsub (hdone hemp t' ht')
  · rcases ho with ⟨-, rfl⟩ | ⟨-, -, rfl⟩
    · exact nodup_nil
    · exact nodup_callbacks w wr

variable {r : Reply}

/-- **An ack is taken** by a tid that waits for it. -/
theorem inv_takeAck (h : Inv [] s) (hwr : s.wrs w = some wr)
    (hack : r.tid ∈ wr.waitforAck) (hans : (r.tid, s.attempts r.tid) ∈ s.answered) :
    Inv [] (takeAck r w wr s) := by
  -- the modification changes only in its acks
  have hkey : ∀ (wr' : OSDModify) (calls : List Callback), wr'.waitforAck = wr.waitforAck.erase r.tid →
      wr'.waitforCommit = wr.waitforCommit → wr'.layout = wr.layout →
      ((calls = [] ∧ wr'.onack = wr.onack) ∨
        (wr'.waitforAck = ∅ ∧ wr'.onack = false ∧ calls = if wr.onack then [.onack w] else [])) →
      Inv [] { s with
        wrs := Function.update s.wrs w (some wr')
        acked := insert r.tid s.acked
        fired := s.fired ++ calls } := by
    intro wr' calls h1 h2 h3 h4
    have hmono : ∀ {w' wr''}, s.wrs w' = some wr'' → ∃ wr2, Function.update s.wrs w (some wr') w' = some wr2 ∧
        wr2.waitforCommit = wr''.waitforCommit ∧ wr2.layout = wr''.layout := by
      intro w' wr'' hwr''
      by_cases hww : w' = w
      · subst hww
        rw [hwr] at hwr''
        cases hwr''
        exact ⟨wr', update_self .., h2, h3⟩
      · exact ⟨wr'', by rw [update_of_ne hww]; exact hwr'', rfl, rfl⟩
    refine ⟨h.ok, gathered_ack h.gathered hwr h1 h2 h4, ⟨fun t w' hop => ?_, fun p t ha => ?_,
      h.placed.kicked, h.placed.nodup, h.placed.pgs⟩, fun t w' wr'' hop hwr'' hnot => ?_⟩
    · obtain ⟨wr'', hwr'', hmem, hor⟩ := h.placed.op t w' hop
      obtain ⟨wr2, hwr2, hcom, hlay⟩ := hmono hwr''
      refine ⟨wr2, hwr2, by rw [hcom]; exact hmem, ?_⟩
      rw [hlay]
      exact hor
    · obtain ⟨w', wr'', hop, hwr'', hlay⟩ := h.placed.active p t ha
      obtain ⟨wr2, hwr2, -, hlay2⟩ := hmono hwr''
      exact ⟨w', wr2, hop, hwr2, by rw [hlay2]; exact hlay⟩
    · rcases update_wrs hwr'' with ⟨rfl, heq⟩ | ⟨-, hwr''⟩
      · cases heq
        by_cases htt : t = r.tid
        · subst htt
          exact hans
        · refine h.latest t w' wr hop hwr fun hmem => hnot ?_
          rw [h1]
          exact Finset.mem_erase.mpr ⟨htt, hmem⟩
      · exact h.latest t w' wr'' hop hwr'' hnot
  unfold takeAck
  dsimp only
  split_ifs with hemp hon
  · have := hkey { wr with
        waitforAck := wr.waitforAck.erase r.tid
        tidVersion := Function.update wr.tidVersion r.tid (some r.version)
        onack := false } [.onack w] rfl rfl rfl (.inr ⟨hemp, rfl, by simp [hon]⟩)
    exact this
  · have := hkey { wr with
        waitforAck := wr.waitforAck.erase r.tid
        tidVersion := Function.update wr.tidVersion r.tid (some r.version)
        onack := false } [] rfl rfl rfl (.inr ⟨hemp, rfl, by simp [hon]⟩)
    exact this
  · have := hkey { wr with
        waitforAck := wr.waitforAck.erase r.tid
        tidVersion := Function.update wr.tidVersion r.tid (some r.version) } [] rfl rfl rfl (.inl ⟨rfl, rfl⟩)
    rw [append_nil] at this
    exact this

theorem leaves_eq (hp : p ∈ s.pgs) : ∃ pgs, leaves s p t = { s with
        pg := Function.update s.pg p { s.pg p with activeTids := (s.pg p).activeTids.erase t }
        pgs := pgs } ∧
      (pgs = s.pgs ∨ (pgs = s.pgs.erase p ∧ (s.pg p).activeTids.erase t = [])) := by
  unfold leaves
  dsimp only
  split_ifs with hemp
  · refine ⟨s.pgs.erase p, ?_, .inr ⟨rfl, hemp⟩⟩
    unfold closePg
    rw [if_pos ⟨hp, by simpa using hemp⟩]
  · exact ⟨s.pgs, rfl, .inl rfl⟩

/-- **A commit is taken** by a pending tid. -/
theorem inv_takeCommit (h : Inv [] s) (hop : s.opModify r.tid = some w)
    (hwr : s.wrs w = some wr) (hver : ∀ v, wr.tidVersion r.tid = some v → r.version = v) :
    Inv [] (takeCommit r w wr s) := by
  obtain ⟨wr0, hwr0, hcom, hor⟩ := h.placed.op r.tid w hop
  rw [hwr] at hwr0
  cases hwr0
  have hact : Active s (wr.layout r.tid) r.tid := hor.resolve_left (by simp)
  have hall : (wr.tidVersion r.tid).all (fun v => decide (r.version = v)) = true := by
    cases hv : wr.tidVersion r.tid with
    | none => rfl
    | some v => simpa using hver v hv
  obtain ⟨pgs, hleaves, hpgs⟩ := leaves_eq (t := r.tid) hact.1
  have hnd := h.placed.nodup _ hact.1
  -- who is active afterwards
  have hactive : ∀ p t, (p ∈ pgs ∧ t ∈ (Function.update s.pg (wr.layout r.tid)
      { s.pg (wr.layout r.tid) with activeTids := (s.pg (wr.layout r.tid)).activeTids.erase r.tid } p).activeTids) ↔
      Active s p t ∧ t ≠ r.tid := by
    intro p t
    have hsame : Active s p r.tid → p = wr.layout r.tid := by
      intro ha
      obtain ⟨w', wr', hop', hwr', hlay⟩ := h.placed.active p r.tid ha
      rw [hop] at hop'
      cases hop'
      rw [hwr] at hwr'
      cases hwr'
      exact hlay.symm
    by_cases hpp : p = wr.layout r.tid
    · subst hpp
      rw [update_self]
      rw [hnd.mem_erase_iff]
      rcases hpgs with rfl | ⟨rfl, hemp⟩
      · unfold Active
        tauto
      · constructor
        · rintro ⟨-, hne, hmem⟩
          exact ⟨⟨hact.1, hmem⟩, hne⟩
        · rintro ⟨⟨-, hmem⟩, hne⟩
          have : t ∈ (s.pg (wr.layout r.tid)).activeTids.erase r.tid := hnd.mem_erase_iff.mpr ⟨hne, hmem⟩
          rw [hemp] at this
          cases this
    · rw [update_of_ne hpp]
      have hmem : p ∈ pgs ↔ p ∈ s.pgs := by
        rcases hpgs with rfl | ⟨rfl, -⟩
        · rfl
        · rw [h.placed.pgs.mem_erase_iff]
          exact and_iff_right hpp
      rw [hmem]
      refine ⟨fun ha => ⟨ha, ?_⟩, fun ha => ha.1⟩
      rintro rfl
      exact hpp (hsame ha)
  have hkey : ∀ (o : Option OSDModify) (calls : List Callback), ((o = some { wr with
          waitforAck := wr.waitforAck.erase r.tid
          waitforCommit := wr.waitforCommit.erase r.tid } ∧ calls = []) ∨
        (o = none ∧ wr.waitforCommit.erase r.tid = ∅ ∧ calls = callbacks w wr)) →
      Inv [] { leaves s (wr.layout r.tid) r.tid with
        opModify := Function.update s.opModify r.tid none
        acked := insert r.tid s.acked
        committed := insert r.tid s.committed
        wrs := Function.update s.wrs w o
        fired := s.fired ++ calls } := by
    intro o calls ho
    rw [hleaves]
    -- another pending tid keeps its modification
    have hmono : ∀ {w' wr'} (t : ℕ), t ≠ r.tid → t ∈ wr'.waitforCommit → s.wrs w' = some wr' →
        ∃ wr2, Function.update s.wrs w o w' = some wr2 ∧ t ∈ wr2.waitforCommit ∧ wr2.layout = wr'.layout := by
      intro w' wr' t hne hmem hwr'
      by_cases hww : w' = w
      · subst hww
        rw [hwr] at hwr'
        cases hwr'
        have hin : t ∈ wr.waitforCommit.erase r.tid := Finset.mem_erase.mpr ⟨hne, hmem⟩
        rcases ho with ⟨rfl, -⟩ | ⟨-, hemp, -⟩
        · exact ⟨_, update_self .., hin, rfl⟩
        · rw [hemp] at hin
          simp at hin
      · exact ⟨wr', by rw [update_of_ne hww]; exact hwr', hmem, rfl⟩
    refine ⟨h.ok, (gathered_commit h.gathered hwr hcom ho).tables s.osdmap _ _ _, ⟨fun t w' hop' => ?_,
      fun p t ha => ?_, ⟨nodup_nil, by simp⟩, fun p hp => ?_, ?_⟩, fun t w' wr' hop' hwr' hnot => ?_⟩
    · obtain ⟨hne, hop'⟩ := update_op hop'
      obtain ⟨wr', hwr', hmem, hor'⟩ := h.placed.op t w' hop'
      obtain ⟨wr2, hwr2, hmem2, hlay⟩ := hmono t hne hmem hwr'
      refine ⟨wr2, hwr2, hmem2, .inr ((hactive _ _).mpr ⟨?_, hne⟩)⟩
      rw [hlay]
      exact hor'.resolve_left (by simp)
    · obtain ⟨ha, hne⟩ := (hactive p t).mp ha
      obtain ⟨w', wr', hop', hwr', hlay⟩ := h.placed.active p t ha
      obtain ⟨wr0, hwr0, hmem, -⟩ := h.placed.op t w' hop'
      rw [hwr'] at hwr0
      cases hwr0
      obtain ⟨wr2, hwr2, -, hlay2⟩ := hmono t hne hmem hwr'
      refine ⟨w', wr2, ?_, hwr2, by rw [hlay2]; exact hlay⟩
      simp only [update_of_ne hne]
      exact hop'
    · have hp' : p ∈ s.pgs := by
        rcases hpgs with rfl | ⟨rfl, -⟩
        · exact hp
        · exact mem_of_mem_erase hp
      by_cases hpp : p = wr.layout r.tid
      · subst hpp
        simp only [update_self]
        exact hnd.erase r.tid
      · simp only [update_of_ne hpp]
        exact h.placed.nodup p hp'
    · rcases hpgs with rfl | ⟨rfl, -⟩
      · exact h.placed.pgs
      · exact h.placed.pgs.erase _
    · obtain ⟨hne, hpend⟩ := update_op hop'
      rcases update_wrs hwr' with ⟨rfl, heq⟩ | ⟨-, hwr'⟩
      · rcases ho with ⟨rfl, -⟩ | ⟨rfl, -⟩
        · cases heq
          refine h.latest t w' wr hpend hwr fun hmem => hnot ?_
          exact Finset.mem_erase.mpr ⟨hne, hmem⟩
        · cases heq
      · exact h.latest t w' wr' hpend hwr' hnot
  have hsplit : takeCommit r w wr s = { leaves s (wr.layout r.tid) r.tid with
      opModify := Function.update s.opModify r.tid none
      acked := insert r.tid s.acked
      committed := insert r.tid s.committed
      wrs := Function.update s.wrs w (if wr.waitforCommit.erase r.tid = ∅ then none else some { wr with
        waitforAck := wr.waitforAck.erase r.tid, waitforCommit := wr.waitforCommit.erase r.tid })
      fired := s.fired ++ (if wr.waitforCommit.erase r.tid = ∅ then callbacks w wr else []) } := by
    unfold takeCommit
    rw [if_neg (by simpa using hall), if_neg (not_not.mpr hact.2)]
    rw [hleaves]
    by_cases hemp : wr.waitforCommit.erase r.tid = ∅
    · simp only [hemp, if_true, callbacks, List.append_assoc]
    · simp only [hemp, if_false, append_nil]
  rw [hsplit]
  refine hkey _ _ ?_
  by_cases hemp : wr.waitforCommit.erase r.tid = ∅
  · rw [if_pos hemp, if_pos hemp]
    exact .inr ⟨rfl, hemp, rfl⟩
  · rw [if_neg hemp, if_neg hemp]
    exact .inl ⟨rfl, rfl⟩

/-! ### Runs -/

/-- A reply that is taken tells of success, answers the last submission of its
tid, and has the version of an earlier ack. -/
def Prompt (rep : Rep) (s : Objecter) : Event → Prop
  | .reply r => ∀ w wr, s.opModify r.tid = some w → s.wrs w = some wr →
      (s.pg (wr.layout r.tid)).acker rep = some r.source →
      0 ≤ r.result ∧ r.attempt = s.attempts r.tid ∧ ∀ v, wr.tidVersion r.tid = some v → r.version = v
  | _ => True

theorem inv_reply (h : Inv [] s) (hans : Answers s r) (hp : Prompt rep s (.reply r)) :
    Inv [] (handleOsdModifyReply rep r (if r.safe then s
      else { s with answered := insert (r.tid, r.attempt) s.answered })) := by
  have hs : ∃ ans, (s.answered ⊆ ans ∧ (r.safe = false → (r.tid, r.attempt) ∈ ans)) ∧
      (if r.safe then s else { s with answered := insert (r.tid, r.attempt) s.answered }) =
        { s with answered := ans } := by
    cases r.safe with
    | true => exact ⟨s.answered, ⟨Finset.Subset.refl _, nofun⟩, rfl⟩
    | false => exact ⟨_, ⟨Finset.subset_insert _ _, fun _ => Finset.mem_insert_self _ _⟩, rfl⟩
  obtain ⟨ans, ⟨hsub, hnew⟩, hs⟩ := hs
  rw [hs]
  have h' : Inv [] { s with answered := ans } := by
    have hg := h.gathered
    refine ⟨h.ok, ⟨hg.lt, hg.made, hg.once, hg.nodup, hg.commit, hg.ack, hg.known, hg.committed, hg.gone,
      hg.firedAck, hg.firedCommit, hg.firedOnce⟩, ⟨h.placed.op, h.placed.active, h.placed.kicked,
      h.placed.nodup, h.placed.pgs⟩, fun t w wr hop hwr hnot => hsub (h.latest t w wr hop hwr hnot)⟩
  unfold handleOsdModifyReply
  cases hop : s.opModify r.tid with
  | none => exact h'
  | some w =>
    obtain ⟨wr, hwr, hcom, hor⟩ := h.placed.op r.tid w hop
    have hopen : wr.layout r.tid ∈ s.pgs := (hor.resolve_left (by simp)).1
    have hget : getPg (wr.layout r.tid) { s with answered := ans } = { s with answered := ans } := by
      unfold getPg
      rw [if_pos hopen]
    simp only [hwr, hget]
    by_cases hack : (s.pg (wr.layout r.tid)).acker rep = some r.source
    swap
    · rw [if_pos hack]
      exact h'
    obtain ⟨hres, hatt, hver⟩ := hp w wr hop hwr hack
    rw [if_neg (not_not.mpr hack), if_neg (not_lt.mpr hres)]
    cases hsafe : r.safe with
    | true => exact inv_takeCommit h' hop hwr hver
    | false =>
      -- the tid still waits, or its last submission would have been acked
      refine inv_takeAck h' hwr ?_ ?_
      · by_contra hnot
        have := h.latest r.tid w wr hop hwr hnot
        rw [← hatt] at this
        exact hans.2.2 hsafe this
      · have := hnew hsafe
        rw [hatt] at this
        exact this

variable {ev : Event}

/-- **Every step keeps it.** -/
theorem inv_step {s' : Objecter} (h : Inv [] s) (hp : Prompt rep s ev)
    (hs : step rep bufferUncommitted s ev = some s') : Inv [] s' := by
  cases ev with
  | modify isWrite onack oncommit ps =>
    obtain ⟨-, ⟨⟩⟩ := ite_none_right_eq_some.mp hs
    exact inv_modifyx isWrite onack oncommit ps h
  | osdMap maps =>
    obtain ⟨-, ⟨⟩⟩ := ite_none_right_eq_some.mp hs
    exact inv_handleOsdMap maps h
  | reply r =>
    obtain ⟨hans, ⟨⟩⟩ := ite_none_right_eq_some.mp hs
    exact inv_reply h hans.2 hp

theorem inv_init (map : ℕ → List ℕ) : Inv [] (init map) := by
  refine ⟨rfl, ⟨by simp [init], fun w _ => ⟨rfl, rfl⟩, by simp [init], by simp [init], nofun, nofun, by simp [init],
    by simp [init], by simp [init], by simp [init], by simp [init], by simp [init]⟩, ⟨nofun, fun p t ha => ?_,
    ⟨nodup_nil, by simp⟩, by simp [init], by simp [init]⟩, nofun⟩
  cases ha.1

/-! ### Every extent has its tid -/

/-- The tids are as they were. -/
def SameTids (s s' : Objecter) : Prop := s'.tids = s.tids ∧ s'.extents = s.extents

theorem SameTids.trans {s s' s'' : Objecter} (h : SameTids s s') (h' : SameTids s' s'') : SameTids s s'' :=
  ⟨h'.1.trans h.1, h'.2.trans h.2⟩

theorem sameTids_foldl {α : Type} {f : Objecter → α → Objecter} (h : ∀ s a, SameTids s (f s a)) :
    ∀ (l : List α) (s : Objecter), SameTids s (l.foldl f s)
  | [], _ => ⟨rfl, rfl⟩
  | a :: l, s => (h s a).trans (sameTids_foldl h l (f s a))

theorem sameTids_getPg (p : ℕ) (s : Objecter) : SameTids s (getPg p s) := by
  obtain ⟨pgs, pg, heq⟩ := getPg_eq p s
  rw [heq]
  exact ⟨rfl, rfl⟩

theorem sameTids_closePg (p : ℕ) (s : Objecter) : SameTids s (closePg p s) := by
  unfold closePg
  split_ifs <;> exact ⟨rfl, rfl⟩

theorem sameTids_modifyxSubmit (w p t : ℕ) (s : Objecter) : SameTids s (modifyxSubmit w p t s) := by
  refine (sameTids_getPg p s).trans ?_
  unfold modifyxSubmit
  dsimp only
  split <;> exact ⟨rfl, rfl⟩

theorem sameTids_kickTid (s : Objecter) (t : ℕ) : SameTids s (kickTid bufferUncommitted s t) := by
  unfold kickTid
  split
  · exact ⟨rfl, rfl⟩
  · dsimp only
    split
    · exact ⟨rfl, rfl⟩
    · split_ifs
      · exact ⟨rfl, rfl⟩
      · exact sameTids_modifyxSubmit _ _ _ _
      · exact sameTids_modifyxSubmit _ _ _ _
      · exact ⟨rfl, rfl⟩

theorem sameTids_kickPg (s : Objecter) (p : ℕ) : SameTids s (kickPg bufferUncommitted s p) := by
  unfold kickPg
  split_ifs
  · refine SameTids.trans ?_ (sameTids_foldl sameTids_kickTid _ _)
    exact sameTids_closePg p _
  · refine SameTids.trans ?_ (sameTids_foldl sameTids_kickTid _ _)
    exact sameTids_closePg p _

theorem sameTids_handleOsdMap (maps : List (ℕ → List ℕ)) (s : Objecter) :
    SameTids s (handleOsdMap rep bufferUncommitted maps s) := by
  have hscan : ∀ (maps : List (ℕ → List ℕ)) (q : Objecter × List ℕ),
      SameTids q.1 (maps.foldl (fun q map => scanPgs rep q.1 q.2 map) q).1 := by
    intro maps
    induction maps with
    | nil => exact fun _ => ⟨rfl, rfl⟩
    | cons map maps ih => exact fun q => ih (scanPgs rep q.1 q.2 map)
  exact (hscan maps (s, [])).trans (sameTids_foldl sameTids_kickPg _ _)

theorem sameTids_reply (r : Reply) (s : Objecter) : SameTids s (handleOsdModifyReply rep r s) := by
  have hcommit : ∀ (w : ℕ) (wr : OSDModify) (s : Objecter), SameTids s (takeCommit r w wr s) := by
    intro w wr s
    have hleaves : SameTids s (leaves s (wr.layout r.tid) r.tid) := by
      unfold leaves
      dsimp only
      split_ifs
      · exact sameTids_closePg _ _
      · exact ⟨rfl, rfl⟩
    unfold takeCommit
    dsimp only
    split_ifs
    all_goals first | exact hleaves | exact ⟨rfl, rfl⟩
  have hack : ∀ (w : ℕ) (wr : OSDModify) (s : Objecter), SameTids s (takeAck r w wr s) := by
    intro w wr s
    unfold takeAck
    dsimp only
    split_ifs <;> exact ⟨rfl, rfl⟩
  unfold handleOsdModifyReply
  split
  · exact ⟨rfl, rfl⟩
  · split
    · exact ⟨rfl, rfl⟩
    · next wr hwr =>
      refine (sameTids_getPg (wr.layout r.tid) s).trans ?_
      dsimp only
      split_ifs
      · exact ⟨rfl, rfl⟩
      · exact ⟨rfl, rfl⟩
      · exact hcommit _ _ _
      · exact hack _ _ _

/-- There are as many tids as extents. -/
def Counted (s : Objecter) : Prop := ∀ w, (s.tids w).length = (s.extents w).length

theorem Counted.of_same {s s' : Objecter} (h : Counted s) (hs : SameTids s s') : Counted s' := by
  intro w
  rw [hs.1, hs.2]
  exact h w

theorem length_tids_submitNext (w : ℕ) (ps : List ℕ) : ∀ s : Objecter,
    ((ps.foldl (submitNext w) s).tids w).length = (s.tids w).length + ps.length ∧
      (∀ w', w' ≠ w → (ps.foldl (submitNext w) s).tids w' = s.tids w') ∧
      (ps.foldl (submitNext w) s).extents = s.extents := by
  induction ps with
  | nil => exact fun s => ⟨rfl, fun _ _ => rfl, rfl⟩
  | cons p ps ih =>
    intro s
    have hsame : SameTids { s with
        lastTid := s.lastTid + 1
        tids := Function.update s.tids w (s.tids w ++ [s.lastTid + 1]) } (submitNext w s p) :=
      sameTids_modifyxSubmit w p (s.lastTid + 1) _
    obtain ⟨h1, h2, h3⟩ := ih (submitNext w s p)
    refine ⟨?_, fun w' hw' => ?_, h3.trans hsame.2⟩
    · have hone : ((submitNext w s p).tids w).length = (s.tids w).length + 1 := by
        rw [hsame.1]
        simp
      rw [foldl_cons, h1, hone, length_cons]
      omega
    · rw [foldl_cons, h2 w' hw', hsame.1]
      exact update_of_ne hw' _ _

theorem counted_step {s s' : Objecter} (h : Counted s) (hnew : s.tids s.numWrs = [])
    (hs : step rep bufferUncommitted s ev = some s') : Counted s' := by
  cases ev with
  | modify isWrite onack oncommit ps =>
    obtain ⟨-, ⟨⟩⟩ := ite_none_right_eq_some.mp hs
    unfold modifyx
    obtain ⟨h1, h2, h3⟩ := length_tids_submitNext s.numWrs ps { s with
      wrs := Function.update s.wrs s.numWrs (some ⟨isWrite, onack, oncommit, fun _ => 0, ∅, fun _ => none, ∅⟩)
      numWrs := s.numWrs + 1
      extents := Function.update s.extents s.numWrs ps }
    intro w
    rw [h3]
    by_cases hw : w = s.numWrs
    · subst hw
      rw [h1]
      simp [hnew]
    · rw [h2 w hw]
      simp only [update_of_ne hw]
      exact h w
  | osdMap maps =>
    obtain ⟨-, ⟨⟩⟩ := ite_none_right_eq_some.mp hs
    exact h.of_same (sameTids_handleOsdMap maps s)
  | reply r =>
    obtain ⟨-, ⟨⟩⟩ := ite_none_right_eq_some.mp hs
    refine h.of_same (SameTids.trans ?_ (sameTids_reply r _))
    split_ifs <;> exact ⟨rfl, rfl⟩

/-- **A modification completes once.** In a run of prompt replies no assertion
fails, no callback comes twice, `onack` comes after an ack or commit of every
extent and `oncommit` after a commit of every extent; and each extent is either
waited for or committed, once, however often it is submitted. -/
theorem modify_completes_once (rep : Rep) (bufferUncommitted : Bool) (map : ℕ → List ℕ) {s : Objecter}
    (hr : Run.Reach (step rep bufferUncommitted) (Prompt rep) (init map) s) :
    s.ok = true ∧ s.fired.Nodup ∧
      (∀ w, .onack w ∈ s.fired → ∀ t ∈ s.tids w, t ∈ s.acked) ∧
      (∀ w, .oncommit w ∈ s.fired → ∀ t ∈ s.tids w, t ∈ s.committed) ∧
      ∀ w, (s.tids w).length = (s.extents w).length ∧ ∀ wr, s.wrs w = some wr →
        wr.waitforCommit.card + ((s.tids w).filter (· ∈ s.committed)).length = (s.extents w).length := by
  obtain ⟨hinv, hcount⟩ : Inv [] s ∧ Counted s := by
    refine hr.inv (fun s => Inv [] s ∧ Counted s) ⟨inv_init map, fun _ => rfl⟩ fun s ev s' h hp hs => ?_
    exact ⟨inv_step h.1 hp hs, counted_step h.2 (h.1.gathered.made s.numWrs le_rfl).1 hs⟩
  have hg := hinv.gathered
  refine ⟨hinv.ok, hg.firedOnce, fun w hf => (hg.firedAck w hf).2.2, fun w hf => ?_,
    fun w => ⟨hcount w, fun wr hwr => ?_⟩⟩
  · obtain ⟨hlt, hgone⟩ := hg.firedCommit w hf
    exact hg.gone w hlt hgone
  · have heq : wr.waitforCommit = ((s.tids w).filter fun t => t ∉ s.committed).toFinset := by
      ext t
      rw [hg.commit w wr hwr t (by simp)]
      simp
    rw [heq, toFinset_card_of_nodup ((hg.nodup w).filter _), ← hcount w]
    have hsum := length_eq_length_filter_add (l := s.tids w) fun t => decide (t ∈ s.committed)
    have hneg : ((s.tids w).filter fun t => !decide (t ∈ s.committed)) =
        (s.tids w).filter fun t => decide (t ∉ s.committed) := by
      refine filter_congr fun t _ => ?_
      simp
    rw [hneg] at hsum
    omega

/-! ### A primary that moves away and back -/

instance (rep : Rep) (s : Objecter) : (ev : Event) → Decidable (Prompt rep s ev)
  | .modify .. | .osdMap _ => isTrue trivial
  | .reply r =>
    match hop : s.opModify r.tid with
    | none => isTrue fun w wr hw => by rw [hop] at hw; cases hw
    | some w =>
      match hwr : s.wrs w with
      | none => isTrue fun w' wr hw hwr' => by rw [hop] at hw; cases hw; rw [hwr] at hwr'; cases hwr'
      | some wr =>
        decidable_of_iff ((s.pg (wr.layout r.tid)).acker rep = some r.source →
          0 ≤ r.result ∧ r.attempt = s.attempts r.tid ∧
            (wr.tidVersion r.tid).all (fun v => decide (r.version = v)) = true) (by
          constructor
          · intro h w' wr' hw hwr' hack
            rw [hop] at hw
            cases hw
            rw [hwr] at hwr'
            cases hwr'
            obtain ⟨h1, h2, h3⟩ := h hack
            refine ⟨h1, h2, fun v hv => ?_⟩
            rw [hv] at h3
            simpa using h3
          · intro h hack
            obtain ⟨h1, h2, h3⟩ := h w wr hop hwr hack
            refine ⟨h1, h2, ?_⟩
            cases hv : wr.tidVersion r.tid with
            | none => rfl
            | some v => simpa using h3 v hv)

/-- Every group is on one OSD. -/
def allOn (osd : ℕ) : ℕ → List ℕ := fun _ => [osd]

/-- An answer to a submission. -/
def answer (safe : Bool) (osd attempt : ℕ) : Event := .reply ⟨1, safe, 7, osd, 0, attempt⟩

/-- A write of one extent, acked and committed after its primary has moved. -/
theorem modify_completes_once_moved : ∃ s : Objecter, s.fired = [.onack 0, .oncommit 0] ∧ s.ok = true := by
  have hrun : ((Run.exec (step .primary true) (Prompt .primary)
      [.modify true true true [0], .osdMap [allOn 1], answer false 0 1, answer false 1 2, answer true 1 2]
      (init (allOn 0))).map fun s => s.fired) = some [.onack 0, .oncommit 0] := by
    decide +kernel
  obtain ⟨s, hs, hfired⟩ := map_eq_some_iff.mp hrun
  exact ⟨s, hfired, (modify_completes_once .primary true (allOn 0) (Run.reach_of_exec hs)).1⟩

/-- The first primary is primary again; the late ack of the first submission is
taken, and that of the last one fails an assertion. -/
theorem late_ack : ¬ ∀ s : Objecter,
    Run.Reach (step .primary true) Run.anyAct (init (allOn 0)) s → s.ok = true := by
  intro h
  have hrun : ((Run.exec (step .primary true) Run.anyAct
      [.modify true true true [0], .osdMap [allOn 1], .osdMap [allOn 0], answer false 0 1, answer false 0 3]
      (init (allOn 0))).map fun s => s.ok) = some false := by
    decide +kernel
  obtain ⟨s, hs, hok⟩ := map_eq_some_iff.mp hrun
  rw [h s (Run.reach_of_exec hs)] at hok
  cases hok

end Osdc
end Ceph
