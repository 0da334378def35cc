/-
# When an election epoch has one winner

The elector lets a monitor ack two candidates in one epoch: it acks a lower
rank after having acked another (`handlePropose`), and after its timer it
runs itself in the epoch in which it has acked somebody (`expire`). Each of
two candidates can then count it in its majority, and both win the same
epoch (`two_winners`).

A run in which no monitor does so (`OneVote`) has at most one winner for
every epoch (`winner_unique`): two majorities share a monitor, which acked
both winners or is one of them, and a winner acked nobody in its epoch.
-/
import Mathlib.Tactic
import Ceph.Mon.Elector

namespace Ceph
namespace Election

open List Option Cluster Out
open Run

/-- `v` has sent `c` an ack in epoch `e`. -/
abbrev Acked (log : List (ℕ × Effect)) (v c e : ℕ) : Prop := (v, .send c ⟨.ack, e⟩) ∈ log

/-- `a` has called `Monitor::win_election` for epoch `e`. -/
def Wins (s : Cluster) (a e : ℕ) : Prop := ∃ q, (a, .winElection e q) ∈ s.log

/-- The monitor has acked a candidate in the election it is in. -/
def HasVoted (el : Elector) : Prop := el.epoch % 2 = 1 ∧ el.leaderAcked.isSome

instance (el : Elector) : Decidable (HasVoted el) := by unfold HasVoted; infer_instance

/-- The condition on an event: a monitor that has acked a candidate does not,
in the same election, ack another one, run itself or restart; and a restart
reloads the stored epoch unless nothing is stored yet. -/
def OneVote (s : Cluster) : Event → Prop
  | .boot i reload => ¬ HasVoted (s.mons i).el ∧
      (reload = true ∨ ((s.mons i).el.epoch = 0 ∧ (s.mons i).monEpoch = 0))
  | .deliver i j k => ∀ m ∈ (s.net i j)[k]?, m.op = .propose → ¬ j < i →
      m.epoch ≤ (s.mons j).el.epoch → (s.mons j).el.epoch % 2 = 1 →
        ∀ l ∈ (s.mons j).el.leaderAcked, l ≤ i
  | .lose _ _ _ => True
  | .expire i => (s.mons i).el.electingMe = true ∨ ¬ HasVoted (s.mons i).el
  | .callElection i => ¬ HasVoted (s.mons i).el

instance (s : Cluster) : ∀ ev, Decidable (OneVote s ev)
  | .boot _ _ => inferInstanceAs (Decidable (_ ∧ _))
  | .deliver i j k => inferInstanceAs (Decidable (∀ m ∈ (s.net i j)[k]?, m.op = .propose → ¬ j < i →
      m.epoch ≤ (s.mons j).el.epoch → (s.mons j).el.epoch % 2 = 1 →
        ∀ l ∈ (s.mons j).el.leaderAcked, l ≤ i))
  | .lose _ _ _ => isTrue trivial
  | .expire _ => inferInstanceAs (Decidable (_ ∨ _))
  | .callElection _ => inferInstanceAs (Decidable (¬ _))

/-- What the winner of an epoch had: the acks of a majority, in the odd epoch
before, in which it acked nobody. -/
def Won (n : ℕ) (log : List (ℕ × Effect)) (a e : ℕ) (q : Finset ℕ) : Prop :=
  ∃ e', e = e' + 1 ∧ e' % 2 = 1 ∧ q ⊆ Finset.range n ∧ n < 2 * q.card ∧
    (∀ w ∈ q, w = a ∨ Acked log w a e') ∧ ∀ c, ¬ Acked log a c e'

/-- The invariant of the runs in which nobody votes twice. -/
structure Inv (n : ℕ) (s : Cluster) : Prop where
  sent : ∀ i j m, m ∈ s.net i j → (i, .send j m) ∈ s.log
  rank : ∀ i f, (i, f) ∈ s.log → i < n
  ackLe : ∀ v c e, Acked s.log v c e → e ≤ (s.mons v).el.epoch ∧
    (e % 2 = 1 → e = (s.mons v).el.epoch → (s.mons v).el.leaderAcked = some c)
  ackInj : ∀ v c c' e, e % 2 = 1 → Acked s.log v c e → Acked s.log v c' e → c = c'
  electing : ∀ v, (s.mons v).el.electingMe = true →
    (s.mons v).el.epoch % 2 = 1 ∧ (s.mons v).el.leaderAcked = none
  idle : ∀ v, (s.mons v).el.electingMe = false → (s.mons v).el.ackedMe = ∅
  acked : ∀ v, ∀ w ∈ (s.mons v).el.ackedMe, w < n ∧ (w = v ∨ Acked s.log w v (s.mons v).el.epoch)
  stored : ∀ v, (s.mons v).monEpoch ≤ (s.mons v).el.epoch ∧
    (s.mons v).el.epoch ≤ max 1 (s.mons v).monEpoch
  won : 1 < n → ∀ a e q, (a, .winElection e q) ∈ s.log → Won n s.log a e q ∧ e ≤ (s.mons a).el.epoch

theorem inv_fresh (n : ℕ) : Inv n fresh where
  sent := by simp [fresh, Links.empty]
  rank := by simp [fresh]
  ackLe := by simp [fresh]
  ackInj := by simp [fresh]
  electing := by simp [fresh, Elector.new]
  idle := by simp [fresh, Elector.new]
  acked := by simp [fresh, Elector.new]
  stored := by simp [fresh, Elector.new]
  won := by simp [fresh]

/-! ### Performing effects -/

section perform

variable {n : ℕ} {s : Cluster} {i : ℕ} {es : List Effect} {el : Elector} {up : Bool}

@[simp] theorem perform_log : (s.perform i es el up).log = s.log ++ es.map fun f => (i, f) := rfl

@[simp] theorem perform_el_self : ((s.perform i es el up).mons i).el = el := by
  simp [perform]

variable {v : ℕ}

theorem perform_mons_ne (h : v ≠ i) : (s.perform i es el up).mons v = s.mons v := by
  simp [perform, h]

@[simp] theorem perform_monEpoch_self :
    ((s.perform i es el up).mons i).monEpoch = storedEpoch (s.mons i).monEpoch es := by
  simp [perform]

theorem mem_perform_log {f : Effect} :
    (v, f) ∈ (s.perform i es el up).log ↔ (v, f) ∈ s.log ∨ (v = i ∧ f ∈ es) := by
  simp only [perform_log, mem_append, List.mem_map, Prod.mk.injEq]
  constructor
  · rintro (h | ⟨g, hg, rfl, rfl⟩)
    · exact .inl h
    · exact .inr ⟨rfl, hg⟩
  · rintro (h | ⟨rfl, h⟩)
    · exact .inl h
    · exact .inr ⟨f, h, rfl, rfl⟩

variable {m : MMonElection}

theorem mem_sends {p : ℕ} : (p, m) ∈ sends es ↔ .send p m ∈ es := by
  unfold sends
  rw [mem_filterMap]
  constructor
  · rintro ⟨f, hf, h⟩
    cases f <;> simp at h
    obtain ⟨rfl, rfl⟩ := h
    exact hf
  · exact fun h => ⟨_, h, rfl⟩

theorem perform_sent (h : ∀ i j m, m ∈ s.net i j → (i, .send j m) ∈ s.log) {a b : ℕ}
    (hm : m ∈ (s.perform i es el up).net a b) :
    (a, .send b m) ∈ (s.perform i es el up).log := by
  rw [mem_perform_log]
  rcases Links.mem_postAll.mp hm with h1 | ⟨rfl, h1⟩
  · exact .inl (h a b m h1)
  · exact .inr ⟨rfl, mem_sends.mp h1⟩

theorem perform_perform {es' : List Effect} {el' : Elector} {up' : Bool} :
    (s.perform i es el up).perform i es' el' up' = s.perform i (es ++ es') el' up' := by
  simp [perform, quorumAfter, storedEpoch, sends, Links.postAll]

theorem finish_andThen (o : Handled) (f : Elector → Handled) : s.finish i (o.andThen f) = if o.ok then (s.finish i o).finish i (f o.st) else s.finish i o := by
  unfold finish andThen
  split_ifs with h
  · rw [perform_perform]
  · rfl

end perform

/-! ### One monitor moves -/

section moves

variable {n : ℕ} {s : Cluster} {i : ℕ}

/-- Not an ack. -/
def NoAck : Effect → Prop
  | .send _ m => m.op ≠ .ack
  | _ => True

theorem not_noAck (c e : ℕ) : ¬ NoAck (.send c ⟨.ack, e⟩) := by simp [NoAck]

variable {el : Elector}

/-- Monitor `i` moves without sending an ack; what it wins, it has earned. -/
theorem Inv.move (h : Inv n s) (hi : i < n) {es : List Effect} {up : Bool}
    (hq : ∀ f ∈ es, NoAck f)
    (hwin : 1 < n → ∀ e q, .winElection e q ∈ es → Won n s.log i e q ∧ e ≤ el.epoch)
    (hep : (s.mons i).el.epoch ≤ el.epoch)
    (hsame : el.epoch % 2 = 1 → el.epoch = (s.mons i).el.epoch →
      el.leaderAcked = (s.mons i).el.leaderAcked)
    (hel : el.electingMe = true → el.epoch % 2 = 1 ∧ el.leaderAcked = none)
    (hid : el.electingMe = false → el.ackedMe = ∅)
    (hak : ∀ w ∈ el.ackedMe, w < n ∧ (w = i ∨ Acked s.log w i el.epoch))
    (hst : storedEpoch (s.mons i).monEpoch es ≤ el.epoch ∧
      el.epoch ≤ max 1 (storedEpoch (s.mons i).monEpoch es)) :
    Inv n (s.perform i es el up) := by
  have hA : ∀ v c e, Acked (s.perform i es el up).log v c e ↔ Acked s.log v c e := by
    intro v c e
    refine mem_perform_log.trans ⟨fun hv => ?_, .inl⟩
    exact hv.resolve_right fun hv => not_noAck c e (hq _ hv.2)
  have hW : ∀ a e q, Won n s.log a e q → Won n (s.perform i es el up).log a e q := by
    rintro a e q ⟨e', h1, h2, h3, h4, h5, h6⟩
    refine ⟨e', h1, h2, h3, h4, fun w hw => ?_, fun c => ?_⟩
    · rw [hA]; exact h5 w hw
    · rw [hA]; exact h6 c
  refine
    { sent := fun a b m hm => perform_sent h.sent hm
      rank := fun v f hv => ?_
      ackLe := fun v c e hv => ?_
      ackInj := fun v c c' e ho h1 h2 => h.ackInj v c c' e ho ((hA ..).mp h1) ((hA ..).mp h2)
      electing := fun v hv => ?_
      idle := fun v hv => ?_
      acked := fun v w hw => ?_
      stored := fun v => ?_
      won := fun hn a e q hw => ?_ }
  · rcases mem_perform_log.mp hv with hv | ⟨rfl, -⟩
    · exact h.rank v f hv
    · exact hi
  · obtain ⟨h1, h2⟩ := h.ackLe v c e ((hA ..).mp hv)
    by_cases hvi : v = i
    · subst hvi
      rw [perform_el_self]
      refine ⟨h1.trans hep, fun ho he => ?_⟩
      have heq : el.epoch = (s.mons v).el.epoch := by omega
      rw [hsame (he ▸ ho) heq]
      exact h2 ho (he.trans heq)
    · rw [perform_mons_ne hvi]; exact ⟨h1, h2⟩
  · by_cases hvi : v = i
    · subst hvi; rw [perform_el_self] at hv ⊢; exact hel hv
    · rw [perform_mons_ne hvi] at hv ⊢; exact h.electing v hv
  · by_cases hvi : v = i
    · subst hvi; rw [perform_el_self] at hv ⊢; exact hid hv
    · rw [perform_mons_ne hvi] at hv ⊢; exact h.idle v hv
  · simp only [hA]
    by_cases hvi : v = i
    · subst hvi; rw [perform_el_self] at hw ⊢; exact hak w hw
    · rw [perform_mons_ne hvi] at hw ⊢; exact h.acked v w hw
  · by_cases hvi : v = i
    · subst hvi; rw [perform_el_self, perform_monEpoch_self]; exact hst
    · rw [perform_mons_ne hvi]; exact h.stored v
  · rcases mem_perform_log.mp hw with hw1 | ⟨rfl, hw1⟩
    · obtain ⟨h1, h2⟩ := h.won hn a e q hw1
      refine ⟨hW a e q h1, ?_⟩
      by_cases hai : a = i
      · subst hai; rw [perform_el_self]; exact h2.trans hep
      · rw [perform_mons_ne hai]; exact h2
    · obtain ⟨h1, h2⟩ := hwin hn e q hw1
      rw [perform_el_self]
      exact ⟨hW a e q h1, h2⟩

/-- Monitor `i` changes only its timer, or nothing. -/
theorem Inv.timer (h : Inv n s) (hi : i < n) (b up : Bool) :
    Inv n (s.perform i [] { (s.mons i).el with expireEvent := b } up) :=
  h.move hi (by simp) (by simp) le_rfl (fun _ _ => rfl) (h.electing i) (h.idle i) (h.acked i)
    (h.stored i)

theorem Inv.ret (h : Inv n s) (hi : i < n) (up : Bool) : Inv n (s.perform i [] (s.mons i).el up) :=
  h.timer hi (s.mons i).el.expireEvent up

theorem Inv.check (h : Inv n s) (hi : i < n) (b : Bool) :
    Inv n (s.finish i (Out.check (s.mons i).el b)) := h.ret hi b

theorem Inv.andThen {o : Handled} {f : Elector → Handled} (ho : Inv n (s.finish i o))
    (hf : o.ok = true → Inv n ((s.finish i o).finish i (f o.st))) :
    Inv n (s.finish i (o.andThen f)) := by
  rw [finish_andThen]
  split_ifs with h
  · exact hf h
  · exact ho

theorem finish_el (o : Handled) : ((s.finish i o).mons i).el = o.st := perform_el_self

theorem bumpEpoch_lt {e : ℕ} (h : el.epoch < e) : bumpEpoch e el =
    .emit { el with epoch := e, electingMe := false, ackedMe := ∅, leaderAcked := none }
      [.putEpoch e] := by
  simp [bumpEpoch, h]

theorem Inv.bumpEpoch (h : Inv n s) (hi : i < n) (e : ℕ) :
    Inv n (s.finish i (bumpEpoch e (s.mons i).el)) := by
  by_cases he : (s.mons i).el.epoch < e
  · rw [bumpEpoch_lt he]
    refine h.move hi ?_ ?_ he.le (fun _ heq => absurd heq (by simp; omega)) ?_ ?_ ?_ ?_
    · intro f hf
      rw [mem_singleton.mp hf]
      trivial
    · simp
    · simp
    · simp
    · simp
    · simp [storedEpoch]
  · simpa [Election.bumpEpoch, he] using h.check hi false

theorem start_odd {n me : ℕ} (h : el.epoch % 2 = 1) : start n me el =
    .emit { el with electingMe := true, ackedMe := insert me el.ackedMe, expireEvent := true }
      ((others n me (Finset.range n)).map fun p => .send p ⟨.propose, el.epoch⟩) := by
  unfold start
  rw [if_neg (by omega), ret_andThen]

/-- A monitor that has acked nobody in this election becomes a candidate. -/
theorem Inv.start (h : Inv n s) (hi : i < n) (hv : ¬ HasVoted (s.mons i).el) :
    Inv n (s.finish i (start n i (s.mons i).el)) := by
  -- the candidacy itself, in an odd epoch
  have key : ∀ {s : Cluster}, Inv n s → (s.mons i).el.epoch % 2 = 1 →
      (s.mons i).el.leaderAcked = none →
      Inv n (s.finish i (.emit { (s.mons i).el with
          electingMe := true, ackedMe := insert i (s.mons i).el.ackedMe, expireEvent := true }
        ((others n i (Finset.range n)).map fun p => .send p ⟨.propose, (s.mons i).el.epoch⟩))) := by
    intro s h ho hl
    refine h.move hi ?_ (by simp) le_rfl (fun _ _ => rfl) (fun _ => ⟨ho, hl⟩) (by simp) ?_ ?_
    · intro f hf
      obtain ⟨p, -, rfl⟩ := List.mem_map.mp hf
      simp [NoAck]
    · intro w hw
      rcases Finset.mem_insert.mp hw with rfl | hw
      · exact ⟨hi, .inl rfl⟩
      · exact h.acked i w hw
    · have hs : storedEpoch (s.mons i).monEpoch ((others n i (Finset.range n)).map
          fun p => .send p ⟨.propose, (s.mons i).el.epoch⟩) = (s.mons i).monEpoch := by
        unfold storedEpoch
        rw [foldl_map]
        exact foldl_fixed _
      simp only [Out.emit_effs, Out.emit_st]
      rw [hs]
      exact h.stored i
  rcases Nat.mod_two_eq_zero_or_one (s.mons i).el.epoch with he | he
  · unfold Election.start
    rw [if_pos he]
    refine Inv.andThen (h.bumpEpoch hi _) fun hok => ?_
    have hst : (Election.bumpEpoch ((s.mons i).el.epoch + 1) (s.mons i).el).st =
        ((s.finish i (Election.bumpEpoch ((s.mons i).el.epoch + 1) (s.mons i).el)).mons i).el :=
      (finish_el _).symm
    rw [hst]
    refine key (h.bumpEpoch hi _) ?_ ?_
    · rw [finish_el, bumpEpoch_lt (Nat.lt_succ_self _)]; simp only [Out.emit_st]; omega
    · rw [finish_el, bumpEpoch_lt (Nat.lt_succ_self _)]; rfl
  · rw [start_odd he]
    refine key h he ?_
    by_contra hne
    exact hv ⟨he, isSome_iff_ne_none.mpr hne⟩

/-- A monitor defers to the only candidate it acks in this election. -/
theorem Inv.defer (h : Inv n s) (hi : i < n) (who : ℕ)
    (hc : (s.mons i).el.epoch % 2 = 1 → ∀ l, (s.mons i).el.leaderAcked = some l → l = who) :
    Inv n (s.finish i (defer who (s.mons i).el)) := by
  set el := (s.mons i).el with hel
  have hA : ∀ v c e, Acked (s.finish i (Election.defer who el)).log v c e ↔
      Acked s.log v c e ∨ (v = i ∧ c = who ∧ e = el.epoch) := by
    intro v c e
    refine mem_perform_log.trans (or_congr .rfl (and_congr .rfl ?_))
    simp [Election.defer]
  -- an ack of `i` in the epoch it is in was for `who`
  have hold : ∀ c, el.epoch % 2 = 1 → Acked s.log i c el.epoch → c = who := fun c ho hk =>
    hc ho c ((h.ackLe i c _ hk).2 ho rfl)
  refine
    { sent := fun a b m hm => perform_sent h.sent hm
      rank := fun v f hv => ?_
      ackLe := fun v c e hv => ?_
      ackInj := fun v c c' e ho h1 h2 => ?_
      electing := fun v hv => ?_
      idle := fun v hv => ?_
      acked := fun v w hw => ?_
      stored := fun v => ?_
      won := fun hn a e q hw => ?_ }
  · rcases mem_perform_log.mp hv with hv | ⟨rfl, -⟩
    · exact h.rank v f hv
    · exact hi
  · rcases (hA ..).mp hv with hv1 | ⟨rfl, rfl, rfl⟩
    · obtain ⟨h1, h2⟩ := h.ackLe v c e hv1
      by_cases hvi : v = i
      · subst hvi
        rw [finish_el]
        refine ⟨h1, fun ho he => ?_⟩
        rw [← hold c (he ▸ ho) (he ▸ hv1)]
        rfl
      · rw [finish, perform_mons_ne hvi]; exact ⟨h1, h2⟩
    · rw [finish_el]; exact ⟨le_rfl, fun _ _ => rfl⟩
  · rcases (hA ..).mp h1 with k1 | ⟨hv1, hc1, he1⟩
    · rcases (hA ..).mp h2 with k2 | ⟨hv2, hc2, he2⟩
      · exact h.ackInj v c c' e ho k1 k2
      · rw [hc2]; exact hold c (he2 ▸ ho) (he2 ▸ hv2 ▸ k1)
    · rcases (hA ..).mp h2 with k2 | ⟨-, hc2, -⟩
      · rw [hc1]; exact (hold c' (he1 ▸ ho) (he1 ▸ hv1 ▸ k2)).symm
      · rw [hc1, hc2]
  · by_cases hvi : v = i
    · subst hvi; rw [finish_el] at hv; simp [Election.defer] at hv
    · rw [finish, perform_mons_ne hvi] at hv ⊢; exact h.electing v hv
  · by_cases hvi : v = i
    · subst hvi
      rw [finish_el]
      cases he : el.electingMe with
      | true => simp [Election.defer, he]
      | false => simpa [Election.defer, he] using h.idle v (hel ▸ he)
    · rw [finish, perform_mons_ne hvi] at hv ⊢; exact h.idle v hv
  · simp only [hA]
    by_cases hvi : v = i
    · subst hvi
      rw [finish_el] at hw
      cases he : el.electingMe with
      | true => simp [Election.defer, he] at hw
      | false => simp [Election.defer, he, hel ▸ h.idle v (hel ▸ he)] at hw
    · rw [finish, perform_mons_ne hvi] at hw ⊢
      obtain ⟨h1, h2⟩ := h.acked v w hw
      exact ⟨h1, h2.imp_right .inl⟩
  · by_cases hvi : v = i
    · subst hvi
      rw [finish_el, finish, perform_monEpoch_self]
      exact h.stored v
    · rw [finish, perform_mons_ne hvi]; exact h.stored v
  · have hw : (a, .winElection e q) ∈ s.log := by
      rcases mem_perform_log.mp hw with hw | ⟨-, hw⟩
      · exact hw
      · simp [Election.defer] at hw
    obtain ⟨⟨e', h1, h2, h3, h4, h5, h6⟩, h7⟩ := h.won hn a e q hw
    refine ⟨⟨e', h1, h2, h3, h4, fun w hw => ?_, fun c hc' => ?_⟩, ?_⟩
    · exact (h5 w hw).imp_right fun h => (hA ..).mpr (.inl h)
    · rcases (hA ..).mp hc' with hc' | ⟨rfl, -, he'⟩
      · exact h6 c hc'
      · rw [← hel] at h7; omega
    · by_cases hai : a = i
      · subst hai; rw [finish_el]; exact h7
      · rw [finish, perform_mons_ne hai]; exact h7

theorem victory_odd {n me : ℕ} (h : el.epoch % 2 = 1) : victory n me el =
    .emit ⟨el.epoch + 1, false, ∅, none, false⟩
      (.putEpoch (el.epoch + 1) :: (((others n me el.ackedMe).map fun p =>
        .send p ⟨.victory, el.epoch + 1⟩) ++ [.winElection (el.epoch + 1) el.ackedMe])) := by
  simp only [victory, bumpEpoch, h, decide_true, check_andThen, ↓reduceIte, Nat.lt_succ_self,
    emit_andThen, Out.emit_st, Out.emit_effs, emit_ok]
  rfl

/-- A candidate acked by a majority wins. -/
theorem Inv.victory (h : Inv n s) (hi : i < n) (hel : (s.mons i).el.electingMe = true)
    (hmaj : n < 2 * (s.mons i).el.ackedMe.card) :
    Inv n (s.finish i (victory n i (s.mons i).el)) := by
  obtain ⟨ho, hl⟩ := h.electing i hel
  rw [victory_odd ho]
  refine h.move hi ?_ ?_ (Nat.le_succ _) (fun _ he => absurd he (by simp)) (by simp) (by simp) (by simp) ?_
  · intro f hf
    simp only [Out.emit_effs, mem_cons, mem_append, List.mem_map, not_mem_nil, or_false] at hf
    rcases hf with rfl | ⟨p, -, rfl⟩ | rfl <;> simp [NoAck]
  · intro _ e q hw
    have hw : e = (s.mons i).el.epoch + 1 ∧ q = (s.mons i).el.ackedMe := by simpa using hw
    obtain ⟨rfl, rfl⟩ := hw
    refine ⟨⟨_, rfl, ho, fun w hw => ?_, hmaj, fun w hw => (h.acked i w hw).2, fun c hc => ?_⟩, le_rfl⟩
    · exact Finset.mem_range.mpr (h.acked i w hw).1
    · have := (h.ackLe i c _ hc).2 ho rfl
      rw [hl] at this
      cases this
  · have hs : storedEpoch (s.mons i).monEpoch (.putEpoch ((s.mons i).el.epoch + 1) ::
        (((others n i (s.mons i).el.ackedMe).map fun p =>
          .send p ⟨.victory, (s.mons i).el.epoch + 1⟩) ++
          [.winElection ((s.mons i).el.epoch + 1) (s.mons i).el.ackedMe])) =
        (s.mons i).el.epoch + 1 := by
      simp only [storedEpoch, foldl_cons, foldl_append, foldl_map, foldl_nil]
      exact foldl_fixed _
    simp only [Out.emit_effs, Out.emit_st]
    rw [hs]
    exact ⟨le_rfl, le_max_right _ _⟩

/-! ### The handlers -/

theorem Inv.handlePropose (h : Inv n s) (hi : i < n) (quorum : Finset ℕ) (src : ℕ) (m : MMonElection)
    (hc : ¬ i < src → m.epoch ≤ (s.mons i).el.epoch → (s.mons i).el.epoch % 2 = 1 →
      ∀ l, (s.mons i).el.leaderAcked = some l → l ≤ src) :
    Inv n (s.finish i (handlePropose n i quorum src m (s.mons i).el)) := by
  unfold Election.handlePropose
  rw [check_andThen]
  by_cases hodd : m.epoch % 2 = 1
  swap
  · rw [if_neg (by simpa using hodd)]; exact h.check hi false
  rw [if_pos (by simpa using hodd)]
  set o : Handled := if m.epoch > (s.mons i).el.epoch then Election.bumpEpoch m.epoch (s.mons i).el
    else if m.epoch < (s.mons i).el.epoch ∧ (s.mons i).el.epoch % 2 = 0 ∧ src ∉ quorum then
      Election.start n i (s.mons i).el
    else .ret (s.mons i).el with ho
  -- after the first part: the invariant, and whoever is acked ranks at most `src`
  have h1 : Inv n (s.finish i o) ∧ (¬ i < src → o.st.epoch % 2 = 1 →
      ∀ l, o.st.leaderAcked = some l → l ≤ src) := by
    rw [ho]
    split_ifs with hgt hold
    · refine ⟨h.bumpEpoch hi _, fun _ _ l hl => ?_⟩
      simp [bumpEpoch_lt hgt] at hl
    · refine ⟨h.start hi fun hv => ?_, fun _ _ l hl => ?_⟩
      · have := hv.1; omega
      · simp [Election.start, bumpEpoch_lt (Nat.lt_succ_self _), hold.2.1] at hl
    · exact ⟨h.ret hi true, fun hlt ho => hc hlt (by omega) ho⟩
  refine Inv.andThen h1.1 fun _ => ?_
  have hst : o.st = ((s.finish i o).mons i).el := (finish_el o).symm
  rw [hst] at h1 ⊢
  obtain ⟨h1, h2⟩ := h1
  by_cases hlt : i < src
  · rw [if_pos hlt]
    cases hl : ((s.finish i o).mons i).el.leaderAcked with
    | some l => exact h1.check hi _
    | none =>
      split_ifs with he
      · exact h1.ret hi true
      · exact h1.start hi fun hv => absurd hv.2 (by simp [hl])
  · rw [if_neg hlt]
    cases hl : ((s.finish i o).mons i).el.leaderAcked with
    | none => exact h1.defer hi src (by simp [hl])
    | some l =>
      simp only
      split_ifs with hge
      · refine h1.defer hi src fun ho l' hl' => ?_
        have hle := h2 hlt ho l' hl'
        rw [hl] at hl'
        cases hl'
        omega
      · exact h1.ret hi true

variable {src : ℕ} {m : MMonElection}

theorem Inv.handleAck (h : Inv n s) (hi : i < n) (hsrc : src < n) (hm : Acked s.log src i m.epoch) :
    Inv n (s.finish i (handleAck n i src m (s.mons i).el)) := by
  unfold Election.handleAck
  rw [check_andThen]
  by_cases hodd : m.epoch % 2 = 1
  swap
  · rw [if_neg (by simpa using hodd)]; exact h.check hi false
  rw [if_pos (by simpa using hodd)]
  by_cases hgt : m.epoch > (s.mons i).el.epoch
  · rw [if_pos hgt]
    refine Inv.andThen (h.bumpEpoch hi _) fun _ => ?_
    rw [← finish_el (s := s) (i := i)]
    refine (h.bumpEpoch hi _).start hi fun hv => ?_
    have := hv.2
    rw [finish_el] at this
    simp [bumpEpoch_lt hgt] at this
  rw [if_neg hgt, check_andThen]
  by_cases heq : m.epoch = (s.mons i).el.epoch
  swap
  · rw [if_neg (by simpa using heq)]; exact h.check hi false
  rw [if_pos (by simpa using heq)]
  by_cases hel : (s.mons i).el.electingMe = true
  swap
  · rw [if_neg hel]; exact h.check hi _
  set el : Elector := { (s.mons i).el with ackedMe := insert src (s.mons i).el.ackedMe } with hdef
  have h1 : Inv n (s.finish i (.ret el)) := by
    refine h.move hi (by simp [Out.ret]) (by simp [Out.ret]) le_rfl (fun _ _ => rfl) (h.electing i)
      (fun hf => ?_) (fun w hw => ?_) (h.stored i)
    · have hf : (s.mons i).el.electingMe = false := hf
      rw [hel] at hf; cases hf
    · rcases Finset.mem_insert.mp hw with rfl | hw
      · exact ⟨hsrc, .inr (heq ▸ hm)⟩
      · exact h.acked i w hw
  simp only
  split_ifs with hall
  · -- everybody acked
    have h2 := Inv.victory (s := s.finish i (.ret el)) h1 hi (by rw [finish_el]; exact hel)
      (by rw [finish_el]; show n < 2 * el.ackedMe.card; rw [hall]; omega)
    rw [finish_el] at h2
    unfold finish at h2 ⊢
    rw [perform_perform] at h2
    exact h2
  · exact h1

theorem Inv.handleVictory (h : Inv n s) (hi : i < n) (src : ℕ) (m : MMonElection) :
    Inv n (s.finish i (handleVictory i src m (s.mons i).el)) := by
  unfold Election.handleVictory
  simp only [check_andThen]
  split_ifs with h1 h2 h3
  · refine Inv.andThen (h.bumpEpoch hi _) fun _ => ?_
    rw [← finish_el (s := s) (i := i)]
    have h4 := h.bumpEpoch hi m.epoch
    exact h4.move hi (by simp [NoAck]) (by simp) le_rfl (fun _ _ => rfl) (h4.electing i) (h4.idle i)
      (h4.acked i) (by simpa [storedEpoch] using h4.stored i)
  all_goals exact h.check hi false

theorem Inv.dispatch (h : Inv n s) (hi : i < n) {quorum : Finset ℕ}
    (hlog : (src, .send i m) ∈ s.log)
    (hc : m.op = .propose → ¬ i < src → m.epoch ≤ (s.mons i).el.epoch →
      (s.mons i).el.epoch % 2 = 1 → ∀ l, (s.mons i).el.leaderAcked = some l → l ≤ src) :
    Inv n (s.finish i (dispatch n i quorum src m (s.mons i).el)) := by
  obtain ⟨op, e⟩ := m
  unfold Election.dispatch
  cases op with
  | propose => exact h.handlePropose hi quorum src _ (hc rfl)
  | ack =>
    split_ifs
    · exact h.ret hi true
    · exact h.handleAck hi (h.rank src _ hlog) hlog
  | victory =>
    split_ifs
    · exact h.ret hi true
    · exact h.handleVictory hi src _

/-- A (re)start: the election state is lost, the epoch is the stored one. -/
theorem Inv.boot (h : Inv n s) (hi : i < n) (reload : Bool) (hv : ¬ HasVoted (s.mons i).el)
    (hr : reload = true ∨ ((s.mons i).el.epoch = 0 ∧ (s.mons i).monEpoch = 0)) :
    Inv n (s.finish i (boot n i reload (s.mons i).monEpoch)) := by
  set el : Elector := if reload then init (s.mons i).monEpoch else Elector.new with hel
  obtain ⟨hst1, hst2⟩ := h.stored i
  have hepoch : (s.mons i).el.epoch ≤ el.epoch ∧ (s.mons i).monEpoch ≤ el.epoch ∧
      el.epoch ≤ max 1 (s.mons i).monEpoch := by
    rw [hel]
    rcases hr with rfl | ⟨h1, h2⟩
    · simp only [init, ↓reduceIte]
      split_ifs <;> omega
    · cases reload <;> simp [init, Elector.new, h1, h2]
  have hlost : el.electingMe = false ∧ el.ackedMe = ∅ ∧ el.leaderAcked = none := by
    rw [hel]; cases reload <;> simp [init, Elector.new]
  have h1 : ∀ {es : List Effect} {up : Bool}, (∀ f ∈ es, NoAck f) →
      (1 < n → ∀ e q, .winElection e q ∉ es) →
      storedEpoch (s.mons i).monEpoch es = (s.mons i).monEpoch → Inv n (s.perform i es el up) := by
    intro es up hq hw hse
    refine h.move hi hq (fun hn e q he => absurd he (hw hn e q)) hepoch.1 (fun ho heq => ?_)
      (by simp [hlost]) (by simp [hlost]) (by simp [hlost]) (by rw [hse]; exact hepoch.2)
    -- it acked nobody in the election it comes back to
    rw [hlost.2.2]
    by_contra hne
    exact hv ⟨heq ▸ ho, isSome_iff_ne_none.mpr fun h0 => hne h0.symm⟩
  unfold Election.boot
  rw [← hel]
  split_ifs with hn
  · refine Inv.andThen (h1 (by simp) (by simp) rfl) fun _ => ?_
    rw [← finish_el (s := s) (i := i) (Out.check el (n ≠ 2))]
    refine Inv.start (s := s.finish i (Out.check el (n ≠ 2))) (h1 (by simp) (by simp) rfl) hi fun hv => ?_
    have := hv.2
    rw [finish_el] at this
    simp [hlost] at this
  · exact h1 (by simp [NoAck]) (fun h1 => absurd h1 hn) (by simp [storedEpoch])

end moves

/-! ### Runs -/

variable {n : ℕ} {s : Cluster}

theorem Inv.take (h : Inv n s) (i j k : ℕ) : Inv n (s.take i j k) :=
  { h with sent := fun a b m hm => h.sent a b m (Links.mem_take hm) }

/-- An event in which nobody votes twice keeps the invariant. -/
theorem inv_step {s' : Cluster} {ev : Event} (h : Inv n s) (hok : OneVote s ev)
    (hst : step n s ev = some s') : Inv n s' := by
  cases ev with
  | boot i reload =>
    obtain ⟨hi, ⟨⟩⟩ := ite_none_right_eq_some.mp hst
    exact h.boot hi reload hok.1 hok.2
  | deliver i j k =>
    simp only [step] at hst
    split at hst
    · rename_i m hm
      obtain ⟨⟨hj, -⟩, ⟨⟩⟩ := ite_none_right_eq_some.mp hst
      exact (h.take i j k).dispatch hj (h.sent i j m (mem_of_getElem? hm)) (hok m hm)
    · cases hst
  | lose i j k =>
    simp only [step, some.injEq] at hst
    exact hst ▸ h.take i j k
  | expire i =>
    obtain ⟨⟨hi, -, -⟩, ⟨⟩⟩ := ite_none_right_eq_some.mp hst
    unfold expire
    split_ifs with hwin
    · exact h.victory hi hwin.1 (by omega)
    · refine h.start hi fun hv => ?_
      rcases hok with hel | hnv
      · have := (h.electing i hel).2
        rw [HasVoted, this] at hv
        exact absurd hv.2 (by simp)
      · exact hnv hv
  | callElection i =>
    obtain ⟨⟨hi, -, -⟩, ⟨⟩⟩ := ite_none_right_eq_some.mp hst
    exact h.start hi hok

theorem Inv.wins_unique (h : Inv n s) {a b e : ℕ} (ha : Wins s a e) (hb : Wins s b e) : a = b := by
  obtain ⟨qa, ha⟩ := ha
  obtain ⟨qb, hb⟩ := hb
  have han := h.rank a _ ha
  have hbn := h.rank b _ hb
  by_cases hn : 1 < n
  swap
  · omega
  obtain ⟨⟨e', rfl, ho, hsa, hma, hka, hna⟩, -⟩ := h.won hn a e qa ha
  obtain ⟨⟨e'', he, -, hsb, hmb, hkb, hnb⟩, -⟩ := h.won hn b _ qb hb
  obtain rfl : e' = e'' := by omega
  obtain ⟨w, hw⟩ : (qa ∩ qb).Nonempty := by
    refine Finset.inter_nonempty_of_card_lt_card_add_card hsa hsb ?_
    rw [Finset.card_range]; omega
  obtain ⟨hwa, hwb⟩ := Finset.mem_inter.mp hw
  rcases hka w hwa with rfl | ka
  · -- the shared monitor is one winner: had it acked the other, it would not have won
    exact (hkb w hwb).resolve_right (hna b)
  · rcases hkb w hwb with rfl | kb
    · exact absurd ka (hnb a)
    · exact h.ackInj w a b e' ho ka kb

/-- The monitors that called `win_election`, with the epoch, in order. -/
def winners (s : Cluster) : List (ℕ × ℕ) :=
  s.log.filterMap fun
    | (a, .winElection e _) => some (a, e)
    | _ => none

theorem wins_of_mem_winners {a e : ℕ} (h : (a, e) ∈ winners s) : Wins s a e := by
  obtain ⟨⟨b, f⟩, hf, he⟩ := mem_filterMap.mp h
  cases f with
  | winElection e' q =>
    obtain ⟨rfl, rfl⟩ := he
    exact ⟨q, hf⟩
  | putEpoch e' => simp at he
  | send p m => simp at he
  | loseElection e' l => simp at he

/-- **One winner for each epoch.** In every run in which nobody votes twice in
an election, no two monitors call `win_election` with the same epoch. -/
theorem winner_unique (n : ℕ) (s : Cluster) (h : Reach (step n) OneVote Cluster.fresh s) (a b e : ℕ)
    (ha : Wins s a e) (hb : Wins s b e) : a = b :=
  (h.inv (Inv n) (inv_fresh n) fun _ _ _ hI hok hst => inv_step hI hok hst).wins_unique ha hb

/-- Three monitors start; 1 and 2 defer to 0, which wins. -/
def plainElection : List Event :=
  [.boot 0 false, .boot 1 false, .boot 2 false, .deliver 0 1 0, .deliver 0 2 0, .deliver 1 0 1,
    .deliver 2 0 1]

/-- The condition leaves the plain election alone, and it has its winner. -/
theorem winner_unique_plain : ∃ s, Reach (step 3) OneVote Cluster.fresh s ∧ Wins s 0 2 ∧
    ∀ b, Wins s b 2 → 0 = b := by
  have hrun : (exec (step 3) OneVote plainElection fresh).map winners = some [(0, 2)] := by
    decide +kernel
  obtain ⟨s, hs, hw⟩ := map_eq_some_iff.mp hrun
  have hr := reach_of_exec hs
  have h0 : Wins s 0 2 := wins_of_mem_winners (by rw [hw]; simp)
  exact ⟨s, hr, h0, fun b hb => winner_unique 3 s hr 0 b 2 h0 hb⟩

/-- **The votes of a winner.** It has the acks of a majority in the odd epoch before,
and none of these acked anyone else in it, nor did the winner ack anyone. -/
theorem won_by_majority {n : ℕ} {s : Cluster} (hn : 1 < n) (h : Reach (step n) OneVote Cluster.fresh s) {a e : ℕ}
    {q : Finset ℕ} (hw : (a, .winElection e q) ∈ s.log) :
    Won n s.log a e q ∧ ∀ w ∈ q, ∀ c, Acked s.log w c (e - 1) → c = a := by
  have hI : Inv n s := h.inv (Inv n) (inv_fresh n) fun _ _ _ => inv_step
  have hwon := (hI.won hn a e q hw).1
  refine ⟨hwon, fun w hq c hc => ?_⟩
  obtain ⟨e', rfl, hodd, -, -, hacked, hnone⟩ := hwon
  obtain rfl | ha := hacked w hq
  · exact absurd hc (hnone c)
  · exact hI.ackInj w c a e' hodd hc ha

theorem won_by_majority_plain : ∃ (s : Cluster) (q : Finset ℕ), (0, .winElection 2 q) ∈ s.log ∧
    Won 3 s.log 0 2 q ∧ ∀ w ∈ q, ∀ c, Acked s.log w c 1 → c = 0 := by
  have hrun : (exec (step 3) OneVote plainElection fresh).map winners = some [(0, 2)] := by
    decide +kernel
  obtain ⟨s, hs, hw⟩ := map_eq_some_iff.mp hrun
  obtain ⟨q, hq⟩ : Wins s 0 2 := wins_of_mem_winners (by rw [hw]; simp)
  exact ⟨s, q, hq, won_by_majority (by decide) (reach_of_exec hs) hq⟩

/-- Monitors 0 and 1 each collect a majority with the ack of 2: 1's proposal
reaches 2 before 0's does, and 0's does not reach 1 in time. -/
def doubleAck : List Event :=
  [.boot 0 false, .boot 1 false, .boot 2 false, .deliver 1 2 0, .deliver 2 1 1, .deliver 0 2 0,
    .deliver 2 0 1, .expire 1, .expire 0]

/-- Without the condition an epoch can have two winners. -/
theorem two_winners : ∃ s, Reach (step 3) anyAct Cluster.fresh s ∧ Wins s 0 2 ∧ Wins s 1 2 := by
  have hrun : (exec (step 3) anyAct doubleAck fresh).map winners = some [(1, 2), (0, 2)] := by
    decide +kernel
  obtain ⟨s, hs, hw⟩ := map_eq_some_iff.mp hrun
  refine ⟨s, reach_of_exec hs, ?_, ?_⟩
  · exact wins_of_mem_winners (by rw [hw]; simp)
  · exact wins_of_mem_winners (by rw [hw]; simp)

end Election
end Ceph
