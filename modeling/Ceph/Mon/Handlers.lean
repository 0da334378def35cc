/-
# What the handlers do

One lemma for each handler of `Ceph.Mon.Paxos` that writes or takes part in a
round: the ways it can end, with the memory and the effects of each. The
invariants are proved from these and never unfold a handler.
-/
import Ceph.Mon.Cluster

namespace Ceph
namespace Paxos

open List Out

variable (n me lease : ℕ) (st : Store) (m : Mon)

/-! ### Phase 1 -/

/-- The memory after `collect` picked `pn`. -/
structure Collected (st : Store) (pn : ℕ) (m m' : Mon) : Prop where
  role : m'.role = m.role
  monEpoch : m'.monEpoch = m.monEpoch
  quorum : m'.quorum = m.quorum
  state : m'.state = .recovering
  lastPn : m'.lastPn = pn
  acceptedPn : m'.acceptedPn = pn
  lastCommitted : m'.lastCommitted = m.lastCommitted
  numLast : m'.numLast = 1
  lastsFrom : m'.lastsFrom = []
  newValue : m'.newValue = m.newValue
  uncommitted : (∃ v, st.bl (m.lastCommitted + 1) = some v ∧ m'.uncommittedV = m.lastCommitted + 1 ∧
      m'.uncommittedPn = m.acceptedPn ∧ m'.uncommittedValue = v) ∨
    (st.bl (m.lastCommitted + 1) = none ∧ m'.uncommittedV = 0 ∧ m'.uncommittedPn = 0 ∧
      m'.uncommittedValue = [])

/-- The COLLECT that asks for promises to `pn`. -/
def collectMsg (m : Mon) (pn : ℕ) : MMonPaxos :=
  { op := .collect, epoch := m.monEpoch, lastCommitted := m.lastCommitted, pn := pn }

/-- The number that `collect` picks. -/
def pickedPn (me oldpn : ℕ) (m : Mon) : ℕ := newProposalNumber me (max m.acceptedPn oldpn) m.lastPn

theorem collect_spec (oldpn : ℕ) (hl : m.role = .leader) :
    ∃ m', Collected st (pickedPn me oldpn m) m m' ∧ collect n me st oldpn m = .emit m'
      (.putLastPn (pickedPn me oldpn m) ::
        (others n me m.quorum).map fun p => .send p (collectMsg m (pickedPn me oldpn m))) := by
  unfold collect
  rw [check_andThen, if_pos (by simpa using hl)]
  cases hbl : st.bl (m.lastCommitted + 1) with
  | some v =>
    refine ⟨_, ?_, rfl⟩
    exact ⟨rfl, rfl, rfl, rfl, rfl, rfl, rfl, rfl, rfl, rfl, .inl ⟨v, hbl, rfl, rfl, rfl⟩⟩
  | none =>
    refine ⟨_, ?_, rfl⟩
    exact ⟨rfl, rfl, rfl, rfl, rfl, rfl, rfl, rfl, rfl, rfl, .inr ⟨hbl, rfl, rfl, rfl⟩⟩

theorem lt_pickedPn (me oldpn : ℕ) (m : Mon) :
    m.lastPn < pickedPn me oldpn m ∧ m.acceptedPn < pickedPn me oldpn m ∧ oldpn < pickedPn me oldpn m := by
  have hle : max m.lastPn (max m.acceptedPn oldpn) < pickedPn me oldpn m := by
    unfold pickedPn newProposalNumber
    omega
  omega

theorem pickedPn_mod (hme : me < 100) (oldpn : ℕ) (m : Mon) : pickedPn me oldpn m % 100 = me := by
  unfold pickedPn newProposalNumber
  omega

/-- A COLLECT is accepted, or answered with a higher number, or the stored
value fails its assertion. -/
theorem handleCollect_cases (src : ℕ) (c : MMonPaxos) (hp : m.role = .peon) :
    (handleCollect st src c m = .check { m with state := .recovering } false) ∨
    (m.acceptedPn < c.pn ∧ handleCollect st src c m =
      .emit { m with state := .recovering, acceptedPn := c.pn, acceptedPnFrom := c.pnFrom }
        [.putAcceptedPn c.pn, .send src { lastReply st c m with pn := c.pn, pnFrom := c.pnFrom }]) ∨
    (c.pn ≤ m.acceptedPn ∧ handleCollect st src c m = .emit { m with state := .recovering }
      [.send src { lastReply st c m with pn := m.acceptedPn, pnFrom := m.acceptedPnFrom }]) := by
  unfold handleCollect
  rw [check_andThen, if_pos (by simpa using hp), check_andThen]
  split_ifs with hb hpn
  · exact .inr (.inl ⟨hpn, rfl⟩)
  · exact .inr (.inr ⟨not_lt.mp hpn, rfl⟩)
  · exact .inl rfl

theorem lookup_storedAbove (lo hi v : ℕ) {b : Blob} (hlo : lo < v) (hhi : v ≤ hi)
    (hb : st.bl v = some b) (rest : List (ℕ × Blob)) :
    (storedAbove st lo hi ++ rest).lookup v = some b := by
  have key : ∀ (k lo : ℕ), lo < v → v ≤ lo + k →
      (((List.range' (lo + 1) k).filterMap fun v => (st.bl v).map fun b => (v, b)) ++ rest).lookup v =
        some b := by
    intro k
    induction k with
    | zero =>
      intro lo h1 h2
      omega
    | succ k ih =>
      intro lo h1 h2
      rw [range'_succ]
      by_cases hv : v = lo + 1
      · subst hv
        simp [hb]
      · have hrec := ih (lo + 1) (by omega) (by omega)
        cases hx : st.bl (lo + 1) with
        | none => simpa [hx] using hrec
        | some x =>
          have hne : (v == lo + 1) = false := by simpa using hv
          simpa [hx, lookup_cons, hne] using hrec
  exact key (hi - lo) lo hlo (by omega)

theorem lookup_storedAbove_ne (lo hi v : ℕ) (hhi : hi < v) (rest : List (ℕ × Blob)) :
    (storedAbove st lo hi ++ rest).lookup v = rest.lookup v := by
  have key : ∀ (k lo : ℕ), lo + k < v →
      (((List.range' (lo + 1) k).filterMap fun v => (st.bl v).map fun b => (v, b)) ++ rest).lookup v =
        rest.lookup v := by
    intro k
    induction k with
    | zero => exact fun _ _ => rfl
    | succ k ih =>
      intro lo h
      rw [range'_succ]
      have hrec := ih (lo + 1) (by omega)
      cases hx : st.bl (lo + 1) with
      | none => simpa [hx] using hrec
      | some x =>
        have hne : (v == lo + 1) = false := by
          simp
          omega
        simpa [hx, lookup_cons, hne] using hrec
  by_cases hle : lo ≤ hi
  · exact key (hi - lo) lo (by omega)
  · have h0 : hi - lo = 0 := by omega
    unfold storedAbove
    rw [h0]
    rfl

/-! ### Phase 2 -/

/-- The BEGIN for `v`. -/
def beginMsg (v : Blob) (m : Mon) : MMonPaxos :=
  { op := .begin, epoch := m.monEpoch, lastCommitted := m.lastCommitted, pn := m.acceptedPn,
    values := [(m.lastCommitted + 1, v)] }

/-- The COMMIT of `m.newValue`. -/
def commitMsg (m : Mon) : MMonPaxos :=
  { op := .commit, epoch := m.monEpoch, pn := m.acceptedPn,
    values := [(m.lastCommitted + 1, m.newValue)] }

/-- `begin` fails an assertion, commits at once when alone, or asks the
quorum. -/
theorem begin_cases (v : Blob) : (∃ m', begin n me v m = .check m' false) ∨
    (m.quorum.card = 1 ∧ m.role = .leader ∧ ∃ m' es, begin n me v m = .emit m'
        (.putBl (m.lastCommitted + 1) v (some m.acceptedPn) ::
          .putLastCommitted (m.lastCommitted + 1) :: es) ∧
      m'.role = m.role ∧ m'.quorum = m.quorum ∧ m'.lastPn = m.lastPn ∧ m'.acceptedPn = m.acceptedPn ∧
      m'.lastCommitted = m.lastCommitted + 1 ∧ m'.found = m.found ∧
      (∃ M, es = ((others n me m.quorum).map fun p => .send p M) ++ wakeAll ∧ M.op = .commit)) ∨
    (m.quorum.card ≠ 1 ∧ m.role = .leader ∧ m.state = .active ∧ n / 2 < m.numLast ∧ m.newValue = [] ∧
      begin n me v m = .emit
        { m with state := .updating, accepted := {me}, newValue := v, acceptTimeoutEvent := true }
        (.putBl (m.lastCommitted + 1) v (some m.acceptedPn) ::
          (others n me m.quorum).map fun p => .send p (beginMsg v m))) := by
  unfold begin
  simp only [check_andThen, emit_andThen, decide_eq_true_eq]
  split_ifs with hr hs hn hv h1
  · refine .inr (.inl ⟨h1, hr, _, _, rfl, rfl, rfl, rfl, rfl, rfl, rfl, ?_⟩)
    exact ⟨commitMsg { m with newValue := v }, rfl, rfl⟩
  · refine .inr (.inr ⟨h1, hr, hs, ?_, hv, rfl⟩)
    omega
  · exact .inl ⟨_, rfl⟩
  · exact .inl ⟨_, rfl⟩
  · exact .inl ⟨_, rfl⟩
  · exact .inl ⟨_, rfl⟩

theorem handleBegin_cases (src : ℕ) (b : MMonPaxos) :
    ((handleBegin src b m).effs = [] ∧ (handleBegin src b m).st = m) ∨
    (b.pn = m.acceptedPn ∧ b.lastCommitted = m.lastCommitted ∧ handleBegin src b m =
      .emit { m with state := .updating, leaseExpire := 0 }
        [.putBl (m.lastCommitted + 1) (b.value (m.lastCommitted + 1)) (some m.acceptedPn),
          .send src { op := .accept, epoch := m.monEpoch, pn := m.acceptedPn,
                      lastCommitted := m.lastCommitted }]) := by
  unfold handleBegin
  simp only [check_andThen, decide_eq_true_eq]
  split_ifs with hlt hpn hlc
  · exact .inl ⟨rfl, rfl⟩
  · exact .inr ⟨hpn, hlc, rfl⟩
  · exact .inl ⟨rfl, rfl⟩
  · exact .inl ⟨rfl, rfl⟩

theorem countAccept_cases (src : ℕ) :
    ((insert src m.accepted).card = n / 2 + 1 ∧ countAccept n me src m = .emit { m with
          accepted := insert src m.accepted
          lastCommitted := m.lastCommitted + 1
          newValue := [] }
        (.putLastCommitted (m.lastCommitted + 1) ::
          (others n me m.quorum).map fun p => .send p (commitMsg m))) ∨
    ((insert src m.accepted).card ≠ n / 2 + 1 ∧
      countAccept n me src m = .ret { m with accepted := insert src m.accepted }) := by
  unfold countAccept
  dsimp only
  split_ifs with h
  · exact .inl ⟨h, rfl⟩
  · exact .inr ⟨h, rfl⟩

theorem quiet_wakeAll {e : Effect} (h : e ∈ wakeAll) : e.Quiet := by
  simp only [wakeAll, mem_cons, not_mem_nil, or_false] at h
  rcases h with rfl | rfl | rfl | rfl <;> trivial

/-- `extend_lease` and the wake-ups after it. -/
theorem quiet_extendLease_andThen (now : ℕ) {es : List Effect} (hes : ∀ e ∈ es, e.Quiet) :
    (∀ e ∈ ((extendLease n me lease now m).andThen fun m => .emit m es).effs, e.Quiet) ∧
      SameLead m ((extendLease n me lease now m).andThen fun m => .emit m es).st ∧
      Calm m ((extendLease n me lease now m).andThen fun m => .emit m es).st := by
  obtain ⟨hq, hs, hc⟩ := @quiet_extendLease n lease me now m
  unfold andThen
  split_ifs with h
  · refine ⟨?_, hs, hc⟩
    intro e he
    rcases mem_append.mp he with h | h
    · exact hq e h
    · exact hes e h
  · exact ⟨hq, hs, hc⟩

theorem finishAccepts_cases (now : ℕ) :
    (m.accepted ≠ m.quorum ∧ finishAccepts n me lease now m = .ret m) ∨
    (m.accepted = m.quorum ∧ (∀ e ∈ (finishAccepts n me lease now m).effs, e.Quiet) ∧
      SameLead { m with state := .active } (finishAccepts n me lease now m).st ∧
      Calm { m with state := .active } (finishAccepts n me lease now m).st) := by
  unfold finishAccepts
  split_ifs with h
  · refine .inr ⟨h, ?_⟩
    obtain ⟨hq, hs, hc⟩ := quiet_extendLease_andThen n me lease
      { m with acceptTimeoutEvent := false, state := .active } now fun e he => quiet_wakeAll he
    refine ⟨hq, ?_, hc.lastPn, hc.acceptedPn, hc.lastCommitted, fun _ => ?_, hc.update, hc.found⟩
    · exact ⟨hs.role, hs.state, hs.quorum, hs.numLast, hs.lastsFrom, hs.uncommittedV, hs.uncommittedPn,
        hs.uncommittedValue, hs.newValue, hs.accepted⟩
    · exact ⟨hs.role, hs.state, hs.quorum, hs.numLast, hs.lastsFrom, hs.uncommittedV, hs.uncommittedPn,
        hs.uncommittedValue, hs.newValue, hs.accepted⟩
  · exact .inl ⟨h, rfl⟩

theorem handleAccept_cases (src : ℕ) (a : MMonPaxos) (now : ℕ) :
    ((handleAccept n me lease src a now m).effs = [] ∧ (handleAccept n me lease src a now m).st = m) ∨
    (a.pn = m.acceptedPn ∧ (a.lastCommitted = m.lastCommitted ∨ a.lastCommitted + 1 = m.lastCommitted) ∧
      m.state = .updating ∧ src ∉ m.accepted ∧
      handleAccept n me lease src a now m =
        (countAccept n me src m).andThen fun m => finishAccepts n me lease now m) := by
  unfold handleAccept
  by_cases hpn : a.pn ≠ m.acceptedPn
  · rw [if_pos hpn]; exact .inl ⟨rfl, rfl⟩
  rw [if_neg hpn]
  by_cases hold : m.lastCommitted > 0 ∧ a.lastCommitted < m.lastCommitted - 1
  · rw [if_pos hold]; exact .inl ⟨rfl, rfl⟩
  simp only [check_andThen, decide_eq_true_eq]
  split_ifs with hlc hst hsrc
  · exact .inl ⟨rfl, rfl⟩
  · exact .inr ⟨not_not.mp hpn, hlc, hst, hsrc, rfl⟩
  · exact .inl ⟨rfl, rfl⟩
  · exact .inl ⟨rfl, rfl⟩

theorem countAccept_ok (src : ℕ) : (countAccept n me src m).ok = true := by
  rcases countAccept_cases n me m src with ⟨_, h⟩ | ⟨_, h⟩ <;> rw [h] <;> rfl

/-- What an ACCEPT does not touch. -/
structure SameRound (m m' : Mon) : Prop where
  lastPn : m'.lastPn = m.lastPn
  acceptedPn : m'.acceptedPn = m.acceptedPn
  role : m'.role = m.role
  quorum : m'.quorum = m.quorum
  numLast : m'.numLast = m.numLast
  lastsFrom : m'.lastsFrom = m.lastsFrom
  found : m'.found = m.found

theorem handleAccept_kept (src : ℕ) (a : MMonPaxos) (now : ℕ) :
    SameRound m (handleAccept n me lease src a now m).st ∧
      ((handleAccept n me lease src a now m).st = m ∨ m.state = .updating) := by
  rcases handleAccept_cases n me lease m src a now with ⟨_, h⟩ | ⟨_, _, hst, _, h⟩
  · rw [h]
    exact ⟨⟨rfl, rfl, rfl, rfl, rfl, rfl, rfl⟩, .inl rfl⟩
  · refine ⟨?_, .inr hst⟩
    have hc : SameRound m (countAccept n me src m).st := by
      rcases countAccept_cases n me m src with ⟨_, h⟩ | ⟨_, h⟩ <;> rw [h] <;>
        exact ⟨rfl, rfl, rfl, rfl, rfl, rfl, rfl⟩
    have heq : (handleAccept n me lease src a now m).st =
        (finishAccepts n me lease now (countAccept n me src m).st).st := by
      rw [h, andThen, if_pos (countAccept_ok n me m src)]
    rw [heq]
    rcases finishAccepts_cases n me lease (countAccept n me src m).st now with
      ⟨_, hf⟩ | ⟨_, _, hs, hcalm⟩
    · rw [hf]
      exact hc
    · exact ⟨hcalm.lastPn.trans hc.lastPn, hcalm.acceptedPn.trans hc.acceptedPn,
        hs.role.symm.trans hc.role, hs.quorum.symm.trans hc.quorum, hs.numLast.symm.trans hc.numLast,
        hs.lastsFrom.symm.trans hc.lastsFrom, hcalm.found.trans hc.found⟩

/-- The values of a COMMIT that were stored before it ended or failed. -/
theorem storeCommitted_spec (vs : List (ℕ × Blob)) : ∀ m : Mon,
    ∃ ws, ws <+: vs ∧ (∀ k (h : k < ws.length), (ws.get ⟨k, h⟩).1 = m.lastCommitted + 1 + k) ∧
      (storeCommitted vs m).effs = ws.map (fun p => .putBl p.1 p.2 none) ∧
      (storeCommitted vs m).st = { m with lastCommitted := m.lastCommitted + ws.length } := by
  induction vs with
  | nil => exact fun m => ⟨[], prefix_rfl, by simp, rfl, rfl⟩
  | cons p vs ih =>
    obtain ⟨v, b⟩ := p
    intro m
    unfold storeCommitted
    rw [check_andThen]
    by_cases hv : v = m.lastCommitted + 1
    swap
    · simp only [hv, decide_false]
      exact ⟨[], List.nil_prefix, by simp, rfl, rfl⟩
    obtain ⟨ws, hpre, hnum, heffs, hst⟩ := ih { m with lastCommitted := v }
    simp only [hv, decide_true, if_true, emit_andThen] at hnum heffs hst ⊢
    refine ⟨(m.lastCommitted + 1, b) :: ws, (cons_prefix_cons).mpr ⟨rfl, hpre⟩, ?_, ?_, ?_⟩
    · rintro (_ | k) h
      · rfl
      · have hk : k < ws.length := by simpa using h
        have := hnum k hk
        simp only [get_eq_getElem, getElem_cons_succ] at this ⊢
        omega
    · rw [heffs]; rfl
    · rw [hst]
      simp only [length_cons]
      congr 1
      omega

theorem handleCommit_spec (c : MMonPaxos) (hp : m.role = .peon) :
    ∃ ws, ws <+: c.values ∧ (∀ k (h : k < ws.length), (ws.get ⟨k, h⟩).1 = m.lastCommitted + 1 + k) ∧
      (handleCommit c m).st = { m with lastCommitted := m.lastCommitted + ws.length } ∧
      ((handleCommit c m).effs = ws.map (fun p => .putBl p.1 p.2 none) ∧ (handleCommit c m).ok = false ∨
        (handleCommit c m).effs = ws.map (fun p => .putBl p.1 p.2 none) ++
          [.putLastCommitted (m.lastCommitted + ws.length)]) := by
  obtain ⟨ws, hpre, hnum, heffs, hst⟩ := storeCommitted_spec c.values m
  refine ⟨ws, hpre, hnum, ?_⟩
  unfold handleCommit
  rw [check_andThen, if_pos (by simpa using hp)]
  unfold andThen
  split_ifs with h
  · refine ⟨hst, .inr ?_⟩
    simp only [heffs, emit_effs, hst]
  · exact ⟨hst, .inl ⟨heffs, by simpa using h⟩⟩

/-! ### The end of phase 1 -/

/-- The leader's memory once it has the committed values of a LAST. -/
def withLearned (last : MMonPaxos) (m : Mon) : Mon :=
  { m with lastCommitted := max m.lastCommitted last.lastCommitted }

theorem finishLasts_cases (now : ℕ) :
    (m.numLast ≠ m.quorum.card ∧ finishLasts n me lease now m = .ret m) ∨
    (m.numLast = m.quorum.card ∧ m.uncommittedV = m.lastCommitted + 1 ∧ m.uncommittedValue ≠ [] ∧
      finishLasts n me lease now m = begin n me m.uncommittedValue { m with state := .active }) ∨
    (m.numLast = m.quorum.card ∧ ¬ (m.uncommittedV = m.lastCommitted + 1 ∧ m.uncommittedValue ≠ []) ∧
      (∀ e ∈ (finishLasts n me lease now m).effs, e.Quiet) ∧
      SameLead { m with state := .active } (finishLasts n me lease now m).st ∧
      Calm { m with state := .active } (finishLasts n me lease now m).st) := by
  unfold finishLasts
  dsimp only
  split_ifs with h hu
  · exact .inr (.inl ⟨h, hu.1, hu.2, rfl⟩)
  · refine .inr (.inr ⟨h, hu, ?_⟩)
    refine quiet_extendLease_andThen n me lease _ now fun e he => ?_
    simp only [mem_cons, not_mem_nil, or_false] at he
    rcases he with rfl | rfl | rfl <;> trivial
  · exact .inl ⟨h, rfl⟩

/-- A LAST brings or asks for committed values; then the leader collects again
under a higher number, or counts it. -/
theorem handleLast_cases (src : ℕ) (last : MMonPaxos) (now : ℕ) (hl : m.role = .leader) :
    (m.acceptedPn < last.pn ∧ handleLast n me lease st src last now m =
      (emit (withLearned last m) (shared st src last m ++ learned last m)).andThen
        (collect n me (st.performAll (learned last m)) last.pn)) ∨
    (last.pn ≤ m.acceptedPn ∧ handleLast n me lease st src last now m =
      (emit (countLast src last (withLearned last m))
        (shared st src last m ++ learned last m)).andThen (finishLasts n me lease now)) := by
  unfold handleLast
  rw [if_neg (not_not.mpr hl)]
  simp only [emit_andThen]
  split_ifs with h
  · exact .inl ⟨h, rfl⟩
  · exact .inr ⟨not_lt.mp h, rfl⟩

end Paxos
end Ceph
