/-
# One election epoch

The runs of one election epoch: a quorum has been elected, its peons have lost
the election to its leader, every message still in flight is of an older
epoch, and then the leader wins. From there on the members of the quorum
handle the messages of the epoch, which travel between the leader and the
peons only; no message is lost, and no monitor fails or calls an election.
-/
import Ceph.Mon.Handlers

namespace Ceph
namespace Paxos

open List Option Cluster Out

variable {n lease : ℕ} {s s' : Cluster} {L e : ℕ} {q : Finset ℕ}

/-- A quorum when its peons have lost the election `e` to `L`, and `L` has not
yet won it. -/
structure Gathered (n L e : ℕ) (q : Finset ℕ) (s : Cluster) : Prop where
  quorum : IsQuorum n L q
  peon : ∀ a ∈ q, a ≠ L → ∃ m, (s.node a).mon = (loseElection e L m).st
  old : ∀ a < n, ∀ b < n, ∀ m ∈ s.net a b, m.epoch < e

/-- The same, as it can be checked: losing an election twice is losing it once. -/
def Lost (n L e : ℕ) (q : Finset ℕ) (s : Cluster) : Prop :=
  IsQuorum n L q ∧ (∀ a ∈ q, a ≠ L → (s.node a).mon = (loseElection e L (s.node a).mon).st) ∧
    ∀ a < n, ∀ b < n, ∀ m ∈ s.net a b, m.epoch < e

instance (n L e : ℕ) (q : Finset ℕ) (s : Cluster) : Decidable (Lost n L e q s) :=
  inferInstanceAs (Decidable (_ ∧ _ ∧ _))

theorem Lost.gathered (h : Lost n L e q s) : Gathered n L e q s :=
  ⟨h.1, fun a ha haL => ⟨_, h.2.1 a ha haL⟩, h.2.2⟩

/-- The actions of the epoch. -/
def InEpoch (n L : ℕ) (q : Finset ℕ) : Act → Prop
  | .run (.deliver a b _) => a < n ∧ b ∈ q
  | .run (.propose i _) => i = L
  | .run (.leaseRenew i _) => i = L
  | _ => False

instance : ∀ (n L : ℕ) (q : Finset ℕ) (a : Act), Decidable (InEpoch n L q a)
  | _, _, _, .run (.deliver _ _ _) => inferInstanceAs (Decidable (_ ∧ _))
  | _, _, _, .run (.propose _ _) | _, _, _, .run (.leaseRenew _ _) => inferInstanceAs (Decidable (_ = _))
  | _, _, _, .run (.win _ _ _) | _, _, _, .run (.lose _ _ _) | _, _, _, .run (.callElection _)
  | _, _, _, .cut _ _ | _, _, _, .restart _ | _, _, _, .drop _ _ _ => isFalse id

/-- The operations that the leader sends; the peons send the others. -/
def Op.isRequest : Op → Bool
  | .collect => true
  | .begin => true
  | .commit => true
  | .lease => true
  | .last => false
  | .accept => false
  | .leaseAck => false

/-- A message of the epoch goes from the leader to a peon, or back. -/
def Proper (L : ℕ) (q : Finset ℕ) (a b : ℕ) (o : Op) : Prop :=
  (a = L ∧ b ∈ q ∧ b ≠ L ∧ o.isRequest = true) ∨ (b = L ∧ a ∈ q ∧ a ≠ L ∧ o.isRequest = false)

/-- What a monitor is in the epoch. -/
structure Office (e L : ℕ) (r : Role) (m : Mon) : Prop where
  role : m.role = r
  monEpoch : m.monEpoch = e
  leader : m.leader = L

/-- The members of the quorum and the messages keep to their parts. -/
structure InOffice (n L e : ℕ) (q : Finset ℕ) (s : Cluster) : Prop where
  quorum : IsQuorum n L q
  leader : Office e L .leader (s.node L).mon ∧ (s.node L).mon.quorum = q
  peon : ∀ a ∈ q, a ≠ L → Office e L .peon (s.node a).mon
  msg : ∀ a < n, ∀ b < n, ∀ m ∈ s.net a b, m.epoch < e ∨ (m.epoch = e ∧ Proper L q a b m.op)

/-- The messages of the epoch on a link. -/
def current (e : ℕ) (ms : List MMonPaxos) : List MMonPaxos := ms.filter fun m => m.epoch = e

/-! ### What a handler does to the office -/

/-- A piece of a handler that keeps the office of `m`, and sends messages of its
epoch to those of `D`. -/
structure Official (D : ℕ → Op → Prop) (m : Mon) (o : Handled) : Prop where
  role : o.st.role = m.role
  monEpoch : o.st.monEpoch = m.monEpoch
  leader : o.st.leader = m.leader
  quorum : o.st.quorum = m.quorum
  sends : ∀ j M, .send j M ∈ o.effs → M.epoch = m.monEpoch ∧ D j M.op

variable {D : ℕ → Op → Prop} {m : Mon}

theorem official_check (m : Mon) (b : Bool) : Official D m (.check m b) :=
  ⟨rfl, rfl, rfl, rfl, nofun⟩

theorem official_ret (m : Mon) : Official D m (.ret m) := ⟨rfl, rfl, rfl, rfl, nofun⟩

theorem Official.andThen {o : Handled} {f : Mon → Handled} (h : Official D m o)
    (hf : Official D o.st (f o.st)) : Official D m (o.andThen f) := by
  unfold Out.andThen
  split_ifs with hok
  · refine ⟨hf.role.trans h.role, hf.monEpoch.trans h.monEpoch, hf.leader.trans h.leader,
      hf.quorum.trans h.quorum, fun j M hM => ?_⟩
    rcases mem_append.mp hM with hM | hM
    · exact h.sends j M hM
    · rw [← h.monEpoch]
      exact hf.sends j M hM
  · exact h

/-- The leader writes to its peons. -/
def ToPeons (me : ℕ) (q : Finset ℕ) (j : ℕ) (o : Op) : Prop := j ∈ q ∧ j ≠ me ∧ o.isRequest = true

/-- A peon answers `src`. -/
def Answers (src : ℕ) (j : ℕ) (o : Op) : Prop := j = src ∧ o.isRequest = false

theorem toPeons_bcast {me : ℕ} {M : MMonPaxos} {ep : ℕ} (he : M.epoch = ep) (ho : M.op.isRequest = true)
    {j : ℕ} {M' : MMonPaxos} (h : .send j M' ∈ (others n me q).map fun p => Effect.send p M) :
    M'.epoch = ep ∧ ToPeons me q j M'.op := by
  obtain ⟨p, hp, heq⟩ := List.mem_map.mp h
  cases heq
  exact ⟨he, (mem_others.mp hp).2.1, (mem_others.mp hp).2.2, ho⟩

section leader

variable (n lease) (me : ℕ)

theorem official_extendLease (now : ℕ) (m : Mon) :
    Official (ToPeons me m.quorum) m (extendLease n me lease now m) := by
  unfold extendLease
  simp only [check_andThen]
  split_ifs
  · exact ⟨rfl, rfl, rfl, rfl, fun j M hM => toPeons_bcast rfl rfl hM⟩
  · exact official_check m false
  · exact official_check m false

theorem official_wake (m : Mon) {es : List Effect} (h : ∀ j M, .send j M ∉ es) : Official D m (.emit m es) :=
  ⟨rfl, rfl, rfl, rfl, fun j M hM => absurd hM (h j M)⟩

theorem send_notMem_wakeAll (j : ℕ) (M : MMonPaxos) : .send j M ∉ wakeAll := by simp [wakeAll]

theorem official_collect (st : Store) (oldpn : ℕ) (hl : m.role = .leader) :
    Official (ToPeons me m.quorum) m (collect n me st oldpn m) := by
  have hleader : (collect n me st oldpn m).st.leader = m.leader := by
    unfold collect
    rw [check_andThen, if_pos (by simpa using hl)]
    cases st.bl (m.lastCommitted + 1) <;> rfl
  obtain ⟨m', hc, heq⟩ := collect_spec n me st m oldpn hl
  rw [heq] at hleader ⊢
  refine ⟨hc.role, hc.monEpoch, hleader, hc.quorum, fun j M hM => ?_⟩
  rcases mem_cons.mp hM with h | h
  · cases h
  · exact toPeons_bcast rfl rfl h

theorem official_commit (m : Mon) : Official (ToPeons me m.quorum) m (commit n me m) := by
  refine ⟨rfl, rfl, rfl, rfl, fun j M hM => ?_⟩
  rcases mem_cons.mp hM with h | h
  · cases h
  · exact toPeons_bcast rfl rfl h

theorem official_begin (v : Blob) (m : Mon) : Official (ToPeons me m.quorum) m (begin n me v m) := by
  unfold begin
  simp only [check_andThen, emit_andThen, decide_eq_true_eq]
  split_ifs
  · refine ⟨rfl, rfl, rfl, rfl, fun j M hM => ?_⟩
    simp only [commit, emit_andThen, emit_effs, mem_append, mem_cons, reduceCtorEq,
      not_mem_nil, or_false, false_or] at hM
    rcases hM with hM | hM
    · exact toPeons_bcast rfl rfl hM
    · exact absurd hM (send_notMem_wakeAll j M)
  · refine ⟨rfl, rfl, rfl, rfl, fun j M hM => ?_⟩
    rcases mem_append.mp hM with hM | hM
    · simp at hM
    · exact toPeons_bcast rfl rfl hM
  · exact ⟨rfl, rfl, rfl, rfl, nofun⟩
  · exact ⟨rfl, rfl, rfl, rfl, nofun⟩
  · exact official_check m false
  · exact official_check m false

theorem official_countAccept (src : ℕ) (m : Mon) :
    Official (ToPeons me m.quorum) m (countAccept n me src m) := by
  unfold countAccept
  dsimp only
  split_ifs
  · have h := official_commit n me { m with accepted := insert src m.accepted }
    exact { h with }
  · exact ⟨rfl, rfl, rfl, rfl, nofun⟩

theorem official_finishAccepts (now : ℕ) (m : Mon) :
    Official (ToPeons me m.quorum) m (finishAccepts n me lease now m) := by
  unfold finishAccepts
  split_ifs
  · have h := official_extendLease n lease me now { m with acceptTimeoutEvent := false, state := .active }
    exact Official.andThen (m := m) { h with } (official_wake _ send_notMem_wakeAll)
  · exact official_ret m

theorem official_handleAccept (src now : ℕ) (a : MMonPaxos) (m : Mon) :
    Official (ToPeons me m.quorum) m (handleAccept n me lease src a now m) := by
  unfold handleAccept
  split_ifs
  · exact official_ret m
  · exact official_ret m
  refine (official_check m _).andThen ((official_check m _).andThen ((official_check m _).andThen ?_))
  have hcount := official_countAccept n me src m
  have hfinish := official_finishAccepts n lease me now (countAccept n me src m).st
  rw [hcount.quorum] at hfinish
  exact hcount.andThen hfinish

theorem official_finishLasts (now : ℕ) (m : Mon) :
    Official (ToPeons me m.quorum) m (finishLasts n me lease now m) := by
  unfold finishLasts
  dsimp only
  split_ifs
  · have h := official_begin n me m.uncommittedValue { m with state := .active }
    exact { h with }
  · have h := official_extendLease n lease me now { m with state := .active }
    refine Official.andThen (m := m) { h with } (official_wake _ fun j M hM => ?_)
    simp at hM
  · exact official_ret m

theorem official_handleLast (st : Store) {src : ℕ} (last : MMonPaxos) (now : ℕ) (hl : m.role = .leader)
    (hsrc : src ∈ m.quorum ∧ src ≠ me) :
    Official (ToPeons me m.quorum) m (handleLast n me lease st src last now m) := by
  have hsends : ∀ j M, .send j M ∈ shared st src last m ++ learned last m →
      M.epoch = m.monEpoch ∧ ToPeons me m.quorum j M.op := by
    intro j M hM
    rcases mem_append.mp hM with h | h
    · unfold shared at h
      split_ifs at h
      · cases mem_singleton.mp h
        exact ⟨rfl, hsrc.1, hsrc.2, rfl⟩
      · cases h
    · unfold learned at h
      split_ifs at h
      · simp at h
      · cases h
  rcases handleLast_cases n me lease st m src last now hl with ⟨_, heq⟩ | ⟨_, heq⟩
  · rw [heq]
    refine Official.andThen (o := .emit _ _) ⟨rfl, rfl, rfl, rfl, hsends⟩ ?_
    exact official_collect (m := withLearned last m) n me _ last.pn hl
  · rw [heq]
    have hkept : Official (ToPeons me m.quorum) m (.emit (countLast src last (withLearned last m))
        (shared st src last m ++ learned last m)) := by
      unfold countLast
      dsimp only
      split_ifs <;> exact ⟨rfl, rfl, rfl, rfl, hsends⟩
    refine hkept.andThen ?_
    have h := official_finishLasts n lease me now (countLast src last (withLearned last m))
    have hq : (countLast src last (withLearned last m)).quorum = m.quorum := hkept.quorum
    rw [hq] at h
    exact h

end leader

section peon

variable {src : ℕ}

theorem official_handleCollect (st : Store) (c : MMonPaxos) (hp : m.role = .peon) :
    Official (Answers src) m (handleCollect st src c m) := by
  rcases handleCollect_cases st m src c hp with h | ⟨_, h⟩ | ⟨_, h⟩
  · rw [h]
    exact ⟨rfl, rfl, rfl, rfl, nofun⟩
  · rw [h]
    refine ⟨rfl, rfl, rfl, rfl, fun j M hM => ?_⟩
    simp only [emit_effs, mem_cons, not_mem_nil, or_false, reduceCtorEq, false_or,
      Effect.send.injEq] at hM
    obtain ⟨rfl, rfl⟩ := hM
    exact ⟨rfl, rfl, rfl⟩
  · rw [h]
    refine ⟨rfl, rfl, rfl, rfl, fun j M hM => ?_⟩
    cases mem_singleton.mp hM
    exact ⟨rfl, rfl, rfl⟩

theorem official_handleBegin (b : MMonPaxos) (m : Mon) : Official (Answers src) m (handleBegin src b m) := by
  unfold handleBegin
  simp only [check_andThen]
  split_ifs
  · exact official_ret m
  · refine ⟨rfl, rfl, rfl, rfl, fun j M hM => ?_⟩
    simp only [emit_effs, mem_cons, not_mem_nil, or_false, reduceCtorEq, false_or,
      Effect.send.injEq] at hM
    obtain ⟨rfl, rfl⟩ := hM
    exact ⟨rfl, rfl, rfl⟩
  · exact official_check m false
  · exact official_check m false

theorem official_handleCommit (c : MMonPaxos) (hp : m.role = .peon) :
    Official (Answers src) m (handleCommit c m) := by
  obtain ⟨ws, _, _, hst, heffs⟩ := handleCommit_spec m c hp
  have hno : ∀ j M, .send j M ∉ (handleCommit c m).effs := by
    intro j M hM
    rcases heffs with ⟨h, _⟩ | h <;> rw [h] at hM <;> simp at hM
  rw [show handleCommit c m = ⟨(handleCommit c m).st, (handleCommit c m).effs, (handleCommit c m).ok⟩ from rfl,
    hst]
  exact ⟨rfl, rfl, rfl, rfl, fun j M hM => absurd hM (hno j M)⟩

theorem official_handleLease (l : MMonPaxos) (now : ℕ) (m : Mon) :
    Official (Answers src) m (handleLease src l now m) := by
  unfold handleLease
  dsimp only
  split_ifs
  · exact official_ret m
  all_goals
    refine ⟨rfl, rfl, rfl, rfl, fun j M hM => ?_⟩
    simp only [emit_effs, mem_append, mem_cons, not_mem_nil, or_false, reduceCtorEq,
      Effect.send.injEq] at hM
    obtain ⟨rfl, rfl⟩ := hM
    exact ⟨rfl, rfl, rfl⟩

theorem official_handleLeaseAck (m : Mon) : Official D m (handleLeaseAck src m) := by
  unfold handleLeaseAck
  dsimp only
  split_ifs <;> exact ⟨rfl, rfl, rfl, rfl, nofun⟩

end peon

/-! ### What a step can do -/

/-- What a member `i` of the quorum does at an event of the epoch, on the cluster
once the message is off its link. -/
inductive Turn (n lease L e : ℕ) (q : Finset ℕ) (s : Cluster) : Event → ℕ → Cluster → Handled → Prop
  | old (a b now : ℕ) (c : MMonPaxos) (ms : List MMonPaxos) : b ∈ q → s.net a b = c :: ms → c.epoch < e →
      Turn n lease L e q s (.deliver a b now) b (s.received a b) (.ret (s.node b).mon)
  | collect (a now : ℕ) (c : MMonPaxos) (ms : List MMonPaxos) : a ∈ q → a ≠ L → s.net L a = c :: ms →
      c.epoch = e → c.op = .collect →
      Turn n lease L e q s (.deliver L a now) a (s.received L a)
        (handleCollect (s.node a).store L c (s.node a).mon)
  | begin (a now : ℕ) (c : MMonPaxos) (ms : List MMonPaxos) : a ∈ q → a ≠ L → s.net L a = c :: ms →
      c.epoch = e → c.op = .begin →
      Turn n lease L e q s (.deliver L a now) a (s.received L a) (handleBegin L c (s.node a).mon)
  | commit (a now : ℕ) (c : MMonPaxos) (ms : List MMonPaxos) : a ∈ q → a ≠ L → s.net L a = c :: ms →
      c.epoch = e → c.op = .commit →
      Turn n lease L e q s (.deliver L a now) a (s.received L a) (handleCommit c (s.node a).mon)
  | lease (a now : ℕ) (c : MMonPaxos) (ms : List MMonPaxos) : a ∈ q → a ≠ L → s.net L a = c :: ms →
      c.epoch = e → c.op = .lease →
      Turn n lease L e q s (.deliver L a now) a (s.received L a) (handleLease L c now (s.node a).mon)
  | last (a now : ℕ) (c : MMonPaxos) (ms : List MMonPaxos) : a ∈ q → a ≠ L → s.net a L = c :: ms →
      c.epoch = e → c.op = .last →
      Turn n lease L e q s (.deliver a L now) L (s.received a L)
        (handleLast n L lease (s.node L).store a c now (s.node L).mon)
  | accept (a now : ℕ) (c : MMonPaxos) (ms : List MMonPaxos) : a ∈ q → a ≠ L → s.net a L = c :: ms →
      c.epoch = e → c.op = .accept →
      Turn n lease L e q s (.deliver a L now) L (s.received a L)
        (handleAccept n L lease a c now (s.node L).mon)
  | leaseAck (a now : ℕ) (c : MMonPaxos) (ms : List MMonPaxos) : a ∈ q → a ≠ L → s.net a L = c :: ms →
      c.epoch = e → c.op = .leaseAck →
      Turn n lease L e q s (.deliver a L now) L (s.received a L) (handleLeaseAck a (s.node L).mon)
  | propose (v : Blob) : (s.node L).mon.state = .active →
      Turn n lease L e q s (.propose L v) L s (Paxos.begin n L v (cancelEvents (s.node L).mon))
  | busy (v : Blob) : Turn n lease L e q s (.propose L v) L s (.check (s.node L).mon false)
  | renew (now : ℕ) : Turn n lease L e q s (.leaseRenew L now) L s
      (leaseRenewTimeout n L lease now (s.node L).mon)

theorem dispatch_current (st : Store) (src i now : ℕ) (c : MMonPaxos) {m : Mon} (he : c.epoch = m.monEpoch)
    (hr : m.role = .leader ∨ (m.role = .peon ∧ src = m.leader)) :
    dispatch n i lease st src c now m = match c.op with
      | .collect => handleCollect st src c m
      | .last => handleLast n i lease st src c now m
      | .begin => handleBegin src c m
      | .accept => handleAccept n i lease src c now m
      | .commit => handleCommit c m
      | .lease => handleLease src c now m
      | .leaseAck => handleLeaseAck src m := by
  have hs : m.role ≠ .starting := by
    rcases hr with h | ⟨h, _⟩ <;> rw [h] <;> decide
  unfold dispatch
  rw [if_neg (by omega), ret_andThen, if_neg (not_not.mpr he)]
  unfold paxosDispatch
  rewrite [if_neg hs, check_andThen, if_pos (by simpa using hr)]
  cases c.op <;> rfl

variable {c : MMonPaxos} {ms : List MMonPaxos}

theorem turn_of_deliver (h : InOffice n L e q s) {a b now : ℕ} (ha : a < n) (hb : b ∈ q) (hnet : s.net a b = c :: ms) :
    Turn n lease L e q s (.deliver a b now) b (s.received a b)
      (dispatch n b lease (s.node b).store a c now (s.node b).mon) := by
  have hbn : b < n := Finset.mem_range.mp (h.quorum.2.1 hb)
  have hepoch : (s.node b).mon.monEpoch = e := by
    by_cases hbL : b = L
    · subst hbL
      exact h.leader.1.monEpoch
    · exact (h.peon b hb hbL).monEpoch
  have hc : c ∈ s.net a b := by
    rw [hnet]
    exact mem_cons_self
  rcases h.msg a ha b hbn c hc with hold | ⟨hcur, ⟨rfl, hbq, hbL, hop⟩ | ⟨rfl, haq, haL, hop⟩⟩
  · have hdrop : dispatch n b lease (s.node b).store a c now (s.node b).mon = .ret (s.node b).mon := by
      unfold dispatch
      rw [if_neg (by omega), ret_andThen, if_pos (by omega)]
    rw [hdrop]
    exact .old a b now c ms hb hnet hold
  · have ho := h.peon b hbq hbL
    rw [dispatch_current _ a b now c (hcur.trans hepoch.symm) (.inr ⟨ho.role, ho.leader.symm⟩)]
    cases hc' : c.op with
    | collect => exact .collect b now c ms hb hbL hnet hcur hc'
    | begin => exact .begin b now c ms hb hbL hnet hcur hc'
    | commit => exact .commit b now c ms hb hbL hnet hcur hc'
    | lease => exact .lease b now c ms hb hbL hnet hcur hc'
    | _ => exact absurd hop (by rw [hc']; decide)
  · rw [dispatch_current _ a b now c (hcur.trans hepoch.symm) (.inl h.leader.1.role)]
    cases hc' : c.op with
    | last => exact .last a now c ms haq haL hnet hcur hc'
    | accept => exact .accept a now c ms haq haL hnet hcur hc'
    | leaseAck => exact .leaseAck a now c ms haq haL hnet hcur hc'
    | _ => exact absurd hop (by rw [hc']; decide)

/-- **What a step of the epoch can do.** -/
theorem turn_of_step (h : InOffice n L e q s) {a : Act} (ha : InEpoch n L q a)
    (hs : step n lease s a = some s') : ∃ ev i s₁ o, a = .run ev ∧ (s.node i).up = true ∧
      Turn n lease L e q s ev i s₁ o ∧ s' = (s₁.performAll i o.effs).become i o.st o.ok := by
  cases a with
  | run ev =>
    obtain ⟨⟨i, s₁, o⟩, hst, rfl⟩ := map_eq_some_iff.mp hs
    refine ⟨ev, i, s₁, o, rfl, (move_of_start hst).1.2, ?_, rfl⟩
    cases ev with
    | deliver a b now =>
      simp only [start] at hst
      split at hst
      · cases hst
      · rename_i c ms hnet
        obtain ⟨-, ⟨⟩⟩ := ite_none_right_eq_some.mp hst
        exact turn_of_deliver h ha.1 ha.2 hnet
    | propose j v =>
      obtain ⟨-, ⟨⟩⟩ := ite_none_right_eq_some.mp hst
      obtain rfl : i = L := ha
      unfold proposeNewValue
      rw [check_andThen]
      split_ifs with hact
      · rw [decide_eq_true_eq] at hact
        exact .propose v hact.2
      · exact .busy v
    | leaseRenew j now =>
      obtain ⟨-, ⟨⟩⟩ := ite_none_right_eq_some.mp hst
      obtain rfl : i = L := ha
      exact .renew now
    | _ => exact ha.elim
  | _ => exact ha.elim

variable {i : ℕ} {s₁ : Cluster} {ev : Event} {o : Handled}

theorem Turn.node (ht : Turn n lease L e q s ev i s₁ o) : s₁.node = s.node := by
  cases ht <;> rfl

theorem Turn.net_sublist (ht : Turn n lease L e q s ev i s₁ o) (a b : ℕ) :
    (s₁.net a b).Sublist (s.net a b) := by
  cases ht with
  | propose v => exact .refl _
  | busy v => exact .refl _
  | renew now => exact .refl _
  | _ => exact s.net.take_sublist ..

theorem Turn.mem (hL : L ∈ q) (ht : Turn n lease L e q s ev i s₁ o) : i ∈ q := by
  cases ht <;> assumption

/-- A turn keeps the office of the one who takes it. -/
theorem Turn.official (h : InOffice n L e q s) (ht : Turn n lease L e q s ev i s₁ o) :
    (i = L → Official (ToPeons L q) (s.node i).mon o) ∧
      (i ≠ L → Official (Answers L) (s.node i).mon o) := by
  obtain ⟨hlead, hq⟩ := h.leader
  cases ht with
  | old a b now c ms hb hnet hc => exact ⟨fun _ => official_ret _, fun _ => official_ret _⟩
  | collect a now c ms ha haL _ _ _ =>
    exact ⟨fun h => absurd h haL, fun _ => official_handleCollect _ c (h.peon i ha haL).role⟩
  | begin a now c ms ha haL _ _ _ => exact ⟨fun h => absurd h haL, fun _ => official_handleBegin c _⟩
  | commit a now c ms ha haL _ _ _ =>
    exact ⟨fun h => absurd h haL, fun _ => official_handleCommit c (h.peon i ha haL).role⟩
  | lease a now c ms ha haL _ _ _ => exact ⟨fun h => absurd h haL, fun _ => official_handleLease c now _⟩
  | last a now c ms ha haL _ _ _ =>
    refine ⟨fun _ => ?_, fun h => absurd rfl h⟩
    have hsrc : a ∈ (s.node L).mon.quorum ∧ a ≠ L := by
      rw [hq]
      exact ⟨ha, haL⟩
    have ho := official_handleLast n lease L (s.node L).store c now hlead.role hsrc
    rw [hq] at ho
    exact ho
  | accept a now c ms ha haL _ _ _ =>
    refine ⟨fun _ => ?_, fun h => absurd rfl h⟩
    have ho := official_handleAccept n lease L a now c (s.node L).mon
    rw [hq] at ho
    exact ho
  | leaseAck a now c ms ha haL _ _ _ =>
    exact ⟨fun _ => official_handleLeaseAck _, fun _ => official_handleLeaseAck _⟩
  | propose v _ =>
    refine ⟨fun _ => ?_, fun h => absurd rfl h⟩
    have ho := official_begin n L v (cancelEvents (s.node L).mon)
    have hq' : (cancelEvents (s.node L).mon).quorum = q := hq
    rw [hq'] at ho
    exact ⟨ho.role, ho.monEpoch, ho.leader, ho.quorum, ho.sends⟩
  | busy v => exact ⟨fun _ => official_check _ false, fun _ => official_check _ false⟩
  | renew now =>
    refine ⟨fun _ => ?_, fun h => absurd rfl h⟩
    have ho := official_extendLease n lease L now { (s.node L).mon with leaseRenewEvent := false }
    have hq' : { (s.node L).mon with leaseRenewEvent := false }.quorum = q := hq
    rw [hq'] at ho
    exact ⟨ho.role, ho.monEpoch, ho.leader, ho.quorum, ho.sends⟩

/-- **Every turn keeps the offices.** -/
theorem inOffice_turn (h : InOffice n L e q s) (ht : Turn n lease L e q s ev i s₁ o) :
    InOffice n L e q ((s₁.performAll i o.effs).become i o.st o.ok) := by
  obtain ⟨holead, hopeon⟩ := ht.official h
  have hiq := ht.mem h.quorum.1
  have hother : ∀ {a}, a ≠ i → ((s₁.performAll i o.effs).become i o.st o.ok).node a = s.node a := by
    intro a ha
    rw [become_node_ne i _ ha, performAll_node_ne i s₁ _ ha, ht.node]
  refine ⟨h.quorum, ?_, fun a ha haL => ?_, fun a ha b hb m hm => ?_⟩
  · by_cases hL : i = L
    · have ho := holead hL
      subst hL
      rw [become_node]
      obtain ⟨hlead, hq⟩ := h.leader
      exact ⟨⟨ho.role.trans hlead.role, ho.monEpoch.trans hlead.monEpoch, ho.leader.trans hlead.leader⟩,
        ho.quorum.trans hq⟩
    · rw [hother (Ne.symm hL)]
      exact h.leader
  · by_cases hai : a = i
    · subst hai
      have ho := hopeon haL
      have hp := h.peon a ha haL
      rw [become_node]
      exact ⟨ho.role.trans hp.role, ho.monEpoch.trans hp.monEpoch, ho.leader.trans hp.leader⟩
    · rw [hother hai]
      exact h.peon a ha haL
  · rw [become_net, performAll_net] at hm
    have hmem : m ∈ s.net a b ∨ (a = i ∧ .send b m ∈ o.effs) := by
      split_ifs at hm with hai
      · rcases mem_append.mp hm with hm | hm
        · exact .inl ((ht.net_sublist a b).subset hm)
        · exact .inr ⟨hai, mem_sendsTo.mp hm⟩
      · exact .inl ((ht.net_sublist a b).subset hm)
    rcases hmem with hm | ⟨rfl, hsend⟩
    · exact h.msg a ha b hb m hm
    · by_cases hL : a = L
      · subst hL
        obtain ⟨he, hbq, hba, hop⟩ := (holead rfl).sends b m hsend
        exact .inr ⟨he.trans h.leader.1.monEpoch, .inl ⟨rfl, hbq, hba, hop⟩⟩
      · obtain ⟨he, hbL, hop⟩ := (hopeon hL).sends b m hsend
        exact .inr ⟨he.trans (h.peon a hiq hL).monEpoch, .inr ⟨hbL, hiq, hL, hop⟩⟩

/-- The winner starts the epoch: it is alone, or it collects. -/
theorem won_cases (h : Gathered n L e q s) (hs : step n lease s (.run (.win L e q)) = some s') :
    (s.node L).up = true ∧
    ((q.card = 1 ∧ s' = s.become L { (s.node L).mon with
        role := .leader, leader := L, monEpoch := e, quorum := q, state := .active } true) ∨
      (q.card ≠ 1 ∧ s' = (s.performAll L
        (collect n L (s.node L).store 0 (elected L e q (s.node L).mon)).effs).become L
        (collect n L (s.node L).store 0 (elected L e q (s.node L).mon)).st true)) := by
  simp only [step, start] at hs
  by_cases hr : Ready n s L
  · rw [if_pos ⟨hr, h.quorum⟩] at hs
    simp only [map_some, some.injEq] at hs
    refine ⟨hr.2, ?_⟩
    subst hs
    unfold winElection leaderInit
    by_cases h1 : q.card = 1
    · simp only [h1, if_true]
      exact .inl ⟨trivial, rfl⟩
    · simp only [h1, if_false]
      refine .inr ⟨h1, ?_⟩
      have hok : (collect n L (s.node L).store 0 (elected L e q (s.node L).mon)).ok = true := by
        obtain ⟨m', _, heq⟩ := collect_spec n L (s.node L).store (elected L e q (s.node L).mon) 0 rfl
        rfl
      rfl
  · rw [if_neg (fun h => hr h.1)] at hs
    cases hs

theorem inOffice_won (h : Gathered n L e q s) (hs : step n lease s (.run (.win L e q)) = some s') :
    InOffice n L e q s' := by
  have hpeon : ∀ a ∈ q, a ≠ L → Office e L .peon (s.node a).mon := by
    intro a ha haL
    obtain ⟨m, hm⟩ := h.peon a ha haL
    rw [hm]
    exact ⟨rfl, rfl, rfl⟩
  obtain ⟨_, ⟨h1, rfl⟩ | ⟨h1, rfl⟩⟩ := won_cases h hs
  · refine ⟨h.quorum, ?_, fun a ha haL => ?_, fun a ha b hb m hm => .inl (h.old a ha b hb m hm)⟩
    · rw [become_node]
      exact ⟨⟨rfl, rfl, rfl⟩, rfl⟩
    · rw [become_node_ne L s haL]
      exact hpeon a ha haL
  · have ho := official_collect (m := elected L e q (s.node L).mon) n L (s.node L).store 0 rfl
    refine ⟨h.quorum, ?_, fun a ha haL => ?_, fun a ha b hb m hm => ?_⟩
    · rw [become_node]
      exact ⟨⟨ho.role, ho.monEpoch, ho.leader⟩, ho.quorum⟩
    · rw [become_node_ne L _ haL, performAll_node_ne L s _ haL]
      exact hpeon a ha haL
    · rw [become_net, performAll_net] at hm
      split_ifs at hm with haL
      · subst haL
        rcases mem_append.mp hm with hm | hm
        · exact .inl (h.old a ha b hb m hm)
        · obtain ⟨he, hbq, hba, hop⟩ := ho.sends b m (mem_sendsTo.mp hm)
          exact .inr ⟨he, .inl ⟨rfl, hbq, hba, hop⟩⟩
      · exact .inl (h.old a ha b hb m hm)

/-! ### The messages of the epoch -/

theorem current_append (ms ms' : List MMonPaxos) : current e (ms ++ ms') = current e ms ++ current e ms' :=
  filter_append ..

theorem current_old (h : ∀ c ∈ ms, c.epoch < e) : current e ms = [] := by
  refine filter_eq_nil_iff.mpr fun c hc => ?_
  have := h c hc
  rw [decide_eq_true_eq]
  omega

theorem current_cons (hc : c.epoch = e) (ms : List MMonPaxos) :
    current e (c :: ms) = c :: current e ms := filter_cons_of_pos (by simpa using hc)

theorem current_cons_old (hc : c.epoch < e) (ms : List MMonPaxos) :
    current e (c :: ms) = current e ms :=
  filter_cons_of_neg (by rw [decide_eq_true_eq]; omega)

theorem current_sendsTo {m : Mon} (h : Official D m o) (he : m.monEpoch = e) (b : ℕ) :
    current e (sendsTo b o.effs) = sendsTo b o.effs := by
  refine filter_eq_self.mpr fun c hc => ?_
  rw [decide_eq_true_eq, ← he]
  exact (h.sends b c (mem_sendsTo.mp hc)).1

theorem Turn.current (h : InOffice n L e q s) (ht : Turn n lease L e q s ev i s₁ o) (a b : ℕ) :
    Paxos.current e (((s₁.performAll i o.effs).become i o.st o.ok).net a b) =
      Paxos.current e (s₁.net a b) ++ if a = i then sendsTo b o.effs else [] := by
  obtain ⟨holead, hopeon⟩ := ht.official h
  rw [become_net, performAll_net]
  split_ifs with ha
  · rw [current_append]
    congr 1
    by_cases hL : i = L
    · refine current_sendsTo (holead hL) ?_ b
      rw [hL]
      exact h.leader.1.monEpoch
    · exact current_sendsTo (hopeon hL) (h.peon i (ht.mem h.quorum.1) hL).monEpoch b
  · rw [append_nil]

theorem current_received_self {a b : ℕ} (hnet : s.net a b = c :: ms) :
    current e ((s.received a b).net a b) = current e ms := by
  unfold received
  simp [Links.take, hnet]

theorem current_received_ne {a b x y : ℕ} (h : ¬ (x = a ∧ y = b)) :
    current e ((s.received a b).net x y) = current e (s.net x y) := by
  unfold received
  simp [Links.take, h]

/-- A turn changes the one who takes it. -/
theorem Turn.nodes (ht : Turn n lease L e q s ev i s₁ o) :
    (∀ b, b ≠ i → ((s₁.performAll i o.effs).become i o.st o.ok).node b = s.node b) ∧
      (((s₁.performAll i o.effs).become i o.st o.ok).node i).up = o.ok ∧
      (((s₁.performAll i o.effs).become i o.st o.ok).node i).mon = o.st := by
  refine ⟨fun b hb => ?_, ?_⟩
  · rw [become_node_ne i _ hb, performAll_node_ne i _ _ hb, ht.node]
  · rw [become_node]
    exact ⟨rfl, rfl⟩

/-- The messages between the leader and the peons after a peon's turn. -/
theorem Turn.peon_net (h : InOffice n L e q s) {a now : ℕ}
    (ht : Turn n lease L e q s (.deliver L a now) a (s.received L a) o) (haL : a ≠ L) (hnet : s.net L a = c :: ms) :
    Paxos.current e ((((s.received L a).performAll a o.effs).become a o.st o.ok).net L a) = Paxos.current e ms ∧
      Paxos.current e ((((s.received L a).performAll a o.effs).become a o.st o.ok).net a L) =
        Paxos.current e (s.net a L) ++ sendsTo L o.effs ∧
      ∀ b, b ≠ a → Paxos.current e ((((s.received L a).performAll a o.effs).become a o.st o.ok).net L b) =
          Paxos.current e (s.net L b) ∧
        Paxos.current e ((((s.received L a).performAll a o.effs).become a o.st o.ok).net b L) =
          Paxos.current e (s.net b L) := by
  have hcur := ht.current h
  refine ⟨?_, ?_, fun b hb => ⟨?_, ?_⟩⟩
  · rw [hcur L a, if_neg (Ne.symm haL), append_nil, current_received_self hnet]
  · rw [hcur a L, if_pos rfl, current_received_ne (fun h => haL h.1)]
  · rw [hcur L b, if_neg (Ne.symm haL), append_nil, current_received_ne (fun h => hb h.2)]
  · rw [hcur b L, if_neg hb, append_nil, current_received_ne (fun h => haL h.2.symm)]

/-- The messages between the leader and the peons after the leader's turn. -/
theorem Turn.leader_net (h : InOffice n L e q s) (ht : Turn n lease L e q s ev L s₁ o) {a : ℕ} (ha : a ≠ L) :
    Paxos.current e (((s₁.performAll L o.effs).become L o.st o.ok).net L a) =
        Paxos.current e (s₁.net L a) ++ sendsTo a o.effs ∧
      Paxos.current e (((s₁.performAll L o.effs).become L o.st o.ok).net a L) = Paxos.current e (s₁.net a L) := by
  have hcur := ht.current h
  exact ⟨by rw [hcur L a, if_pos rfl], by rw [hcur a L, if_neg ha, append_nil]⟩

/-- A message of an earlier epoch is thrown away. -/
theorem received_old {a i : ℕ} (hup : (s.node i).up = true) (hnet : s.net a i = c :: ms) (hc : c.epoch < e) :
    (((s.received a i).performAll i []).become i (s.node i).mon true).node = s.node ∧
      ∀ x y, current e ((s.received a i).net x y) = current e (s.net x y) := by
  refine ⟨funext fun x => ?_, fun x y => ?_⟩
  · by_cases hx : x = i
    · subst hx
      rw [become_node]
      show { s.node x with up := true, mon := (s.node x).mon } = s.node x
      rw [← hup]
    · rw [become_node_ne i _ hx]
      rfl
  · by_cases hxy : x = a ∧ y = i
    · obtain ⟨rfl, rfl⟩ := hxy
      rw [current_received_self hnet, hnet, current_cons_old hc]
    · exact current_received_ne hxy

end Paxos
end Ceph
